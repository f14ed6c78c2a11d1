import RetroOs.Lib.CString

/-! Buffers that are filled piece by piece, in any order and with overlaps. -/
namespace RetroOs.Lib
open List

structure Piece where
  start : Nat
  bytes : List UInt8

/-- The piece has the byte for the position. -/
def Piece.Has (p : Piece) (k : Nat) (b : UInt8) : Prop := p.start ≤ k ∧ p.bytes[k - p.start]? = some b

def Piece.Covers (p : Piece) (k : Nat) : Prop := p.start ≤ k ∧ k < p.start + p.bytes.length

instance (p : Piece) (k : Nat) : Decidable (p.Covers k) := inferInstanceAs (Decidable (_ ∧ _))

def Assembled (m : Memory) (pieces : List Piece) : Prop :=
  ∀ k, (∃ p ∈ pieces, p.Covers k) → ∃ p ∈ pieces, p.Has k (m k)

variable {m : Memory} {pieces : List Piece} {p : Piece} {k : Nat}

theorem assembled_nil (m : Memory) : Assembled m [] := by
  rintro k ⟨p, hp, -⟩
  cases hp

theorem Piece.Covers.has_memcpy (h : p.Covers k) : p.Has k (m.memcpy p.start p.bytes k) := by
  obtain ⟨hstart, hend⟩ := h
  have hlt : k - p.start < p.bytes.length := Nat.sub_lt_left_of_lt_add hstart hend
  refine ⟨hstart, ?_⟩
  rw [Memory.memcpy, if_pos hstart, getD_eq_getElem?_getD, getElem?_eq_getElem hlt, Option.getD_some]

theorem memcpy_of_not_covers (h : ¬ p.Covers k) : m.memcpy p.start p.bytes k = m k := by
  rw [Memory.memcpy]
  split
  · next hstart =>
    have hlen : p.bytes.length ≤ k - p.start := by
      apply Nat.le_sub_of_add_le'
      exact Nat.not_lt.mp fun hlt => h ⟨hstart, hlt⟩
    rw [getD_eq_getElem?_getD, getElem?_eq_none hlen, Option.getD_none]
  · rfl

theorem Assembled.memcpy (h : Assembled m pieces) (p : Piece) : Assembled (m.memcpy p.start p.bytes) (pieces ++ [p]) := by
  rintro k ⟨q, hq, hcov⟩
  by_cases hp : p.Covers k
  · exact ⟨p, mem_append_right _ (mem_singleton_self p), hp.has_memcpy⟩
  · rw [memcpy_of_not_covers hp]
    rcases mem_append.mp hq with hq | hq
    · obtain ⟨r, hr, hhas⟩ := h k ⟨q, hq, hcov⟩
      exact ⟨r, mem_append_left _ hr, hhas⟩
    · rw [mem_singleton.mp hq] at hcov
      exact absurd hcov hp

end RetroOs.Lib
