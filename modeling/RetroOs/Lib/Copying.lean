import RetroOs.Lib.CString

/-! Strings with their terminators, and copies in a row: what is copied piece by piece, or byte by byte, is one copy. -/
namespace RetroOs.Lib
open List

def CString.terminated (s : CString) : List UInt8 := s.map Subtype.val ++ [0]

theorem CString.terminated_cons (c : CChar) (s : CString) : CString.terminated (c :: s) = c.val :: CString.terminated s := rfl

theorem CString.length_terminated (s : CString) : s.terminated.length = s.length + 1 := by
  rw [CString.terminated, length_append, length_map, length_singleton]

namespace Memory
variable {m : Memory} {a x : ℕ} {b : UInt8} {l l' : List UInt8}

theorem memcpy_nil (m : Memory) (a : ℕ) : m.memcpy a [] = m := by
  funext x
  rw [memcpy, getD_nil, ite_self]

theorem memcpy_at (h : a ≤ x) (hx : x - a < l.length) : m.memcpy a l x = l[x - a] := by
  rw [memcpy, if_pos h]
  exact (getElem_eq_getD _).symm

theorem memcpy_outside (h : x < a ∨ a + l.length ≤ x) : m.memcpy a l x = m x :=
  memcpy_agreeOn m l (n := 1) (by omega) x (Nat.le_refl x) (Nat.lt_succ_self x)

theorem memcpy_append (m : Memory) (a : ℕ) (l l' : List UInt8) :
    (m.memcpy a l).memcpy (a + l.length) l' = m.memcpy a (l ++ l') := by
  funext x
  by_cases hlow : x < a
  · rw [memcpy_outside (.inl (by omega)), memcpy_outside (.inl hlow), memcpy_outside (.inl hlow)]
  by_cases hfirst : x < a + l.length
  · have hx : x - a < l.length := by omega
    rw [memcpy_outside (.inl hfirst), memcpy_at (by omega) hx,
      memcpy_at (by omega) (by rw [length_append]; omega), getElem_append_left hx]
  by_cases hsecond : x < a + l.length + l'.length
  · have hx : x - (a + l.length) < l'.length := by omega
    rw [memcpy_at (by omega) hx, memcpy_at (by omega) (by rw [length_append]; omega),
      getElem_append_right (by omega)]
    congr 1
    omega
  · rw [memcpy_outside (.inr (by omega)), memcpy_outside (.inr (by omega)),
      memcpy_outside (.inr (by rw [length_append]; omega))]

theorem store8_eq (m : Memory) (a : ℕ) (b : UInt8) : m.store8 a b = m.memcpy a [b] := by
  funext x
  by_cases hx : x = a
  · subst hx
    rw [store8, if_pos rfl, memcpy_at (Nat.le_refl x) (by rw [Nat.sub_self]; exact Nat.one_pos)]
    simp only [Nat.sub_self, getElem_cons_zero]
  · rw [store8, if_neg hx, memcpy_outside (by rw [length_singleton]; omega)]

theorem memcpy_cons (m : Memory) (a : ℕ) (b : UInt8) (l : List UInt8) :
    (m.store8 a b).memcpy (a + 1) l = m.memcpy a (b :: l) := by
  rw [store8_eq]
  exact memcpy_append m a [b] l

theorem memcpy_snoc (m : Memory) (a : ℕ) (l : List UInt8) (b : UInt8) :
    (m.memcpy a l).store8 (a + l.length) b = m.memcpy a (l ++ [b]) := by
  rw [store8_eq, memcpy_append]

end Memory
end RetroOs.Lib

/-! Memory with a record of where it was written, and what a run of writes to one range comes to, from its lower end up or from
its upper end down. -/
namespace RetroOs.Lib

structure Traced where
  mem : Memory
  written : List ℕ := []

namespace Traced

def store8 (t : Traced) (a : ℕ) (b : UInt8) : Traced := { mem := t.mem.store8 a b, written := a :: t.written }

def store32 (t : Traced) (a v : ℕ) : Traced := { mem := t.mem.store32 a v, written := [a, a + 1, a + 2, a + 3] ++ t.written }

/-- The bytes were written to the addresses from `a` on, and nothing was written anywhere else. -/
structure Wrote (t t' : Traced) (a : ℕ) (l : List UInt8) : Prop where
  mem : t'.mem = t.mem.memcpy a l
  written : ∀ x, x ∈ t'.written ↔ x ∈ t.written ∨ a ≤ x ∧ x < a + l.length

variable {t t' t'' : Traced} {m : Memory} {a b n s : ℕ} {l l' : List UInt8} {c : UInt8}

theorem memcpy_below (m : Memory) (a : ℕ) (l l' : List UInt8) : (m.memcpy (a + l.length) l').memcpy a l = m.memcpy a (l ++ l') := by
  rw [← Memory.memcpy_append]
  funext x
  by_cases hl : a ≤ x ∧ x < a + l.length
  · rw [Memory.memcpy_at hl.1 (by omega), Memory.memcpy_outside (.inl hl.2), Memory.memcpy_at hl.1 (by omega)]
  rw [Memory.memcpy_outside (by omega)]
  by_cases hl' : a + l.length ≤ x ∧ x < a + l.length + l'.length
  · rw [Memory.memcpy_at hl'.1 (by omega), Memory.memcpy_at hl'.1 (by omega)]
  · rw [Memory.memcpy_outside (by omega), Memory.memcpy_outside (by omega), Memory.memcpy_outside (by omega)]

theorem store32_load32 (m : Memory) (a s : ℕ) : m.store32 a (m.load32 s) = m.memcpy a (m.bytes s 4) := by
  have h0 := (m s).toNat_lt
  have h1 := (m (s + 1)).toNat_lt
  have h2 := (m (s + 2)).toNat_lt
  have h3 := (m (s + 3)).toNat_lt
  have hbytes : m.bytes s 4 = [m s, m (s + 1), m (s + 2), m (s + 3)] := rfl
  have hload : m.load32 s = (m s).toNat + 256 * (m (s + 1)).toNat + 65536 * (m (s + 2)).toNat + 16777216 * (m (s + 3)).toNat := rfl
  have e0 : UInt8.ofNat (m.load32 s) = m s := by
    rw [← UInt8.toNat_inj, UInt8.toNat_ofNat']
    omega
  have e1 : UInt8.ofNat (m.load32 s / 256) = m (s + 1) := by
    rw [← UInt8.toNat_inj, UInt8.toNat_ofNat']
    omega
  have e2 : UInt8.ofNat (m.load32 s / 65536) = m (s + 2) := by
    rw [← UInt8.toNat_inj, UInt8.toNat_ofNat']
    omega
  have e3 : UInt8.ofNat (m.load32 s / 16777216) = m (s + 3) := by
    rw [← UInt8.toNat_inj, UInt8.toNat_ofNat']
    omega
  rw [hbytes, ← Memory.memcpy_cons, ← Memory.memcpy_cons, ← Memory.memcpy_cons, ← Memory.memcpy_cons, Memory.memcpy_nil]
  funext x
  simp only [Memory.store32, Memory.store8, e0, e1, e2, e3]
  split_ifs <;> first | rfl | omega

namespace Wrote

theorem refl (t : Traced) (a : ℕ) : Wrote t t a [] where
  mem := (Memory.memcpy_nil t.mem a).symm
  written _ := ⟨.inl, fun h => h.elim id fun h => absurd h.1 (Nat.not_le.mpr h.2)⟩

theorem store8 (t : Traced) (a : ℕ) (b : UInt8) : Wrote t (t.store8 a b) a [b] where
  mem := Memory.store8_eq t.mem a b
  written x := by
    rw [Traced.store8, List.mem_cons, List.length_singleton, or_comm]
    exact or_congr_right (by omega)

theorem word (t : Traced) (a s : ℕ) : Wrote t (t.store32 a (t.mem.load32 s)) a (t.mem.bytes s 4) where
  mem := store32_load32 t.mem a s
  written x := by
    rw [Traced.store32, Memory.length_bytes, List.mem_append, or_comm]
    refine or_congr_right ?_
    simp only [List.mem_cons, List.not_mem_nil, or_false]
    omega

theorem trans (h : Wrote t t' a l) (h' : Wrote t' t'' (a + l.length) l') : Wrote t t'' a (l ++ l') where
  mem := by rw [h'.mem, h.mem, Memory.memcpy_append]
  written x := by
    rw [h'.written, h.written, List.length_append, or_assoc]
    exact or_congr_right (by omega)

theorem trans_below (h : Wrote t t' (a + l.length) l') (h' : Wrote t' t'' a l) : Wrote t t'' a (l ++ l') where
  mem := by rw [h'.mem, h.mem, memcpy_below]
  written x := by
    rw [h'.written, h.written, List.length_append, or_assoc]
    exact or_congr_right (by omega)

theorem bytes (h : Wrote t t' a l) (hs : s + n ≤ a ∨ a + l.length ≤ s) : t'.mem.bytes s n = t.mem.bytes s n := by
  rw [h.mem]
  exact (Memory.memcpy_agreeOn t.mem l hs).bytes

theorem length_unique (h : Wrote { mem := m } t a l) (h' : Wrote { mem := m } t a l') : l.length = l'.length := by
  have hl := (h.written (a + l.length)).symm.trans (h'.written (a + l.length))
  have hl' := (h.written (a + l'.length)).symm.trans (h'.written (a + l'.length))
  simp only [List.not_mem_nil, false_or] at hl hl'
  omega

end Wrote
end Traced
end RetroOs.Lib
