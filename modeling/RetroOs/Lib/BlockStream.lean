import Mathlib.Algebra.GroupWithZero.Nat
import Mathlib.Data.Nat.Basic

/-! Messages that are taken in by blocks: a state is folded over the blocks, and a buffer keeps what is left over until more
of the message comes. -/
namespace RetroOs.Lib.BlockStream
variable {α σ : Type} {n : ℕ}

def copyInto (buf : Vector α n) (i : ℕ) (data : List α) (j k : ℕ) : Option (Vector α n) :=
  if h : i + k ≤ n ∧ j + k ≤ data.length then
    some ⟨(buf.toList.take i ++ (data.drop j).take k ++ buf.toList.drop (i + k)).toArray, by
      have := buf.size_toArray
      simp only [List.size_toArray, List.length_append, List.length_take, List.length_drop, Vector.length_toList]
      omega⟩
  else none

def fillInto (buf : Vector α n) (i : ℕ) (b : α) (k : ℕ) : Option (Vector α n) := copyInto buf i (List.replicate k b) 0 k

def blockAt (n : ℕ) (data : List α) (j : ℕ) : Option (Vector α n) :=
  if h : j + n ≤ data.length then
    some ⟨((data.drop j).take n).toArray, by
      rw [List.size_toArray, List.length_take, List.length_drop]
      omega⟩
  else none

variable {a b c m d piece : List α} {compress : σ → Vector α n → σ} {init state : σ} {buffer first : Vector α n}
  {i j k : ℕ}

theorem copyInto_middle (hb : buffer.toList = a ++ b ++ c) (hk : b.length = k) (hj : j + k ≤ d.length) :
    ∃ buffer' ∈ copyInto buffer a.length d j k, buffer'.toList = a ++ (d.drop j).take k ++ c := by
  have hn : a.length + k ≤ n := by
    have := congrArg List.length hb
    rw [Vector.length_toList, List.length_append, List.length_append] at this
    omega
  refine ⟨_, dif_pos ⟨hn, hj⟩, ?_⟩
  change buffer.toList.take a.length ++ (d.drop j).take k ++ buffer.toList.drop (a.length + k) = _
  rw [hb, ← hk, ← List.length_append, List.drop_left, List.append_assoc a b c, List.take_left]

theorem copyInto_prefix (hb : a <+: buffer.toList) (hk : a.length + k ≤ n) (hj : j + k ≤ d.length) :
    ∃ buffer' ∈ copyInto buffer a.length d j k, a ++ (d.drop j).take k <+: buffer'.toList := by
  obtain ⟨rest, hrest⟩ := hb
  have hlen : k ≤ rest.length := by
    have := congrArg List.length hrest
    rw [Vector.length_toList, List.length_append] at this
    omega
  obtain ⟨buffer', hcopy, htoList⟩ := copyInto_middle (b := rest.take k) (c := rest.drop k)
    (by rw [List.append_assoc, List.take_append_drop, hrest]) (List.length_take_of_le hlen) hj
  exact ⟨buffer', hcopy, htoList ▸ List.prefix_append _ _⟩

theorem fillInto_middle {x : α} (hb : buffer.toList = a ++ b ++ c) (hk : b.length = k) :
    ∃ buffer' ∈ fillInto buffer a.length x k, buffer'.toList = a ++ List.replicate k x ++ c := by
  have h := copyInto_middle (d := List.replicate k x) (j := 0) hb hk (by rw [List.length_replicate]; omega)
  rwa [List.drop_zero, List.take_replicate, Nat.min_self] at h

theorem fillInto_prefix {x : α} (hb : a <+: buffer.toList) (hk : a.length + k ≤ n) :
    ∃ buffer' ∈ fillInto buffer a.length x k, a ++ List.replicate k x <+: buffer'.toList := by
  have h := copyInto_prefix (d := List.replicate k x) (j := 0) hb hk (by rw [List.length_replicate]; omega)
  rwa [List.drop_zero, List.take_replicate, Nat.min_self] at h

theorem blockAt_toList (h : first ∈ blockAt n d j) : first.toList = (d.drop j).take n := by
  rw [blockAt] at h
  split at h
  · cases h
    rfl
  · cases h

theorem foldlM_took {τ : Type} {Took : τ → List α → Prop} {update : τ → List α → Option τ} {chunks : List (List α)} {t : τ}
    (hstep : ∀ t m, ∀ chunk ∈ chunks, Took t m → ∃ t' ∈ update t chunk, Took t' (m ++ chunk)) (h : Took t m) :
    ∃ t' ∈ chunks.foldlM update t, Took t' (m ++ chunks.flatten) := by
  induction chunks generalizing t m with
  | nil =>
    rw [List.flatten_nil, List.append_nil]
    exact ⟨t, rfl, h⟩
  | cons chunk rest ih =>
    obtain ⟨t₁, ht₁, htook₁⟩ := hstep t m chunk List.mem_cons_self h
    obtain ⟨t₂, ht₂, htook₂⟩ := ih (fun t m c hc => hstep t m c (List.mem_cons_of_mem _ hc)) htook₁
    refine ⟨t₂, ?_, ?_⟩
    · rw [List.foldlM_cons, Option.mem_def.mp ht₁]
      exact ht₂
    · rw [List.flatten_cons, ← List.append_assoc]
      exact htook₂

section
variable [NeZero n]

/-- The whole blocks of a message. -/
def blocks (n : ℕ) [NeZero n] (m : List α) : List (Vector α n) :=
  if h : n ≤ m.length then
    ⟨(m.take n).toArray, by rw [List.size_toArray, List.length_take, Nat.min_eq_left h]⟩ :: blocks n (m.drop n)
  else []
termination_by m.length
decreasing_by
  have := Nat.pos_of_neZero n
  rw [List.length_drop]
  omega

/-- What stands behind the last whole block. -/
def leftover (n : ℕ) [NeZero n] (m : List α) : List α :=
  if n ≤ m.length then leftover n (m.drop n) else m
termination_by m.length
decreasing_by
  have := Nat.pos_of_neZero n
  rw [List.length_drop]
  omega

/-- The state after the whole blocks of a message. -/
def absorb (compress : σ → Vector α n → σ) (init : σ) (m : List α) : σ := (blocks n m).foldl compress init

/-- What was taken in of a message: its blocks by the state, and what is left over by the buffer. -/
structure Holds (compress : σ → Vector α n → σ) (init : σ) (m : List α) (state : σ) (buffer : Vector α n) : Prop where
  state : state = absorb compress init m
  buffer : leftover n m <+: buffer.toList

/-! ### Blocks -/

theorem blocks_of_lt (h : m.length < n) : blocks n m = [] := by rw [blocks, dif_neg (Nat.not_le.mpr h)]

theorem leftover_of_lt (h : m.length < n) : leftover n m = m := by rw [leftover, if_neg (Nat.not_le.mpr h)]

theorem blocks_nil : blocks n ([] : List α) = [] := blocks_of_lt (Nat.pos_of_neZero n)

theorem leftover_nil : leftover n ([] : List α) = [] := leftover_of_lt (Nat.pos_of_neZero n)

theorem length_leftover (n : ℕ) [NeZero n] (m : List α) : (leftover n m).length = m.length % n := by
  induction m using leftover.induct n with
  | case1 m h ih => rw [leftover, if_pos h, ih, List.length_drop, ← Nat.mod_eq_sub_mod h]
  | case2 m h => rw [leftover, if_neg h, Nat.mod_eq_of_lt (Nat.not_le.mp h)]

theorem length_leftover_lt (n : ℕ) [NeZero n] (m : List α) : (leftover n m).length < n := by
  rw [length_leftover]
  exact Nat.mod_lt _ (Nat.pos_of_neZero n)

theorem blocks_append (a b : List α) : blocks n (a ++ b) = blocks n a ++ blocks n (leftover n a ++ b) := by
  induction a using leftover.induct n with
  | case1 a h ih =>
    have hab : n ≤ (a ++ b).length := by
      rw [List.length_append]
      omega
    rw [blocks, dif_pos hab, blocks.eq_def n a, dif_pos h, leftover.eq_def n a, if_pos h, List.drop_append_of_le_length h, ih,
      List.cons_append]
    congr 2
    rw [List.take_append_of_le_length h]
  | case2 a h => rw [blocks_of_lt (Nat.not_le.mp h), leftover_of_lt (Nat.not_le.mp h), List.nil_append]

theorem leftover_append (a b : List α) : leftover n (a ++ b) = leftover n (leftover n a ++ b) := by
  induction a using leftover.induct n with
  | case1 a h ih =>
    have hab : n ≤ (a ++ b).length := by
      rw [List.length_append]
      omega
    rw [leftover, if_pos hab, leftover.eq_def n a, if_pos h, List.drop_append_of_le_length h, ih]
  | case2 a h => rw [leftover_of_lt (Nat.not_le.mp h)]

theorem blocks_toList (block : Vector α n) : blocks n block.toList = [block] := by
  have hl : block.toList.length = n := Vector.length_toList
  rw [blocks, dif_pos (Nat.le_of_eq hl.symm), List.drop_of_length_le (Nat.le_of_eq hl), blocks_nil]
  congr 1
  rw [← Vector.toList_inj]
  exact List.take_of_length_le (Nat.le_of_eq hl)

theorem leftover_toList (block : Vector α n) : leftover n block.toList = [] := by
  have hl : block.toList.length = n := Vector.length_toList
  rw [leftover, if_pos (Nat.le_of_eq hl.symm), List.drop_of_length_le (Nat.le_of_eq hl), leftover_nil]

/-! ### The state and the buffer -/

theorem absorb_full (h : leftover n m ++ piece <+: buffer.toList) (hl : (leftover n m ++ piece).length = n) :
    absorb compress init (m ++ piece) = compress (absorb compress init m) buffer ∧ leftover n (m ++ piece) = [] := by
  have hfull : leftover n m ++ piece = buffer.toList := h.eq_of_length (hl.trans Vector.length_toList.symm)
  constructor
  · rw [absorb, blocks_append, hfull, blocks_toList, List.foldl_append]
    rfl
  · rw [leftover_append, hfull, leftover_toList]

namespace Holds

theorem start (compress : σ → Vector α n → σ) (init : σ) (buffer : Vector α n) : Holds compress init [] init buffer where
  state := by
    rw [absorb, blocks_nil]
    rfl
  buffer := by
    rw [leftover_nil]
    exact List.nil_prefix

theorem keep (h : Holds compress init m state buffer) (hi : i = (leftover n m).length) (hk : i + k < n)
    (hj : j + k ≤ d.length) :
    ∃ buffer' ∈ copyInto buffer i d j k, Holds compress init (m ++ (d.drop j).take k) state buffer' := by
  subst hi
  have hlt : (leftover n m ++ (d.drop j).take k).length < n := by
    rw [List.length_append, List.length_take]
    omega
  obtain ⟨buffer', hcopy, hprefix⟩ := copyInto_prefix h.buffer (Nat.le_of_lt hk) hj
  refine ⟨buffer', hcopy, ?_, ?_⟩
  · rw [absorb, blocks_append, blocks_of_lt hlt, List.append_nil]
    exact h.state
  · rw [leftover_append, leftover_of_lt hlt]
    exact hprefix

theorem fill (h : Holds compress init m state buffer) (hi : i = (leftover n m).length) (hk : i + k = n)
    (hj : j + k ≤ d.length) :
    ∃ buffer' ∈ copyInto buffer i d j k,
      Holds compress init (m ++ (d.drop j).take k) (compress state buffer') buffer' ∧ leftover n (m ++ (d.drop j).take k) = [] := by
  subst hi
  have hfull : (leftover n m ++ (d.drop j).take k).length = n := by
    rw [List.length_append, List.length_take, List.length_drop, Nat.min_eq_left (by omega)]
    exact hk
  obtain ⟨buffer', hcopy, hprefix⟩ := copyInto_prefix h.buffer (Nat.le_of_eq hk) hj
  obtain ⟨hstate, hleft⟩ := absorb_full hprefix hfull
  refine ⟨buffer', hcopy, ⟨?_, ?_⟩, hleft⟩
  · rw [hstate, h.state]
  · rw [hleft]
    exact List.nil_prefix

theorem block (h : Holds compress init m state buffer) (hleft : leftover n m = []) (hj : j + n ≤ d.length) :
    ∃ block ∈ blockAt n d j,
      Holds compress init (m ++ (d.drop j).take n) (compress state block) buffer ∧ leftover n (m ++ (d.drop j).take n) = [] := by
  obtain ⟨block, hblock⟩ : ∃ block, block ∈ blockAt n d j := ⟨_, dif_pos hj⟩
  have htoList := blockAt_toList hblock
  have hprefix : leftover n m ++ (d.drop j).take n <+: block.toList := by
    refine ⟨[], ?_⟩
    rw [hleft, List.nil_append, List.append_nil, htoList]
  have hfull : (leftover n m ++ (d.drop j).take n).length = n := by
    rw [hleft, List.nil_append, ← htoList, Vector.length_toList]
  obtain ⟨hstate, hempty⟩ := absorb_full hprefix hfull
  refine ⟨block, hblock, ⟨?_, ?_⟩, hempty⟩
  · rw [hstate, h.state]
  · rw [hempty]
    exact List.nil_prefix

end Holds

end

/-! ### Padding -/

/-- The lowest `k` bytes of a number. -/
def littleEndian (k x : ℕ) : List UInt8 := (List.range k).map fun i => UInt8.ofNat (x / 256 ^ i)

def bigEndian (k x : ℕ) : List UInt8 := (littleEndian k x).reverse

/-- The padding to blocks of 64 bytes: a set bit, zeros, and the length in bits as 8 bytes. -/
def padded (order : ℕ → ℕ → List UInt8) (m : List UInt8) : List UInt8 :=
  m ++ 0x80 :: List.replicate ((119 - m.length % 64) % 64) 0 ++ order 8 (8 * m.length % 2 ^ 64)

theorem length_littleEndian (k x : ℕ) : (littleEndian k x).length = k := by
  rw [littleEndian, List.length_map, List.length_range]

theorem length_bigEndian (k x : ℕ) : (bigEndian k x).length = k := by
  rw [bigEndian, List.length_reverse, length_littleEndian]

theorem bigEndian_succ (k x : ℕ) : bigEndian (k + 1) x = UInt8.ofNat (x / 256 ^ k) :: bigEndian k x := by
  rw [bigEndian, littleEndian, List.range_succ, List.map_append, List.reverse_append]
  rfl

theorem littleEndian_add (i j x : ℕ) : littleEndian (i + j) x = littleEndian i x ++ littleEndian j (x / 256 ^ i) := by
  rw [littleEndian, List.range_add, List.map_append, List.map_map]
  congr 1
  refine List.map_congr_left fun k _ => ?_
  rw [Function.comp_apply, Nat.div_div_eq_div_mul, ← Nat.pow_add]

theorem littleEndian_mod (k x : ℕ) : littleEndian k (x % 256 ^ k) = littleEndian k x := by
  refine List.map_congr_left fun i hi => ?_
  have hik := List.mem_range.mp hi
  rw [← UInt8.toNat_inj, UInt8.toNat_ofNat', UInt8.toNat_ofNat', ← Nat.sub_add_cancel (Nat.le_of_lt hik), Nat.add_comm, Nat.pow_add,
    Nat.mod_mul_right_div_self]
  exact Nat.mod_mod_of_dvd _ (Nat.pow_dvd_pow 256 (by omega : 1 ≤ k - i))

theorem leftover_padded {order : ℕ → ℕ → List UInt8} (horder : ∀ x, (order 8 x).length = 8) (m : List UInt8) :
    leftover 64 (padded order m) = [] := by
  rw [← List.length_eq_zero_iff, length_leftover, padded, List.length_append, List.length_append, List.length_cons,
    List.length_replicate, horder]
  omega

end RetroOs.Lib.BlockStream
