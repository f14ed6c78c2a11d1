import Mathlib.Data.Nat.Bitwise
import Mathlib.Data.Nat.Find
import Mathlib.Data.Finset.Card

/-! Blocks of power-of-two size at aligned offsets, and how they tile a range.
A list of blocks is measured by how many of them cover each byte; splitting a
block and merging two buddies leave that count alone. -/
namespace RetroOs.Lib

structure Block where
  addr : Nat
  order : Nat
  deriving DecidableEq, Repr

namespace Block

def Covers (b : Block) (x : Nat) : Prop := b.addr ≤ x ∧ x < b.addr + 2 ^ b.order

instance (b : Block) (x : Nat) : Decidable (b.Covers x) := inferInstanceAs (Decidable (_ ∧ _))

def Aligned (b : Block) : Prop := 2 ^ b.order ∣ b.addr

def Disjoint (b c : Block) : Prop := ∀ x, b.Covers x → ¬ c.Covers x

/-- The neighbour of the same size that differs in the address bit of that size. -/
def buddy (b : Block) : Block := ⟨b.addr ^^^ 2 ^ b.order, b.order⟩

def parent (b : Block) : Block := ⟨min b.addr b.buddy.addr, b.order + 1⟩

variable {b c : Block} {x y : Nat}

theorem covers_addr (b : Block) : b.Covers b.addr :=
  ⟨le_refl _, Nat.lt_add_of_pos_right (Nat.two_pow_pos _)⟩

theorem covers_iff_div (h : b.Aligned) : b.Covers x ↔ x / 2 ^ b.order = b.addr / 2 ^ b.order := by
  obtain ⟨q, hq⟩ := h
  have hp := Nat.two_pow_pos b.order
  rw [hq, Nat.mul_div_cancel_left _ hp, Nat.div_eq_iff hp, Covers, hq, Nat.mul_comm q]
  constructor
  · rintro ⟨hl, hu⟩
    exact ⟨hl, by omega⟩
  · rintro ⟨hl, hu⟩
    exact ⟨hl, by omega⟩

theorem nested (hb : b.Aligned) (hc : c.Aligned) (ho : b.order ≤ c.order)
    (hbx : b.Covers x) (hcx : c.Covers x) (hy : b.Covers y) : c.Covers y := by
  rw [covers_iff_div hb] at hbx hy
  rw [covers_iff_div hc] at hcx ⊢
  have he : 2 ^ c.order = 2 ^ b.order * 2 ^ (c.order - b.order) := by
    rw [← Nat.pow_add]
    congr 1
    omega
  rw [← hcx, he, ← Nat.div_div_eq_div_mul, ← Nat.div_div_eq_div_mul, hy, hbx]

theorem eq_of_covers (hb : b.Aligned) (hc : c.Aligned) (ho : b.order = c.order)
    (hbx : b.Covers x) (hcx : c.Covers x) : b = c := by
  have h1 := (nested hb hc ho.le hbx hcx b.covers_addr).1
  have h2 := (nested hc hb ho.ge hcx hbx c.covers_addr).1
  obtain ⟨a, k⟩ := b
  obtain ⟨d, j⟩ := c
  simp only at ho h1 h2
  rw [ho, Nat.le_antisymm h2 h1]

private theorem xor_one (q : Nat) : q ^^^ 1 = if q % 2 = 0 then q + 1 else q - 1 := by
  split
  · exact Nat.xor_one_of_even (Nat.even_iff.mpr ‹_›)
  · exact Nat.xor_one_of_odd (Nat.odd_iff.mpr (by omega))

theorem buddy_addr_mul (q k : Nat) : 2 ^ k * q ^^^ 2 ^ k = 2 ^ k * (q ^^^ 1) := by
  have h := Nat.shiftLeft_xor_distrib (i := k) (a := q) (b := 1)
  simp only [Nat.shiftLeft_eq, Nat.one_mul] at h
  rw [Nat.mul_comm, Nat.mul_comm (2 ^ k), h]

theorem Aligned.buddy (h : b.Aligned) : b.buddy.Aligned := by
  obtain ⟨q, hq⟩ := h
  exact ⟨q ^^^ 1, by simp only [Block.buddy, hq, buddy_addr_mul]⟩

@[simp] theorem buddy_order (b : Block) : b.buddy.order = b.order := rfl

@[simp] theorem parent_order (b : Block) : b.parent.order = b.order + 1 := rfl

@[simp] theorem buddy_buddy (b : Block) : b.buddy.buddy = b := by
  cases b
  simp [buddy]

theorem buddy_ne (b : Block) : b.buddy ≠ b := by
  intro h
  have hx : b.addr ^^^ 2 ^ b.order = b.addr := congrArg addr h
  have hz : 2 ^ b.order = 0 := by
    have := congrArg (b.addr ^^^ ·) hx
    simp at this
  exact absurd hz (Nat.two_pow_pos _).ne'

private theorem parent_addr_mul (q k : Nat) :
    min (2 ^ k * q) (2 ^ k * (q ^^^ 1)) = 2 ^ (k + 1) * (q / 2) := by
  rw [Nat.mul_min_mul_left, xor_one, Nat.pow_succ, Nat.mul_assoc]
  congr 1
  split <;> omega

theorem Aligned.parent (h : b.Aligned) : b.parent.Aligned := by
  obtain ⟨q, hq⟩ := h
  exact ⟨q / 2, by simp only [Block.parent, Block.buddy, hq, buddy_addr_mul, parent_addr_mul]⟩

theorem parent_covers (h : b.Aligned) :
    b.parent.Covers x ↔ b.Covers x ∨ b.buddy.Covers x := by
  have hp := Nat.two_pow_pos b.order
  rw [covers_iff_div h.parent, covers_iff_div h, covers_iff_div h.buddy]
  obtain ⟨q, hq⟩ := h
  simp only [parent, buddy, hq, buddy_addr_mul, parent_addr_mul]
  rw [Nat.mul_div_cancel_left _ hp, Nat.mul_div_cancel_left _ hp,
    Nat.mul_div_cancel_left _ (Nat.two_pow_pos _), Nat.pow_succ, ← Nat.div_div_eq_div_mul, xor_one]
  split <;> omega

theorem buddy_disjoint (h : b.Aligned) : b.Disjoint b.buddy := fun _ hx hy =>
  b.buddy_ne (eq_of_covers h.buddy h rfl hy hx)

end Block

open Block

def coverCount (l : List Block) (x : Nat) : Nat := l.countP (fun b => decide (b.Covers x))

section
variable {l l' : List Block} {b c r : Block} {x top : Nat}

@[simp] theorem coverCount_nil : coverCount [] x = 0 := rfl

theorem coverCount_cons :
    coverCount (b :: l) x = coverCount l x + if b.Covers x then 1 else 0 := by
  simp [coverCount, List.countP_cons]

@[simp] theorem coverCount_append : coverCount (l ++ l') x = coverCount l x + coverCount l' x :=
  List.countP_append

theorem coverCount_perm (h : l.Perm l') : coverCount l x = coverCount l' x := h.countP_eq _

theorem coverCount_erase (h : b ∈ l) : coverCount (b :: l.erase b) x = coverCount l x :=
  coverCount_perm (List.perm_cons_erase h).symm

theorem coverCount_pos : 0 < coverCount l x ↔ ∃ b ∈ l, b.Covers x := by
  simp [coverCount, List.countP_pos_iff]

theorem coverCount_split (a k : Nat) :
    coverCount (⟨a, k⟩ :: ⟨a + 2 ^ k, k⟩ :: l) x = coverCount (⟨a, k + 1⟩ :: l) x := by
  have hs : (⟨a, k + 1⟩ : Block).Covers x ↔
      (⟨a, k⟩ : Block).Covers x ∨ (⟨a + 2 ^ k, k⟩ : Block).Covers x := by
    simp only [Covers, Nat.pow_succ]
    omega
  have hd : ¬ ((⟨a, k⟩ : Block).Covers x ∧ (⟨a + 2 ^ k, k⟩ : Block).Covers x) := by
    simp only [Covers]
    omega
  simp only [coverCount_cons, hs]
  split_ifs <;> first | omega | tauto

theorem coverCount_merge (h : b.Aligned) :
    coverCount (b :: b.buddy :: l) x = coverCount (b.parent :: l) x := by
  simp only [coverCount_cons, parent_covers h]
  have := buddy_disjoint h x
  split_ifs <;> first | omega | tauto

theorem eq_of_covers_of_mem (hd : ∀ x, coverCount l x ≤ 1) (hb : b ∈ l) (hc : c ∈ l)
    (hbx : b.Covers x) (hcx : c.Covers x) : b = c := by
  by_contra hne
  have h := hd x
  rw [← coverCount_erase hb, coverCount_cons, if_pos hbx] at h
  have hm : c ∈ l.erase b := (List.mem_erase_of_ne (Ne.symm hne)).mpr hc
  have := coverCount_pos.mpr ⟨c, hm, hcx⟩
  omega

theorem pairwise_disjoint (hd : ∀ x, coverCount l x ≤ 1) : l.Pairwise Disjoint := by
  induction l with
  | nil => exact .nil
  | cons b l ih =>
    refine List.pairwise_cons.mpr ⟨fun c hc x hb hx => ?_, ih fun x => ?_⟩
    · have h := hd x
      rw [coverCount_cons, if_pos hb] at h
      have := coverCount_pos.mpr ⟨c, hc, hx⟩
      omega
    · have h := hd x
      rw [coverCount_cons] at h
      omega

theorem nodup_of_coverCount (hd : ∀ x, coverCount l x ≤ 1) : l.Nodup :=
  (pairwise_disjoint hd).imp fun {b _} h he => by
    subst he
    exact h b.addr b.covers_addr b.covers_addr

/-- Disjoint aligned blocks of at least `2 ^ lo` bytes in a range of `n` bytes are few. -/
theorem length_le_of_coverCount (lo n : Nat) (hd : ∀ x, coverCount l x ≤ 1)
    (hl : ∀ b ∈ l, b.Aligned ∧ lo ≤ b.order ∧ b.addr + 2 ^ b.order ≤ n) :
    l.length ≤ n / 2 ^ lo := by
  have hp := Nat.two_pow_pos lo
  have hinj : (l.map fun b => b.addr / 2 ^ lo).Nodup := by
    refine (List.nodup_map_iff_inj_on (nodup_of_coverCount hd)).mpr fun b hb c hc he => ?_
    obtain ⟨hba, hbo, -⟩ := hl b hb
    obtain ⟨hca, hco, -⟩ := hl c hc
    have hbd := (pow_dvd_pow 2 hbo).trans hba
    have hcd := (pow_dvd_pow 2 hco).trans hca
    have : b.addr = c.addr := by rw [← Nat.div_mul_cancel hbd, he, Nat.div_mul_cancel hcd]
    exact eq_of_covers_of_mem hd hb hc b.covers_addr (this ▸ c.covers_addr)
  have hsub : (l.map fun b => b.addr / 2 ^ lo) ⊆ List.range (n / 2 ^ lo) := by
    intro i hi
    obtain ⟨b, hb, rfl⟩ := List.mem_map.mp hi
    obtain ⟨-, hbo, hbn⟩ := hl b hb
    have := Nat.pow_le_pow_right (show 0 < 2 by omega) hbo
    rw [List.mem_range, ← Nat.add_one_le_iff, Nat.le_div_iff_mul_le hp, Nat.add_mul, Nat.one_mul]
    have := Nat.div_mul_le_self b.addr (2 ^ lo)
    omega
  simpa using (hinj.subperm hsub).length_le

def NoBuddies (top : Nat) (l : List Block) : Prop := ∀ b ∈ l, b.order < top → b.buddy ∉ l

/-- In a list without buddies an aligned region that is covered throughout lies in one block:
a smallest block inside the region would have its buddy covered by larger blocks only,
and those would cover the block itself. -/
theorem NoBuddies.exists_cover (hn : NoBuddies top l) (hd : ∀ x, coverCount l x ≤ 1)
    (ha : ∀ b ∈ l, b.Aligned) (hr : r.Aligned) (hrt : r.order ≤ top)
    (hc : ∀ x, r.Covers x → ∃ b ∈ l, b.Covers x) :
    ∃ b ∈ l, r.order ≤ b.order ∧ b.Covers r.addr := by
  classical
  have hex : ∃ k, ∃ b ∈ l, b.order = k ∧ ∃ x, r.Covers x ∧ b.Covers x := by
    obtain ⟨b, hb, hx⟩ := hc r.addr r.covers_addr
    exact ⟨b.order, b, hb, rfl, r.addr, r.covers_addr, hx⟩
  obtain ⟨b, hb, hbo, x, hrx, hbx⟩ := Nat.find_spec hex
  have hmin : ∀ c ∈ l, ∀ y, r.Covers y → c.Covers y → b.order ≤ c.order := by
    intro c hcl y hry hcy
    rw [hbo]
    exact Nat.find_min' hex ⟨c, hcl, rfl, y, hry, hcy⟩
  by_cases ho : r.order ≤ b.order
  · exact ⟨b, hb, ho, nested hr (ha b hb) ho hrx hbx r.covers_addr⟩
  have hab := ha b hb
  have hpar : ∀ y, b.parent.Covers y → r.Covers y := fun y hy =>
    nested hab.parent hr (by simp; omega) ((parent_covers hab).mpr (.inl hbx)) hrx hy
  have hby := b.buddy.covers_addr
  have hry := hpar _ ((parent_covers hab).mpr (.inr hby))
  obtain ⟨c, hcl, hcy⟩ := hc _ hry
  have hle := hmin c hcl _ hry hcy
  have hac := ha c hcl
  rcases hle.eq_or_lt with heq | hlt
  · have := eq_of_covers hac hab.buddy heq.symm hcy hby
    exact absurd (this ▸ hcl) (hn b hb (by omega))
  · -- The block that covers the buddy covers the parent, so it covers `b` as well.
    have hcb : c.Covers b.addr :=
      nested hab.parent hac (by simp; omega) ((parent_covers hab).mpr (.inr hby)) hcy
        ((parent_covers hab).mpr (.inl b.covers_addr))
    have := congrArg Block.order (eq_of_covers_of_mem hd hcl hb hcb b.covers_addr)
    omega

theorem NoBuddies.mem_iff (hn : NoBuddies top l) (hn' : NoBuddies top l')
    (hd : ∀ x, coverCount l x ≤ 1) (he : ∀ x, coverCount l x = coverCount l' x)
    (ha : ∀ b ∈ l, b.Aligned ∧ b.order ≤ top) (ha' : ∀ b ∈ l', b.Aligned ∧ b.order ≤ top) :
    b ∈ l ↔ b ∈ l' := by
  have key : ∀ {l l' : List Block}, NoBuddies top l → NoBuddies top l' →
      (∀ x, coverCount l x ≤ 1) → (∀ x, coverCount l x = coverCount l' x) →
      (∀ b ∈ l, b.Aligned ∧ b.order ≤ top) → (∀ b ∈ l', b.Aligned ∧ b.order ≤ top) →
      ∀ b ∈ l, b ∈ l' := by
    intro l l' hn hn' hd he ha ha' b hb
    have hd' : ∀ x, coverCount l' x ≤ 1 := fun x => he x ▸ hd x
    have cover : ∀ {l₁ l₂ : List Block} {d : Block}, (∀ x, coverCount l₁ x = coverCount l₂ x) →
        d ∈ l₁ → ∀ x, d.Covers x → ∃ b ∈ l₂, b.Covers x := fun h hm x hx =>
      coverCount_pos.mp (h x ▸ coverCount_pos.mpr ⟨_, hm, hx⟩)
    obtain ⟨c, hc, hbc, hcx⟩ := hn'.exists_cover hd' (fun b hb => (ha' b hb).1) (ha b hb).1
      (ha b hb).2 (cover he hb)
    obtain ⟨d, hdl, hcd, hdx⟩ := hn.exists_cover hd (fun b hb => (ha b hb).1) (ha' c hc).1
      (ha' c hc).2 (cover (fun x => (he x).symm) hc)
    have hdb : d.Covers b.addr :=
      nested (ha' c hc).1 (ha d hdl).1 hcd c.covers_addr hdx hcx
    have hdeq := eq_of_covers_of_mem hd hdl hb hdb b.covers_addr
    subst hdeq
    have := eq_of_covers (ha _ hb).1 (ha' c hc).1 (by omega) d.covers_addr hcx
    exact this ▸ hc
  exact ⟨key hn hn' hd he ha ha' b, key hn' hn (fun x => he x ▸ hd x) (fun x => (he x).symm) ha' ha b⟩

end
end RetroOs.Lib
