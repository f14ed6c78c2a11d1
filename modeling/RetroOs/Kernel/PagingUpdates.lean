import RetroOs.Kernel.Paging

/-! Reading entries back, and what an update of the machine may have allocated and written. -/
namespace RetroOs.Kernel
open Lib

section
variable {v w flags : Word} {f i j : Nat}

theorem present_eq (w : Word) : present w = w.getLsbD 0 := by
  rw [present, show (1 : BitVec 32) = BitVec.twoPow 32 0 from rfl, BitVec.and_twoPow]
  cases w.getLsbD 0 <;> decide

@[simp] theorem present_zero : present 0#32 = false := by decide

theorem frameOf_or (v w : Word) : frameOf (v ||| w) = frameOf v ||| frameOf w := by
  simp only [frameOf, BitVec.toNat_or]
  exact Nat.or_div_two_pow (n := 12)

theorem frameOf_and (v w : Word) : frameOf (v &&& w) = frameOf v &&& frameOf w := by
  simp only [frameOf, BitVec.toNat_and]
  exact Nat.and_div_two_pow (n := 12)

theorem frameOf_lt (w : Word) : frameOf w < 2 ^ 20 := by
  have := w.isLt
  rw [frameOf]
  omega

@[simp] theorem frameOf_entryAddr (w : Word) : frameOf (entryAddr w) = frameOf w := by
  rw [entryAddr, frameOf_and, show frameOf 0xFFFFF000 = 2 ^ 20 - 1 by decide,
    Nat.and_two_pow_sub_one_eq_mod, Nat.mod_eq_of_lt (frameOf_lt w)]

theorem entryAddr_toNat (addr : Word) : (entryAddr addr).toNat = addr.toNat / 4096 * 4096 := by
  have hframe : (entryAddr addr).toNat / 4096 = addr.toNat / 4096 := frameOf_entryAddr addr
  have hlow : (entryAddr addr).toNat % 2 ^ 12 = 0 := by
    rw [entryAddr, BitVec.toNat_and, Nat.and_mod_two_pow, show (0xFFFFF000 : Word).toNat % 2 ^ 12 = 0 by decide, Nat.and_zero]
  omega

theorem entryFlags_toNat (w : Word) : (entryFlags w).toNat = w.toNat % 4096 := by
  rw [entryFlags, BitVec.toNat_and, show (0xFFF : Word).toNat = 2 ^ 12 - 1 by decide, Nat.and_two_pow_sub_one_eq_mod]

@[simp] theorem frameOf_entryFlags (w : Word) : frameOf (entryFlags w) = 0 := by
  rw [entryFlags, frameOf_and, show frameOf 0xFFF = 0 by decide, Nat.and_zero]

theorem frameOf_frameAddr_or (hf : f < 2 ^ 20) (hw : frameOf w = 0) : frameOf (frameAddr f ||| w) = f := by
  rw [frameOf_or, frameOf_frameAddr hf, hw, Nat.or_zero]

theorem entryFlags_frameAddr (f : Nat) : entryFlags (frameAddr f) = 0 := by
  refine BitVec.eq_of_toNat_eq ?_
  rw [entryFlags, BitVec.toNat_and, frameAddr, BitVec.toNat_ofNat,
    show (0xFFF : Word).toNat = 2 ^ 12 - 1 by decide, Nat.and_two_pow_sub_one_eq_mod]
  change f * 4096 % 2 ^ 32 % 2 ^ 12 = 0
  omega

theorem entryFlags_or (v w : Word) : entryFlags (v ||| w) = entryFlags v ||| entryFlags w := by
  ext i
  simp only [entryFlags, BitVec.getElem_and, BitVec.getElem_or]
  rw [Bool.and_or_distrib_right]

@[simp] theorem entryFlags_entryFlags (w : Word) : entryFlags (entryFlags w) = entryFlags w := by
  rw [entryFlags, entryFlags, BitVec.and_assoc, BitVec.and_self]

theorem entryFlags_frameAddr_or (f : Nat) (w : Word) : entryFlags (frameAddr f ||| w) = entryFlags w := by
  rw [entryFlags_or, entryFlags_frameAddr]
  exact BitVec.zero_or

theorem entryFlags_entryAddr_or (v w : Word) : entryFlags (entryAddr v ||| w) = entryFlags w := by
  have hz : entryFlags (entryAddr v) = 0 := by
    rw [entryFlags, entryAddr, BitVec.and_assoc]
    exact BitVec.and_zero
  rw [entryFlags_or, hz]
  exact BitVec.zero_or

theorem present_entryFlags (w : Word) : present (entryFlags w) = present w := by
  rw [present_eq, present_eq, entryFlags, BitVec.getLsbD_and]
  simp

theorem present_frameAddr_or (f : Nat) (w : Word) : present (frameAddr f ||| w) = present w := by
  rw [← present_entryFlags, entryFlags_frameAddr_or, present_entryFlags]

theorem frameOf_entryAddr_or (hw : frameOf w = 0) : frameOf (entryAddr v ||| w) = frameOf v := by
  rw [frameOf_or, frameOf_entryAddr, hw, Nat.or_zero]

theorem present_entryAddr_or (v w : Word) : present (entryAddr v ||| w) = present w := by
  rw [← present_entryFlags, entryFlags_entryAddr_or, present_entryFlags]

theorem pdIndex_eq (virt : Word) : pdIndex virt = frameOf virt / 1024 := by
  rw [pdIndex, BitVec.toNat_ushiftRight, Nat.shiftRight_eq_div_pow, frameOf]
  omega

theorem ptIndex_eq (virt : Word) : ptIndex virt = frameOf virt % 1024 := by
  rw [ptIndex, BitVec.toNat_and, show (0x3FF : Word).toNat = 2 ^ 10 - 1 by decide,
    Nat.and_two_pow_sub_one_eq_mod, BitVec.toNat_ushiftRight, Nat.shiftRight_eq_div_pow, frameOf]

theorem pdIndex_lt (virt : Word) : pdIndex virt < 1024 := by
  have := frameOf_lt virt
  rw [pdIndex_eq]
  omega

theorem ptIndex_lt (virt : Word) : ptIndex virt < 1024 := by
  rw [ptIndex_eq]
  exact Nat.mod_lt _ (by decide)

@[simp] theorem pdIndex_entryAddr (virt : Word) : pdIndex (entryAddr virt) = pdIndex virt := by
  rw [pdIndex_eq, pdIndex_eq, frameOf_entryAddr]

@[simp] theorem ptIndex_entryAddr (virt : Word) : ptIndex (entryAddr virt) = ptIndex virt := by
  rw [ptIndex_eq, ptIndex_eq, frameOf_entryAddr]

theorem le_pdIndex_iff {virt : Word} : 768 ≤ pdIndex virt ↔ kernelVirtualBase ≤ virt := by
  rw [pdIndex_eq, frameOf, BitVec.le_def, show kernelVirtualBase.toNat = 768 * 1024 * 4096 by decide]
  omega

end

/-- What the processor finds for an address: the frame, the page's flags and the table's. -/
structure Translation where
  frame : Nat
  flags : Word
  tableFlags : Word
  deriving DecidableEq

/-- The two-level walk from a directory. -/
def translate (ram : Ram) (pd : Nat) (virt : Word) : Option Translation :=
  let pde := ram pd (pdIndex virt)
  let pte := ram (frameOf pde) (ptIndex virt)
  if present pde && present pte then some ⟨frameOf pte, entryFlags pte, entryFlags pde⟩ else none

theorem translate_congr {ram ram' : Ram} {pd : Nat} {virt : Word}
    (hd : ram' pd (pdIndex virt) = ram pd (pdIndex virt))
    (ht : present (ram pd (pdIndex virt)) = true →
      ram' (frameOf (ram pd (pdIndex virt))) = ram (frameOf (ram pd (pdIndex virt)))) :
    translate ram' pd virt = translate ram pd virt := by
  simp only [translate, hd]
  by_cases hp : present (ram pd (pdIndex virt)) = true
  · rw [ht hp]
  · simp [hp]

section
variable {s t : Vm} {f g i j : Nat} {w : Word} {page : Nat → Word}

namespace Ram
variable {ram : Ram}

@[simp] theorem setPage_self : ram.setPage f page f = page := Function.update_self ..

theorem setPage_ne (h : g ≠ f) : ram.setPage f page g = ram g := Function.update_of_ne h ..

@[simp] theorem setWord_self : ram.setWord f i w f i = w := by simp [setWord]

theorem setWord_ne (h : g ≠ f) : ram.setWord f i w g = ram g := setPage_ne h

theorem setWord_other (h : j ≠ i) : ram.setWord f i w g j = ram g j := by
  by_cases hg : g = f
  · subst hg
    simp [setWord, h]
  · rw [setWord_ne hg]

end Ram

@[simp] theorem Vm.setPage_ram : (s.setPage f page).ram = s.ram.setPage f page := rfl
@[simp] theorem Vm.setPage_pmm : (s.setPage f page).pmm = s.pmm := rfl
@[simp] theorem Vm.setWord_ram : (s.setWord f i w).ram = s.ram.setWord f i w := rfl
@[simp] theorem Vm.setWord_cr3 : (s.setWord f i w).cr3 = s.cr3 := rfl
@[simp] theorem Vm.freeFrame_ram : (s.freeFrame w).ram = s.ram := rfl
@[simp] theorem Vm.freeFrame_cr3 : (s.freeFrame w).cr3 = s.cr3 := rfl

/-- From `s` to `t` the frames `fs` were taken, and only they and the frames in `W` were written. -/
structure Allocates (s t : Vm) (fs : List Nat) (W : Nat → Prop) : Prop where
  grows : s.pmm.Grows t.pmm fs
  ram : ∀ f, f ∉ fs → ¬ W f → t.ram f = s.ram f
  rest : t = { s with pmm := t.pmm, ram := t.ram }

namespace Allocates
variable {u : Vm} {fs gs : List Nat} {W W' : Nat → Prop}

theorem refl (s : Vm) : Allocates s s [] W := ⟨.refl _, fun _ _ _ => rfl, rfl⟩

theorem trans (h : Allocates s t fs W) (h' : Allocates t u gs W') :
    Allocates s u (fs ++ gs) (fun f => W f ∨ W' f) where
  grows := h.grows.trans h'.grows
  ram f hf hw := by
    rw [List.mem_append, not_or] at hf
    exact (h'.ram f hf.2 fun hw' => hw (.inr hw')).trans (h.ram f hf.1 fun hw' => hw (.inl hw'))
  rest := by
    have he := h'.rest
    rw [h.rest] at he
    exact he

theorem mono (h : Allocates s t fs W) (hw : ∀ f, W f → f ∈ fs ∨ W' f) : Allocates s t fs W' :=
  ⟨h.grows, fun f hf hn => h.ram f hf fun hwf => (hw f hwf).elim hf hn, h.rest⟩

theorem kernelDirectory (h : Allocates s t fs W) : t.kernelDirectory = s.kernelDirectory := by
  rw [h.rest]

theorem cr3 (h : Allocates s t fs W) : t.cr3 = s.cr3 := by
  rw [h.rest]

/-- A frame that is not free keeps its words unless it is in `W`. -/
theorem ram_held (h : Allocates s t fs W) (hf : ¬ s.pmm.Free f) (hw : ¬ W f) : t.ram f = s.ram f :=
  h.ram f (fun hm => hf (h.grows.free f hm)) hw

theorem not_free (h : Allocates s t fs W) (hf : ¬ s.pmm.Free f) : ¬ t.pmm.Free f := fun hn =>
  hf (h.grows.free_iff.mp hn).1

theorem used (h : Allocates s t fs W) (hf : s.pmm.mmapTest f = true) : t.pmm.mmapTest f = true := by
  rw [h.grows.mmapTest, hf, Bool.true_or]

theorem not_free_new (h : Allocates s t fs W) (hf : f ∈ fs) : ¬ t.pmm.Free f := fun hn =>
  (h.grows.free_iff.mp hn).2 hf

end Allocates

theorem Allocates.setPage (s : Vm) (f : Nat) (page : Nat → Word) :
    Allocates s (s.setPage f page) [] (· = f) :=
  ⟨.refl _, fun _ _ h => Ram.setPage_ne h, rfl⟩

theorem Allocates.setWord (s : Vm) (f i : Nat) (w : Word) :
    Allocates s (s.setWord f i w) [] (· = f) :=
  ⟨.refl _, fun _ _ h => Ram.setWord_ne h, rfl⟩

theorem allocFrame_spec {n : Nat} (h : s.pmm.CanAlloc (n + 1)) :
    ∃ f t, s.allocFrame = (t, f) ∧ s.pmm.Free f ∧ Allocates s t [f] (fun _ => False) ∧
      t.ram = s.ram ∧ t.pmm.CanAlloc n := by
  obtain ⟨f, q, ha, hg, hc⟩ := Pmm.allocBlock_spec h
  have hf : s.pmm.Free f := hg.free f (by simp)
  refine ⟨f, { s with pmm := q }, ?_, hf, ⟨hg, fun _ _ _ => rfl, rfl⟩, rfl, hc⟩
  rw [Vm.allocFrame, ha, frameOf_frameAddr hf.lt]

end
end RetroOs.Kernel
