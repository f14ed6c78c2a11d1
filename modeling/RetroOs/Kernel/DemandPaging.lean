import RetroOs.Kernel.PagingRuns

/-! `handle_demand_paging` asks `current_directory`, which stays the kernel directory, whether a page
is present, and maps it in the directory of CR3. -/
namespace RetroOs.Kernel
open Lib Kernel.System

variable {s t : Vm} {addr virt phys flags : Word} {n f : Nat}

/-- The windows where any page may be mapped on demand: the user heap and the user stack. -/
def InUserWindow (addr : Word) : Prop :=
  0x00400000 ≤ addr ∧ addr < 0x70000000 ∨ 0xAF000000 ≤ addr ∧ addr ≤ 0xB0000000

instance (addr : Word) : Decidable (InUserWindow addr) := inferInstanceAs (Decidable (_ ∨ _))

/-- The allocator has nothing to give. -/
def Exhausted (p : Pmm) : Prop := p.freeBlockCount = 0 ∨ p.mmapFirstFree = none

/-- No demand window is open for the address. -/
def NoWindow (s : Vm) (addr : Word) : Prop :=
  if 0xE0000000 ≤ addr then Exhausted s.pmm
  else s.currentProcess = none ∨ shmGetSegment s addr = none ∧ ¬ InUserWindow addr

/-- A fault is turned down, and the page, its content and the allocator stay. -/
structure FaultRefused (s : Vm) (addr : Word) : Prop where
  result : (handleDemandPaging s addr).2 = false
  pmm : (handleDemandPaging s addr).1.pmm = s.pmm
  translation : translate (handleDemandPaging s addr).1.ram s.cr3 addr = translate s.ram s.cr3 addr
  content : ∀ x, translate s.ram s.cr3 addr = some x →
    (handleDemandPaging s addr).1.ram x.frame = s.ram x.frame

theorem alreadyPresent_eq (s : Vm) (addr : Word) :
    alreadyPresent s addr = (translate s.ram (s.currentDirectory.getD s.kernelDirectory) addr).isSome := by
  rw [alreadyPresent, pagingGetPte, translate]
  cases hd : present (s.ram (s.currentDirectory.getD s.kernelDirectory) (pdIndex addr)) with
  | false => simp
  | true => cases ht : present (s.ram (frameOf (s.ram (s.currentDirectory.getD s.kernelDirectory)
      (pdIndex addr))) (ptIndex addr)) <;> simp [ht]

theorem allocBlock_exhausted {p : Pmm} (h : Exhausted p) : p.allocBlock = (p, 0) := by
  rw [Pmm.allocBlock]
  rcases h with h | h
  · rw [if_pos h]
  · rw [h]
    split <;> rfl

theorem allocBlock_changes {p : Pmm} (h : ¬ Exhausted p) : p.allocBlock.1 ≠ p := by
  rw [Exhausted, not_or] at h
  obtain ⟨f, hf⟩ := Option.ne_none_iff_exists'.mp h.2
  intro he
  have ht := (Pmm.mmapFirstFree_some hf).2
  rw [Pmm.allocBlock, if_neg h.1, hf] at he
  have hset := Pmm.mmapTest_mmapSet (p := p) (f := f) (g := f)
  simp only [decide_true, Bool.or_true] at hset
  rw [← he] at ht
  exact absurd (hset.symm.trans ht) (by decide)

theorem handleDemandPaging_refused (h : alreadyPresent s addr = true ∨ NoWindow s addr) :
    handleDemandPaging s addr = (s, false) := by
  rw [handleDemandPaging]
  by_cases ha : alreadyPresent s addr = true
  · rw [if_pos ha]
  have hw := h.resolve_left ha
  rw [NoWindow] at hw
  rw [if_neg ha]
  by_cases hk : 0xE0000000 ≤ addr
  · rw [if_pos hk] at hw ⊢
    simp only [Vm.allocFrame, allocBlock_exhausted hw]
    rfl
  · rw [if_neg hk] at hw ⊢
    by_cases hc : s.currentProcess = none
    · rw [if_pos hc]
    · obtain ⟨hseg, hwin⟩ := hw.resolve_left hc
      rw [if_neg hc, hseg]
      exact if_neg hwin

private theorem handleDemandPaging_accepted (ha : alreadyPresent s addr = false) (hw : ¬ NoWindow s addr) :
    (handleDemandPaging s addr).2 = true ∨ (handleDemandPaging s addr).1.pmm ≠ s.pmm := by
  rw [NoWindow] at hw
  rw [handleDemandPaging, ha]
  simp only [Bool.false_eq_true, if_false]
  by_cases hk : 0xE0000000 ≤ addr
  · rw [if_pos hk] at hw ⊢
    split
    · exact .inr (allocBlock_changes hw)
    · exact .inl rfl
  · rw [if_neg hk, not_or] at hw
    rw [if_neg hk, if_neg hw.1]
    split
    · exact .inl rfl
    · next hseg =>
      have hwin : InUserWindow addr := by
        by_contra hn
        exact hw.2 ⟨hseg, hn⟩
      split
      · exact .inl rfl
      · next hn => exact absurd hwin hn

private theorem faultRefused_iff (s : Vm) (addr : Word) :
    FaultRefused s addr ↔ alreadyPresent s addr = true ∨ NoWindow s addr := by
  constructor
  · intro h
    by_contra hn
    rw [not_or, Bool.not_eq_true] at hn
    rcases handleDemandPaging_accepted hn.1 hn.2 with hr | hp
    · rw [h.result] at hr
      cases hr
    · exact hp h.pmm
  · intro h
    have hr := handleDemandPaging_refused h
    exact ⟨by rw [hr], by rw [hr], by rw [hr], fun x _ => by rw [hr]⟩

/-- Pages the fault takes from the allocator, besides a table. -/
def demandPages (s : Vm) (addr : Word) : Nat :=
  if ¬ 0xE0000000 ≤ addr ∧ shmGetSegment s addr ≠ none then 0 else 1

/-- The fault is refused, or the allocator has the frames it takes. -/
def FaultSupplied (s : Vm) (addr : Word) : Prop :=
  alreadyPresent s addr = true ∨ NoWindow s addr ∨
    s.pmm.CanAlloc (demandPages s addr + mapNeeds s s.cr3 addr)

/-- What a fault may write: the active directory and the table that is there for the address. -/
def FaultWrites (s : Vm) (addr : Word) (f : Nat) : Prop :=
  f = s.cr3 ∨ present (s.ram s.cr3 (pdIndex addr)) = true ∧ f = frameOf (s.ram s.cr3 (pdIndex addr))

structure Faulted (s t : Vm) (addr : Word) (dirs fs : List Nat) : Prop where
  layout : Layout t dirs
  allocates : Allocates s t fs (FaultWrites s addr)
  entries : ∀ i, i ≠ pdIndex addr ∨ present (s.ram s.cr3 i) = true → t.ram s.cr3 i = s.ram s.cr3 i

variable {dirs : List Nat}

theorem handleDemandPaging_cases (hs : FaultSupplied s addr) :
    ∃ u fs, Allocates s u fs (fun _ => False) ∧ u.ram = s.ram ∧
      (handleDemandPaging s addr = (u, false) ∨ ∃ phys flags, u.pmm.CanAlloc (mapNeeds s s.cr3 addr) ∧
        handleDemandPaging s addr = (vmMapPage u phys (entryAddr addr) flags, true)) := by
  by_cases hr : alreadyPresent s addr = true ∨ NoWindow s addr
  · exact ⟨s, [], .refl s, rfl, .inl (handleDemandPaging_refused hr)⟩
  rw [not_or, Bool.not_eq_true] at hr
  obtain ⟨ha, hw⟩ := hr
  have hc : s.pmm.CanAlloc (demandPages s addr + mapNeeds s s.cr3 addr) := by
    rcases hs with hs | hs | hs
    · rw [ha] at hs
      cases hs
    · exact absurd hs hw
    · exact hs
  rw [NoWindow] at hw
  rw [handleDemandPaging, ha]
  simp only [Bool.false_eq_true, if_false]
  have page : ∀ {m : Nat}, s.pmm.CanAlloc (1 + m) → ∃ f u, s.allocFrame = (u, f) ∧
      Allocates s u [f] (fun _ => False) ∧ u.ram = s.ram ∧ u.pmm.CanAlloc m := by
    intro m hm
    rw [Nat.add_comm] at hm
    obtain ⟨f, u, hu, -, hau, hram, hcan⟩ := allocFrame_spec hm
    exact ⟨f, u, hu, hau, hram, hcan⟩
  by_cases hk : 0xE0000000 ≤ addr
  · rw [demandPages, if_neg fun hn => hn.1 hk] at hc
    obtain ⟨f, u, hu, hau, hram, hcan⟩ := page hc
    rw [if_pos hk, hu]
    simp only
    refine ⟨u, [f], hau, hram, ?_⟩
    split
    · exact .inl rfl
    · exact .inr ⟨_, _, hcan, rfl⟩
  · rw [if_neg hk, not_or] at hw
    rw [if_neg hk, if_neg hw.1]
    split
    · next shmid hseg =>
      rw [demandPages, if_pos ⟨hk, by rw [hseg]; exact Option.some_ne_none _⟩, Nat.zero_add] at hc
      exact ⟨s, [], .refl s, rfl, .inr ⟨_, _, hc, rfl⟩⟩
    · next hseg =>
      rw [demandPages, if_neg fun hn => hn.2 hseg] at hc
      obtain ⟨f, u, hu, hau, hram, hcan⟩ := page hc
      split
      · rw [hu]
        exact ⟨u, [f], hau, hram, .inr ⟨_, _, hcan, rfl⟩⟩
      · exact ⟨s, [], .refl s, rfl, .inl rfl⟩

theorem handleDemandPaging_spec (h : Layout s dirs) (hact : s.cr3 ∈ s.kernelDirectory :: dirs)
    (hs : FaultSupplied s addr) : ∃ fs, Faulted s (handleDemandPaging s addr).1 addr dirs fs := by
  obtain ⟨u, fs, hu, hram, he | ⟨phys, flags, hcan, he⟩⟩ := handleDemandPaging_cases hs <;> rw [he]
  · exact ⟨fs, h.of_allocates hu fun _ _ => id, hu.mono fun _ hf => hf.elim, fun i _ => by rw [hram]⟩
  · obtain ⟨t, gs, ht, hl, -, ha, -, hm⟩ := mapPage_spec (k := 0) phys (entryAddr addr) flags
      (h.of_allocates hu fun _ _ => id) (hu.kernelDirectory ▸ hact)
      (by rw [mapNeeds, hram, pdIndex_entryAddr]; exact hcan)
    rw [vmMapPage, hu.cr3, ht]
    refine ⟨_, hl, (hu.trans ha).mono fun f hf => .inr ?_, fun i hi => ?_⟩
    · rw [pdIndex_entryAddr, hram] at hf
      exact hf.resolve_left id
    · by_cases hi' : i = pdIndex addr
      · subst hi'
        have hk := hm.kept
        rw [pdIndex_entryAddr, hram] at hk
        exact hk (hi.resolve_left fun hne => hne rfl)
      · have ho := hm.others
        rw [pdIndex_entryAddr, hram] at ho
        exact ho i hi'

/-- In every reachable state a fault is refused, with the active address space and the allocator as
they were, exactly if the page is present in the kernel directory or no demand window is open for
its address. Whether it is present in the active directory does not matter. -/
theorem handleDemandPaging_refuses_iff {img : KernelImage} {s₀ : Vm} {s : System}
    (hr : System.Runs (fun _ _ => True) (booted img s₀) s) (addr : Word) :
    FaultRefused s.vm addr ↔
      (translate s.vm.ram s.vm.kernelDirectory addr).isSome ∨ NoWindow s.vm addr := by
  rw [faultRefused_iff, alreadyPresent_eq, booted_directories hr]
  rfl

theorem bootVm_refuses : FaultRefused (booted bootImage bootVm).vm 0xB1000000 :=
  (handleDemandPaging_refuses_iff .refl 0xB1000000).mpr
    (.inr (.inr ⟨by simp [shmGetSegment], by decide⟩))

/-- A process reads a page mapped read-only in the heap window; the next fault there maps a fresh
writable frame in its place. -/
theorem handleDemandPaging_replaces :
    ∃ s x y, System.Runs (fun _ _ => True) (booted bootImage bootVm) s ∧
      translate s.vm.ram s.vm.cr3 0x40000000 = some x ∧ x.flags = 5 ∧
      (handleDemandPaging s.vm 0x40000000).2 = true ∧
      translate (handleDemandPaging s.vm 0x40000000).1.ram s.vm.cr3 0x40000000 = some y ∧
      y.flags = 7 ∧ y.frame ≠ x.frame := by
  obtain ⟨s, a, b, h⟩ := bootVm_processes
  have hidx : pdIndex 0x40000000 = 256 := by decide
  have hamem : a ∈ s.dirs := by simp [h.dirs]
  have hact : a ∈ s.vm.kernelDirectory :: s.dirs := .tail _ hamem
  have hkabs : present (s.vm.ram s.vm.kernelDirectory 256) = false :=
    h.absent 256 (by decide) (by decide) (by decide) (by decide)
  have haabs : present (s.vm.ram a 256) = false := by
    rw [h.entries a hamem 256 (by decide), hkabs]
    exact present_zero
  have hneed : mapNeeds s.vm a 0x40000000 = 1 := if_neg (by rw [hidx, haabs]; decide)
  -- The process has the page at frame 0x200, readable by the user.
  obtain ⟨t, fs, ht, hl, hcan, ha, -, hm⟩ := mapPage_spec (k := 30999) 0x200000 0x40000000 5
    h.layout hact (by rw [hneed]; exact h.canAlloc)
  have hkd := ha.kernelDirectory
  have hx := hm.translate_eq (by decide)
  have hcr : t.cr3 = a := ha.cr3.trans h.active
  have hkpage : t.ram s.vm.kernelDirectory = s.vm.ram s.vm.kernelDirectory := by
    refine ha.ram_held (h.layout.dirHeld _ (.head _)) ?_
    rintro (he | ⟨hp, -⟩)
    · exact h.distinct.1 he
    · rw [hidx, haabs] at hp
      cases hp
  have hreach : System.Runs (fun _ _ => True) (booted bootImage bootVm) ⟨t, s.dirs⟩ := by
    refine h.reachable.tail ⟨.vmMapPage 0x200000 0x40000000 5, trivial, ?_⟩
    simp only [exec, vmMapPage, h.active, ht]
  have hnotpresent : alreadyPresent t 0x40000000 = false := by
    rw [alreadyPresent_eq, booted_directories hreach, Option.getD_some, hkd, translate, hidx, hkpage, hkabs]
    rfl
  obtain ⟨f, u, hu, hfree, hau, hram, hcanu⟩ := allocFrame_spec (n := 30998) hcan
  have hmapped : present (u.ram a (pdIndex 0x40000000)) = true := by
    rw [hram]
    exact hm.entry
  have huneed : mapNeeds u a 0x40000000 = 0 := if_pos hmapped
  obtain ⟨v, gs, hv, -, -, hav, -, hmv⟩ := mapPage_spec (k := 30998) (frameAddr f) 0x40000000 7
    (hl.of_allocates hau fun _ _ => id) (show a ∈ u.kernelDirectory :: s.dirs from
      .tail _ hamem) (by rw [huneed]; exact hcanu.mono (by decide))
  have hfault : handleDemandPaging t 0x40000000 = (v, true) := by
    have hcp : t.currentProcess ≠ none := by
      rw [ha.rest, show ({ s.vm with pmm := t.pmm, ram := t.ram } : Vm).currentProcess = some a from h.process]
      exact Option.some_ne_none a
    rw [handleDemandPaging, hnotpresent]
    simp only [Bool.false_eq_true, if_false, if_neg (show ¬ (0xE0000000 : Word) ≤ 0x40000000 by decide),
      if_neg hcp, show shmGetSegment t 0x40000000 = none by simp [shmGetSegment], hu]
    rw [if_pos (by decide), ← hv, vmMapPage, hau.cr3, hcr]
    rfl
  have hy := hmv.translate_eq (by rw [present_entryAddr_or]; decide)
  rw [frameOf_entryAddr_or (by decide), frameOf_frameAddr hfree.lt, entryFlags_entryAddr_or] at hy
  rw [frameOf_entryAddr_or (by decide), entryFlags_entryAddr_or] at hx
  have hne : f ≠ frameOf 0x200000 := by
    rintro rfl
    exact ha.not_free (h.not_free (by decide)) hfree
  rw [← hcr] at hx hy
  rw [show v = (handleDemandPaging t 0x40000000).1 by rw [hfault]] at hy
  exact ⟨⟨t, s.dirs⟩, _, _, hreach, hx, (by decide : entryFlags 5 = 5), by rw [hfault], hy,
    (by decide : entryFlags 7 = 7), hne⟩

end RetroOs.Kernel
