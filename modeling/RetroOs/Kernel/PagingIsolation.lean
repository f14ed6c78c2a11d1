import RetroOs.Kernel.KernelSharing

/-! A step at a user address stays within the active directory unless the table it goes through
belongs to another directory too. -/
namespace RetroOs.Kernel
open Lib Kernel.System

/-- The active directory's table for an address serves user addresses of another process as well. -/
def SharesTable (s : System) (virt : Word) : Prop :=
  present (s.vm.ram s.vm.cr3 (pdIndex virt)) = true ∧ ∃ d ∈ s.dirs, d ≠ s.vm.cr3 ∧ ∃ i < 768,
    present (s.vm.ram d i) = true ∧ frameOf (s.vm.ram d i) = frameOf (s.vm.ram s.vm.cr3 (pdIndex virt))

/-- The step finds the frames it takes, frees no directory or table that is in use, and at a user
address writes no shared table. -/
def KeepsApart (s : System) : VmOp → Prop
  | .pdCreate => s.vm.pmm.CanAlloc 1
  | .pdClone src =>
    src ∈ s.allDirs ∧ s.vm.pmm.CanAlloc ((dirFrames s.vm.ram s.vm.kernelDirectory src 768).length + 1)
  | .pdSwitch pd => pd ∈ s.allDirs
  | .schedule pd => pd ∈ s.allDirs
  | .vmMapPage _ virt _ =>
    s.vm.pmm.CanAlloc (mapNeeds s.vm s.vm.cr3 virt) ∧ (virt < kernelVirtualBase → ¬ SharesTable s virt)
  | .vmUnmapPage virt =>
    (∀ f ∈ unmapFrames s.vm virt, ¬ IsStructure s.vm s.dirs f) ∧
      (virt < kernelVirtualBase → unmapFrames s.vm virt = [] ∨ ¬ SharesTable s virt)
  | .vmClearUserMappings => ClearSafe s.vm s.dirs
  | .pageFault addr =>
    FaultSupplied s.vm addr ∧
      (addr < kernelVirtualBase → alreadyPresent s.vm addr = true ∨ NoWindow s.vm addr ∨ ¬ SharesTable s addr)
  | _ => False

/-- Steps taken for user addresses in the active directory. -/
def UserStep : VmOp → Prop
  | .vmMapPage _ virt _ | .vmUnmapPage virt | .pageFault virt => virt < kernelVirtualBase
  | .vmClearUserMappings => True
  | _ => False

structure LaidOut (s : System) : Prop where
  layout : Layout s.vm s.dirs
  active : s.vm.cr3 ∈ s.allDirs

variable {s : System} {t : Vm} {op : VmOp} {addr virt : Word} {d : Nat} {fs : List Nat} {W : Nat → Prop}

theorem LaidOut.of_allocates (h : LaidOut s) (hl : Layout t s.dirs) (ha : Allocates s.vm t fs W) :
    LaidOut ⟨t, s.dirs⟩ := by
  refine ⟨hl, ?_⟩
  simp only [allDirs, ha.kernelDirectory, ha.cr3]
  exact h.active

theorem LaidOut.of_new {new : Nat} (h : LaidOut s) (hl : Layout t (new :: s.dirs)) (ha : Allocates s.vm t fs W) :
    LaidOut ⟨t, new :: s.dirs⟩ := by
  refine ⟨hl, ?_⟩
  have hact := h.active
  simp only [allDirs, ha.kernelDirectory, ha.cr3, List.mem_cons] at hact ⊢
  tauto

theorem LaidOut.exec (h : LaidOut s) (hc : KeepsApart s op) : LaidOut (s.exec op) := by
  cases op with
  | pdCreate =>
    obtain ⟨t, new, hcr, -, hl, ha, -⟩ := pdCreate_layout (k := 0) h.layout hc
    simp only [exec, hcr]
    exact h.of_new hl ha
  | pdClone src =>
    obtain ⟨t, new, fs, hcr, -, hl, hcl, -⟩ := pdClone_layout (k := 0) h.layout hc.1 (by
      rw [Nat.add_zero]
      exact hc.2)
    simp only [exec, hcr]
    exact h.of_new hl hcl.allocates
  | pdSwitch pd => exact ⟨h.layout.switch, hc⟩
  | schedule pd => exact ⟨h.layout.switch, hc⟩
  | vmMapPage phys virt flags =>
    obtain ⟨t, fs, ht, hl, -, ha, -⟩ := mapPage_spec (k := 0) phys virt flags h.layout h.active hc.1
    simp only [exec, vmMapPage, ht]
    exact h.of_allocates hl ha
  | vmUnmapPage virt =>
    have hrest : (vmUnmapPage s.vm virt).kernelDirectory = s.vm.kernelDirectory ∧
        (vmUnmapPage s.vm virt).cr3 = s.vm.cr3 := by
      rw [vmUnmapPage_eq]
      split <;> exact ⟨rfl, rfl⟩
    refine ⟨vmUnmapPage_layout h.layout h.active hc.1, ?_⟩
    simp only [exec, allDirs, hrest.1, hrest.2]
    exact h.active
  | vmClearUserMappings =>
    obtain ⟨gs, ht, -⟩ := vmClearUserMappings_spec s.vm
    simp only [exec]
    refine ⟨(vmClearUserMappings_layout h.layout h.active hc).1, ?_⟩
    simp only [allDirs, ht.kernelDirectory, ht.cr3]
    exact h.active
  | pageFault addr =>
    obtain ⟨fs, hl, ha, -⟩ := handleDemandPaging_spec h.layout h.active hc.1
    exact h.of_allocates hl ha
  | _ => exact hc.elim

private theorem LaidOut.not_writes (h : LaidOut s) (hd : d ∈ s.dirs) (hne : d ≠ s.vm.cr3)
    (hv : virt < kernelVirtualBase) (hs : ¬ SharesTable s addr) :
    ¬ FaultWrites s.vm addr d ∧
      (present (s.vm.ram d (pdIndex virt)) = true →
        ¬ FaultWrites s.vm addr (frameOf (s.vm.ram d (pdIndex virt)))) := by
  have hmem : d ∈ s.allDirs := .tail _ hd
  have hidx : pdIndex virt < 768 := by
    by_contra hn
    exact absurd (le_pdIndex_iff.mp (Nat.le_of_not_lt hn)) (BitVec.not_le.mpr hv)
  constructor
  · rintro (he | ⟨hp, he⟩)
    · exact hne he
    · exact h.layout.apart _ h.active _ (pdIndex_lt addr) hp (he ▸ hmem)
  · rintro hp (he | ⟨hpa, he⟩)
    · exact h.layout.apart d hmem _ (pdIndex_lt virt) hp (he ▸ h.active)
    · exact hs ⟨hpa, d, hd, hne, _, hidx, hp, he⟩

private theorem LaidOut.translate_kept (h : LaidOut s) (ha : Allocates s.vm t fs (FaultWrites s.vm addr))
    (hd : d ∈ s.dirs) (hne : d ≠ s.vm.cr3) (hv : virt < kernelVirtualBase) (hs : ¬ SharesTable s addr) :
    translate t.ram d virt = translate s.vm.ram d virt :=
  have hw := h.not_writes hd hne hv hs
  h.layout.translate_kept (.tail _ hd) (fun _ hf hn => ha.ram_held hf hn) hw.1 hw.2

theorem LaidOut.isolated (h : LaidOut s) (hc : KeepsApart s op) (hu : UserStep op) (hd : d ∈ s.dirs)
    (hne : d ≠ s.vm.cr3) (hv : virt < kernelVirtualBase) :
    translate (s.exec op).vm.ram d virt = translate s.vm.ram d virt := by
  cases op with
  | vmMapPage phys addr flags =>
    obtain ⟨t, fs, ht, -, -, ha, -⟩ := mapPage_spec (k := 0) phys addr flags h.layout h.active hc.1
    simp only [System.exec, vmMapPage, ht]
    exact h.translate_kept ha hd hne hv (hc.2 hu)
  | vmUnmapPage addr =>
    simp only [System.exec]
    rw [vmUnmapPage_eq]
    split
    · next hp =>
      have hs : ¬ SharesTable s addr := (hc.2 hu).resolve_left fun he => by
        rw [unmapFrames, if_pos hp] at he
        cases he
      obtain ⟨hw, hwt⟩ := h.not_writes hd hne hv hs
      have hmem : d ∈ s.vm.kernelDirectory :: s.dirs := .tail _ hd
      refine h.layout.translate_kept hmem (fun f _ hn => Ram.setWord_ne fun he => hn ?_) hw hwt
      exact .inr ⟨(Bool.and_eq_true_iff.mp hp).1, he⟩
    · rfl
  | vmClearUserMappings =>
    obtain ⟨gs, ht, -⟩ := vmClearUserMappings_spec s.vm
    simp only [System.exec]
    have hmem : d ∈ s.vm.kernelDirectory :: s.dirs := .tail _ hd
    refine h.layout.translate_kept hmem (fun f _ hw => ht.ram f hw) ?_ ?_
    · rintro (he | ⟨i, _, hi, hp, he⟩)
      · exact hne he
      · exact h.layout.apart _ h.active i (by omega) hp (he ▸ hmem)
    · rintro hp (he | ⟨i, hi, hi', hpi, he⟩)
      · exact h.layout.apart d hmem _ (pdIndex_lt virt) hp (he ▸ h.active)
      · exact hne (hc.unshared i hi hi' hpi d hmem _ (pdIndex_lt virt) hp he).1
  | pageFault addr =>
    by_cases hr : alreadyPresent s.vm addr = true ∨ NoWindow s.vm addr
    · simp only [System.exec, handleDemandPaging_refused hr]
    · have hs : ¬ SharesTable s addr := by
        rcases hc.2 hu with hp | hn | hs
        · exact absurd (.inl hp) hr
        · exact absurd (.inr hn) hr
        · exact hs
      obtain ⟨fs, -, ha, -⟩ := handleDemandPaging_spec h.layout h.active hc.1
      exact h.translate_kept ha hd hne hv hs
  | _ => exact hu.elim

theorem booted_laidOut {img : KernelImage} {s₀ : Vm} (hc : s₀.pmm.CanAlloc 130) :
    LaidOut (booted img s₀) :=
  ⟨(booted_shared hc).layout, (booted_shared hc).active⟩

/-- In a run whose steps write no shared table, every step at user addresses leaves the translation
of every user address in every other process as it is. -/
theorem user_steps_isolated {img : KernelImage} {s₀ : Vm} (hc : s₀.pmm.CanAlloc 130)
    (hr : System.Runs KeepsApart (booted img s₀) s) (hop : KeepsApart s op) (hu : UserStep op)
    (hd : d ∈ s.dirs) (hne : d ≠ s.vm.cr3) (hv : virt < kernelVirtualBase) :
    translate (s.exec op).vm.ram d virt = translate s.vm.ram d virt := by
  have h : LaidOut s := hr.invariant (booted_laidOut hc) fun _ _ => LaidOut.exec
  exact h.isolated hop hu hd hne hv

theorem bootVm_isolated :
    translate (((booted bootImage bootVm).exec .pdCreate).exec (.vmMapPage 0x200000 0x40000000 7)).vm.ram
        (pdCreate (initPaging bootImage bootVm)).2 0x40000000 =
      translate ((booted bootImage bootVm).exec .pdCreate).vm.ram
        (pdCreate (initPaging bootImage bootVm)).2 0x40000000 := by
  obtain ⟨t, ht, hcr, hcan, hl⟩ := initPaging_spec (k := 2) bootImage (bootVm_canAlloc.mono (by decide))
  obtain ⟨u, new, hu, hfree, -, ha, hcanu, -⟩ := pdCreate_layout (k := 1) hl.layout hcan
  have hheld := hl.layout.dirHeld _ (.head _)
  have hb : booted bootImage bootVm = ⟨t, []⟩ := by rw [booted, ht]
  have hs : (booted bootImage bootVm).exec .pdCreate = ⟨u, [new]⟩ := by
    rw [hb]
    simp only [exec, hu]
  have hidx : pdIndex 0x40000000 = 256 := by decide
  have habs : present (u.ram u.cr3 256) = false := by
    rw [ha.cr3, hcr, ha.ram_held hheld id]
    exact hl.absent 256 (by decide) (by decide) (by decide) fun _ => by decide
  refine user_steps_isolated (bootVm_canAlloc.mono (by decide)) (.single ⟨.pdCreate, ?_, rfl⟩) ?_
    (show (0x40000000 : Word) < kernelVirtualBase by decide) ?_ ?_ (by decide)
  · rw [hb]
    exact hcan.mono (by decide)
  · rw [hs]
    refine ⟨hcanu.mono ?_, fun _ hs => ?_⟩
    · rw [mapNeeds]
      split <;> decide
    · rw [SharesTable, hidx, habs] at hs
      cases hs.1
  · rw [hs, ht, hu]
    exact .head _
  · rw [hs, ht, hu, ha.cr3, hcr]
    rintro rfl
    exact hheld hfree

/-- All processes share the tables of the linear map at low addresses: a page one of them maps
there appears in the others. -/
theorem vmMapPage_crosses :
    ∃ s a b x y, TwoProcesses s a b ∧ translate s.vm.ram b 0x00400000 = some x ∧
      translate (s.exec (.vmMapPage 0x200000 0x00400000 7)).vm.ram b 0x00400000 = some y ∧
      y.frame ≠ x.frame := by
  obtain ⟨s, a, b, h⟩ := bootVm_processes
  have hidx : pdIndex 0x00400000 = 1 := by decide
  have hidx' : ptIndex 0x00400000 = 0 := by decide
  have ha : a ∈ s.vm.kernelDirectory :: s.dirs := by simp [h.dirs]
  have hb : b ∈ s.vm.kernelDirectory :: s.dirs := by simp [h.dirs]
  obtain ⟨hp, hT⟩ := h.linear 1 (by decide)
  have hent : ∀ d ∈ s.dirs, s.vm.ram d 1 = s.vm.ram s.vm.kernelDirectory 1 := fun d hd => by
    rw [h.entries d hd 1 (by decide), hp, if_pos rfl]
  have hea := hent a (by simp [h.dirs])
  have heb := hent b (by simp [h.dirs])
  have hpa : present (s.vm.ram a (pdIndex 0x00400000)) = true := by rw [hidx, hea, hp]
  have hneed : mapNeeds s.vm a 0x00400000 = 0 := if_pos hpa
  obtain ⟨t, fs, ht, -, -, hat, -, hm⟩ := mapPage_spec (k := 0) 0x200000 0x00400000 7 h.layout ha
    (by rw [hneed]; exact h.canAlloc.mono (by decide))
  have hbt : t.ram b = s.vm.ram b := by
    refine hat.ram_held (h.layout.dirHeld b hb) ?_
    rintro (he | ⟨hpt, he⟩)
    · exact h.distinct.2.2 he.symm
    · exact h.layout.apart a ha _ (pdIndex_lt _) hpt (he ▸ hb)
  have hpage := hm.page
  rw [hm.kept hpa, hidx, hea, hidx'] at hpage
  refine ⟨s, a, b, ⟨1024, 3, entryFlags (s.vm.ram s.vm.kernelDirectory 1)⟩,
    ⟨512, 7, entryFlags (s.vm.ram s.vm.kernelDirectory 1)⟩, h, ?_, ?_, show 512 ≠ 1024 by decide⟩
  · rw [translate, hidx, hidx', heb, hT, hp, if_pos (by decide),
      show frameOf (linearTable bootImage 1 0) = 1024 by decide,
      show entryFlags (linearTable bootImage 1 0) = 3 by decide]
  · simp only [exec, vmMapPage, h.active, ht]
    rw [translate, hidx, hidx', hbt, heb, hpage, hp, if_pos (by decide),
      show frameOf (entryAddr 0x200000 ||| 7) = 512 by decide,
      show entryFlags (entryAddr 0x200000 ||| 7) = 7 by decide]

end RetroOs.Kernel
