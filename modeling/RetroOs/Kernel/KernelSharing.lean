import RetroOs.Kernel.DemandPaging

/-! Kernel addresses mean the same in every directory as long as no table for them is made after
the first `pd_create`. -/
namespace RetroOs.Kernel
open Lib Kernel.System List

def SharesKernel (s : System) : VmOp → Prop
  | .pdCreate => s.vm.pmm.CanAlloc 1
  | .pdSwitch pd => pd ∈ s.allDirs
  | .schedule pd => pd ∈ s.allDirs
  | .pagingMap _ virt _ =>
    s.vm.pmm.CanAlloc (mapNeeds s.vm s.vm.kernelDirectory virt) ∧
      (kernelVirtualBase ≤ virt → present (s.vm.ram s.vm.kernelDirectory (pdIndex virt)) = true ∨ s.dirs = [])
  | .pageFault addr =>
    kernelVirtualBase ≤ addr ∧ FaultSupplied s.vm addr ∧
      (alreadyPresent s.vm addr = true ∨ NoWindow s.vm addr ∨
        present (s.vm.ram s.vm.cr3 (pdIndex addr)) = true ∨ s.dirs = [])
  | _ => False

def SameEntry (kernel entry : Word) : Prop :=
  (present kernel = true → entry = kernel) ∧ (present kernel = false → present entry = false)

structure KernelShared (s : System) : Prop where
  layout : Layout s.vm s.dirs
  active : s.vm.cr3 ∈ s.allDirs
  same : ∀ d ∈ s.allDirs, ∀ i < 1024, 768 ≤ i →
    SameEntry (s.vm.ram s.vm.kernelDirectory i) (s.vm.ram d i)

variable {s : System} {t : Vm} {op : VmOp} {addr virt : Word} {d d' i : Nat} {fs : List Nat} {W : Nat → Prop}

theorem SameEntry.refl (w : Word) : SameEntry w w := ⟨fun _ => rfl, id⟩

private theorem KernelShared.keep (h : KernelShared s) (hl : Layout t s.dirs)
    (hkd : t.kernelDirectory = s.vm.kernelDirectory) (hcr : t.cr3 ∈ s.allDirs)
    (hent : ∀ d ∈ s.allDirs, ∀ i < 1024, 768 ≤ i → t.ram d i = s.vm.ram d i) :
    KernelShared ⟨t, s.dirs⟩ := by
  refine ⟨hl, ?_, fun d hd i hi hi' => ?_⟩
  · simpa only [allDirs, hkd] using hcr
  · simp only [allDirs, hkd] at hd ⊢
    rw [hent d hd i hi hi', hent _ mem_cons_self i hi hi']
    exact h.same d hd i hi hi'

private theorem KernelShared.alone (hl : Layout t []) (hcr : t.cr3 = t.kernelDirectory) : KernelShared ⟨t, []⟩ :=
  ⟨hl, by simp [allDirs, hcr], fun d hd i _ _ => by
    obtain rfl := mem_singleton.mp hd
    exact .refl _⟩

private theorem KernelShared.pdCreate (h : KernelShared s) (hc : s.vm.pmm.CanAlloc 1) :
    KernelShared (s.exec .pdCreate) := by
  obtain ⟨t, new, hcr, hfree, hl, ha, -, hent⟩ := pdCreate_layout (k := 0) h.layout hc
  simp only [exec, hcr]
  have hkd := ha.kernelDirectory
  have hold : ∀ d ∈ s.allDirs, t.ram d = s.vm.ram d := fun d hd => ha.ram_held (h.layout.dirHeld d hd) id
  have hmem : ∀ {d}, d ∈ (⟨t, new :: s.dirs⟩ : System).allDirs → d = new ∨ d ∈ s.allDirs := by
    intro d hd
    simp only [allDirs, hkd, mem_cons] at hd ⊢
    tauto
  refine ⟨hl, ?_, fun d hd i hi hi' => ?_⟩
  · have hact := h.active
    simp only [allDirs, hkd, ha.cr3, mem_cons] at hact ⊢
    tauto
  · simp only [hkd]
    rw [hold _ mem_cons_self]
    rcases hmem hd with rfl | hd
    · rw [hent i]
      refine ⟨fun hp => if_pos ⟨hi, hp⟩, fun hp => ?_⟩
      rw [hp]
      simp
    · rw [hold d hd]
      exact h.same d hd i hi hi'

private theorem KernelShared.pagingMap {phys flags : Word} (h : KernelShared s)
    (hc : s.vm.pmm.CanAlloc (mapNeeds s.vm s.vm.kernelDirectory virt))
    (hv : kernelVirtualBase ≤ virt → present (s.vm.ram s.vm.kernelDirectory (pdIndex virt)) = true ∨ s.dirs = []) :
    KernelShared (s.exec (.pagingMap phys virt flags)) := by
  obtain ⟨t, fs, ht, hl, -, ha, -, hm⟩ := mapPage_spec (k := 0) phys virt flags h.layout
    (.head _) hc
  have hkd := ha.kernelDirectory
  have hexec : s.exec (.pagingMap phys virt flags) = ⟨t, s.dirs⟩ := by rw [← ht]; rfl
  rw [hexec]
  by_cases hd : s.dirs = []
  · have hcr : t.cr3 = t.kernelDirectory := by
      have hact := h.active
      rw [allDirs, hd] at hact
      rw [ha.cr3, hkd]
      exact mem_singleton.mp hact
    rw [hd] at hl ⊢
    exact .alone hl hcr
  · refine h.keep hl hkd (ha.cr3 ▸ h.active) fun d hdm i hi hi' => ?_
    by_cases hdk : d = s.vm.kernelDirectory
    · subst hdk
      by_cases hidx : i = pdIndex virt
      · subst hidx
        exact hm.kept ((hv (le_pdIndex_iff.mp hi')).resolve_right hd)
      · exact hm.others i hidx
    · refine congrFun (ha.ram_held (h.layout.dirHeld d hdm) ?_) i
      rintro (he | ⟨hp, he⟩)
      · exact hdk he
      · exact h.layout.apart _ (.head _) _ (pdIndex_lt virt) hp (he ▸ hdm)

private theorem KernelShared.pageFault (h : KernelShared s) (hs : FaultSupplied s.vm addr)
    (hv : alreadyPresent s.vm addr = true ∨ NoWindow s.vm addr ∨
      present (s.vm.ram s.vm.cr3 (pdIndex addr)) = true ∨ s.dirs = []) :
    KernelShared (s.exec (.pageFault addr)) := by
  by_cases hr : alreadyPresent s.vm addr = true ∨ NoWindow s.vm addr
  · simp only [exec, handleDemandPaging_refused hr]
    exact h
  obtain ⟨fs, hl, ha, hent⟩ := handleDemandPaging_spec h.layout h.active hs
  have hkd := ha.kernelDirectory
  by_cases hd : s.dirs = []
  · have hcr : (handleDemandPaging s.vm addr).1.cr3 = (handleDemandPaging s.vm addr).1.kernelDirectory := by
      have hact := h.active
      rw [allDirs, hd] at hact
      rw [ha.cr3, hkd]
      exact mem_singleton.mp hact
    simp only [exec]
    rw [hd] at hl ⊢
    exact .alone hl hcr
  · have hp : present (s.vm.ram s.vm.cr3 (pdIndex addr)) = true := by
      rcases hv with hv | hv | hv | hv
      · exact absurd (.inl hv) hr
      · exact absurd (.inr hv) hr
      · exact hv
      · exact absurd hv hd
    refine h.keep hl hkd (ha.cr3 ▸ h.active) fun d hdm i hi hi' => ?_
    by_cases hdc : d = s.vm.cr3
    · subst hdc
      refine hent i ?_
      by_cases hidx : i = pdIndex addr
      · exact .inr (hidx ▸ hp)
      · exact .inl hidx
    · refine congrFun (ha.ram_held (h.layout.dirHeld d hdm) ?_) i
      rintro (he | ⟨_, he⟩)
      · exact hdc he
      · exact h.layout.apart _ h.active _ (pdIndex_lt addr) hp (he ▸ hdm)

theorem KernelShared.exec (h : KernelShared s) (hc : SharesKernel s op) : KernelShared (s.exec op) := by
  cases op with
  | pdCreate => exact h.pdCreate hc
  | pdSwitch pd => exact ⟨h.layout.switch, hc, h.same⟩
  | schedule pd => exact ⟨h.layout.switch, hc, h.same⟩
  | pagingMap phys virt flags => exact h.pagingMap hc.1 hc.2
  | pageFault addr => exact h.pageFault hc.2.1 hc.2.2
  | _ => exact hc.elim

theorem KernelShared.translate_eq (h : KernelShared s) (hd : d ∈ s.allDirs) (ha : kernelVirtualBase ≤ addr) :
    translate s.vm.ram d addr = translate s.vm.ram s.vm.kernelDirectory addr := by
  obtain ⟨hp, hn⟩ := h.same d hd _ (pdIndex_lt addr) (le_pdIndex_iff.mpr ha)
  cases hk : present (s.vm.ram s.vm.kernelDirectory (pdIndex addr)) with
  | true => simp only [translate, hp hk]
  | false => simp [translate, hk, hn hk]

theorem booted_shared {img : KernelImage} {s₀ : Vm} (hc : s₀.pmm.CanAlloc 130) :
    KernelShared (booted img s₀) := by
  obtain ⟨t, ht, hcr, -, hl⟩ := initPaging_spec (k := 0) img hc
  rw [booted, ht]
  exact .alone hl.layout hcr

/-- In a run whose steps make no kernel table once a process directory exists, all directories
translate every kernel address alike. -/
theorem kernel_addresses_shared {img : KernelImage} {s₀ : Vm} (hc : s₀.pmm.CanAlloc 130)
    (hr : System.Runs SharesKernel (booted img s₀) s) (hd : d ∈ s.allDirs) (hd' : d' ∈ s.allDirs)
    (ha : kernelVirtualBase ≤ addr) : translate s.vm.ram d addr = translate s.vm.ram d' addr := by
  have h : KernelShared s := hr.invariant (booted_shared hc) fun _ _ => KernelShared.exec
  rw [h.translate_eq hd ha, h.translate_eq hd' ha]

theorem bootVm_shares :
    translate ((booted bootImage bootVm).exec .pdCreate).vm.ram (pdCreate (initPaging bootImage bootVm)).2
        0xC0100000 =
      translate ((booted bootImage bootVm).exec .pdCreate).vm.ram
        ((booted bootImage bootVm).exec .pdCreate).vm.kernelDirectory 0xC0100000 := by
  have hc : (initPaging bootImage bootVm).pmm.CanAlloc 1 := by
    obtain ⟨t, ht, -, hcan, -⟩ := initPaging_spec (k := 1) bootImage (bootVm_canAlloc.mono (by decide))
    rw [ht]
    exact hcan
  exact kernel_addresses_shared (bootVm_canAlloc.mono (by decide)) (.single ⟨.pdCreate, hc, rfl⟩)
    (.tail _ (.head _)) (.head _) (by decide)

private theorem kernelFault_spec {s : Vm} {dirs : List Nat} {k : Nat} (h : Layout s dirs)
    (hact : s.cr3 ∈ s.kernelDirectory :: dirs) (hna : alreadyPresent s addr = false) (haddr : 0xE0000000 ≤ addr)
    (habs : present (s.ram s.cr3 (pdIndex addr)) = false) (hc : s.pmm.CanAlloc (k + 2)) (h0 : ¬ s.pmm.Free 0) :
    ∃ f t fs x, (handleDemandPaging s addr).1 = t ∧ s.pmm.Free f ∧ f ∈ fs ∧ Layout t dirs ∧ t.pmm.CanAlloc k ∧
      Allocates s t fs (· = s.cr3) ∧ translate t.ram s.cr3 addr = some x ∧ x.frame = f := by
  obtain ⟨f, u, hu, hfree, hau, hram, hcan⟩ := allocFrame_spec hc
  have hneed : mapNeeds u s.cr3 (entryAddr addr) = 1 := if_neg (by rw [hram, pdIndex_entryAddr, habs]; decide)
  obtain ⟨t, fs, ht, hl, hcant, hat, -, hm⟩ := mapPage_spec (k := k) (frameAddr f) (entryAddr addr) 3
    (h.of_allocates hau fun _ _ => id) (hau.kernelDirectory ▸ hact)
    (by rw [hneed, Nat.add_comm]; exact hcan)
  have htr := hm.translate_eq (by rw [present_entryAddr_or]; decide)
  have hfault : (handleDemandPaging s addr).1 = t := by
    rw [handleDemandPaging, hna]
    simp only [Bool.false_eq_true, if_false, if_pos haddr, hu, if_neg fun h : f = 0 => h0 (h ▸ hfree)]
    rw [vmMapPage, hau.cr3, ht]
  rw [translate, pdIndex_entryAddr, ptIndex_entryAddr, ← translate] at htr
  refine ⟨f, t, [f] ++ fs, _, hfault, hfree, by simp, hl, hcant, (hau.trans hat).mono ?_, htr, ?_⟩
  · rintro g (hg | hg | ⟨hp, -⟩)
    · exact hg.elim
    · exact .inr hg
    · rw [hram, pdIndex_entryAddr, habs] at hp
      cases hp
  · rw [frameOf_entryAddr_or (by decide), frameOf_frameAddr hfree.lt]

/-- Two directories that fault at 0xE0000000 map it to frames of their own. -/
theorem kernel_addresses_diverge :
    ∃ s a b, TwoProcesses s a b ∧
      let t := ((s.exec (.pageFault 0xE0000000)).exec (.schedule b)).exec (.pageFault 0xE0000000)
      ∃ x y, translate t.vm.ram a 0xE0000000 = some x ∧ translate t.vm.ram b 0xE0000000 = some y ∧
        x.frame ≠ y.frame := by
  obtain ⟨s, a, b, h⟩ := bootVm_processes
  refine ⟨s, a, b, h, ?_⟩
  have hidx : pdIndex 0xE0000000 = 896 := by decide
  have hamem : a ∈ s.vm.kernelDirectory :: s.dirs := by simp [h.dirs]
  have hbmem : b ∈ s.vm.kernelDirectory :: s.dirs := by simp [h.dirs]
  have hkabs : present (s.vm.ram s.vm.kernelDirectory 896) = false :=
    h.absent 896 (by decide) (by decide) (by decide) (by decide)
  have habs : ∀ d ∈ s.dirs, present (s.vm.ram d 896) = false := fun d hd => by
    rw [h.entries d hd 896 (by decide), hkabs]
    exact present_zero
  have hna : alreadyPresent s.vm 0xE0000000 = false := by
    rw [alreadyPresent_eq, booted_directories h.reachable, Option.getD_some, translate, hidx, hkabs]
    rfl
  obtain ⟨f, t, fs, x, ht, hf, hffs, hl, hcan, ha, hx, hxf⟩ := kernelFault_spec (k := 30998) h.layout
    (h.active ▸ hamem) hna (by decide) (by rw [hidx, h.active]; exact habs a (by simp [h.dirs])) h.canAlloc
    (h.not_free (by decide))
  rw [h.active] at ha hx
  -- The second process has not got the new table, and the kernel directory has not either.
  have hkd := ha.kernelDirectory
  have hkeep : ∀ d ∈ s.vm.kernelDirectory :: s.dirs, d ≠ a → t.ram d = s.vm.ram d := fun d hd hne =>
    ha.ram_held (h.layout.dirHeld d hd) hne
  set u : Vm := pdSwitch { t with currentProcess := some b } b with hu
  have hreach : System.Runs (fun _ _ => True) (booted bootImage bootVm) ⟨u, s.dirs⟩ := by
    refine (h.reachable.tail ⟨.pageFault 0xE0000000, trivial, rfl⟩).tail ⟨.schedule b, trivial, ?_⟩
    simp only [exec, ht, hu]
  have hnau : alreadyPresent u 0xE0000000 = false := by
    rw [alreadyPresent_eq, booted_directories hreach, Option.getD_some, translate, hidx,
      show u.kernelDirectory = s.vm.kernelDirectory from hkd,
      show u.ram s.vm.kernelDirectory = _ from hkeep _ (.head _) h.distinct.1, hkabs]
    rfl
  obtain ⟨g, v, gs, y, hv, hg, -, -, -, hav, hy, hyg⟩ := kernelFault_spec (k := 30996) (s := u)
    (show Layout u s.dirs from hl.switch) (show b ∈ t.kernelDirectory :: s.dirs from hkd ▸ hbmem) hnau (by decide)
    (by
      rw [hidx]
      change present (t.ram b 896) = false
      rw [hkeep b hbmem h.distinct.2.2.symm]
      exact habs b (by simp [h.dirs])) hcan (ha.not_free (h.not_free (by decide)))
  have hfin : (((s.exec (.pageFault 0xE0000000)).exec (.schedule b)).exec (.pageFault 0xE0000000)).vm = v := by
    simp only [exec, ht, ← hu, hv]
  have hab : a ≠ b := h.distinct.2.2
  have hxv : translate v.ram a 0xE0000000 = some x := by
    rw [← hx]
    exact hl.translate_kept (hkd ▸ hamem) (fun p hp hw => hav.ram_held hp hw) hab fun hp he =>
      hl.apart a (hkd ▸ hamem) _ (pdIndex_lt _) hp (he ▸ hkd ▸ hbmem)
  intro w
  refine ⟨x, y, ?_, ?_, ?_⟩
  · rw [hfin]
    exact hxv
  · rw [hfin]
    exact hy
  · rw [hxf, hyg]
    rintro rfl
    exact ha.not_free_new hffs hg

end RetroOs.Kernel
