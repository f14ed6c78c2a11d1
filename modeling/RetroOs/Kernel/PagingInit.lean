import RetroOs.Kernel.PagingLayout

/-! The machine after `init_paging`: the linear map in the kernel directory, twice, and the tables
of the interrupt controllers. -/
namespace RetroOs.Kernel
open Lib Nat Ram

variable {img : KernelImage} {s t : Vm} {k n : Nat}

/-- The first `n` tables of the linear map are entered in both halves, and nothing else is but
the table of the devices, once `dev` holds. -/
structure LinearMapped (img : KernelImage) (s : Vm) (n : Nat) (dev : Prop) : Prop where
  layout : Layout s []
  lower : ∀ j < n, present (s.ram s.kernelDirectory j) = true
  upper : ∀ j < n, s.ram s.kernelDirectory (768 + j) = s.ram s.kernelDirectory j
  tables : ∀ j < n, s.ram (frameOf (s.ram s.kernelDirectory j)) = linearTable img j
  used : ∀ j < n, s.pmm.mmapTest (frameOf (s.ram s.kernelDirectory j)) = true
  flags : ∀ j < n, entryFlags (s.ram s.kernelDirectory j) = 3
  absent : ∀ i < 1024, ¬ i < n → ¬ (768 ≤ i ∧ i < 768 + n) → (dev → i ≠ 1019) →
    present (s.ram s.kernelDirectory i) = false
  device : dev → present (s.ram s.kernelDirectory 1019) = true ∧
    ∀ j < n, frameOf (s.ram s.kernelDirectory j) ≠ frameOf (s.ram s.kernelDirectory 1019)

private theorem LinearMapped.step (h : LinearMapped img s n False) (hn : n < 128)
    (hc : s.pmm.CanAlloc (k + 1)) :
    ∃ t, ((s.allocFrame.1.setPage s.allocFrame.2 (linearTable img n)).setWord s.kernelDirectory
        (768 + n) (frameAddr s.allocFrame.2 ||| 3)).setWord s.kernelDirectory n
          (frameAddr s.allocFrame.2 ||| 3) = t ∧
      t.kernelDirectory = s.kernelDirectory ∧ t.pmm.CanAlloc k ∧ LinearMapped img t (n + 1) False := by
  obtain ⟨T, u, hu, hfree, hau, hram, hcan⟩ := allocFrame_spec hc
  have hkdT : s.kernelDirectory ≠ T := fun he => h.layout.dirHeld _ (.head _) (he ▸ hfree)
  rw [hu]
  simp only
  set e := frameAddr T ||| (3 : Word) with he
  have hef : frameOf e = T := frameOf_frameAddr_or hfree.lt (by decide)
  have hep : present e = true := by rw [he, present_frameAddr_or]; decide
  have hau' : Allocates s (u.setPage T (linearTable img n)) [T] (fun _ => False) := by
    refine (hau.trans (.setPage u T _)).mono ?_
    rintro f (hf | rfl)
    · exact hf.elim
    · exact .inl (by simp)
  have hkd := hau'.kernelDirectory
  have hheld : ¬ (u.setPage T (linearTable img n)).pmm.Free (frameOf e) := by
    rw [hef]
    exact hau'.not_free_new (by simp)
  have hnot : frameOf e ∉ s.kernelDirectory :: [] := by
    rw [hef]
    simpa using hkdT.symm
  set v := ((u.setPage T (linearTable img n)).setWord s.kernelDirectory (768 + n) e).setWord
    s.kernelDirectory n e with hv
  have hlv : Layout v [] := by
    refine ((h.layout.of_allocates hau' fun _ _ => id).link hheld (by rw [hkd]; exact hnot)).link hheld ?_
    exact hkd ▸ hnot
  have hvkd : v.kernelDirectory = s.kernelDirectory := hkd
  have hvn : v.ram s.kernelDirectory n = e := setWord_self
  have hvu : v.ram s.kernelDirectory (768 + n) = e :=
    (setWord_other (by omega)).trans setWord_self
  have hvo : ∀ i, i ≠ n → i ≠ 768 + n → v.ram s.kernelDirectory i = s.ram s.kernelDirectory i :=
    fun i h1 h2 => by
      rw [hv, Vm.setWord_ram, setWord_other h1, Vm.setWord_ram, setWord_other h2, Vm.setPage_ram,
        Ram.setPage_ne hkdT, hram]
  have hvf : ∀ f, f ≠ s.kernelDirectory → f ≠ T → v.ram f = s.ram f := fun f h1 h2 => by
    rw [hv, Vm.setWord_ram, Ram.setWord_ne h1, Vm.setWord_ram, Ram.setWord_ne h1, Vm.setPage_ram,
      Ram.setPage_ne h2, hram]
  refine ⟨v, rfl, hvkd, hcan, hlv, fun j hj => ?_, fun j hj => ?_, fun j hj => ?_, fun j hj => ?_,
    fun j hj => ?_, fun i hi h1 h2 _ => ?_, False.elim⟩
  all_goals rw [hvkd]
  · rcases Nat.lt_succ_iff_lt_or_eq.mp hj with hj | rfl
    · rw [hvo j (by omega) (by omega)]
      exact h.lower j hj
    · rw [hvn, hep]
  · rcases Nat.lt_succ_iff_lt_or_eq.mp hj with hj | rfl
    · rw [hvo j (by omega) (by omega), hvo (768 + j) (by omega) (by omega)]
      exact h.upper j hj
    · rw [hvn, hvu]
  · rcases Nat.lt_succ_iff_lt_or_eq.mp hj with hj | rfl
    · rw [hvo j (by omega) (by omega), hvf _ ?_ ?_]
      · exact h.tables j hj
      · exact fun he' => h.layout.apart _ (.head _) j (by omega) (h.lower j hj) (by simp [he'])
      · exact fun he' => h.layout.tableHeld _ (.head _) j (by omega) (h.lower j hj) (he' ▸ hfree)
    · rw [hvn, hef, hv, Vm.setWord_ram, Ram.setWord_ne hkdT.symm, Vm.setWord_ram, Ram.setWord_ne hkdT.symm,
        Vm.setPage_ram, Ram.setPage_self]
  · rcases Nat.lt_succ_iff_lt_or_eq.mp hj with hj | rfl
    · rw [hvo j (by omega) (by omega)]
      exact hau.used (h.used j hj)
    · rw [hvn, hef]
      exact (hau.grows.mmapTest T).trans (by simp)
  · rcases Nat.lt_succ_iff_lt_or_eq.mp hj with hj | rfl
    · rw [hvo j (by omega) (by omega)]
      exact h.flags j hj
    · rw [hvn, he, entryFlags_frameAddr_or]
      decide
  · rw [hvo i (by omega) (by omega)]
    exact h.absent i hi (by omega) (by omega) False.elim

/-- The loop of `init_paging` over the 4 MiB parts of the linear map. -/
private theorem linearMap_spec (h : LinearMapped img s 0 False) (hn : n ≤ 128)
    (hc : s.pmm.CanAlloc (n + k)) :
    ∃ t, linearMap img n s = t ∧ t.kernelDirectory = s.kernelDirectory ∧ t.pmm.CanAlloc k ∧
      LinearMapped img t n False := by
  induction n generalizing k with
  | zero => exact ⟨s, rfl, rfl, by simpa using hc, h⟩
  | succ n ih =>
    rw [add_assoc, add_comm 1] at hc
    obtain ⟨t, ht, hkd, hcan, hl⟩ := ih (by omega) hc
    obtain ⟨u, hu, hkd', hcan', hl'⟩ := hl.step (by omega) hcan
    refine ⟨u, ?_, hkd'.trans hkd, hcan', hl'⟩
    rw [← hu, ← ht]
    rfl

private theorem LinearMapped.pagingMap {dev : Prop} (phys virt flags : Word)
    (h : LinearMapped img s 128 dev) (hv : pdIndex virt = 1019)
    (hc : s.pmm.CanAlloc (mapNeeds s s.kernelDirectory virt + k)) :
    ∃ t, Kernel.pagingMap s phys virt flags = t ∧ t.kernelDirectory = s.kernelDirectory ∧ t.pmm.CanAlloc k ∧
      LinearMapped img t 128 True := by
  have hmem : s.kernelDirectory ∈ s.kernelDirectory :: [] := .head _
  obtain ⟨t, fs, ht, hl, hcan, ha, hnew, hm⟩ :=
    mapPage_spec phys virt flags h.layout hmem hc
  have hkd := ha.kernelDirectory
  rw [hv] at ha hnew
  have hents : ∀ i, i ≠ 1019 → t.ram s.kernelDirectory i = s.ram s.kernelDirectory i := hv ▸ hm.others
  have hold : present (s.ram s.kernelDirectory 1019) = true → dev := fun hp => by
    by_contra hdev
    have := h.absent 1019 (by decide) (by decide) (by decide) fun hd => absurd hd hdev
    rw [hp] at this
    exact absurd this (by decide)
  have hT : ∀ j < 128, t.ram (frameOf (s.ram s.kernelDirectory j)) = s.ram (frameOf (s.ram s.kernelDirectory j)) := by
    intro j hj
    refine ha.ram_held (h.layout.tableHeld _ hmem j (by omega) (h.lower j hj)) ?_
    rintro (he | ⟨hp, he⟩)
    · exact h.layout.apart _ hmem j (by omega) (h.lower j hj) (by rw [he]; exact hmem)
    · exact (h.device (hold hp)).2 j hj he
  have hpe : present (t.ram s.kernelDirectory 1019) = true := hv ▸ hm.entry
  refine ⟨t, ht, hkd, hcan, hl, ?_, ?_, ?_, ?_, ?_, ?_, ?_⟩ <;> rw [hkd]
  · intro j hj
    rw [hents j (by omega)]
    exact h.lower j hj
  · intro j hj
    rw [hents j (by omega), hents (768 + j) (by omega)]
    exact h.upper j hj
  · intro j hj
    rw [hents j (by omega), hT j hj]
    exact h.tables j hj
  · intro j hj
    rw [hents j (by omega)]
    exact ha.used (h.used j hj)
  · intro j hj
    rw [hents j (by omega)]
    exact h.flags j hj
  · intro i hi h1 h2 h3
    rw [hents i (h3 trivial)]
    exact h.absent i hi h1 h2 fun _ => h3 trivial
  · refine fun _ => ⟨hpe, fun j hj he => ?_⟩
    rw [hents j (by omega)] at he
    cases hp : present (s.ram s.kernelDirectory 1019) with
    | true =>
      rw [show t.ram s.kernelDirectory 1019 = s.ram s.kernelDirectory 1019 from hv ▸ hm.kept (hv ▸ hp)] at he
      exact (h.device (hold hp)).2 j hj he
    | false =>
      exact h.layout.tableHeld _ hmem j (by omega) (h.lower j hj) (he ▸ ha.grows.free _ (hnew hp))

theorem initPaging_spec (img : KernelImage) (hc : s.pmm.CanAlloc (130 + k)) :
    ∃ t, initPaging img s = t ∧ t.cr3 = t.kernelDirectory ∧ t.pmm.CanAlloc k ∧
      LinearMapped img t 128 True := by
  rw [show 130 + k = 128 + (1 + k) + 1 by omega] at hc
  obtain ⟨pd, u, hu, hfree, hau, hram, hcan⟩ := allocFrame_spec hc
  set v := Vm.setPage { u with kernelDirectory := pd } pd zeroPage with hv
  have hz : ∀ i, v.ram pd i = 0 := fun i => congrFun (setPage_self) i
  have hlayout : Layout v [] := by
    refine ⟨fun d hd => ?_, fun d hd i _ hp => ?_, fun d hd i _ hp => ?_⟩ <;>
      obtain rfl : d = pd := List.mem_singleton.mp hd
    · exact hau.not_free_new (by simp)
    · exact absurd (hz i ▸ hp) (by decide)
    · exact absurd (hz i ▸ hp) (by decide)
  have h0 : LinearMapped img v 0 False :=
    ⟨hlayout, fun j hj => absurd hj (not_lt_zero j), fun j hj => absurd hj (not_lt_zero j),
      fun j hj => absurd hj (not_lt_zero j), fun j hj => absurd hj (not_lt_zero j),
      fun j hj => absurd hj (not_lt_zero j), fun i _ _ _ _ => (hz i).symm ▸ present_zero, False.elim⟩
  obtain ⟨w, hw, hkd, hcan, hl⟩ := linearMap_spec h0 le_rfl hcan
  have hneed : mapNeeds w w.kernelDirectory 0xFEE00000 = 1 :=
    if_neg (by
      rw [show pdIndex 0xFEE00000 = 1019 by decide,
        hl.absent 1019 (by decide) (by decide) (by decide) False.elim]
      decide)
  obtain ⟨x, hx, hkdx, hcanx, hlx⟩ :=
    hl.pagingMap 0xFEE00000 0xFEE00000 3 (by decide) (hneed ▸ hcan)
  have hnone : ∀ {y : Vm} {virt : Word}, LinearMapped img y 128 True → pdIndex virt = 1019 →
      mapNeeds y y.kernelDirectory virt = 0 := fun hy hvirt =>
    if_pos (by rw [hvirt, (hy.device trivial).1])
  obtain ⟨y, hy, hkdy, hcany, hly⟩ :=
    hlx.pagingMap (k := k) 0xFEC00000 0xFEC00000 3 (by decide)
      (by rw [hnone hlx (by decide), zero_add]; exact hcanx)
  obtain ⟨z, hz', hkdz, hcanz, hlz⟩ :=
    hly.pagingMap (k := k) 0xFED00000 0xFED00000 3 (by decide)
      (by rw [hnone hly (by decide), zero_add]; exact hcany)
  have hrun : initPaging img s = switchPageDirectory z z.kernelDirectory := by
    rw [initPaging, hu]
    simp only [← hv, hw, apicMapHardware, hpetMapHardware, hx, hy, hz']
  exact ⟨_, hrun, rfl, hcanz, hlz.layout.switch, hlz.lower, hlz.upper, hlz.tables, hlz.used,
    hlz.flags, hlz.absent, hlz.device⟩

end RetroOs.Kernel
