import RetroOs.Kernel.PagingFrames

/-! `pd_create` and `pd_clone` write only to frames they took: the clone maps copies of the pages
of the source, and `pd_destroy` gives exactly the taken frames back. -/
namespace RetroOs.Kernel
open Lib List Ram

variable {ram ram' : Ram} {s t : Vm} {kd pd srcPt destPt sourcePd newPd i j k n f : Nat} {fs : List Nat}
  {held : Nat → Prop} {virt : Word}

theorem pdCreate_spec (hk : ¬ s.pmm.Free s.kernelDirectory) (hc : s.pmm.CanAlloc (k + 1)) :
    ∃ t pd, pdCreate s = (t, pd) ∧ s.pmm.Free pd ∧ Allocates s t [pd] (fun _ => False) ∧
      t.pmm.CanAlloc k ∧
      ∀ i, t.ram pd i =
        if i < 1024 ∧ present (s.ram s.kernelDirectory i) then s.ram s.kernelDirectory i else 0 := by
  obtain ⟨pd, u, hu, hfree, ha, hram, hcan⟩ := allocFrame_spec hc
  rw [pdCreate, hu]
  refine ⟨_, pd, rfl, hfree, ?_⟩
  have hloop := @forUpto_invariant Vm (fun i s =>
      if present (s.ram s.kernelDirectory i) then s.setWord pd i (s.ram s.kernelDirectory i) else s)
    1024 (u.setPage pd zeroPage) (fun n t => Allocates s t [pd] (fun _ => False) ∧ t.pmm = u.pmm ∧
      ∀ i, t.ram pd i =
        if i < n ∧ present (s.ram s.kernelDirectory i) then s.ram s.kernelDirectory i else 0) ?_ ?_
  · exact ⟨hloop.1, hloop.2.1 ▸ hcan, hloop.2.2⟩
  · refine ⟨(ha.trans (.setPage u pd zeroPage)).mono ?_, rfl, fun i => ?_⟩
    · rintro f (hf | rfl)
      · exact hf.elim
      · exact .inl (by simp)
    · simp [zeroPage]
  · rintro j - t ⟨hat, hpmm, hent⟩
    have hread : t.ram t.kernelDirectory j = s.ram s.kernelDirectory j := by
      rw [hat.kernelDirectory, hat.ram_held hk id]
    simp only [hread]
    split
    · next hp =>
      refine ⟨(hat.trans (.setWord t pd j _)).mono ?_, hpmm, fun i => ?_⟩
      · rintro f (hf | rfl)
        · exact hf.elim
        · exact .inl (by simp)
      · rw [Vm.setWord_ram]
        by_cases hij : i = j
        · subst hij
          simp [hp]
        · rw [setWord_other hij, hent i]
          simp [show i < j + 1 ↔ i < j by omega]
    · next hp =>
      refine ⟨hat, hpmm, fun i => ?_⟩
      rw [hent i]
      by_cases hij : i = j
      · subst hij
        simp [hp]
      · simp [show i < j + 1 ↔ i < j by omega]

/-- One page table entry and its copy. Only the frames in `held` are sure to keep their content
while the copy is made. -/
structure CopiedEntry (held : Nat → Prop) (ram ram' : Ram) (src dest : Word) : Prop where
  mapped : present dest = true
  flags : entryFlags dest = entryFlags src
  content : held (frameOf src) → ram' (frameOf dest) = ram (frameOf src)

/-- The first `n` entries of `destPt` map copies of the pages `srcPt` maps, and nothing else. -/
def CopiedTable (held : Nat → Prop) (ram ram' : Ram) (srcPt destPt n : Nat) : Prop :=
  ∀ j < n, (present (ram srcPt j) = true → CopiedEntry held ram ram' (ram srcPt j) (ram' destPt j)) ∧
    (present (ram srcPt j) = false → ram' destPt j = 0)

/-- Neither the two tables nor the frames in `held` can be allocated to the copy. -/
structure CloneReady (held : Nat → Prop) (s : Vm) (srcPt destPt : Nat) : Prop where
  ne : srcPt ≠ destPt
  src : ¬ s.pmm.Free srcPt
  dest : ¬ s.pmm.Free destPt
  pages : ∀ f, held f → ¬ s.pmm.Free f ∧ f ≠ destPt

theorem CopiedTable.keep {ram'' : Ram} (h : CopiedTable held ram ram' srcPt destPt n)
    (hd : ∀ j < n, ram'' destPt j = ram' destPt j)
    (hp : ∀ f ∈ tableFrames ram' destPt n, ram'' f = ram' f) : CopiedTable held ram ram'' srcPt destPt n := by
  intro j hj
  obtain ⟨hy, hn⟩ := h j hj
  rw [hd j hj]
  refine ⟨fun hpr => ?_, hn⟩
  obtain ⟨h1, h2, h3⟩ := hy hpr
  exact ⟨h1, h2, fun hh => (hp _ (mem_tableFrames.mpr ⟨j, hj, h1, rfl⟩)).trans (h3 hh)⟩

theorem CopiedTable.length_frames (h : CopiedTable held ram ram' srcPt destPt n) :
    (tableFrames ram' destPt n).length = (tableFrames ram srcPt n).length := by
  induction n with
  | zero => rfl
  | succ n ih =>
    obtain ⟨hy, hn⟩ := h n n.lt_succ_self
    rw [tableFrames_succ, tableFrames_succ, length_append, length_append, ih fun j hj => h j (by omega)]
    cases hp : present (ram srcPt n) with
    | false => rw [hn hp]; rfl
    | true => rw [if_pos (hy hp).mapped]; rfl

private theorem cloneTable_spec (h : CloneReady held s srcPt destPt) (hn : n ≤ 1024)
    (hz : ∀ j < n, s.ram destPt j = 0)
    (hc : s.pmm.CanAlloc ((tableFrames s.ram srcPt n).length + k)) :
    ∃ t fs, cloneTable srcPt destPt n s = t ∧ Allocates s t fs (· = destPt) ∧ t.pmm.CanAlloc k ∧
      (∀ j, n ≤ j → t.ram destPt j = s.ram destPt j) ∧
      CopiedTable held s.ram t.ram srcPt destPt n ∧ tableFrames t.ram destPt n = fs := by
  induction n generalizing k with
  | zero =>
    exact ⟨s, [], rfl, .refl s, by simpa [tableFrames] using hc, fun _ _ => rfl,
      fun j hj => absurd hj (Nat.not_lt_zero j), rfl⟩
  | succ n ih =>
    rw [tableFrames_succ, length_append, Nat.add_assoc] at hc
    obtain ⟨t, fs, ht, ha, hcan, hrest, hcopy, hfs⟩ :=
      ih (by omega) (fun j hj => hz j (by omega)) hc
    have hsrc : t.ram srcPt = s.ram srcPt := ha.ram_held h.src h.ne
    have hstep : cloneTable srcPt destPt (n + 1) s =
        if present (t.ram srcPt n) then
          let u := t.allocFrame.1.setPage t.allocFrame.2 (t.allocFrame.1.ram (frameOf (t.ram srcPt n)))
          u.setWord destPt n (frameAddr t.allocFrame.2 ||| entryFlags (u.ram srcPt n))
        else t := by
      rw [← ht]
      rfl
    rw [hstep, hsrc]
    by_cases hp : present (s.ram srcPt n) = true
    · simp only [hp, if_true, length_singleton] at hcan ⊢
      rw [Nat.add_comm] at hcan
      obtain ⟨f, u, hu, hfree, hau, hram, hcan'⟩ := allocFrame_spec hcan
      have hfd : f ≠ destPt := fun he => ha.not_free h.dest (he ▸ hfree)
      have hfs' : srcPt ≠ f := fun he => ha.not_free h.src (he ▸ hfree)
      have hfnew : ∀ g ∈ fs, g ≠ f := fun g hg he => ha.not_free_new hg (he ▸ hfree)
      simp only [hu, hram, Vm.setPage_ram, setPage_ne hfs', hsrc]
      set e := frameAddr f ||| entryFlags (s.ram srcPt n) with he
      have hef : frameOf e = f := frameOf_frameAddr_or hfree.lt (frameOf_entryFlags _)
      have hep : present e = true := by rw [he, present_frameAddr_or, present_entryFlags, hp]
      have hdest : ∀ j, j ≠ n → ((u.setPage f (t.ram (frameOf (s.ram srcPt n)))).setWord destPt n e).ram
          destPt j = t.ram destPt j := fun j hj => by
        rw [Vm.setWord_ram, setWord_other hj, Vm.setPage_ram, setPage_ne hfd.symm, hram]
      have hdestn : ((u.setPage f (t.ram (frameOf (s.ram srcPt n)))).setWord destPt n e).ram
          destPt n = e := setWord_self
      have hpage : ((u.setPage f (t.ram (frameOf (s.ram srcPt n)))).setWord destPt n e).ram f =
          t.ram (frameOf (s.ram srcPt n)) := by
        rw [Vm.setWord_ram, Ram.setWord_ne hfd, Vm.setPage_ram, Ram.setPage_self]
      refine ⟨_, fs ++ [f], rfl,
        (ha.trans ((hau.trans (.setPage u f _)).trans (.setWord _ destPt n e))).mono ?_, hcan',
        fun j hj => ?_, fun j hj => ?_, ?_⟩
      · rintro g (rfl | (hg | rfl) | rfl)
        · exact .inr rfl
        · exact hg.elim
        · exact .inl (by simp)
        · exact .inr rfl
      · rw [hdest j (by omega), hrest j (by omega)]
      · rcases Nat.lt_succ_iff_lt_or_eq.mp hj with hj | rfl
        · refine hcopy.keep (fun j hj => hdest j (by omega)) (fun g hg => ?_) j hj
          rw [hfs] at hg
          have hgd : g ≠ destPt := fun he => h.dest (he ▸ ha.grows.free g hg)
          rw [Vm.setWord_ram, setWord_ne hgd, Vm.setPage_ram, setPage_ne (hfnew g hg), hram]
        · rw [hdestn]
          refine ⟨fun _ => ⟨hep, ?_, fun hh => ?_⟩, fun hn => absurd (hp.symm.trans hn) (by decide)⟩
          · rw [he, entryFlags_frameAddr_or, entryFlags_entryFlags]
          · rw [hef, hpage, ha.ram_held (h.pages _ hh).1 (h.pages _ hh).2]
      · rw [tableFrames_succ, hdestn, if_pos hep, hef,
          tableFrames_congr fun j hj => hdest j (by omega), hfs]
    · simp only [hp, Bool.false_eq_true, if_false] at hcan ⊢
      refine ⟨t, fs, rfl, ha, by simpa using hcan, fun j hj => hrest j (by omega), fun j hj => ?_, ?_⟩
      · rcases Nat.lt_succ_iff_lt_or_eq.mp hj with hj | rfl
        · exact hcopy j hj
        · refine ⟨fun hp' => absurd hp' hp, fun _ => ?_⟩
          rw [hrest j le_rfl, hz j (by omega)]
      · rw [tableFrames_succ, hrest n le_rfl, hz n (by omega), hfs]
        simp

theorem CopiedTable.of_source {ram₀ : Ram} (h : CopiedTable held ram ram' srcPt destPt n)
    (hs : ram srcPt = ram₀ srcPt) (hp : ∀ f, held f → ram f = ram₀ f) :
    CopiedTable held ram₀ ram' srcPt destPt n := by
  intro j hj
  rw [← hs]
  refine ⟨fun hpr => ?_, (h j hj).2⟩
  obtain ⟨h1, h2, h3⟩ := (h j hj).1 hpr
  exact ⟨h1, h2, fun hh => (h3 hh).trans (hp _ hh)⟩

/-- The directories and tables `pd_clone` reads are in use, or out of the allocator's reach. -/
structure CloneSource (s : Vm) (src : Nat) : Prop where
  kernel : ¬ s.pmm.Free s.kernelDirectory
  source : ¬ s.pmm.Free src
  kernelTables : ∀ i < 768, present (s.ram s.kernelDirectory i) = true →
    ¬ s.pmm.Free (frameOf (s.ram s.kernelDirectory i))
  tables : ∀ i < 768, OwnEntry s.ram s.kernelDirectory src i → ¬ s.pmm.Free (frameOf (s.ram src i))

def PagesHeld (s : Vm) (src : Nat) : Prop :=
  ∀ i < 768, OwnEntry s.ram s.kernelDirectory src i → ∀ j < 1024,
    present (s.ram (frameOf (s.ram src i)) j) = true → ¬ s.pmm.Free (frameOf (s.ram (frameOf (s.ram src i)) j))

/-- A directory entry and its copy, with the tables they point to. -/
structure ClonedEntry (held : Nat → Prop) (ram ram' : Ram) (src dest : Word) : Prop where
  mapped : present dest = true
  flags : entryFlags dest = entryFlags src
  table : CopiedTable held ram ram' (frameOf src) (frameOf dest) 1024

/-- The body of the outer loop. -/
private def cloneEntry (sourcePd newPd i : Nat) (s : Vm) : Vm :=
  if OwnEntry s.ram s.kernelDirectory sourcePd i then
    let u := s.allocFrame.1.setPage s.allocFrame.2 zeroPage
    cloneTable (frameOf (s.ram sourcePd i)) s.allocFrame.2 1024
      (u.setWord newPd i (frameAddr s.allocFrame.2 ||| entryFlags (u.ram sourcePd i)))
  else s

private theorem cloneTables_succ :
    cloneTables sourcePd newPd (n + 1) s = cloneEntry sourcePd newPd n (cloneTables sourcePd newPd n s) := by
  rw [cloneTables, forUpto, ← cloneTables, cloneEntry]
  generalize cloneTables sourcePd newPd n s = t
  by_cases hp : present (t.ram sourcePd n) = true
  · by_cases hk : t.ram sourcePd n = t.ram t.kernelDirectory n
    · rw [if_neg fun h : OwnEntry _ _ _ _ => h.2 hk]
      simp only [hk, if_true, ite_self]
    · rw [if_pos (show OwnEntry _ _ _ _ from ⟨hp, hk⟩)]
      simp only [hp, Bool.not_true, Bool.false_eq_true, if_false, hk]
  · rw [if_neg fun h : OwnEntry _ _ _ _ => hp h.1]
    simp only [Bool.not_eq_true _ ▸ hp, Bool.not_false, if_true]

private theorem cloneEntry_spec (hsrc : ¬ s.pmm.Free sourcePd) (hnew : ¬ s.pmm.Free newPd)
    (ho : OwnEntry s.ram s.kernelDirectory sourcePd n)
    (hS : ¬ s.pmm.Free (frameOf (s.ram sourcePd n))) (hSnew : frameOf (s.ram sourcePd n) ≠ newPd)
    (hP : ∀ f, held f → ¬ s.pmm.Free f ∧ f ≠ newPd)
    (hc : s.pmm.CanAlloc ((entryFrames s.ram s.kernelDirectory sourcePd n).length + k)) :
    ∃ t T gs, cloneEntry sourcePd newPd n s = t ∧ s.pmm.Free T ∧
      Allocates s t (T :: gs) (· = newPd) ∧ t.pmm.CanAlloc k ∧
      (∀ i, i ≠ n → t.ram newPd i = s.ram newPd i) ∧ frameOf (t.ram newPd n) = T ∧
      ClonedEntry held s.ram t.ram (s.ram sourcePd n) (t.ram newPd n) ∧ tableFrames t.ram T 1024 = gs := by
  rw [entryFrames, if_pos ho, length_append, length_singleton, Nat.add_right_comm] at hc
  obtain ⟨T, u, hu, hfree, hau, hram, hcan⟩ := allocFrame_spec hc
  have hTnew : T ≠ newPd := fun he => hnew (he ▸ hfree)
  have hTsrc : sourcePd ≠ T := fun he => hsrc (he ▸ hfree)
  rw [cloneEntry, if_pos ho]
  simp only [hu, hram, Vm.setPage_ram, Ram.setPage_ne hTsrc]
  set e := frameAddr T ||| entryFlags (s.ram sourcePd n) with he
  have hef : frameOf e = T := frameOf_frameAddr_or hfree.lt (frameOf_entryFlags _)
  set v := (u.setPage T zeroPage).setWord newPd n e with hv
  have hav : Allocates s v [T] (· = newPd) := by
    refine ((hau.trans (.setPage u T zeroPage)).trans (.setWord _ newPd n e)).mono ?_
    rintro g ((hg | rfl) | rfl)
    · exact hg.elim
    · exact .inl (by simp)
    · exact .inr rfl
  have hvS := hav.ram_held hS hSnew
  have hvT : v.ram T = zeroPage := by
    rw [hv, Vm.setWord_ram, Ram.setWord_ne hTnew, Vm.setPage_ram, Ram.setPage_self]
  have hready : CloneReady held v (frameOf (s.ram sourcePd n)) T :=
    ⟨fun he => hS (he ▸ hfree), hav.not_free hS, hav.not_free_new (by simp), fun f hf =>
      ⟨hav.not_free (hP f hf).1, fun he => (hP f hf).1 (he ▸ hfree)⟩⟩
  obtain ⟨w, gs, hw, haw, hcanw, -, hcopy, hgs⟩ :=
    cloneTable_spec (k := k) hready le_rfl (fun j _ => by rw [hvT]; rfl)
      (by rw [tableFrames_congr fun j _ => congrFun hvS j]; exact hcan)
  have hwnew : w.ram newPd = v.ram newPd := haw.ram_held (hav.not_free hnew) hTnew.symm
  have hwn : w.ram newPd n = e := by
    rw [hwnew]
    exact Ram.setWord_self
  refine ⟨w, T, gs, hw, hfree, (hav.trans haw).mono ?_, hcanw, fun i hi => ?_, by rw [hwn, hef], ?_, hgs⟩
  · rintro g (rfl | rfl)
    · exact .inr rfl
    · exact .inl (by simp)
  · rw [hwnew, hv, Vm.setWord_ram, Ram.setWord_other hi, Vm.setPage_ram, Ram.setPage_ne hTnew.symm, hram]
  · rw [hwn]
    refine ⟨by rw [he, present_frameAddr_or, present_entryFlags, ho.1],
      by rw [he, entryFlags_frameAddr_or, entryFlags_entryFlags], ?_⟩
    rw [hef]
    exact hcopy.of_source hvS fun f hf => hav.ram_held (hP f hf).1 (hP f hf).2

/-- The state of the outer loop after `n` entries, since the state `s` before the clone. -/
structure Cloning (s t : Vm) (src new n : Nat) (fs : List Nat) : Prop where
  allocates : Allocates s t fs (fun _ => False)
  shared : ∀ i, n ≤ i ∨ ¬ OwnEntry s.ram s.kernelDirectory src i → t.ram new i =
    if i < 1024 ∧ present (s.ram s.kernelDirectory i) then s.ram s.kernelDirectory i else 0
  own : ∀ i < n, OwnEntry s.ram s.kernelDirectory src i →
    ClonedEntry (¬ s.pmm.Free ·) s.ram t.ram (s.ram src i) (t.ram new i)
  differs : ∀ i < n, OwnEntry s.ram s.kernelDirectory src i → OwnEntry t.ram s.kernelDirectory new i
  frames : (dirFrames t.ram s.kernelDirectory new n ++ [new]).Perm fs

theorem Cloning.start (ha : Allocates s t [newPd] (fun _ => False))
    (he : ∀ i, t.ram newPd i =
      if i < 1024 ∧ present (s.ram s.kernelDirectory i) then s.ram s.kernelDirectory i else 0) :
    Cloning s t sourcePd newPd 0 [newPd] :=
  ⟨ha, fun i _ => he i, fun i hi => absurd hi (Nat.not_lt_zero i), fun i hi => absurd hi (Nat.not_lt_zero i),
    by simp [dirFrames]⟩

theorem Cloning.new_mem (h : Cloning s t sourcePd newPd n fs) : newPd ∈ fs :=
  h.frames.mem_iff.mp (by simp)

theorem Cloning.new_notMem (h : Cloning s t sourcePd newPd n fs) :
    newPd ∉ dirFrames t.ram s.kernelDirectory newPd n := fun hm =>
  (nodup_append.mp (h.frames.nodup_iff.mpr h.allocates.grows.nodup)).2.2 _ hm _ (by simp) rfl

theorem Cloning.not_own (h : Cloning s t sourcePd newPd n fs) (hkd : ¬ s.pmm.Free s.kernelDirectory)
    (hi : n ≤ i ∨ ¬ OwnEntry s.ram s.kernelDirectory sourcePd i) :
    ¬ OwnEntry t.ram s.kernelDirectory newPd i := by
  rintro ⟨hp, hne⟩
  rw [h.shared i hi] at hp hne
  rw [h.allocates.ram_held hkd id] at hne
  split_ifs at hp hne
  · exact hne rfl
  · exact absurd hp (by decide)

theorem ClonedEntry.keep {ram'' : Ram} {src dest : Word} (h : ClonedEntry held ram ram' src dest)
    (ht : ram'' (frameOf dest) = ram' (frameOf dest))
    (hp : ∀ f ∈ tableFrames ram' (frameOf dest) 1024, ram'' f = ram' f) : ClonedEntry held ram ram'' src dest :=
  ⟨h.mapped, h.flags, h.table.keep (fun j _ => congrFun ht j) hp⟩

private theorem Cloning.own_iff (h : Cloning s t sourcePd newPd n fs) (hs : CloneSource s sourcePd) :
    OwnEntry t.ram t.kernelDirectory sourcePd i ↔ OwnEntry s.ram s.kernelDirectory sourcePd i := by
  have ha := h.allocates
  rw [OwnEntry, OwnEntry, ha.kernelDirectory, ha.ram_held hs.source id, ha.ram_held hs.kernel id]

private theorem Cloning.step_own (h : Cloning s t sourcePd newPd n fs) (hs : CloneSource s sourcePd)
    (hn : n < 768) (ho : OwnEntry s.ram s.kernelDirectory sourcePd n)
    (hc : t.pmm.CanAlloc ((entryFrames s.ram s.kernelDirectory sourcePd n).length + k)) :
    ∃ gs, Cloning s (cloneEntry sourcePd newPd n t) sourcePd newPd (n + 1) gs ∧
      (cloneEntry sourcePd newPd n t).pmm.CanAlloc k := by
  have ha := h.allocates
  have hnewfree : s.pmm.Free newPd := ha.grows.free _ h.new_mem
  have held : ∀ {f}, ¬ s.pmm.Free f → f ≠ newPd := fun hf he => hf (he ▸ hnewfree)
  have hsrc : t.ram sourcePd = s.ram sourcePd := ha.ram_held hs.source id
  have hkd : t.ram s.kernelDirectory = s.ram s.kernelDirectory := ha.ram_held hs.kernel id
  have hown := (h.own_iff (i := n) hs).mpr ho
  have hS := hs.tables n hn ho
  have hSram : t.ram (frameOf (s.ram sourcePd n)) = s.ram (frameOf (s.ram sourcePd n)) := ha.ram_held hS id
  have hframes : entryFrames t.ram t.kernelDirectory sourcePd n =
      entryFrames s.ram s.kernelDirectory sourcePd n := by
    rw [ha.kernelDirectory]
    exact entryFrames_congr (congrFun hkd n) (congrFun hsrc n) fun _ j _ => congrFun hSram j
  obtain ⟨w, T, gs, hw, hfree, haw, hcanw, hrest, hT, hclone, hgs⟩ :=
    cloneEntry_spec (k := k) (ha.not_free hs.source) (ha.not_free_new h.new_mem) hown
      (by rw [hsrc]; exact ha.not_free hS) (by rw [hsrc]; exact held hS)
      (fun f (hf : ¬ s.pmm.Free f) => ⟨ha.not_free hf, held hf⟩)
      (by rw [hframes]; exact hc)
  rw [hsrc] at hclone
  rw [hw]
  have hfreeS : s.pmm.Free T := (ha.grows.free_iff.mp hfree).1
  have hwkd : w.ram s.kernelDirectory = t.ram s.kernelDirectory :=
    haw.ram_held (ha.not_free hs.kernel) (held hs.kernel)
  -- Earlier copies are in frames taken before.
  have hwold : ∀ g ∈ dirFrames t.ram s.kernelDirectory newPd n, w.ram g = t.ram g := fun g hg =>
    haw.ram_held (ha.not_free_new (h.frames.mem_iff.mp (mem_append_left _ hg)))
      fun he => h.new_notMem (he ▸ hg)
  have hwown : OwnEntry w.ram s.kernelDirectory newPd n := by
    refine ⟨hclone.mapped, fun hek => ?_⟩
    rw [hwkd, hkd] at hek
    refine hs.kernelTables n hn (hek ▸ hclone.mapped) ?_
    rw [← hek, hT]
    exact hfreeS
  have hold : dirFrames w.ram s.kernelDirectory newPd n = dirFrames t.ram s.kernelDirectory newPd n :=
    dirFrames_congr (fun i _ => congrFun hwkd i) (fun i hi => hrest i (by omega)) fun i hi hoi j _ =>
      congrFun (hwold _ (mem_dirFrames.mpr ⟨i, hi, hoi, .inr rfl⟩)) j
  refine ⟨fs ++ (T :: gs), ⟨(ha.trans haw).mono ?_, fun i hi => ?_, fun i hi hoi => ?_,
    fun i hi hoi => ?_, ?_⟩, hcanw⟩
  · rintro g (hg | rfl)
    · exact hg.elim
    · exact .inl (by simp [h.new_mem])
  · have hin : i ≠ n := by
      rintro rfl
      exact hi.elim (by omega) fun hno => hno ho
    rw [hrest i hin]
    exact h.shared i (hi.imp (by omega) id)
  · rcases Nat.lt_succ_iff_lt_or_eq.mp hi with hi | rfl
    · have hcl : ∀ g, g ∈ tableFrames t.ram (frameOf (t.ram newPd i)) 1024 ∨ g = frameOf (t.ram newPd i) →
          w.ram g = t.ram g := fun g hg => hwold g (mem_dirFrames.mpr ⟨i, hi, h.differs i hi hoi, hg⟩)
      rw [hrest i (by omega)]
      exact (h.own i hi hoi).keep (hcl _ (.inr rfl)) fun g hg => hcl g (.inl hg)
    · exact ⟨hclone.mapped, hclone.flags, hclone.table.of_source hSram fun f hf =>
        ha.ram_held hf id⟩
  · rcases Nat.lt_succ_iff_lt_or_eq.mp hi with hi | rfl
    · rw [OwnEntry, hrest i (by omega), hwkd]
      exact h.differs i hi hoi
    · exact hwown
  · rw [dirFrames_succ, hold, entryFrames, if_pos hwown, hT, hgs]
    have hp : (dirFrames t.ram s.kernelDirectory newPd n ++ (gs ++ [T]) ++ [newPd]).Perm
        (dirFrames t.ram s.kernelDirectory newPd n ++ [newPd] ++ (gs ++ [T])) := by
      rw [append_assoc _ (gs ++ [T]), append_assoc _ [newPd]]
      exact List.Perm.append_left _ perm_append_comm
    exact hp.trans (h.frames.append (perm_append_singleton T gs))

private theorem Cloning.step_shared (h : Cloning s t sourcePd newPd n fs) (hs : CloneSource s sourcePd)
    (ho : ¬ OwnEntry s.ram s.kernelDirectory sourcePd n)
    (hc : t.pmm.CanAlloc ((entryFrames s.ram s.kernelDirectory sourcePd n).length + k)) :
    ∃ gs, Cloning s (cloneEntry sourcePd newPd n t) sourcePd newPd (n + 1) gs ∧
      (cloneEntry sourcePd newPd n t).pmm.CanAlloc k := by
  rw [cloneEntry, if_neg (mt (h.own_iff hs).mp ho)]
  rw [entryFrames, if_neg ho] at hc
  refine ⟨fs, ⟨h.allocates, fun i hi => h.shared i (hi.imp (by omega) id), fun i hi hoi => ?_,
    fun i hi hoi => ?_, ?_⟩, by simpa using hc⟩
  · rcases Nat.lt_succ_iff_lt_or_eq.mp hi with hi | rfl
    · exact h.own i hi hoi
    · exact absurd hoi ho
  · rcases Nat.lt_succ_iff_lt_or_eq.mp hi with hi | rfl
    · exact h.differs i hi hoi
    · exact absurd hoi ho
  · rw [dirFrames_succ, entryFrames, if_neg (h.not_own hs.kernel (.inr ho)), append_nil]
    exact h.frames

private theorem Cloning.step (h : Cloning s t sourcePd newPd n fs) (hs : CloneSource s sourcePd)
    (hn : n < 768)
    (hc : t.pmm.CanAlloc ((entryFrames s.ram s.kernelDirectory sourcePd n).length + k)) :
    ∃ gs, Cloning s (cloneEntry sourcePd newPd n t) sourcePd newPd (n + 1) gs ∧
      (cloneEntry sourcePd newPd n t).pmm.CanAlloc k := by
  by_cases ho : OwnEntry s.ram s.kernelDirectory sourcePd n
  · exact h.step_own hs hn ho hc
  · exact h.step_shared hs ho hc

theorem pdClone_spec (hs : CloneSource s sourcePd)
    (hc : s.pmm.CanAlloc ((dirFrames s.ram s.kernelDirectory sourcePd 768).length + 1 + k)) :
    ∃ t new fs, pdClone s sourcePd = (t, new) ∧ Cloning s t sourcePd new 768 fs ∧ t.pmm.CanAlloc k := by
  rw [Nat.add_right_comm] at hc
  obtain ⟨u, new, hu, -, ha, hcan, hent⟩ := pdCreate_spec hs.kernel hc
  have hloop : ∀ n ≤ 768, ∀ k, u.pmm.CanAlloc ((dirFrames s.ram s.kernelDirectory sourcePd n).length + k) →
      ∃ fs, Cloning s (cloneTables sourcePd new n u) sourcePd new n fs ∧
        (cloneTables sourcePd new n u).pmm.CanAlloc k := by
    intro n
    induction n with
    | zero => exact fun _ k hk => ⟨[new], .start ha hent, by simpa [dirFrames, cloneTables, forUpto] using hk⟩
    | succ n ih =>
      intro hn k hk
      rw [dirFrames_succ, length_append, Nat.add_assoc] at hk
      obtain ⟨fs, hcl, hcan⟩ := ih (by omega) _ hk
      rw [cloneTables_succ]
      exact hcl.step hs hn hcan
  obtain ⟨fs, hcl, hcan⟩ := hloop 768 le_rfl k hcan
  rw [pdClone, hu]
  exact ⟨_, new, fs, rfl, hcl, hcan⟩

theorem Cloning.dirFrames_eq (h : Cloning s t sourcePd newPd 768 fs) (hkd : ¬ s.pmm.Free s.kernelDirectory) :
    dirFrames t.ram s.kernelDirectory newPd 1024 = dirFrames t.ram s.kernelDirectory newPd 768 :=
  dirFrames_of_not_own (by decide) fun _ hi _ => h.not_own hkd (.inl hi)

/-- The clone takes a frame for itself, and one for each table and page it copies. -/
theorem Cloning.length_frames (h : Cloning s t sourcePd newPd n fs) (hkd : ¬ s.pmm.Free s.kernelDirectory) :
    fs.length = (dirFrames s.ram s.kernelDirectory sourcePd n).length + 1 := by
  have hdir : ∀ m ≤ n, (dirFrames t.ram s.kernelDirectory newPd m).length =
      (dirFrames s.ram s.kernelDirectory sourcePd m).length := by
    intro m hm
    induction m with
    | zero => rfl
    | succ m ih =>
      rw [dirFrames_succ, dirFrames_succ, length_append, length_append, ih (by omega), entryFrames, entryFrames]
      by_cases ho : OwnEntry s.ram s.kernelDirectory sourcePd m
      · rw [if_pos (h.differs m hm ho), if_pos ho, length_append, length_append,
          (h.own m hm ho).table.length_frames]
        rfl
      · rw [if_neg (h.not_own hkd (.inr ho)), if_neg ho]
  rw [← h.frames.length_eq, length_append, hdir n le_rfl]
  rfl

/-- How a page of the source is found in the clone: through the same kernel table, or as a copy
with the same flags in a frame that was free. -/
def PageCloned (s t : Vm) (src new : Nat) (virt : Word) : Prop :=
  if s.ram src (pdIndex virt) = s.ram s.kernelDirectory (pdIndex virt) then
    translate t.ram new virt = translate s.ram src virt
  else
    match translate s.ram src virt with
    | none => translate t.ram new virt = none
    | some x => ∃ y, translate t.ram new virt = some y ∧ y.flags = x.flags ∧ y.tableFlags = x.tableFlags ∧
        t.ram y.frame = s.ram x.frame ∧ s.pmm.Free y.frame

theorem ClonedEntry.translate_eq (h : ClonedEntry held s.ram t.ram
    (s.ram sourcePd (pdIndex virt)) (t.ram newPd (pdIndex virt)))
    (hp : present (s.ram sourcePd (pdIndex virt)) = true) :
    match translate s.ram sourcePd virt with
    | none => translate t.ram newPd virt = none
    | some x => ∃ y, translate t.ram newPd virt = some y ∧ y.flags = x.flags ∧
        y.tableFlags = x.tableFlags ∧ (held x.frame → t.ram y.frame = s.ram x.frame) ∧
        y.frame ∈ tableFrames t.ram (frameOf (t.ram newPd (pdIndex virt))) 1024 := by
  obtain ⟨hy, hn⟩ := h.table (ptIndex virt) (ptIndex_lt virt)
  simp only [translate, hp, h.mapped, Bool.true_and]
  cases hpt : present (s.ram (frameOf (s.ram sourcePd (pdIndex virt))) (ptIndex virt)) with
  | false => simp [hn hpt]
  | true =>
    obtain ⟨h1, h2, h3⟩ := hy hpt
    simp only [h1, if_true]
    exact ⟨_, rfl, h2, h.flags, h3, mem_tableFrames.mpr ⟨_, ptIndex_lt virt, h1, rfl⟩⟩

theorem translate_some {x : Translation} (h : translate ram pd virt = some x) :
    present (ram (frameOf (ram pd (pdIndex virt))) (ptIndex virt)) = true ∧
      frameOf (ram (frameOf (ram pd (pdIndex virt))) (ptIndex virt)) = x.frame := by
  simp only [translate] at h
  split_ifs at h with hp
  cases h
  exact ⟨(Bool.and_eq_true_iff.mp hp).2, rfl⟩

theorem Cloning.pageCloned (h : Cloning s t sourcePd newPd 768 fs) (hs : CloneSource s sourcePd)
    (hp : PagesHeld s sourcePd)
    (hk : ∀ i < 768, present (s.ram s.kernelDirectory i) = true → present (s.ram sourcePd i) = true) (hv : pdIndex virt < 768) : PageCloned s t sourcePd newPd virt := by
  have hshared := h.shared (pdIndex virt)
  rw [PageCloned]
  by_cases ho : OwnEntry s.ram s.kernelDirectory sourcePd (pdIndex virt)
  · rw [if_neg ho.2]
    have htr := (h.own _ hv ho).translate_eq ho.1
    cases hx : translate s.ram sourcePd virt with
    | none => rwa [hx] at htr
    | some x =>
      rw [hx] at htr
      obtain ⟨y, hy, h1, h2, h3, hm⟩ := htr
      obtain ⟨hpx, hfx⟩ := translate_some hx
      refine ⟨y, hy, h1, h2, h3 (hfx ▸ hp _ hv ho _ (ptIndex_lt virt) hpx), h.allocates.grows.free _ (h.frames.mem_iff.mp (mem_append_left _ ?_))⟩
      exact mem_dirFrames.mpr ⟨_, hv, h.differs _ hv ho, .inl hm⟩
  · have he := hshared (.inr ho)
    by_cases hp : present (s.ram sourcePd (pdIndex virt)) = true
    · have heq : s.ram sourcePd (pdIndex virt) = s.ram s.kernelDirectory (pdIndex virt) := by
        by_contra hne
        exact ho ⟨hp, hne⟩
      rw [if_pos heq]
      rw [if_pos ⟨by omega, heq ▸ hp⟩, ← heq] at he
      simp only [translate, he]
      rw [h.allocates.ram_held (heq ▸ hs.kernelTables _ hv (heq ▸ hp)) id]
    · have hkd : ¬ present (s.ram s.kernelDirectory (pdIndex virt)) = true := fun hkp => hp (hk _ hv hkp)
      rw [if_neg fun hc => hkd hc.2] at he
      have hnone : translate t.ram newPd virt = none := by simp [translate, he]
      have hnone' : translate s.ram sourcePd virt = none := by simp [translate, hp]
      rw [hnone, hnone']
      split <;> trivial

/-- Writes to frames that are neither the clone's nor the kernel's tables leave the copies as they are. -/
theorem Cloning.pageCloned_keep (h : Cloning s t sourcePd newPd 768 fs) (hv : pdIndex virt < 768)
    (hc : PageCloned s t sourcePd newPd virt) (hfs : ∀ f ∈ fs, ram' f = t.ram f)
    (hk : ∀ i < 768, present (s.ram s.kernelDirectory i) = true →
      ram' (frameOf (s.ram s.kernelDirectory i)) = t.ram (frameOf (s.ram s.kernelDirectory i))) :
    PageCloned s { t with ram := ram' } sourcePd newPd virt := by
  have hown : ∀ f, OwnEntry s.ram s.kernelDirectory sourcePd (pdIndex virt) →
      f ∈ tableFrames t.ram (frameOf (t.ram newPd (pdIndex virt))) 1024 ∨ f = frameOf (t.ram newPd (pdIndex virt)) →
      ram' f = t.ram f := fun f ho hf =>
    hfs f (h.frames.mem_iff.mp (mem_append_left _ (mem_dirFrames.mpr ⟨_, hv, h.differs _ hv ho, hf⟩)))
  have htr : translate ram' newPd virt = translate t.ram newPd virt := by
    refine translate_congr (congrFun (hfs _ h.new_mem) _) fun hp => ?_
    by_cases ho : OwnEntry s.ram s.kernelDirectory sourcePd (pdIndex virt)
    · exact hown _ ho (.inr rfl)
    · rw [h.shared _ (.inr ho)] at hp ⊢
      split_ifs at hp ⊢ with hshared
      · exact hk _ hv hshared.2
      · exact absurd hp (by decide)
  rw [PageCloned] at hc ⊢
  split at hc
  · next he =>
    rw [if_pos he]
    exact htr.trans hc
  · next hne =>
    rw [if_neg hne]
    cases hx : translate s.ram sourcePd virt with
    | none =>
      rw [hx] at hc
      exact htr.trans hc
    | some x =>
      rw [hx] at hc
      obtain ⟨y, hy, h1, h2, h3, h4⟩ := hc
      obtain ⟨hpy, hfy⟩ := translate_some hy
      have ho : OwnEntry s.ram s.kernelDirectory sourcePd (pdIndex virt) := by
        refine ⟨?_, hne⟩
        by_contra hp
        simp [translate, hp] at hx
      exact ⟨y, htr.trans hy, h1, h2, (hown _ ho (.inl (mem_tableFrames.mpr ⟨_, ptIndex_lt virt, hpy, hfy⟩))).trans h3, h4⟩

/-- The entries of the clone have not been written since `t`. -/
structure EntriesKept (t u : Vm) (pd : Nat) : Prop where
  pmm : u.pmm = t.pmm
  kernelDirectory : u.kernelDirectory = t.kernelDirectory
  kernelEntries : ∀ i < 1024, u.ram t.kernelDirectory i = t.ram t.kernelDirectory i
  entries : ∀ i < 1024, u.ram pd i = t.ram pd i
  tables : ∀ i < 1024, OwnEntry t.ram t.kernelDirectory pd i → ∀ j < 1024,
    u.ram (frameOf (t.ram pd i)) j = t.ram (frameOf (t.ram pd i)) j

theorem EntriesKept.pdDestroy_pmm {u : Vm} (h : EntriesKept t u pd) (hpd : pd < 2 ^ 20) :
    (pdDestroy u pd).pmm = t.pmm.release (dirFrames t.ram t.kernelDirectory pd 1024 ++ [pd]) := by
  rw [pdDestroy_eq u pd hpd, h.pmm, h.kernelDirectory,
    dirFrames_congr h.kernelEntries h.entries h.tables]

/-- `pd_clone` copies every page below the kernel's half into fresh frames, each page its own, leaves
all frames in use alone, and `pd_destroy` of the clone undoes it in the allocator. -/
theorem pdClone_copies (hs : CloneSource s sourcePd) (hp : PagesHeld s sourcePd)
    (hk : ∀ i < 768, present (s.ram s.kernelDirectory i) = true → present (s.ram sourcePd i) = true)
    (hc : s.pmm.CanAlloc ((dirFrames s.ram s.kernelDirectory sourcePd 768).length + 1)) :
    ∃ t new, pdClone s sourcePd = (t, new) ∧ s.pmm.Free new ∧
      (∀ virt, pdIndex virt < 768 → PageCloned s t sourcePd new virt) ∧
      (∀ virt virt' x y, OwnEntry t.ram s.kernelDirectory new (pdIndex virt) →
        OwnEntry t.ram s.kernelDirectory new (pdIndex virt') → translate t.ram new virt = some x →
        translate t.ram new virt' = some y → x.frame = y.frame →
        pdIndex virt = pdIndex virt' ∧ ptIndex virt = ptIndex virt') ∧
      (∀ f, ¬ s.pmm.Free f → t.ram f = s.ram f) ∧
      ∀ u, EntriesKept t u new → (pdDestroy u new).pmm = s.pmm := by
  obtain ⟨t, new, fs, hcl, h, -⟩ := pdClone_spec (k := 0) hs hc
  have hfree : s.pmm.Free new := h.allocates.grows.free _ h.new_mem
  have hkd := h.allocates.kernelDirectory
  refine ⟨t, new, hcl, hfree, fun virt hv => h.pageCloned hs hp hk hv, ?_, fun f hf =>
    h.allocates.ram_held hf id, fun u hu => ?_⟩
  · intro virt virt' x y ho ho' hx hy he
    have hnd : (dirFrames t.ram s.kernelDirectory new 1024).Nodup := by
      rw [h.dirFrames_eq hs.kernel]
      exact (nodup_append.mp (h.frames.nodup_iff.mpr h.allocates.grows.nodup)).1
    obtain ⟨hpx, hfx⟩ := translate_some hx
    obtain ⟨hpy, hfy⟩ := translate_some hy
    have hin : ∀ {v : Word}, OwnEntry t.ram s.kernelDirectory new (pdIndex v) →
        present (t.ram (frameOf (t.ram new (pdIndex v))) (ptIndex v)) = true →
        frameOf (t.ram (frameOf (t.ram new (pdIndex v))) (ptIndex v)) ∈
          entryFrames t.ram s.kernelDirectory new (pdIndex v) := by
      intro v hov hpv
      rw [entryFrames, if_pos hov]
      exact mem_append_left _ (mem_tableFrames.mpr ⟨_, ptIndex_lt v, hpv, rfl⟩)
    have hpd : pdIndex virt = pdIndex virt' := by
      refine dirFrames_inj hnd (pdIndex_lt virt) (pdIndex_lt virt') (hin ho hpx) ?_
      rw [hfx, he, ← hfy]
      exact hin ho' hpy
    refine ⟨hpd, ?_⟩
    have hen := entryFrames_nodup hnd (pdIndex_lt virt)
    rw [entryFrames, if_pos ho] at hen
    rw [← hpd] at hpy hfy
    exact tableFrames_inj (nodup_append.mp hen).1 (ptIndex_lt virt) (ptIndex_lt virt') hpx hpy
      (by rw [hfx, he, ← hfy])
  · rw [hu.pdDestroy_pmm hfree.lt, hkd, h.dirFrames_eq hs.kernel]
    exact h.allocates.grows.release_perm h.frames

/-- 2112 frames, the 2048 of the first 8 MB used: the kernel directory in frame 1, and a directory in
frame 2 whose table in frame 3 maps the page in frame 4 at 0x400000. -/
def onePageVm : Vm where
  pmm := ⟨fun i => if i < 64 then 0xFFFFFFFF else 0, 2112, 2048, by decide⟩
  ram f i := if f = 2 ∧ i = 1 then 0x3007 else if f = 3 ∧ i = 0 then 0x4007 else 0
  kernelDirectory := 1
  currentDirectory := some 1
  cr3 := 2
  currentProcess := some 2
  shmSegments _ := ⟨0, 0, 0, 0, 0, false⟩

private theorem onePageVm_own : OwnEntry onePageVm.ram 1 2 i ↔ i = 1 := by
  by_cases hi : i = 1
  · subst hi
    decide
  · simp [OwnEntry, onePageVm, hi]

theorem onePageVm_kernel_zero (i : Nat) : onePageVm.ram 1 i = 0 := by simp [onePageVm]

private theorem onePageVm_page {j : Nat} (h : present (onePageVm.ram 3 j) = true) : j = 0 := by
  by_contra hne
  simp [onePageVm, hne] at h

theorem onePageVm_source : CloneSource onePageVm 2 := by
  refine ⟨by decide, by decide, fun i _ hp => absurd (onePageVm_kernel_zero i ▸ hp) (by decide), fun i _ ho => ?_⟩
  obtain rfl := onePageVm_own.mp ho
  decide

theorem onePageVm_pages : PagesHeld onePageVm 2 := fun i _ ho j _ hp => by
  obtain rfl := onePageVm_own.mp ho
  obtain rfl := onePageVm_page hp
  decide

theorem onePageVm_canAlloc : onePageVm.pmm.CanAlloc ((dirFrames onePageVm.ram 1 2 768).length + 1) := by
  have hlen : (dirFrames onePageVm.ram 1 2 768).length = 2 := by
    rw [dirFrames_of_not_own (n := 2) (by decide) fun i hi _ ho => by
      have := onePageVm_own.mp ho
      omega]
    have htab : tableFrames onePageVm.ram 3 1024 = [4] := by
      rw [tableFrames_of_absent (n := 1) (by decide) fun j hj _ => by
        by_contra hp
        have := onePageVm_page (j := j) (by simpa using hp)
        omega]
      rfl
    have h0 : entryFrames onePageVm.ram 1 2 0 = [] := if_neg (mt onePageVm_own.mp (by decide))
    have h1 : entryFrames onePageVm.ram 1 2 1 = [4, 3] := by
      rw [entryFrames, if_pos (onePageVm_own.mpr rfl), show frameOf (onePageVm.ram 2 1) = 3 by decide, htab]
      rfl
    rw [dirFrames_succ, dirFrames_succ, h0, h1]
    rfl
  rw [hlen]
  have hfree : {2048, 2049, 2050} ⊆ onePageVm.pmm.freeFrames := fun f hf => by
    simp only [Finset.mem_insert, Finset.mem_singleton] at hf
    rw [Pmm.mem_freeFrames]
    rcases hf with rfl | rfl | rfl <;> decide
  exact ⟨by decide, Finset.card_le_card hfree⟩

theorem onePageVm_clone : ∃ t new, pdClone onePageVm 2 = (t, new) ∧ onePageVm.pmm.Free new ∧
    PageCloned onePageVm t 2 new 0x400000 ∧ (pdDestroy t new).pmm = onePageVm.pmm := by
  obtain ⟨t, new, hcl, hfree, hpage, -, -, hdestroy⟩ := pdClone_copies onePageVm_source onePageVm_pages
    (fun i _ hp => absurd (onePageVm_kernel_zero i ▸ hp) (by decide)) onePageVm_canAlloc
  exact ⟨t, new, hcl, hfree, hpage _ (by decide),
    hdestroy t ⟨rfl, rfl, fun _ _ => rfl, fun _ _ => rfl, fun _ _ _ _ _ => rfl⟩⟩

end RetroOs.Kernel
