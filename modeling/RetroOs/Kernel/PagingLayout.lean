import RetroOs.Kernel.PagingClone

/-! Directories and tables are in frames the allocator will not hand out, and no table is a
directory. Every paging operation keeps this as long as it finds the frames it needs. -/
namespace RetroOs.Kernel
open Lib Ram

structure Layout (s : Vm) (dirs : List Nat) : Prop where
  dirHeld : ∀ d ∈ s.kernelDirectory :: dirs, ¬ s.pmm.Free d
  tableHeld : ∀ d ∈ s.kernelDirectory :: dirs, ∀ i < 1024, present (s.ram d i) = true →
    ¬ s.pmm.Free (frameOf (s.ram d i))
  apart : ∀ d ∈ s.kernelDirectory :: dirs, ∀ i < 1024, present (s.ram d i) = true →
    frameOf (s.ram d i) ∉ s.kernelDirectory :: dirs

def IsStructure (s : Vm) (dirs : List Nat) (f : Nat) : Prop :=
  f ∈ s.kernelDirectory :: dirs ∨
    ∃ d ∈ s.kernelDirectory :: dirs, ∃ i < 1024, present (s.ram d i) = true ∧ frameOf (s.ram d i) = f

/-- Frames `mapPage` takes. -/
def mapNeeds (s : Vm) (pd : Nat) (virt : Word) : Nat := if present (s.ram pd (pdIndex virt)) then 0 else 1

variable {s t u : Vm} {dirs fs gs : List Nat} {W : Nat → Prop} {d pd new f g i k : Nat}
  {phys virt flags w : Word}

namespace Layout

theorem not_free (h : Layout s dirs) (hf : IsStructure s dirs f) : ¬ s.pmm.Free f := by
  rcases hf with hf | ⟨d, hd, i, hi, hp, rfl⟩
  · exact h.dirHeld f hf
  · exact h.tableHeld d hd i hi hp

theorem of_allocates (h : Layout s dirs) (ha : Allocates s t fs W)
    (hW : ∀ d ∈ s.kernelDirectory :: dirs, ¬ W d) : Layout t dirs := by
  have hram : ∀ d ∈ s.kernelDirectory :: dirs, t.ram d = s.ram d := fun d hd =>
    ha.ram_held (h.dirHeld d hd) (hW d hd)
  refine ⟨?_, ?_, ?_⟩ <;> simp only [ha.kernelDirectory]
  · exact fun d hd => ha.not_free (h.dirHeld d hd)
  · intro d hd i hi
    rw [hram d hd]
    exact fun hp => ha.not_free (h.tableHeld d hd i hi hp)
  · intro d hd i hi
    rw [hram d hd]
    exact h.apart d hd i hi

theorem link (h : Layout s dirs) (hf : ¬ s.pmm.Free (frameOf w))
    (ha : frameOf w ∉ s.kernelDirectory :: dirs) : Layout (s.setWord d i w) dirs := by
  have hent : ∀ e j, (s.setWord d i w).ram e j = s.ram e j ∨ (s.setWord d i w).ram e j = w := by
    intro e j
    by_cases he : e = d
    · by_cases hj : j = i
      · rw [he, hj]
        exact .inr setWord_self
      · exact .inl (setWord_other hj)
    · exact .inl (congrFun (setWord_ne he) j)
  refine ⟨h.dirHeld, fun e he j hj => ?_, fun e he j hj => ?_⟩
  · rcases hent e j with hej | hej <;> rw [hej]
    · exact h.tableHeld e he j hj
    · exact fun _ => hf
  · rcases hent e j with hej | hej <;> rw [hej]
    · exact h.apart e he j hj
    · exact fun _ => ha

theorem release (h : Layout s dirs) (hlt : ∀ f ∈ gs, f < 2 ^ 20)
    (hg : ∀ f ∈ gs, ¬ IsStructure s dirs f) : Layout { s with pmm := s.pmm.release gs } dirs := by
  have hfree : ∀ f, IsStructure s dirs f → ¬ (s.pmm.release gs).Free f := by
    intro f hf hfr
    refine h.not_free hf ?_
    have hn : f ∉ gs := fun hm => hg f hm hf
    simpa [Pmm.Free, Pmm.maxBlocks_release, Pmm.mmapTest_release hlt, hn] using hfr
  exact ⟨fun d hd => hfree d (.inl hd), fun d hd i hi hp => hfree _ (.inr ⟨d, hd, i, hi, hp, rfl⟩), h.apart⟩

theorem add (h : Layout s dirs) (ha : Allocates s t fs (fun _ => False)) (hn : new ∈ fs)
    (he : ∀ i < 1024, present (t.ram new i) = true →
      t.ram new i = s.ram s.kernelDirectory i ∨ frameOf (t.ram new i) ∈ fs ∧ frameOf (t.ram new i) ≠ new) :
    Layout t (new :: dirs) := by
  have hold : Layout t dirs := h.of_allocates ha fun _ _ => id
  have hkd := ha.kernelDirectory
  have hnew : ∀ f, IsStructure s dirs f → f ≠ new := fun f hf hfn =>
    h.not_free hf (hfn ▸ ha.grows.free new hn)
  have hmem : ∀ {d}, d ∈ t.kernelDirectory :: new :: dirs → d = new ∨ d ∈ t.kernelDirectory :: dirs := by
    intro d hd
    simp only [List.mem_cons] at hd ⊢
    tauto
  have htable : ∀ i < 1024, present (t.ram new i) = true →
      (IsStructure s dirs (frameOf (t.ram new i)) ∧ frameOf (t.ram new i) ∉ s.kernelDirectory :: dirs) ∨
        frameOf (t.ram new i) ∈ fs ∧ frameOf (t.ram new i) ≠ new := by
    intro i hi hp
    refine (he i hi hp).imp (fun hs => ?_) id
    rw [hs] at hp ⊢
    exact ⟨.inr ⟨_, .head _, i, hi, hp, rfl⟩, h.apart _ (.head _) i hi hp⟩
  refine ⟨fun d hd => ?_, fun d hd i hi hp => ?_, fun d hd i hi hp hm => ?_⟩
  · rcases hmem hd with rfl | hd
    · exact ha.not_free_new hn
    · exact hold.dirHeld d hd
  · rcases hmem hd with rfl | hd
    · rcases htable i hi hp with ⟨hs, -⟩ | ⟨hf, -⟩
      · exact ha.not_free (h.not_free hs)
      · exact ha.not_free_new hf
    · exact hold.tableHeld d hd i hi hp
  · rcases hmem hd with rfl | hd
    · rcases htable i hi hp with ⟨hs, hnd⟩ | ⟨hf, hne⟩ <;> rcases hmem hm with he | hm
      · exact hnew _ hs he
      · exact hnd (hkd ▸ hm)
      · exact hne he
      · exact h.dirHeld _ (hkd ▸ hm) (ha.grows.free _ hf)
    · rcases hmem hm with he | hm
      · have hram := ha.ram_held (h.dirHeld d (hkd ▸ hd)) id
        rw [hram] at hp he
        exact hnew _ (.inr ⟨d, hkd ▸ hd, i, hi, hp, rfl⟩) he
      · exact hold.apart d hd i hi hp hm

theorem remove (h : Layout s dirs) : Layout s (dirs.filter (· ≠ d)) := by
  have hsub : ∀ {e}, e ∈ s.kernelDirectory :: dirs.filter (· ≠ d) → e ∈ s.kernelDirectory :: dirs := by
    intro e he
    simp only [List.mem_cons, List.mem_filter] at he ⊢
    tauto
  exact ⟨fun e he => h.dirHeld e (hsub he), fun e he => h.tableHeld e (hsub he),
    fun e he i hi hp hm => h.apart e (hsub he) i hi hp (hsub hm)⟩

theorem switch (h : Layout s dirs) {cr3 : Nat} {cur proc : Option Nat} :
    Layout { s with cr3 := cr3, currentDirectory := cur, currentProcess := proc } dirs :=
  ⟨h.dirHeld, h.tableHeld, h.apart⟩

end Layout

/-- What `mapPage` leaves behind in the directory it was given. -/
structure Mapped (s t : Vm) (pd : Nat) (virt w : Word) : Prop where
  entry : present (t.ram pd (pdIndex virt)) = true
  kept : present (s.ram pd (pdIndex virt)) = true → t.ram pd (pdIndex virt) = s.ram pd (pdIndex virt)
  others : ∀ i, i ≠ pdIndex virt → t.ram pd i = s.ram pd i
  page : t.ram (frameOf (t.ram pd (pdIndex virt))) (ptIndex virt) = w

theorem Mapped.translate_eq (h : Mapped s t pd virt w) (hw : present w = true) :
    translate t.ram pd virt = some ⟨frameOf w, entryFlags w, entryFlags (t.ram pd (pdIndex virt))⟩ := by
  simp [translate, h.entry, h.page, hw]

theorem mapPage_spec (phys virt flags : Word) (h : Layout s dirs) (hpd : pd ∈ s.kernelDirectory :: dirs)
    (hc : s.pmm.CanAlloc (mapNeeds s pd virt + k)) :
    ∃ t fs, mapPage s pd phys virt flags = t ∧ Layout t dirs ∧ t.pmm.CanAlloc k ∧
      Allocates s t fs (fun f => f = pd ∨
        present (s.ram pd (pdIndex virt)) = true ∧ f = frameOf (s.ram pd (pdIndex virt))) ∧
      (present (s.ram pd (pdIndex virt)) = false → frameOf (t.ram pd (pdIndex virt)) ∈ fs) ∧
      Mapped s t pd virt (entryAddr phys ||| flags) := by
  rw [mapPage]
  by_cases hp : present (s.ram pd (pdIndex virt)) = true
  · rw [mapNeeds, if_pos hp, Nat.zero_add] at hc
    simp only [hp, if_true]
    have hap := h.apart pd hpd _ (pdIndex_lt virt) hp
    have hne : pd ≠ frameOf (s.ram pd (pdIndex virt)) := fun he => hap (he ▸ hpd)
    set t := s.setWord (frameOf (s.ram pd (pdIndex virt))) (ptIndex virt) (entryAddr phys ||| flags) with ht
    have ha := Allocates.setWord s (frameOf (s.ram pd (pdIndex virt))) (ptIndex virt) (entryAddr phys ||| flags)
    have hram : t.ram pd = s.ram pd := setWord_ne hne
    refine ⟨t, [], rfl, h.of_allocates ha fun d hd he => hap (he ▸ hd), hc,
      ha.mono fun f hf => .inr (.inr ⟨trivial, hf⟩), by simp, ⟨?_, fun _ => congrFun hram _, fun i _ => congrFun hram i, ?_⟩⟩
    · rw [hram, hp]
    · rw [hram]
      exact setWord_self
  · rw [mapNeeds, if_neg hp, Nat.add_comm] at hc
    simp only [hp, Bool.false_eq_true, if_false]
    obtain ⟨T, u, hu, hfree, hau, hram, hcan⟩ := allocFrame_spec hc
    have hTd : ∀ d ∈ s.kernelDirectory :: dirs, d ≠ T := fun d hd he => h.dirHeld d hd (he ▸ hfree)
    have hTpd : T ≠ pd := (hTd pd hpd).symm
    simp only [hu]
    set e := frameAddr T ||| (7 : Word) with he
    have hef : frameOf e = T := frameOf_frameAddr_or hfree.lt (by decide)
    have hep : present e = true := by rw [he, present_frameAddr_or]; decide
    set v := (u.setPage T zeroPage).setWord pd (pdIndex virt) e with hv
    have hve : v.ram pd (pdIndex virt) = e := setWord_self
    have hvo : ∀ i, i ≠ pdIndex virt → v.ram pd i = s.ram pd i := fun i hi => by
      rw [hv, Vm.setWord_ram, setWord_other hi, Vm.setPage_ram, setPage_ne hTpd.symm, hram]
    have hau' : Allocates s (u.setPage T zeroPage) [T] (fun _ => False) := by
      refine (hau.trans (.setPage u T zeroPage)).mono ?_
      rintro f (hf | rfl)
      · exact hf.elim
      · exact .inl (by simp)
    have hlu : Layout (u.setPage T zeroPage) dirs := h.of_allocates hau' fun _ _ => id
    have hlv : Layout v dirs := by
      refine hlu.link ?_ ?_
      · rw [hef]
        exact hau'.not_free_new (by simp)
      · rw [hef, hau'.kernelDirectory]
        exact fun hm => hTd T hm rfl
    have hav : Allocates s v [T] (· = pd) := by
      refine (hau'.trans (.setWord _ pd (pdIndex virt) e)).mono ?_
      rintro f (hf | rfl)
      · exact hf.elim
      · exact .inr rfl
    rw [hve, hef]
    have haw := hav.trans (.setWord v T (ptIndex virt) (entryAddr phys ||| flags))
    have hwram : (v.setWord T (ptIndex virt) (entryAddr phys ||| flags)).ram pd = v.ram pd :=
      setWord_ne hTpd.symm
    refine ⟨_, [T], rfl, hlv.of_allocates (.setWord v T _ _) ?_, hcan, haw.mono ?_, fun _ => ?_,
      ⟨?_, fun hp' => absurd hp' hp, fun i hi => ?_, ?_⟩⟩
    · rintro d hd rfl
      rw [hav.kernelDirectory] at hd
      exact hTd d hd rfl
    · rintro f (rfl | rfl)
      · exact .inr (.inl rfl)
      · exact .inl (by simp)
    · rw [hwram, hve, hef]
      simp
    · rw [hwram, hve, hep]
    · rw [hwram, hvo i hi]
    · rw [hwram, hve, hef]
      exact setWord_self

theorem Layout.translate_kept {virt : Word} (h : Layout s dirs) (hd : d ∈ s.kernelDirectory :: dirs)
    (hram : ∀ f, ¬ s.pmm.Free f → ¬ W f → t.ram f = s.ram f) (hWd : ¬ W d)
    (hWt : present (s.ram d (pdIndex virt)) = true → ¬ W (frameOf (s.ram d (pdIndex virt)))) :
    translate t.ram d virt = translate s.ram d virt :=
  translate_congr (congrFun (hram d (h.dirHeld d hd) hWd) _) fun hp =>
    hram _ (h.tableHeld d hd _ (pdIndex_lt virt) hp) (hWt hp)

theorem pdCreate_layout (h : Layout s dirs) (hc : s.pmm.CanAlloc (k + 1)) :
    ∃ t new, pdCreate s = (t, new) ∧ s.pmm.Free new ∧ Layout t (new :: dirs) ∧
      Allocates s t [new] (fun _ => False) ∧ t.pmm.CanAlloc k ∧
      ∀ i, t.ram new i =
        if i < 1024 ∧ present (s.ram s.kernelDirectory i) then s.ram s.kernelDirectory i else 0 := by
  obtain ⟨t, new, hcr, hfree, ha, hcan, hent⟩ := pdCreate_spec (h.dirHeld _ (.head _)) hc
  refine ⟨t, new, hcr, hfree, h.add ha (by simp) fun i hi hp => ?_, ha, hcan, hent⟩
  rw [hent i] at hp ⊢
  split_ifs at hp ⊢
  · exact .inl rfl
  · exact absurd hp (by decide)

theorem Layout.cloneSource (h : Layout s dirs) (hd : d ∈ s.kernelDirectory :: dirs) : CloneSource s d where
  kernel := h.dirHeld _ (.head _)
  source := h.dirHeld d hd
  kernelTables i hi hp := h.tableHeld _ (.head _) i (by omega) hp
  tables i hi ho := h.tableHeld d hd i (by omega) ho.1

theorem Cloning.entry (hcl : Cloning s t d new 768 fs) {i : Nat} (hi : i < 1024)
    (hp : present (t.ram new i) = true) :
    t.ram new i = s.ram s.kernelDirectory i ∨
      i < 768 ∧ OwnEntry t.ram s.kernelDirectory new i ∧ frameOf (t.ram new i) ∈ fs ∧
        frameOf (t.ram new i) ≠ new := by
  by_cases ho : i < 768 ∧ OwnEntry s.ram s.kernelDirectory d i
  · obtain ⟨hi', ho⟩ := ho
    have hm : frameOf (t.ram new i) ∈ dirFrames t.ram s.kernelDirectory new 768 :=
      mem_dirFrames.mpr ⟨i, hi', hcl.differs i hi' ho, .inr rfl⟩
    exact .inr ⟨hi', hcl.differs i hi' ho, hcl.frames.mem_iff.mp (List.mem_append_left _ hm),
      fun he => hcl.new_notMem (by rwa [he] at hm)⟩
  · have hs := hcl.shared i (by
      by_cases hi' : i < 768
      · exact .inr fun h => ho ⟨hi', h⟩
      · exact .inl (by omega))
    rw [hs] at hp ⊢
    split_ifs at hp ⊢
    · exact .inl rfl
    · exact absurd hp (by decide)

theorem pdClone_layout (h : Layout s dirs) (hd : d ∈ s.kernelDirectory :: dirs)
    (hc : s.pmm.CanAlloc ((dirFrames s.ram s.kernelDirectory d 768).length + 1 + k)) :
    ∃ t new fs, pdClone s d = (t, new) ∧ s.pmm.Free new ∧ Layout t (new :: dirs) ∧
      Cloning s t d new 768 fs ∧ t.pmm.CanAlloc k := by
  obtain ⟨t, new, fs, hcr, hcl, hcan⟩ := pdClone_spec (h.cloneSource hd) hc
  refine ⟨t, new, fs, hcr, hcl.allocates.grows.free _ hcl.new_mem,
    h.add hcl.allocates hcl.new_mem fun i hi hp => ?_, hcl, hcan⟩
  exact (hcl.entry hi hp).imp id fun ho => ho.2.2

/-- The frame `vm_unmap_page` gives back, if the page is mapped. -/
def unmapFrames (s : Vm) (virt : Word) : List Nat :=
  let pde := s.ram s.cr3 (pdIndex virt)
  let pte := s.ram (frameOf pde) (ptIndex virt)
  if present pde && present pte then [frameOf pte] else []

theorem vmUnmapPage_eq (s : Vm) (virt : Word) :
    vmUnmapPage s virt =
      if present (s.ram s.cr3 (pdIndex virt)) &&
          present (s.ram (frameOf (s.ram s.cr3 (pdIndex virt))) (ptIndex virt)) then
        { s with pmm := s.pmm.release (unmapFrames s virt) }.setWord
          (frameOf (s.ram s.cr3 (pdIndex virt))) (ptIndex virt) 0
      else s := by
  rw [vmUnmapPage, unmapFrames]
  cases hd : present (s.ram s.cr3 (pdIndex virt)) with
  | false => rfl
  | true =>
    cases ht : present (s.ram (frameOf (s.ram s.cr3 (pdIndex virt))) (ptIndex virt)) with
    | false => simp [ht]
    | true => simp [ht, Vm.freeFrame, Pmm.freeBlock_eq_release (frameOf_entryAddr _)]

theorem vmUnmapPage_layout {virt : Word} (h : Layout s dirs) (hact : s.cr3 ∈ s.kernelDirectory :: dirs)
    (hf : ∀ f ∈ unmapFrames s virt, ¬ IsStructure s dirs f) : Layout (vmUnmapPage s virt) dirs := by
  rw [vmUnmapPage_eq]
  split
  · next hp =>
    have hlt : ∀ f ∈ unmapFrames s virt, f < 2 ^ 20 := by
      intro f hf
      rw [unmapFrames, if_pos hp] at hf
      rw [List.mem_singleton.mp hf]
      exact frameOf_lt _
    refine (h.release hlt hf).of_allocates (.setWord _ _ _ _) ?_
    rintro d hd rfl
    exact h.apart _ hact _ (pdIndex_lt virt) (Bool.and_eq_true_iff.mp hp).1 hd
  · exact h

end RetroOs.Kernel
