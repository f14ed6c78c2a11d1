import RetroOs.Kernel.PagingIsolation

/-! Frames of shared segments stay in use unless a directory that maps them is torn down. -/
namespace RetroOs.Kernel
open Lib Kernel.System Pmm List Function

def segmentFrames (seg : ShmSegment) : List Nat :=
  frameRange (frameOf seg.physAddr) (shmPages seg.size).toNat

def SegmentFrame (s : Vm) (f : Nat) : Prop :=
  ∃ i < shmMaxSegments, (s.shmSegments i).inUse = true ∧ f ∈ segmentFrames (s.shmSegments i)

/-- A step that tears mappings down comes across no frame of a segment in use. -/
def SparesSegments (s : System) : VmOp → Prop
  | .pdDestroy pd =>
    pd ∈ s.dirs ∧ ∀ f ∈ dirFrames s.vm.ram s.vm.kernelDirectory pd 1024 ++ [pd], ¬ SegmentFrame s.vm f
  | .vmClearUserMappings => ∀ f, ClearWalked s.vm f → ¬ SegmentFrame s.vm f
  | .vmUnmapPage virt => ∀ f ∈ unmapFrames s.vm virt, ¬ SegmentFrame s.vm f
  | _ => True

structure NotHandedOut (p : Pmm) (f : Nat) : Prop where
  used : p.mmapTest f = true
  block : frameOf p.allocBlock.2 ≠ f
  contiguous : ∀ count, (p.allocContiguousBlocks count).2 ≠ 0 →
    f ∉ frameRange (frameOf (p.allocContiguousBlocks count).2) count.toNat

structure SegmentsHeld (s : Vm) : Prop where
  used : ∀ f, SegmentFrame s f → s.pmm.mmapTest f = true ∧ f ≠ 0
  apart : ∀ i < shmMaxSegments, ∀ j < shmMaxSegments, (s.shmSegments i).inUse = true →
    (s.shmSegments j).inUse = true → ∀ f ∈ segmentFrames (s.shmSegments i),
      f ∈ segmentFrames (s.shmSegments j) → i = j

structure KeepsUsed (s t : Vm) : Prop where
  used : ∀ f, s.pmm.mmapTest f = true → t.pmm.mmapTest f = true
  inUse : ∀ i, (t.shmSegments i).inUse = (s.shmSegments i).inUse
  frames : ∀ i, segmentFrames (t.shmSegments i) = segmentFrames (s.shmSegments i)

variable {s t : Vm} {f i : Nat} {gs : List Nat}

@[simp] theorem Vm.setSegment_ram (s : Vm) (i : Nat) (seg : ShmSegment) : (s.setSegment i seg).ram = s.ram := rfl

@[simp] theorem Vm.setSegment_kernelDirectory (s : Vm) (i : Nat) (seg : ShmSegment) :
    (s.setSegment i seg).kernelDirectory = s.kernelDirectory := rfl

@[simp] theorem Vm.setSegment_cr3 (s : Vm) (i : Nat) (seg : ShmSegment) : (s.setSegment i seg).cr3 = s.cr3 := rfl

@[simp] theorem Vm.setSegment_self (s : Vm) (i : Nat) (seg : ShmSegment) :
    (s.setSegment i seg).shmSegments i = seg :=
  update_self ..

theorem keepsUsed_closed : AllocClosed KeepsUsed where
  refl _ := ⟨fun _ => id, fun _ => rfl, fun _ => rfl⟩
  trans h h' := ⟨fun f hf => h'.used f (h.used f hf), fun i => (h'.inUse i).trans (h.inUse i),
    fun i => (h'.frames i).trans (h.frames i)⟩
  allocFrame _ := ⟨fun _ => allocBlock_mono, fun _ => rfl, fun _ => rfl⟩
  setPage _ _ _ := ⟨fun _ => id, fun _ => rfl, fun _ => rfl⟩
  setWord _ _ _ _ := ⟨fun _ => id, fun _ => rfl, fun _ => rfl⟩

theorem KeepsUsed.segmentFrame (h : KeepsUsed s t) : SegmentFrame t f ↔ SegmentFrame s f := by
  simp only [SegmentFrame, h.inUse, h.frames]

theorem SegmentsHeld.keep (h : SegmentsHeld s) (hk : KeepsUsed s t) : SegmentsHeld t where
  used f hf := (h.used f (hk.segmentFrame.mp hf)).imp (hk.used f) id
  apart i hi j hj hui huj := by
    rw [hk.inUse] at hui huj
    rw [hk.frames, hk.frames]
    exact h.apart i hi j hj hui huj

theorem SegmentsHeld.release (h : SegmentsHeld s) (hp : t.pmm = s.pmm.release gs)
    (hs : t.shmSegments = s.shmSegments) (hlt : ∀ f ∈ gs, f < 2 ^ 20) (hg : ∀ f ∈ gs, ¬ SegmentFrame s f) :
    SegmentsHeld t where
  used f hf := by
    rw [SegmentFrame, hs] at hf
    have hn : f ∉ gs := fun hm => hg f hm hf
    rw [hp, mmapTest_release hlt]
    simpa [hn] using h.used f hf
  apart := by
    rw [hs]
    exact h.apart

private theorem sysShmat_keepsUsed (s : Vm) (shmid : Nat) : KeepsUsed s (sysShmat s shmid).1 := by
  have h := keepsUsed_closed
  have hset : ∀ (u : Vm) (virt : Word) (n : Nat), KeepsUsed s u → KeepsUsed s
      (u.setSegment shmid { s.shmSegments shmid with virtStart := virt, refCount := n }) := by
    intro u virt n hu
    refine ⟨hu.used, fun i => ?_, fun i => ?_⟩ <;>
      · by_cases hi : i = shmid
        · subst hi
          simp [Vm.setSegment, segmentFrames]
        · simpa [Vm.setSegment, update_of_ne hi] using (by first | exact hu.inUse i | exact hu.frames i)
  rw [sysShmat]
  split
  · simp only
    exact hset _ _ _ (h.trans (hset s _ _ (h.refl s)) (h.loop (fun i u => h.mapPage ..) _ _))
  · exact h.refl s

private theorem sysShmget_held (h : SegmentsHeld s) (key size : Word) : SegmentsHeld (sysShmget s key size).1 := by
  rw [sysShmget]
  split
  · exact h
  split
  · exact h
  next slot hslot =>
  set finalSize : Word := if size > 0x400000 then size else 0x400000
  rcases s.pmm.allocContiguousBlocks_cases (shmPages finalSize) with hc | ⟨start, q, hc, hle, -, hclear, htest⟩
  · simp only [hc, if_true]
    exact h
  simp only [hc]
  have hkeep : KeepsUsed s { s with pmm := q } :=
    ⟨fun f hf => (htest f).trans (by rw [hf, Bool.true_or]), fun _ => rfl, fun _ => rfl⟩
  split
  · exact h.keep hkeep
  next hphys =>
  have hstart : start < 2 ^ 20 := by
    have := s.pmm.max_lt
    omega
  have hpos : start ≠ 0 := by
    rintro rfl
    exact hphys rfl
  set seg : ShmSegment := { s.shmSegments slot with
    key := key, size := finalSize, physAddr := frameAddr start, refCount := 0, inUse := true } with hsegdef
  have hseg : segmentFrames seg = frameRange start (shmPages finalSize).toNat := by
    rw [segmentFrames, frameOf_frameAddr hstart]
  have hget : ∀ i, (({ s with pmm := q } : Vm).setSegment slot seg).shmSegments i =
      if i = slot then seg else s.shmSegments i := fun i => update_apply ..
  have hnew : ∀ f ∈ segmentFrames seg, ¬ SegmentFrame s f := by
    intro f hf hsf
    have := (h.used f hsf).1
    rw [hclear f (hseg ▸ hf)] at this
    cases this
  refine ⟨?_, ?_⟩
  · rintro f ⟨i, hi, hu, hf⟩
    rw [hget] at hu hf
    by_cases his : i = slot
    · rw [if_pos his, hseg] at hf
      refine ⟨(htest f).trans (by simp [hf]), ?_⟩
      rw [mem_frameRange] at hf
      omega
    · rw [if_neg his] at hu hf
      exact (h.used f ⟨i, hi, hu, hf⟩).imp (hkeep.used f) id
  · intro i hi j hj hui huj f hfi hfj
    rw [hget] at hui huj hfi hfj
    by_cases his : i = slot <;> by_cases hjs : j = slot
    · rw [his, hjs]
    · rw [if_pos his] at hfi
      rw [if_neg hjs] at huj hfj
      exact absurd ⟨j, hj, huj, hfj⟩ (hnew f hfi)
    · rw [if_pos hjs] at hfj
      rw [if_neg his] at hui hfi
      exact absurd ⟨i, hi, hui, hfi⟩ (hnew f hfj)
    · rw [if_neg his] at hui hfi
      rw [if_neg hjs] at huj hfj
      exact h.apart i hi j hj hui huj f hfi hfj

private theorem shmFree_held (h : SegmentsHeld s) (shmid : Nat) : SegmentsHeld (shmFree s shmid) := by
  rw [shmFree]
  split
  · next hid =>
    simp only
    have hget : ∀ i, i < shmMaxSegments → ∀ p seg', ({ s with pmm := p }.setSegment shmid
        { s.shmSegments shmid with inUse := false, key := 0, refCount := 0 }).shmSegments i = seg' →
        seg'.inUse = true → i ≠ shmid ∧ seg' = s.shmSegments i := by
      rintro i - p _ rfl hu
      by_cases his : i = shmid
      · subst his
        simp [Vm.setSegment] at hu
      · exact ⟨his, update_of_ne his ..⟩
    refine ⟨?_, ?_⟩
    · rintro f ⟨i, hi, hu, hf⟩
      obtain ⟨his, he⟩ := hget i hi _ _ rfl hu
      rw [he] at hu hf
      obtain ⟨hused, h0⟩ := h.used f ⟨i, hi, hu, hf⟩
      have hnot : f ∉ segmentFrames (s.shmSegments shmid) := fun hf' =>
        his (h.apart i hi shmid hid.1 hu hid.2 f hf hf')
      refine ⟨?_, h0⟩
      change (s.pmm.freeContiguousBlocks _ _).mmapTest f = true
      rw [mmapTest_freeContiguousBlocks, hused]
      simpa [segmentFrames] using hnot
    · intro i hi j hj hui huj f hfi hfj
      obtain ⟨-, hei⟩ := hget i hi _ _ rfl hui
      obtain ⟨-, hej⟩ := hget j hj _ _ rfl huj
      rw [hei] at hui hfi
      rw [hej] at huj hfj
      exact h.apart i hi j hj hui huj f hfi hfj
  · exact h

theorem SegmentsHeld.notHandedOut (h : SegmentsHeld s) (hf : SegmentFrame s f) : NotHandedOut s.pmm f := by
  obtain ⟨hused, h0⟩ := h.used f hf
  refine ⟨hused, ?_, fun count hc hm => ?_⟩
  · rcases s.pmm.allocBlock_cases with ha | ⟨g, -, ha, hg⟩ <;> rw [ha]
    · exact fun he => h0 (he.symm.trans (show frameOf 0 = 0 by decide))
    · have hfree := hg.free g (by simp)
      rw [frameOf_frameAddr hfree.lt]
      rintro rfl
      rw [hfree.2] at hused
      cases hused
  · rcases s.pmm.allocContiguousBlocks_cases count with ha | ⟨start, q, ha, hle, -, hclear, -⟩ <;> rw [ha] at hc hm
    · exact hc rfl
    · have := s.pmm.max_lt
      rw [mem_frameRange] at hm
      rw [frameOf_frameAddr (by omega), ← mem_frameRange] at hm
      rw [hclear f hm] at hused
      cases hused

/-- Segments hold their frames, and directories are frames of the physical memory. -/
structure SharedInv (s : System) : Prop where
  held : SegmentsHeld s.vm
  dirs_lt : ∀ d ∈ s.dirs, d < 2 ^ 20

variable {s : System} {op : VmOp} {dirs : List Nat} {k n pd : Nat} {virt : Word}

theorem SharedInv.new {new : Nat} (h : SharedInv s) (hk : KeepsUsed s.vm t) (hn : new < 2 ^ 20) :
    SharedInv ⟨t, new :: s.dirs⟩ :=
  ⟨h.held.keep hk, fun d hd => (mem_cons.mp hd).elim (fun he => he ▸ hn) (h.dirs_lt d)⟩

theorem SharedInv.teardown (h : SharedInv s) (hp : t.pmm = s.vm.pmm.release gs)
    (hs : t.shmSegments = s.vm.shmSegments) (hd : ∀ d ∈ dirs, d ∈ s.dirs) (hlt : ∀ f ∈ gs, f < 2 ^ 20)
    (hg : ∀ f ∈ gs, ¬ SegmentFrame s.vm f) : SharedInv ⟨t, dirs⟩ :=
  ⟨h.held.release hp hs hlt hg, fun d hm => h.dirs_lt d (hd d hm)⟩

private theorem SharedInv.pdDestroy (h : SharedInv s) (hpd : pd ∈ s.dirs)
    (hg : ∀ f ∈ dirFrames s.vm.ram s.vm.kernelDirectory pd 1024 ++ [pd], ¬ SegmentFrame s.vm f) :
    SharedInv (s.exec (.pdDestroy pd)) := by
  have he := pdDestroy_eq s.vm pd (h.dirs_lt pd hpd)
  have hp : (Kernel.pdDestroy s.vm pd).pmm =
      s.vm.pmm.release (dirFrames s.vm.ram s.vm.kernelDirectory pd 1024 ++ [pd]) := by rw [he]
  have hs : (Kernel.pdDestroy s.vm pd).shmSegments = s.vm.shmSegments := by rw [he]
  refine h.teardown hp hs (fun d hd => (mem_filter.mp hd).1) (fun f hf => ?_) hg
  rcases mem_append.mp hf with hf | hf
  · exact dirFrames_lt hf
  · rw [mem_singleton.mp hf]
    exact h.dirs_lt pd hpd

private theorem SharedInv.vmUnmapPage (h : SharedInv s)
    (hg : ∀ f ∈ unmapFrames s.vm virt, ¬ SegmentFrame s.vm f) : SharedInv (s.exec (.vmUnmapPage virt)) := by
  simp only [System.exec]
  rw [vmUnmapPage_eq]
  split
  · next hp =>
    refine h.teardown rfl rfl (fun _ => id) (fun f hf => ?_) hg
    rw [unmapFrames, if_pos hp] at hf
    exact mem_singleton.mp hf ▸ frameOf_lt _
  · exact h

private theorem SharedInv.vmClearUserMappings (h : SharedInv s)
    (hg : ∀ f, ClearWalked s.vm f → ¬ SegmentFrame s.vm f) : SharedInv (s.exec .vmClearUserMappings) := by
  obtain ⟨gs, ht, hgs, -⟩ := vmClearUserMappings_spec s.vm
  have hs : (Kernel.vmClearUserMappings s.vm).shmSegments = s.vm.shmSegments := by rw [ht.rest]
  refine h.teardown ht.pmm hs (fun _ => id) (fun g hm => ?_) fun g hm hsf => ?_
  · rcases hgs g hm with ⟨i, _, _, _, rfl | hm⟩ | ⟨rfl, -⟩
    · exact frameOf_lt _
    · obtain ⟨j, _, _, rfl⟩ := mem_tableFrames.mp hm
      exact frameOf_lt _
    · decide
  · rcases hgs g hm with hw | ⟨rfl, -⟩
    · exact hg g hw hsf
    · exact (h.held.used 0 hsf).2 rfl

theorem SharedInv.exec (h : SharedInv s) (hc : SparesSegments s op) : SharedInv (s.exec op) := by
  have hk := keepsUsed_closed
  cases op with
  | pdCreate => exact h.new (hk.pdCreate s.vm) (frameOf_lt _)
  | pdClone src =>
    simp only [System.exec]
    refine h.new (hk.pdClone s.vm src) ?_
    simp only [pdClone]
    exact frameOf_lt _
  | pdDestroy pd => exact h.pdDestroy hc.1 hc.2
  | pdSwitch pd => exact ⟨h.held.keep ⟨fun _ => id, fun _ => rfl, fun _ => rfl⟩, h.dirs_lt⟩
  | schedule pd => exact ⟨h.held.keep ⟨fun _ => id, fun _ => rfl, fun _ => rfl⟩, h.dirs_lt⟩
  | vmMapPage phys virt flags => exact ⟨h.held.keep (hk.mapPage ..), h.dirs_lt⟩
  | vmUnmapPage virt => exact h.vmUnmapPage hc
  | vmClearUserMappings => exact h.vmClearUserMappings hc
  | pageFault addr => exact ⟨h.held.keep (hk.handleDemandPaging ..), h.dirs_lt⟩
  | pagingMap phys virt flags => exact ⟨h.held.keep (hk.mapPage ..), h.dirs_lt⟩
  | sysShmget key size => exact ⟨sysShmget_held h.held key size, h.dirs_lt⟩
  | sysShmat shmid => exact ⟨h.held.keep (sysShmat_keepsUsed s.vm shmid), h.dirs_lt⟩
  | shmFree shmid => exact ⟨shmFree_held h.held shmid, h.dirs_lt⟩
  | touch virt pdeBits pteBits =>
    refine ⟨h.held.keep ?_, h.dirs_lt⟩
    simp only [System.exec, touch]
    split
    · split
      · exact hk.trans (hk.setWord ..) (hk.setWord ..)
      · exact hk.setWord ..
    · exact hk.refl _

/-- In a run whose teardowns come across no frame of a segment in use, every frame of a segment in
use stays marked and is handed out by no allocation. -/
theorem segment_frames_kept {img : KernelImage} {s₀ : Vm}
    (h0 : ∀ i < shmMaxSegments, (s₀.shmSegments i).inUse = false)
    (hr : System.Runs SparesSegments (booted img s₀) s) (hf : SegmentFrame s.vm f) :
    NotHandedOut s.vm.pmm f := by
  have hboot : SharedInv (booted img s₀) := by
    have hk := keepsUsed_closed.initPaging (fun _ _ _ _ => ⟨fun _ => id, fun _ => rfl, fun _ => rfl⟩) img s₀
    have hnone : ∀ i < shmMaxSegments, ((booted img s₀).vm.shmSegments i).inUse ≠ true := fun i hi => by
      rw [booted, hk.inUse, h0 i hi]
      decide
    exact ⟨⟨fun f hheld => Exists.elim hheld fun i hi => absurd hi.2.1 (hnone i hi.1), fun i hi _ _ hu => absurd hu (hnone i hi)⟩,
      fun d hd => absurd hd not_mem_nil⟩
  have h : SharedInv s := hr.invariant hboot fun _ _ => SharedInv.exec
  exact h.held.notHandedOut hf

theorem sysShmget_first {s : Vm} {size last : Word} (hseg : s.shmSegments = bootVm.shmSegments)
    (hf : s.pmm.Filled n) (hn : 1024 ≤ n) (hmax : s.pmm.maxBlocks = 32768)
    (hlast : (if size > 0x400000 then size else 0x400000) = last) (hpages : shmPages last ≠ 0)
    (hc : s.pmm.CanAlloc ((shmPages last).toNat + k)) :
    ∃ q, Pmm.Grows s.pmm q (frameRange n (shmPages last).toNat) ∧ q.CanAlloc k ∧ n + (shmPages last).toNat ≤ 32768 ∧
      (sysShmget s 1 size).1 =
        ({ s with pmm := q } : Vm).setSegment 0 ⟨1, last, frameAddr n, 0, 0, true⟩ := by
  have hpos : 0 < (shmPages last).toNat := Nat.pos_of_ne_zero fun h => hpages (BitVec.eq_of_toNat_eq h)
  have hle : n + (shmPages last).toNat ≤ 32768 := by
    have hsub : s.pmm.freeFrames ⊆ Finset.Ico n 32768 := fun f hf' => by
      obtain ⟨hlt, ht⟩ := mem_freeFrames.mp hf'
      rw [hmax] at hlt
      rw [hf f (by rw [hmax]; omega), decide_eq_false_iff_not] at ht
      exact Finset.mem_Ico.mpr ⟨by omega, by omega⟩
    have hcard := Finset.card_le_card hsub
    rw [Nat.card_Ico] at hcard
    have := hc.2
    omega
  obtain ⟨q, hq, hg⟩ := hf.allocContiguousBlocks
    (show n + (shmPages last).toNat ≤ _ by rw [hmax]; omega) hpages (by have := hc.1; omega)
  have hphys : frameAddr n ≠ 0 := fun h0 => by
    have := frameOf_frameAddr (show n < 2 ^ 20 by omega)
    rw [h0, show frameOf 0 = 0 by decide] at this
    omega
  refine ⟨q, hg, (show s.pmm.CanAlloc ((frameRange n (shmPages last).toNat).length + k) by
    rwa [length_frameRange]).grows hg, hle, ?_⟩
  rw [sysShmget, hseg]
  simp only [show (range shmMaxSegments).find? (fun i => (bootVm.shmSegments i).inUse &&
      (bootVm.shmSegments i).key == 1) = none by decide,
    show (range shmMaxSegments).find? (fun i => !(bootVm.shmSegments i).inUse) = some 0 by decide,
    hlast, if_false, hq, hphys]
  rfl

private theorem mem_dirFrames_of_translate {ram : Ram} {kd : Nat} {x : Translation}
    (ht : translate ram pd virt = some x) (hk : present (ram kd (pdIndex virt)) = false) :
    x.frame ∈ dirFrames ram kd pd 1024 := by
  rw [translate] at ht
  split_ifs at ht with hp
  obtain ⟨hpd, hpt⟩ := Bool.and_eq_true_iff.mp hp
  cases ht
  have ho : OwnEntry ram kd pd (pdIndex virt) := ⟨hpd, fun he => by
    rw [he, hk] at hpd
    cases hpd⟩
  exact mem_dirFrames.mpr ⟨_, pdIndex_lt virt, ho, .inl (mem_tableFrames.mpr ⟨_, ptIndex_lt virt, hpt, rfl⟩)⟩

theorem bootVm_segment : ∃ f, SegmentFrame ((booted bootImage bootVm).exec (.sysShmget 1 4096)).vm f ∧
    NotHandedOut ((booted bootImage bootVm).exec (.sysShmget 1 4096)).vm.pmm f := by
  obtain ⟨t, ht, -, hcan, -⟩ := initPaging_spec (k := 1024) bootImage (bootVm_canAlloc.mono (by decide))
  have hfilled := keepsFilled_closed.initPaging (fun _ _ _ _ => ⟨rfl, fun n h => ⟨n, le_rfl, h⟩⟩) bootImage bootVm
  have hseg := sameSegments_closed.initPaging (fun _ _ _ _ => rfl) bootImage bootVm
  rw [ht] at hfilled hseg
  obtain ⟨n, hn, hf⟩ := hfilled.2 1024 bootVm_filled
  obtain ⟨q, -, -, hle, hget⟩ := sysShmget_first (k := 0) hseg hf hn hfilled.1
    (if_neg (show ¬ ((4096 : Word) > 0x400000) by decide)) (by decide) hcan
  have hframe : SegmentFrame ((booted bootImage bootVm).exec (.sysShmget 1 4096)).vm n := by
    rw [booted, ht]
    simp only [System.exec, hget]
    refine ⟨0, by decide, rfl, ?_⟩
    change n ∈ frameRange (frameOf (frameAddr n)) (shmPages 0x400000).toNat
    rw [frameOf_frameAddr (by omega), mem_frameRange, show (shmPages 0x400000).toNat = 1024 by decide]
    omega
  exact ⟨n, hframe, segment_frames_kept (fun _ _ => rfl) (.single ⟨.sysShmget 1 4096, trivial, rfl⟩) hframe⟩

/-- After the first `n` pages of a segment are attached: the last one of them is mapped. -/
private structure Attached (s t : Vm) (dirs : List Nat) (phys virt : Word) (n k : Nat) : Prop where
  layout : Layout t dirs
  kernelDirectory : t.kernelDirectory = s.kernelDirectory
  cr3 : t.cr3 = s.cr3
  ram : t.ram s.kernelDirectory = s.ram s.kernelDirectory
  canAlloc : t.pmm.CanAlloc k
  last : ∀ i, n = i + 1 → ∃ x, translate t.ram s.cr3 (virt + BitVec.ofNat 32 (i * 4096)) = some x ∧
    x.frame = frameOf (phys + BitVec.ofNat 32 (i * 4096))

private theorem attach_spec {s : Vm} (phys virt : Word) (h : Layout s dirs)
    (hact : s.cr3 ∈ s.kernelDirectory :: dirs) (hne : s.kernelDirectory ≠ s.cr3) (hc : s.pmm.CanAlloc (n + k)) :
    Attached s (forUpto (fun i s =>
      vmMapPage s (phys + BitVec.ofNat 32 (i * 4096)) (virt + BitVec.ofNat 32 (i * 4096)) 7) n s) dirs phys virt n k := by
  induction n generalizing k with
  | zero => exact ⟨h, rfl, rfl, rfl, Nat.zero_add k ▸ hc, fun i hi => by omega⟩
  | succ n ih =>
    obtain ⟨hl, hkd, hcr, hram, hcan, -⟩ := ih (k := k + 1) (by rwa [show n + (k + 1) = n + 1 + k by omega])
    rw [forUpto]
    generalize forUpto _ n s = t at hl hkd hcr hram hcan ⊢
    have hmem : t.cr3 ∈ t.kernelDirectory :: dirs := by rw [hcr, hkd]; exact hact
    obtain ⟨u, fs, hu, hlu, hcu, ha, -, hm⟩ := mapPage_spec (k := k) (phys + BitVec.ofNat 32 (n * 4096))
      (virt + BitVec.ofNat 32 (n * 4096)) 7 hl hmem (hcan.mono (by rw [mapNeeds]; split <;> omega))
    rw [vmMapPage, hu]
    refine ⟨hlu, ha.kernelDirectory.trans hkd, ha.cr3.trans hcr, ?_, hcu, fun i hi => ?_⟩
    · rw [← hram, ← hkd]
      refine ha.ram_held (hl.dirHeld _ List.mem_cons_self) ?_
      rintro (he | ⟨hp, he⟩)
      · exact hne (by rw [← hkd, he, hcr])
      · exact hl.apart _ hmem _ (pdIndex_lt _) hp (he ▸ List.mem_cons_self)
    · obtain rfl : n = i := Nat.succ.inj hi
      rw [← hcr]
      exact ⟨_, hm.translate_eq (by rw [present_entryAddr_or]; decide), frameOf_entryAddr_or (by decide)⟩

private theorem schedule_keepsUsed (s : Vm) (pd : Nat) :
    (pdSwitch { s with currentProcess := some pd } pd).ram = s.ram ∧
      (pdSwitch { s with currentProcess := some pd } pd).kernelDirectory = s.kernelDirectory ∧
      KeepsUsed s (pdSwitch { s with currentProcess := some pd } pd) :=
  ⟨rfl, rfl, fun _ => id, fun _ => rfl, fun _ => rfl⟩

private theorem sysShmat_first {v : Vm} {phys : Word} (hv : v.shmSegments 0 = ⟨1, 0x400000, phys, 0, 0, true⟩) :
    (sysShmat v 0).1 = Vm.setSegment (forUpto (fun i s =>
      vmMapPage s (phys + BitVec.ofNat 32 (i * 4096)) (0x70000000 + BitVec.ofNat 32 (i * 4096)) 7)
        (shmPages 0x400000).toNat (v.setSegment 0 ⟨1, 0x400000, phys, 0x70000000, 0, true⟩)) 0 ⟨1, 0x400000, phys, 0x70000000, 1, true⟩ := by
  rw [sysShmat, hv, if_pos ⟨by decide, rfl⟩]
  simp only [show (0x70000000 : Word) + BitVec.ofNat 32 (0 * 0x800000) = 0x70000000 by decide]

/-- The frames of a segment go with a directory that has it attached. -/
theorem pdDestroy_frees_segment :
    ∃ s a b f, TwoProcesses s a b ∧
      let t := ((s.exec (.sysShmget 1 4096)).exec (.sysShmat 0)).exec (.schedule b)
      SegmentFrame t.vm f ∧ t.vm.pmm.mmapTest f = true ∧
        SegmentFrame (t.exec (.pdDestroy a)).vm f ∧ (t.exec (.pdDestroy a)).vm.pmm.mmapTest f = false := by
  obtain ⟨s, a, b, h⟩ := bootVm_processes
  obtain ⟨n, hn, hf⟩ := h.filled
  obtain ⟨q, hg, hcan, hle, hget⟩ := sysShmget_first (k := 29976) h.shm hf hn h.maxBlocks
    (if_neg (show ¬ ((4096 : Word) > 0x400000) by decide)) (by decide) h.canAlloc
  rw [show (shmPages 0x400000).toNat = 1024 by decide] at hg hle
  obtain ⟨f, hfn⟩ : ∃ f, f = n + 1023 := ⟨_, rfl⟩
  refine ⟨s, a, b, f, h, ?_⟩
  set v : Vm := Vm.setSegment { s.vm with pmm := q } 0 ⟨1, 0x400000, frameAddr n, 0, 0, true⟩ with hv
  have hat := sysShmat_first (show v.shmSegments 0 = _ from Vm.setSegment_self ..)
  have ha : a ∈ s.vm.kernelDirectory :: s.dirs := by simp [h.dirs]
  have hl : Layout { s.vm with pmm := q } s.dirs :=
    h.layout.of_allocates (W := fun _ => False) ⟨hg, fun _ _ _ => rfl, rfl⟩ fun _ _ => id
  obtain ⟨-, hkd, -, hram, -, hlast⟩ := attach_spec (n := (shmPages 0x400000).toNat) (k := 28952)
    (s := v.setSegment 0 ⟨1, 0x400000, frameAddr n, 0x70000000, 0, true⟩) (frameAddr n) 0x70000000
    ⟨hl.dirHeld, hl.tableHeld, hl.apart⟩ (show s.vm.cr3 ∈ _ from h.active ▸ ha)
    (show s.vm.kernelDirectory ≠ s.vm.cr3 from h.active ▸ h.distinct.1) (by
      rw [show (shmPages 0x400000).toNat = 1024 by decide]
      exact hcan)
  have hexec : ((s.exec (.sysShmget 1 4096)).exec (.sysShmat 0)).exec (.schedule b) =
      ⟨pdSwitch { (sysShmat v 0).1 with currentProcess := some b } b, s.dirs⟩ := by
    simp only [System.exec, hget]
  have hattach := sysShmat_keepsUsed v 0
  generalize forUpto _ _ _ = t at hat hkd hram hlast
  obtain ⟨x, hx, hxf⟩ := hlast 1023 (by decide)
  simp only [hv, Vm.setSegment_ram, Vm.setSegment_kernelDirectory, Vm.setSegment_cr3] at hkd hram hx
  generalize (sysShmat v 0).1 = u at hat hexec hattach
  have huram : u.ram = t.ram := by rw [hat, Vm.setSegment_ram]
  have hukd : u.kernelDirectory = t.kernelDirectory := by rw [hat, Vm.setSegment_kernelDirectory]
  obtain ⟨hwram, hwkd, hkeep⟩ := schedule_keepsUsed u b
  replace hkeep := keepsUsed_closed.trans hattach hkeep
  generalize pdSwitch { u with currentProcess := some b } b = w at hexec hwram hwkd hkeep
  have hseg : SegmentFrame w f := by
    refine hkeep.segmentFrame.mpr ⟨0, by decide, by rw [hv, Vm.setSegment_self], ?_⟩
    rw [hv, Vm.setSegment_self, segmentFrames, frameOf_frameAddr (by omega), Pmm.mem_frameRange,
      show (shmPages 0x400000).toNat = 1024 by decide]
    omega
  have hused : w.pmm.mmapTest f = true := by
    refine hkeep.used _ ?_
    change q.mmapTest f = true
    rw [hg.mmapTest, decide_eq_true (Pmm.mem_frameRange.mpr ⟨by omega, by omega⟩), Bool.or_true]
  have hkabs : present (w.ram w.kernelDirectory (pdIndex (0x70000000 + BitVec.ofNat 32 (1023 * 4096)))) = false := by
    rw [show pdIndex (0x70000000 + BitVec.ofNat 32 (1023 * 4096)) = 448 by decide, hwram, hwkd, huram, hukd, hkd, hram]
    exact h.absent 448 (by decide) (by decide) (by decide) (by decide)
  have hx' : translate w.ram a (0x70000000 + BitVec.ofNat 32 (1023 * 4096)) = some x := by
    rw [hwram, huram, ← hx, h.active]
  have hmem := mem_dirFrames_of_translate hx' hkabs
  have hn' : frameAddr n + BitVec.ofNat 32 (1023 * 4096) = frameAddr (n + 1023) := by
    rw [frameAddr, frameAddr, Nat.add_mul, BitVec.ofNat_add]
  rw [hxf, hn', frameOf_frameAddr (by omega), ← hfn] at hmem
  have hlt := h.dirs_lt a (by simp [h.dirs])
  intro t'
  rw [show t' = ⟨w, s.dirs⟩ from hexec]
  refine ⟨hseg, hused, ?_, ?_⟩
  · have hsegs : (pdDestroy w a).shmSegments = w.shmSegments := by rw [pdDestroy_eq w a hlt]
    simp only [System.exec, SegmentFrame, hsegs]
    exact hseg
  · simp only [System.exec]
    rw [mmapTest_pdDestroy w hlt, hused, decide_eq_true (.inl hmem)]
    rfl

end RetroOs.Kernel
