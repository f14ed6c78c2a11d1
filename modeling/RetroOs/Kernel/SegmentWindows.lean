import RetroOs.Kernel.SharedMemory

/-! The windows of shared segments: where `sys_shmat` maps a segment, which segment `shm_get_segment` finds behind an
address, and the frame that a page fault maps there. -/
namespace RetroOs.Kernel
open Lib List Function BitVec Kernel.System

/-- The fixed address of a segment: one window of 8 MiB for each. -/
def windowAddr (shmid : ℕ) : Word := 0x70000000 + BitVec.ofNat 32 (shmid * 0x800000)

/-- Frame and page of each call of `vm_map_page` in `sys_shmat`. -/
def attachPages (seg : ShmSegment) (shmid : ℕ) : List (Word × Word) :=
  (List.range (shmPages seg.size).toNat).map fun i =>
    (seg.physAddr + BitVec.ofNat 32 (i * 4096), windowAddr shmid + BitVec.ofNat 32 (i * 4096))

namespace Vm

def Live (s : Vm) (i : ℕ) : Prop := i < shmMaxSegments ∧ (s.shmSegments i).inUse = true

/-- The address lies on a page that `sys_shmat` maps for the segment. -/
def Mapped (s : Vm) (i : ℕ) (addr : Word) : Prop := ∃ m ∈ attachPages (s.shmSegments i) i, entryAddr addr = m.2

def InSegment (s : Vm) (i : ℕ) (addr : Word) : Prop := addr - windowAddr i < (s.shmSegments i).size

/-- A fault at the address, where nothing is mapped, maps what `sys_shmat` maps there. -/
def DemandAgrees (s : Vm) (i : ℕ) (addr : Word) : Prop :=
  alreadyPresent s addr = false → s.currentProcess ≠ none →
    ∃ m ∈ attachPages (s.shmSegments i) i, entryAddr addr = m.2 ∧ handleDemandPaging s addr = (vmMapPage s m.1 m.2 7, true)

/-- The windows of the segments in use: inside the range for shared memory, apart, and found again from each address of the
segment, where a fault maps the frame that an attach maps. -/
structure WindowsSound (s : Vm) : Prop where
  inside : ∀ i, s.Live i → ∀ addr, s.Mapped i addr → 0x70000000 ≤ addr ∧ addr < 0x80000000
  apart : ∀ i j, s.Live i → s.Live j → i ≠ j → ∀ addr, s.Mapped i addr → ¬ s.Mapped j addr
  found : ∀ i, s.Live i → ∀ addr, s.InSegment i addr → shmGetSegment s addr = some i
  agrees : ∀ i, s.Live i → (s.shmSegments i).refCount ≠ 0 → ∀ addr, s.InSegment i addr → s.DemandAgrees i addr

/-- The same for every byte of the pages that are mapped, be it behind the end of the segment. -/
def PagesFound (s : Vm) : Prop := ∀ i, s.Live i → ∀ addr, s.Mapped i addr → shmGetSegment s addr = some i

/-- What is so of the segments in every state: one in use has pages, and one that was attached has its window noted. -/
structure SegmentsPlaced (s : Vm) : Prop where
  pages : ∀ i, s.Live i → 0 < (shmPages (s.shmSegments i).size).toNat
  placed : ∀ i, (s.shmSegments i).refCount ≠ 0 → (s.shmSegments i).virtStart = windowAddr i

end Vm

variable {s t : Vm} {i j k : ℕ} {addr size phys virt : Word} {seg : ShmSegment}

private theorem forUpto_eq_foldl {σ : Type} (body : ℕ → σ → σ) (n : ℕ) (s : σ) :
    forUpto body n s = (range n).foldl (fun s i => body i s) s := by
  induction n with
  | zero => rfl
  | succ n ih => rw [forUpto, ih, range_succ, foldl_append, foldl_cons, foldl_nil]

private theorem sysShmat_eq (hi : s.Live i) : sysShmat s i =
    (((attachPages (s.shmSegments i) i).foldl (fun s m => vmMapPage s m.1 m.2 7)
        (s.setSegment i { s.shmSegments i with virtStart := windowAddr i })).setSegment i { s.shmSegments i with
          virtStart := windowAddr i, refCount := (s.shmSegments i).refCount + 1 }, windowAddr i) := by
  rw [sysShmat, if_pos (show i < shmMaxSegments ∧ _ from hi), attachPages, foldl_map, ← forUpto_eq_foldl]
  rfl

theorem windowAddr_toNat (hi : i < shmMaxSegments) : (windowAddr i).toNat = 0x70000000 + i * 0x800000 := by
  rw [shmMaxSegments] at hi
  rw [windowAddr, toNat_add, toNat_ofNat]
  change (0x70000000 + i * 0x800000 % 2 ^ 32) % 2 ^ 32 = _
  omega

private theorem shmPages_toNat (size : Word) : (shmPages size).toNat = (size.toNat + 4095) % 2 ^ 32 / 4096 := by
  rw [shmPages, toNat_udiv, toNat_add]
  rfl

theorem mapped_iff (hi : i < shmMaxSegments) (hsize : (s.shmSegments i).size ≤ 0x800000) :
    s.Mapped i addr ↔ 0x70000000 + i * 0x800000 ≤ addr.toNat ∧
      addr.toNat < 0x70000000 + i * 0x800000 + ((s.shmSegments i).size.toNat + 4095) / 4096 * 4096 := by
  have hbase := windowAddr_toNat hi
  have hle : (s.shmSegments i).size.toNat ≤ 0x800000 := hsize
  have hpages := shmPages_toNat (s.shmSegments i).size
  rw [Nat.mod_eq_of_lt (by omega)] at hpages
  have hpage : ∀ k < (shmPages (s.shmSegments i).size).toNat,
      (windowAddr i + BitVec.ofNat 32 (k * 4096)).toNat = 0x70000000 + i * 0x800000 + k * 4096 := by
    intro k hk
    rw [toNat_add, toNat_ofNat, hbase]
    omega
  constructor
  · rintro ⟨m, hm, he⟩
    obtain ⟨k, hk, rfl⟩ := mem_map.mp hm
    rw [mem_range] at hk
    have hnat := congrArg BitVec.toNat he
    rw [entryAddr_toNat, hpage k hk] at hnat
    omega
  · rintro ⟨hl, hu⟩
    have hk : (addr.toNat - (0x70000000 + i * 0x800000)) / 4096 < (shmPages (s.shmSegments i).size).toNat := by omega
    refine ⟨_, mem_map_of_mem (mem_range.mpr hk), eq_of_toNat_eq ?_⟩
    rw [entryAddr_toNat, hpage _ hk]
    omega

private theorem mapped_behind (hi : i < shmMaxSegments) (hpages : 0 < (shmPages (s.shmSegments i).size).toNat)
    (hsize : 0x800000 < (s.shmSegments i).size) : s.Mapped i (windowAddr i + 0x800000) := by
  have hlt : 0x800000 < (s.shmSegments i).size.toNat := hsize
  have hcount := shmPages_toNat (s.shmSegments i).size
  have hsum := (s.shmSegments i).size.isLt
  have hk : 2048 < (shmPages (s.shmSegments i).size).toNat := by omega
  refine ⟨_, mem_map_of_mem (mem_range.mpr hk), eq_of_toNat_eq ?_⟩
  have hbase := windowAddr_toNat hi
  rw [shmMaxSegments] at hi
  have haddr : (windowAddr i + 0x800000).toNat = 0x70000000 + i * 0x800000 + 0x800000 := by
    rw [BitVec.toNat_add, hbase]
    change (0x70000000 + i * 0x800000 + 0x800000) % 2 ^ 32 = _
    omega
  rw [entryAddr_toNat, haddr]
  change _ = (windowAddr i + 0x800000).toNat
  rw [haddr]
  omega

theorem shmGetSegment_eq_some (hi : i < shmMaxSegments) : shmGetSegment s addr = some i ↔
    0x70000000 + i * 0x800000 ≤ addr.toNat ∧ addr.toNat < 0x70000000 + i * 0x800000 + 0x800000 ∧
      (s.shmSegments i).inUse = true ∧ addr < windowAddr i + (s.shmSegments i).size := by
  have hnum : addr < 0x70000000 ∨ 0x80000000 ≤ addr ↔ addr.toNat < 0x70000000 ∨ 0x80000000 ≤ addr.toNat := Iff.rfl
  have hlt : i < 32 := hi
  rw [shmGetSegment]
  by_cases hout : addr < 0x70000000 ∨ 0x80000000 ≤ addr
  · rw [if_pos hout]
    rw [hnum] at hout
    exact iff_of_false (fun h => by cases h) fun h => by omega
  · rw [if_neg hout]
    rw [hnum] at hout
    have hsub : (addr - 0x70000000).toNat = addr.toNat - 0x70000000 := toNat_sub_of_le (by
      rw [BitVec.le_def]
      change 0x70000000 ≤ addr.toNat
      omega)
    have hindex : ((addr - 0x70000000) / 0x800000).toNat = (addr.toNat - 0x70000000) / 0x800000 := by
      rw [BitVec.toNat_udiv, hsub]
      rfl
    rw [hindex]
    by_cases hw : (addr.toNat - 0x70000000) / 0x800000 = i
    · have hwin : 0x70000000 + i * 0x800000 ≤ addr.toNat ∧ addr.toNat < 0x70000000 + i * 0x800000 + 0x800000 := by omega
      simp only [hw, Option.ite_none_right_eq_some, and_true]
      constructor
      · rintro ⟨-, huse, hend⟩
        exact ⟨hwin.1, hwin.2, huse, hend⟩
      · rintro ⟨-, -, huse, hend⟩
        exact ⟨hi, huse, hend⟩
    · refine iff_of_false (fun h => ?_) fun h => by omega
      rw [Option.ite_none_right_eq_some] at h
      exact hw (Option.some.inj h.2)

theorem inSegment_iff (hi : i < shmMaxSegments) (hsize : (s.shmSegments i).size ≤ 0x800000) :
    s.InSegment i addr ↔ 0x70000000 + i * 0x800000 ≤ addr.toNat ∧
      addr.toNat < 0x70000000 + i * 0x800000 + (s.shmSegments i).size.toNat := by
  have hbase := windowAddr_toNat hi
  have hle : (s.shmSegments i).size.toNat ≤ 0x800000 := hsize
  have haddr := addr.isLt
  rw [Vm.InSegment, lt_def, toNat_sub, hbase]
  omega

theorem found_of_inSegment (hi : s.Live i) (hsize : (s.shmSegments i).size ≤ 0x800000) (ha : s.InSegment i addr) :
    shmGetSegment s addr = some i := by
  have hlt : i < 32 := hi.1
  have hle : (s.shmSegments i).size.toNat ≤ 0x800000 := hsize
  obtain ⟨hl, hu⟩ := (inSegment_iff hi.1 hsize).mp ha
  refine (shmGetSegment_eq_some hi.1).mpr ⟨hl, by omega, hi.2, ?_⟩
  rw [lt_def, toNat_add, windowAddr_toNat hi.1, Nat.mod_eq_of_lt (by omega)]
  exact hu

theorem not_found_behind (hi : i < shmMaxSegments) : shmGetSegment s (windowAddr i + 0x800000) ≠ some i := by
  have hlt : i < 32 := hi
  have haddr : (windowAddr i + 0x800000).toNat = 0x70000000 + i * 0x800000 + 0x800000 := by
    rw [toNat_add, windowAddr_toNat hi]
    change (0x70000000 + i * 0x800000 + 0x800000) % 2 ^ 32 = _
    omega
  rw [Ne, shmGetSegment_eq_some hi, haddr]
  rintro ⟨-, hend, -⟩
  omega

private theorem demandAgrees (hi : i < shmMaxSegments) (hsize : (s.shmSegments i).size ≤ 0x800000)
    (hplaced : (s.shmSegments i).virtStart = windowAddr i) (ha : s.InSegment i addr)
    (hfound : shmGetSegment s addr = some i) : s.DemandAgrees i addr := by
  intro habsent hproc
  obtain ⟨hl, hu⟩ := (inSegment_iff hi hsize).mp ha
  have hlt : i < 32 := hi
  have hle : (s.shmSegments i).size.toNat ≤ 0x800000 := hsize
  have hmapped : s.Mapped i addr := (mapped_iff hi hsize).mpr ⟨hl, by omega⟩
  obtain ⟨m, hm, he⟩ := hmapped
  refine ⟨m, hm, he, ?_⟩
  have hlow : ¬ 0xE0000000 ≤ addr := by
    rw [BitVec.le_def]
    change ¬ 0xE0000000 ≤ addr.toNat
    omega
  obtain ⟨k, -, rfl⟩ := List.mem_map.mp hm
  rw [handleDemandPaging, habsent, if_neg Bool.false_ne_true, if_neg hlow, if_neg hproc, hfound]
  simp only [hplaced, he]
  rw [BitVec.add_comm (windowAddr i), BitVec.add_sub_cancel]

private theorem windowsSound_iff (h : s.SegmentsPlaced) : s.WindowsSound ↔ ∀ i, s.Live i → (s.shmSegments i).size ≤ 0x800000 := by
  constructor
  · intro hs i hi
    by_contra hbig
    have hin : s.InSegment i (windowAddr i + 0x800000) := by
      rw [Vm.InSegment, BitVec.add_comm, BitVec.add_sub_cancel]
      exact BitVec.not_le.mp hbig
    exact not_found_behind hi.1 (hs.found i hi _ hin)
  · intro hsize
    have hrange : ∀ i, s.Live i → ∀ addr, s.Mapped i addr →
        0x70000000 + i * 0x800000 ≤ addr.toNat ∧ addr.toNat < 0x70000000 + i * 0x800000 + 0x800000 := by
      intro i hi addr ha
      have hle : (s.shmSegments i).size.toNat ≤ 0x800000 := hsize i hi
      have hm := (mapped_iff hi.1 (hsize i hi)).mp ha
      omega
    refine ⟨fun i hi addr ha => ?_, fun i j hi hj hij addr ha hb => ?_, fun i hi addr ha => ?_, fun i hi hr addr ha => ?_⟩
    · have hlt : i < 32 := hi.1
      have hm := hrange i hi addr ha
      rw [le_def, lt_def]
      change 0x70000000 ≤ addr.toNat ∧ addr.toNat < 0x80000000
      omega
    · have hm := hrange i hi addr ha
      have hm' := hrange j hj addr hb
      omega
    · exact found_of_inSegment hi (hsize i hi) ha
    · exact demandAgrees hi.1 (hsize i hi) (h.placed i hr) ha (found_of_inSegment hi (hsize i hi) ha)

private theorem pagesFound_iff (h : s.SegmentsPlaced) : s.PagesFound ↔
    ∀ i, s.Live i → (s.shmSegments i).size ≤ 0x800000 ∧ (s.shmSegments i).size.toNat % 4096 = 0 := by
  constructor
  · intro hs i hi
    have hsize : (s.shmSegments i).size ≤ 0x800000 := by
      by_contra hbig
      exact not_found_behind hi.1 (hs i hi _ (mapped_behind hi.1 (h.pages i hi) (BitVec.not_le.mp hbig)))
    refine ⟨hsize, ?_⟩
    by_contra hpart
    have hlt : i < 32 := hi.1
    have hle : (s.shmSegments i).size.toNat ≤ 0x800000 := hsize
    have haddr : (windowAddr i + (s.shmSegments i).size).toNat = 0x70000000 + i * 0x800000 + (s.shmSegments i).size.toNat := by
      rw [toNat_add, windowAddr_toNat hi.1]
      omega
    have hmapped : s.Mapped i (windowAddr i + (s.shmSegments i).size) :=
      (mapped_iff hi.1 hsize).mpr ⟨by omega, by omega⟩
    have hend := ((shmGetSegment_eq_some hi.1).mp (hs i hi _ hmapped)).2.2.2
    exact absurd hend (BitVec.lt_irrefl _)
  · intro hsize i hi addr ha
    obtain ⟨hle, hwhole⟩ := hsize i hi
    obtain ⟨hl, hu⟩ := (mapped_iff hi.1 hle).mp ha
    exact found_of_inSegment hi hle ((inSegment_iff hi.1 hle).mpr ⟨hl, by omega⟩)

theorem Vm.SegmentsPlaced.keep (h : s.SegmentsPlaced) (ht : t.shmSegments = s.shmSegments) : t.SegmentsPlaced := by
  refine ⟨fun i hi => ?_, fun i hr => ?_⟩
  · rw [Vm.Live, ht] at hi
    rw [ht]
    exact h.pages i hi
  · rw [ht] at hr ⊢
    exact h.placed i hr

theorem Vm.SegmentsPlaced.set (h : s.SegmentsPlaced) (ht : t.shmSegments = update s.shmSegments i seg)
    (hpages : i < shmMaxSegments → seg.inUse = true → 0 < (shmPages seg.size).toNat)
    (hplaced : seg.refCount ≠ 0 → seg.virtStart = windowAddr i) : t.SegmentsPlaced := by
  refine ⟨fun j hj => ?_, fun j hr => ?_⟩
  · rw [Vm.Live, ht] at hj
    rw [ht]
    by_cases hji : j = i
    · subst hji
      rw [update_self] at hj ⊢
      exact hpages hj.1 hj.2
    · rw [update_of_ne hji] at hj ⊢
      exact h.pages j hj
  · rw [ht] at hr ⊢
    by_cases hji : j = i
    · subst hji
      rw [update_self] at hr ⊢
      exact hplaced hr
    · rw [update_of_ne hji] at hr ⊢
      exact h.placed j hr

private theorem sysShmget_placed (h : s.SegmentsPlaced) (key size : Word) : (sysShmget s key size).1.SegmentsPlaced := by
  rw [sysShmget]
  split
  · exact h
  split
  · exact h
  next slot hslot =>
  generalize (if size > 0x400000 then size else 0x400000) = finalSize
  dsimp only
  split_ifs with hphys
  · exact h.keep rfl
  · refine h.set rfl (fun _ _ => ?_) fun hr => absurd rfl hr
    refine Nat.pos_of_ne_zero fun hzero => hphys ?_
    rw [Pmm.allocContiguousBlocks, if_pos (eq_of_toNat_eq hzero)]

private theorem sysShmat_placed (h : s.SegmentsPlaced) (shmid : ℕ) : (sysShmat s shmid).1.SegmentsPlaced := by
  by_cases hi : shmid < shmMaxSegments ∧ (s.shmSegments shmid).inUse = true
  · have hsame : ∀ u : Vm, ∀ l : List (Word × Word),
        (l.foldl (fun s m => vmMapPage s m.1 m.2 7) u).shmSegments = u.shmSegments := by
      intro u l
      induction l generalizing u with
      | nil => rfl
      | cons m l ih => rw [foldl_cons, ih, vmMapPage, sameSegments_closed.mapPage]
    have hseg : (sysShmat s shmid).1.shmSegments = update s.shmSegments shmid { s.shmSegments shmid with
        virtStart := windowAddr shmid, refCount := (s.shmSegments shmid).refCount + 1 } := by
      rw [sysShmat_eq hi]
      exact (congrArg (update · shmid _) (hsame _ _)).trans (update_idem ..)
    exact h.set hseg (fun _ _ => h.pages shmid hi) fun _ => rfl
  · rw [sysShmat, if_neg hi]
    exact h

private theorem shmFree_placed (h : s.SegmentsPlaced) (shmid : ℕ) : (shmFree s shmid).SegmentsPlaced := by
  rw [shmFree]
  split
  · exact h.set rfl (fun _ hu => by cases hu) fun hr => absurd rfl hr
  · exact h

private theorem exec_placed {s : System} (h : s.vm.SegmentsPlaced) (op : VmOp) : (s.exec op).vm.SegmentsPlaced := by
  have hc := sameSegments_closed
  cases op with
  | pdCreate => exact h.keep (hc.pdCreate s.vm)
  | pdClone src => exact h.keep (hc.pdClone s.vm src)
  | pdDestroy pd =>
    refine h.keep ?_
    have hfree : ∀ (u : Vm) w, (u.freeFrame w).shmSegments = u.shmSegments := fun _ _ => rfl
    simp only [exec, pdDestroy, hfree]
    refine hc.loop (fun i u => ?_) 1024 s.vm
    split
    · rfl
    split
    · rfl
    · simp only [freeTable_eq, hfree]
  | pdSwitch pd => exact h.keep rfl
  | schedule pd => exact h.keep rfl
  | vmMapPage phys virt flags => exact h.keep (hc.mapPage ..)
  | vmUnmapPage virt =>
    refine h.keep ?_
    simp only [exec, vmUnmapPage]
    split
    · rfl
    · split <;> rfl
  | vmClearUserMappings =>
    obtain ⟨gs, ht, -⟩ := vmClearUserMappings_spec s.vm
    refine h.keep ?_
    simp only [exec]
    rw [ht.rest]
  | pageFault addr => exact h.keep (hc.handleDemandPaging s.vm addr)
  | pagingMap phys virt flags => exact h.keep (hc.mapPage ..)
  | sysShmget key size => exact sysShmget_placed h key size
  | sysShmat shmid => exact sysShmat_placed h shmid
  | shmFree shmid => exact shmFree_placed h shmid
  | touch virt pdeBits pteBits =>
    refine h.keep ?_
    simp only [exec, touch]
    split
    · split <;> rfl
    · rfl

/-- In every state that any operations lead to from one with no segments, the windows are sound exactly where each segment in
use has at most 8 MiB, and found again from every mapped byte exactly where each is also of whole pages. -/
theorem segment_windows {s₀ s : System} (h0 : ∀ i, (s₀.vm.shmSegments i).inUse = false ∧ (s₀.vm.shmSegments i).refCount = 0)
    (hr : System.Runs (fun _ _ => True) s₀ s) :
    (s.vm.WindowsSound ↔ ∀ i, s.vm.Live i → (s.vm.shmSegments i).size ≤ 0x800000) ∧
      (s.vm.PagesFound ↔ ∀ i, s.vm.Live i →
        (s.vm.shmSegments i).size ≤ 0x800000 ∧ (s.vm.shmSegments i).size.toNat % 4096 = 0) := by
  have hstart : s₀.vm.SegmentsPlaced := by
    refine ⟨fun i hi => ?_, fun i hr => absurd (h0 i).2 hr⟩
    rw [Vm.Live, (h0 i).1] at hi
    cases hi.2
  have h : s.vm.SegmentsPlaced := @Lib.Runs.invariant _ _ (fun s => s.vm.SegmentsPlaced) _ _ _ _ hr hstart
    fun _ op hs _ => exec_placed hs op
  exact ⟨windowsSound_iff h, pagesFound_iff h⟩

private theorem booted_segments : (booted bootImage bootVm).vm.shmSegments = bootVm.shmSegments :=
  sameSegments_closed.initPaging (fun _ _ _ _ => rfl) bootImage bootVm

theorem bootVm_windows :
    let s := (booted bootImage bootVm).exec (.sysShmget 1 4096)
    (s.vm.WindowsSound ↔ ∀ i, s.vm.Live i → (s.vm.shmSegments i).size ≤ 0x800000) ∧
      (s.vm.PagesFound ↔ ∀ i, s.vm.Live i →
        (s.vm.shmSegments i).size ≤ 0x800000 ∧ (s.vm.shmSegments i).size.toNat % 4096 = 0) :=
  segment_windows (fun i => by rw [booted_segments]; exact ⟨rfl, rfl⟩) (.single ⟨.sysShmget 1 4096, trivial, rfl⟩)

theorem segment_leaves_window : ∃ s, System.Runs (fun _ _ => True) (booted bootImage bootVm) s ∧ ¬ s.vm.WindowsSound := by
  obtain ⟨t, ht, -, hcan, -⟩ := initPaging_spec (k := 2304) bootImage (bootVm_canAlloc.mono (by decide))
  have hfilled := keepsFilled_closed.initPaging (fun _ _ _ _ => ⟨rfl, fun n h => ⟨n, le_rfl, h⟩⟩) bootImage bootVm
  have hseg := booted_segments
  rw [booted, ht] at hseg
  rw [ht] at hfilled
  obtain ⟨n, hn, hf⟩ := hfilled.2 1024 bootVm_filled
  obtain ⟨q, -, -, -, hget⟩ := sysShmget_first (k := 0) hseg hf hn hfilled.1
    (if_pos (show (0x900000 : Word) > 0x400000 by decide)) (by decide) hcan
  refine ⟨(booted bootImage bootVm).exec (.sysShmget 1 0x900000), .single ⟨.sysShmget 1 0x900000, trivial, rfl⟩, fun hs => ?_⟩
  have hzero : ((booted bootImage bootVm).exec (.sysShmget 1 0x900000)).vm.shmSegments 0 =
      ⟨1, 0x900000, frameAddr n, 0, 0, true⟩ := by
    rw [booted, ht]
    simp only [System.exec, hget, Vm.setSegment_self]
  refine not_found_behind (show 0 < shmMaxSegments by decide) (hs.found 0 ⟨by decide, by rw [hzero]⟩ _ ?_)
  rw [Vm.InSegment, hzero]
  exact (show windowAddr 0 + 0x800000 - windowAddr 0 < 0x900000 by decide)

end RetroOs.Kernel
