import RetroOs.Kernel.SharedMemory
import RetroOs.Kernel.UserMemoryActions

/-! When `sys_sbrk`, `sys_mmap` and `sys_munmap` keep their hands off the kernel and other processes. -/
namespace RetroOs.Kernel.UserMemory
open Lib List Act

variable {reserved : Nat → Prop} {dirs : List Nat} {s : State} {a : Action} {addr virt : Word} {f : Nat}

theorem keeps_iff_kernel (ht : Takes s.vm (s.exec a).vm) : Keeps reserved dirs s a ↔
    ∀ d ∈ s.vm.kernelDirectory :: dirs, ∀ virt, kernelVirtualBase ≤ virt →
      translate (s.exec a).vm.ram d virt = translate s.vm.ram d virt :=
  ⟨Keeps.kernel, fun h => ⟨h, fun f _ hf => ht.used f hf⟩⟩

private theorem keeps_mapPage_iff (hr : Ready s.vm dirs) (phys virt : Word) :
    Keeps reserved dirs s (.mapPage phys virt) ↔ StaysOwn reserved dirs s (.mapPage phys virt) :=
  (keeps_iff_kernel (takes_closed.mapPage ..)).trans ((hr.vmMapPage phys virt (by decide)).maps.kernel_iff hr)

private theorem keeps_fault_iff (hr : Ready s.vm dirs) (addr : Word) :
    Keeps reserved dirs s (.fault addr) ↔ StaysOwn reserved dirs s (.fault addr) := by
  refine (keeps_iff_kernel (takes_closed.handleDemandPaging ..)).trans ?_
  simp only [State.exec, StaysOwn]
  obtain ⟨-, ⟨hn, hram⟩ | ⟨u, phys, flags, hy, hm⟩⟩ := hr.fault addr
  · simp [hn, hram]
  · rw [hm.kernel_iff hr, hy]
    constructor
    · rintro hout _ _ _ ⟨⟩
      exact hout
    · exact fun hout => hout _ _ _ rfl

private theorem keeps_store_iff {frame lo hi : Nat} (hp : PlainStore s.vm dirs frame lo) :
    Keeps reserved dirs s (.store frame lo hi) ↔ StaysOwn reserved dirs s (.store frame lo hi) :=
  (keeps_iff_kernel (takes_closed.setPage ..)).trans hp.kernel_iff

private theorem keeps_unmapPage_iff (hr : Ready s.vm dirs) (virt : Word) :
    Keeps reserved dirs s (.unmapPage virt) ↔ StaysOwn reserved dirs s (.unmapPage virt) := by
  rcases vmUnmapPage_cases s.vm virt with ⟨hn, he⟩ | ⟨f, hu⟩
  · have hexec : (s.exec (.unmapPage virt)).vm = s.vm := he
    constructor
    · intro _ f hf
      rw [hn] at hf
      cases hf
    · exact fun _ => ⟨fun d _ addr _ => by rw [hexec], fun f _ hf => by rw [hexec, hf]⟩
  · have hkernel := hu.kernel_iff hr
    constructor
    · rintro ⟨hk, hframes⟩ g hg
      rw [hu.frames, mem_singleton] at hg
      subst hg
      refine ⟨hkernel.mp hk, fun hb => ?_⟩
      by_contra ht
      have hfreed := (hu.used g).symm.trans (hframes g hb (by simpa using ht))
      simp at hfreed
    · intro hs
      obtain ⟨hk, hb⟩ := hs f (hu.frames ▸ mem_singleton_self f)
      refine ⟨hkernel.mpr hk, fun g hg ht => ?_⟩
      have hne : g ≠ f := by
        rintro rfl
        rw [hb hg] at ht
        cases ht
      refine (hu.used g).trans ?_
      simp [ht, hne]

private theorem keeps_of_same (h : (s.exec a).vm = s.vm) : Keeps reserved dirs s a :=
  ⟨fun d _ virt _ => by rw [h], fun f _ hf => by rw [h, hf]⟩

/-- All that a program does keeps the kernel and others exactly if all of it stays with the caller's own. -/
abbrev Judged (reserved : Nat → Prop) (dirs : List Nat) {α : Type} (pre : State → Prop) (x : Act State.exec α)
    (post : α → State → Prop) : Prop :=
  Act.Agree (Keeps reserved dirs) (StaysOwn reserved dirs) pre x post

private theorem judged_same {e : Action} (hv : ∀ s : State, (s.exec e).vm = s.vm) (hs : ∀ s, StaysOwn reserved dirs s e) :
    Judged reserved dirs (fun s => Ready s.vm dirs) (perform e) fun _ s => Ready s.vm dirs :=
  .perform (fun s _ => iff_of_true (keeps_of_same (hv s)) (hs s)) fun s hr _ => by
    rw [hv s]
    exact hr

/-- A frame fresh from the allocator is neither free any longer nor part of the paging structures. -/
structure Taken (dirs : List Nat) (f : Nat) (s : State) : Prop where
  ready : Ready s.vm dirs
  fresh : f ≠ 0 → f < 2 ^ 20 ∧ ¬ s.vm.pmm.Free f ∧ ¬ IsStructure s.vm dirs f

private theorem judged_pmmAllocBlock :
    Judged reserved dirs (fun s => Ready s.vm dirs) pmmAllocBlock fun f s => Taken dirs f s := by
  have hread : Judged reserved dirs (fun s => Ready s.vm dirs) (read fun s => s.vm.allocFrame.2)
      fun f s => Ready s.vm dirs ∧ f = s.vm.allocFrame.2 := .read fun s hr => ⟨hr, rfl⟩
  have halloc : ∀ f, Judged reserved dirs (fun s => Ready s.vm dirs ∧ f = s.vm.allocFrame.2)
      (perform .allocBlock) fun _ s => Taken dirs f s := fun f => by
    refine .perform (fun s _ => iff_of_true ⟨fun _ _ _ _ => rfl, fun _ _ => Pmm.allocBlock_mono⟩ trivial) ?_
    rintro s ⟨hr, rfl⟩ -
    have ht := takes_closed.allocFrame s.vm
    refine ⟨⟨⟨fun d hd hn => hr.layout.dirHeld d hd (ht.free d hn),
      fun d hd i hi hp hn => hr.layout.tableHeld d hd i hi hp (ht.free _ hn), hr.layout.apart⟩, hr.active,
      fun hn => hr.zeroUsed (ht.free 0 hn), hr.zeroPlain⟩, fun h0 => ?_⟩
    obtain ⟨hfree, hn⟩ := (allocFrame_cases s.vm).resolve_left h0
    exact ⟨hfree.lt, hn, fun hs => hr.layout.not_free hs hfree⟩
  exact hread.bind fun f => (halloc f).bind fun _ => .pure fun _ h => h

/-- The page of an address is mapped writable to a frame that is no part of the paging structures. -/
def PlainPage (dirs : List Nat) (addr : Word) (s : State) : Prop :=
  ∃ x, translate s.vm.ram s.vm.cr3 addr = some x ∧ x.flags &&& 2 ≠ 0 ∧ ¬ IsStructure s.vm dirs x.frame

theorem Taken.mapPage (h : Taken dirs f s) (h0 : f ≠ 0) (virt : Word) :
    Ready (vmMapPage s.vm (frameAddr f) virt 7) dirs ∧ ¬ IsStructure (vmMapPage s.vm (frameAddr f) virt 7) dirs f ∧
      ∃ x, translate (vmMapPage s.vm (frameAddr f) virt 7).ram (vmMapPage s.vm (frameAddr f) virt 7).cr3 virt = some x ∧
        x.frame = f ∧ x.flags = 7 := by
  have hmapped := h.ready.vmMapPage (frameAddr f) virt (show present 7 = true by decide)
  have hw := hmapped.word
  obtain ⟨⟨hm, -, -⟩, hr⟩ := hmapped
  obtain ⟨hlt, hfree, hs⟩ := h.fresh h0
  have ht : Takes s.vm (vmMapPage s.vm (frameAddr f) virt 7) := takes_closed.mapPage ..
  refine ⟨hr, hm.plain_of ht.kernelDirectory hs hfree h0,
    ⟨f, 7, entryFlags ((vmMapPage s.vm (frameAddr f) virt 7).ram s.vm.cr3 (pdIndex virt))⟩, ?_, rfl, rfl⟩
  have hpage := hm.page
  simp only [hw] at hpage
  simp only [translate, ht.cr3, hm.entry, hw, hpage, Bool.and_self, if_true]
  rw [frameOf_entryAddr_or (by decide), frameOf_frameAddr hlt, entryFlags_entryAddr_or,
    show entryFlags 7 = 7 by decide]

private theorem judged_mapPage (h0 : f ≠ 0) :
    Judged reserved dirs (Taken dirs f) (perform (.mapPage (frameAddr f) virt)) fun _ s =>
      Ready s.vm dirs ∧ PlainPage dirs virt s := by
  refine .perform (fun s h => keeps_mapPage_iff h.ready _ _) fun s h _ => ?_
  obtain ⟨hr, hs, x, hx, rfl, hflags⟩ := h.mapPage h0 virt
  refine ⟨hr, x, hx, ?_, hs⟩
  rw [hflags]
  decide

theorem storeFrame_eq_some (h : storeFrame addr s = some f) :
    ∃ x, translate s.vm.ram s.vm.cr3 addr = some x ∧ x.frame = f := by
  rw [storeFrame] at h
  split at h
  · next x hx =>
    split_ifs at h
    exact ⟨x, hx, Option.some.inj h⟩
  · cases h

theorem storeFrame_stuck {t : State} (h : PlainPage dirs addr s) (hn : storeFrame addr s = none)
    (he : t.vm.ram t.vm.cr3 (pdIndex addr) = s.vm.ram s.vm.cr3 (pdIndex addr)) : storeFrame addr t = none := by
  obtain ⟨x, hx, hw, -⟩ := h
  have htable : ∀ {u : State} {y}, translate u.vm.ram u.vm.cr3 addr = some y →
      y.tableFlags = entryFlags (u.vm.ram u.vm.cr3 (pdIndex addr)) := by
    intro u y hy
    rw [translate] at hy
    split_ifs at hy
    exact (congrArg Translation.tableFlags (Option.some.inj hy)).symm
  have hx2 : x.tableFlags &&& 2 = 0 := by
    simp only [storeFrame, hx] at hn
    have hc : ¬ writable x = true := fun hc => by
      rw [if_pos hc] at hn
      cases hn
    have hflags : x.flags &&& 2 ≠ 0 → x.tableFlags &&& 2 = 0 := by simpa [writable] using hc
    exact hflags hw
  rw [storeFrame]
  split
  · next y hy =>
    have hy2 : y.tableFlags &&& 2 = 0 := by rw [htable hy, he, ← htable hx, hx2]
    rw [writable, hy2]
    simp
  · rfl

private theorem judged_storePage (addr : Word) (lo hi : Nat) :
    Judged reserved dirs (fun s => Ready s.vm dirs ∧ (lo = 0 ∨ PlainPage dirs addr s)) (storePage addr lo hi)
      fun _ s => Ready s.vm dirs := by
  have hstore : ∀ frame, Judged reserved dirs (fun s => Ready s.vm dirs ∧ PlainStore s.vm dirs frame lo)
      (perform (.store frame lo hi)) fun _ s => Ready s.vm dirs := fun frame =>
    .perform (fun s h => keeps_store_iff h.2) fun s h _ => h.2.ready h.1
  -- A failed store goes on only if the page starts there: otherwise the table is what forbids it.
  have hfault : ∀ handled, Judged reserved dirs
      (fun s => Ready s.vm dirs ∧ (lo = 0 ∨ PlainPage dirs addr s) ∧ storeFrame addr s = none ∧
        handled = (handleDemandPaging s.vm addr).2)
      (perform (.fault addr)) fun _ s => Ready s.vm dirs ∧ (lo = 0 ∨ storeFrame addr s = none) := fun handled => by
    refine .perform (fun s h => keeps_fault_iff h.1 addr) ?_
    rintro s ⟨hr, hlo, hn, -⟩ -
    obtain ⟨ht, hm⟩ := hr.fault addr
    refine ⟨ht, hlo.imp id fun hp => storeFrame_stuck hp hn ?_⟩
    have hcr : (handleDemandPaging s.vm addr).1.cr3 = s.vm.cr3 := (takes_closed.handleDemandPaging ..).cr3
    obtain ⟨x, hx, -, -⟩ := hp
    have hpde := (translate_isSome.mp (by rw [hx]; rfl : (translate s.vm.ram s.vm.cr3 addr).isSome = true)).1
    change (handleDemandPaging s.vm addr).1.ram (handleDemandPaging s.vm addr).1.cr3 (pdIndex addr) = _
    rw [hcr]
    rcases hm with ⟨-, hram⟩ | ⟨_, _, _, -, hm⟩
    · rw [hram]
    · exact hm.entries _ (.inr hpde)
  have hread : ∀ pre : State → Prop, Judged reserved dirs pre (read (storeFrame addr))
      fun o s => pre s ∧ o = storeFrame addr s := fun pre => .read fun s h => ⟨h, rfl⟩
  refine (hread _).bind fun o => ?_
  cases o with
  | some frame =>
    refine (hstore frame).weaken ?_ fun _ _ h => h
    rintro s ⟨⟨hr, hlo⟩, hf⟩
    refine ⟨hr, hlo.imp id fun hp => ?_⟩
    obtain ⟨y, hy, rfl⟩ := storeFrame_eq_some hf.symm
    obtain ⟨x, hx, -, hs⟩ := hp
    rw [hx] at hy
    exact Option.some.inj hy ▸ hs
  | none =>
    have hhandled : Judged reserved dirs
        (fun s => (Ready s.vm dirs ∧ (lo = 0 ∨ PlainPage dirs addr s)) ∧ none = storeFrame addr s)
        (read fun s => (handleDemandPaging s.vm addr).2)
        fun handled s => Ready s.vm dirs ∧ (lo = 0 ∨ PlainPage dirs addr s) ∧ storeFrame addr s = none ∧
          handled = (handleDemandPaging s.vm addr).2 :=
      .read fun s h => ⟨h.1.1, h.1.2, h.2.symm, rfl⟩
    refine hhandled.bind fun handled => (hfault handled).bind fun _ => ?_
    cases handled with
    | false => exact .stop
    | true =>
      refine (hread _).bind fun o => ?_
      cases o with
      | none => exact .stop
      | some frame =>
        refine (hstore frame).weaken ?_ fun _ _ h => h
        rintro s ⟨⟨hr, hlo⟩, hf⟩
        refine ⟨hr, .inl (hlo.resolve_right fun hn => ?_)⟩
        rw [hn] at hf
        cases hf

private theorem judged_memset (virt : Word) :
    Judged reserved dirs (fun s => Ready s.vm dirs ∧ PlainPage dirs virt s) (memset virt)
      fun _ s => Ready s.vm dirs := by
  refine Act.Agree.bind ((judged_storePage virt (entryFlags virt).toNat 4096).weaken
    (fun s h => ⟨h.1, .inr h.2⟩) fun _ _ h => h) fun _ => ?_
  split
  · exact (judged_storePage _ 0 _).weaken (fun s h => ⟨h, .inl rfl⟩) fun _ _ h => h
  · exact .pure fun _ h => h

private theorem judged_mapPages (pages : List Word) :
    Judged reserved dirs (fun s => Ready s.vm dirs) (mapPages pages) fun _ s => Ready s.vm dirs := by
  induction pages with
  | nil => exact .pure fun _ h => h
  | cons virt rest ih =>
    refine judged_pmmAllocBlock.bind fun f => ?_
    split
    · exact .pure fun _ h => h.ready
    · next h0 => exact (judged_mapPage h0).bind fun _ => (judged_memset virt).bind fun _ => ih

private theorem judged_unmapPages (h0 : reserved 0) (pages : List Word) :
    Judged reserved dirs (fun s => Ready s.vm dirs) (unmapPages pages) fun _ s => Ready s.vm dirs := by
  induction pages with
  | nil => exact .pure fun _ h => h
  | cons virt rest ih =>
    refine Act.Agree.bind (.perform (fun s hr => keeps_unmapPage_iff hr virt) ?_) fun _ => ih
    intro s hr hk
    have hs := (keeps_unmapPage_iff hr virt).mp hk
    rcases vmUnmapPage_cases s.vm virt with ⟨-, he⟩ | ⟨f, hu⟩
    · rw [show (s.exec (.unmapPage virt)).vm = s.vm from he]
      exact hr
    · obtain ⟨-, hb⟩ := hs f (hu.frames ▸ mem_singleton_self f)
      refine hu.ready hr fun ht => ⟨fun hst => ?_, ?_⟩
      · rw [hb (.inl (.inr (.inl hst)))] at ht
        cases ht
      · rintro rfl
        rw [hb (.inl (.inl h0))] at ht
        cases ht

private theorem judged_program (h0 : reserved 0) (c : Call) :
    Judged reserved dirs (fun s => Ready s.vm dirs) c.program fun _ s => Ready s.vm dirs := by
  have hread : ∀ {α : Type} (f : State → α), Judged reserved dirs (fun s => Ready s.vm dirs) (read f)
      fun _ s => Ready s.vm dirs := fun f => .read fun _ h => h
  cases c with
  | sbrk increment =>
    refine (hread _).bind fun oldBrk => (judged_mapPages _).bind fun ok => ?_
    split
    · exact (judged_same (e := .setHeapEnd _) (fun _ => rfl) fun _ => trivial).bind fun _ => .pure fun _ h => h
    · exact .pure fun _ h => h
  | mmap addr length =>
    have hbase : Judged reserved dirs (fun s => Ready s.vm dirs) (mmapBase addr length)
        fun _ s => Ready s.vm dirs := by
      rw [mmapBase]
      split
      · exact (hread _).bind fun next =>
          (judged_same (e := .setNextMmapAddr _) (fun _ => rfl) fun _ => trivial).bind fun _ => .pure fun _ h => h
      · exact .pure fun _ h => h
    refine hbase.bind fun base => (judged_mapPages _).bind fun ok => ?_
    split
    · exact .pure fun _ h => h
    · exact .pure fun _ h => h
  | munmap addr length => exact (judged_unmapPages h0 _).bind fun _ => .pure fun _ h => h

/-- A process about to make a call, with the directories of all processes and the frames that the
boot code keeps, which are those of low memory at least. -/
structure Caller extends State where
  dirs : List Nat
  reserved : Nat → Prop
  ready : Ready vm dirs
  low : reserved 0

/-- The call changes the translation of no kernel address, not for a moment, and frees no frame that backs the
kernel or another process. -/
def Confined (m : Caller) (c : Call) : Prop :=
  Along State.exec (Keeps m.reserved m.dirs) m.toState (c.program.actions m.toState)

def OnOwnPages (m : Caller) (c : Call) : Prop :=
  Along State.exec (StaysOwn m.reserved m.dirs) m.toState (c.program.actions m.toState)

/-- A call keeps off the kernel and the other processes exactly if each of its steps, in the state that it finds, stays on pages
and tables of the caller's own. -/
theorem confined_iff (m : Caller) (c : Call) : Confined m c ↔ OnOwnPages m c :=
  (judged_program m.low c m.toState m.ready).1

private theorem initPaging_kernelDirectory (img : KernelImage) (v : Vm) :
    (initPaging img v).kernelDirectory = v.allocFrame.2 := by
  have h := sameDirectories_closed
  have hlinear : ∀ n u, SameDirectories u (linearMap img n u) := fun n u => h.loop (fun j w =>
    h.trans (h.trans (h.newPage w _) (h.setWord ..)) (h.setWord ..)) n u
  have hdev : ∀ u, SameDirectories u (hpetMapHardware (apicMapHardware u)) := fun u =>
    h.trans (h.trans (h.mapPage ..) (h.mapPage ..)) (h.mapPage ..)
  rw [initPaging]
  exact (h.trans (hlinear 128 _) (hdev _)).1

/-- The booted machine with one process, which has nothing but the kernel's entries. -/
structure OneProcess (v : Vm) (pd : Nat) : Prop where
  ready : Ready v [pd]
  active : v.cr3 = pd
  used : ∀ f < 1024, v.pmm.mmapTest f = true
  entry : present (v.ram pd 768) = true
  table : v.ram (frameOf (v.ram pd 768)) = linearTable bootImage 0

private theorem bootVm_process : ∃ v pd, OneProcess v pd := by
  obtain ⟨t, ht, -, hcan, hl⟩ := initPaging_spec (k := 1) bootImage (bootVm_canAlloc.mono (by decide))
  obtain ⟨u, pd, -, hfree, hlu, ha, -, hent⟩ := pdCreate_layout (k := 0) hl.layout hcan
  have hlow : ∀ f < 1024, bootVm.pmm.mmapTest f = true := fun f hf => by
    rw [bootVm_filled f (show f < 32768 by omega)]
    exact decide_eq_true hf
  have hboot : KeepsUsed bootVm t :=
    ht ▸ keepsUsed_closed.initPaging (fun _ _ _ _ => ⟨fun _ => id, fun _ => rfl, fun _ => rfl⟩) bootImage bootVm
  have husedt : ∀ f < 1024, t.pmm.mmapTest f = true := fun f hf => hboot.used f (hlow f hf)
  have hused : ∀ f < 1024, u.pmm.mmapTest f = true := fun f hf => ha.used (husedt f hf)
  have hne : ∀ {p : Pmm} {f}, p.mmapTest 0 = true → p.Free f → 0 ≠ f := by
    rintro p f hp hf rfl
    rw [hf.2] at hp
    cases hp
  have hkd : 0 ≠ u.kernelDirectory := by
    obtain ⟨f, v, hv, hf, -⟩ := allocFrame_spec (n := 0) (bootVm_canAlloc.mono (by decide))
    rw [ha.kernelDirectory, ← ht, initPaging_kernelDirectory, hv]
    exact hne (hlow 0 (by decide)) hf
  have hheld := hl.layout.tableHeld _ (.head _) 0 (by decide) (hl.lower 0 (by decide))
  have hpde : u.ram pd 768 = t.ram t.kernelDirectory 0 := by
    rw [hent 768, hl.upper 0 (by decide), if_pos ⟨by decide, hl.lower 0 (by decide)⟩]
  refine ⟨{ pdSwitch u pd with currentProcess := some pd }, pd, ⟨hlu.switch,
    .tail _ (mem_singleton_self pd), fun hn => hne (hused 0 (by decide)) hn rfl, ?_⟩, rfl, hused, ?_, ?_⟩
  · simp only [mem_cons, not_mem_nil, or_false, not_or]
    exact ⟨hkd, hne (husedt 0 (by decide)) hfree⟩
  · exact hpde ▸ hl.lower 0 (by decide)
  · change u.ram (frameOf (u.ram pd 768)) = _
    rw [hpde, ha.ram_held hheld id, hl.tables 0 (by decide)]

theorem munmap_unmaps_kernel :
    ∃ m : Caller, m.vm.cr3 ∈ m.dirs ∧ (∀ f, m.reserved f ↔ f < 1024) ∧
      (translate m.vm.ram m.vm.cr3 0xC0100000).isSome ∧ m.vm.pmm.mmapTest 256 = true ∧
      let call := (Call.munmap 0xC0100000 4096).program
      call.result m.toState = some 0 ∧
        translate (call.final m.toState).vm.ram m.vm.cr3 0xC0100000 = none ∧
        (call.final m.toState).vm.pmm.mmapTest 256 = false ∧
        ¬ Confined m (.munmap 0xC0100000 4096) := by
  obtain ⟨v, pd, h⟩ := bootVm_process
  have hidx : pdIndex 0xC0100000 = 768 := by decide
  have hpde : present (v.ram v.cr3 (pdIndex 0xC0100000)) = true := by rw [hidx, h.active, h.entry]
  have hpage : v.ram (frameOf (v.ram v.cr3 (pdIndex 0xC0100000))) (ptIndex 0xC0100000) =
      linearTable bootImage 0 256 := by
    rw [hidx, h.active, h.table]
    rfl
  have hpte : present (linearTable bootImage 0 256) = true := by decide
  have hframes : unmapFrames v 0xC0100000 = [256] := by
    rw [unmapFrames, hpage, hpde, hpte]
    rfl
  obtain ⟨f, hu⟩ := (vmUnmapPage_cases v 0xC0100000).resolve_left fun hn => by
    rw [hframes] at hn
    cases hn.1
  obtain rfl : 256 = f := singleton_inj.mp (hframes.symm.trans hu.frames)
  let m : Caller := ⟨⟨v, 0, 0x80000000⟩, [pd], (· < 1024), h.ready, by decide⟩
  have hactions : (Call.munmap 0xC0100000 4096).program.actions m.toState = [.unmapPage 0xC0100000] := rfl
  have hfinal : ((Call.munmap 0xC0100000 4096).program.final m.toState).vm = vmUnmapPage v 0xC0100000 := by
    rw [final, hactions]
    rfl
  refine ⟨m, ?_, fun _ => Iff.rfl, translate_isSome.mpr ⟨hpde, ?_⟩, h.used 256 (by decide), rfl, ?_, ?_, fun hc => ?_⟩
  · exact mem_singleton.mpr h.active
  · rw [show m.vm = v from rfl, hpage, hpte]
  · rw [hfinal]
    refine Option.not_isSome_iff_eq_none.mp fun hsome => ?_
    obtain ⟨-, hgone⟩ := translate_isSome.mp hsome
    have hcr : (vmUnmapPage v 0xC0100000).ram v.cr3 = v.ram v.cr3 := by
      rw [hu.words]
      exact Ram.setWord_ne fun he =>
        h.ready.layout.apart _ h.ready.active _ (pdIndex_lt _) hu.table (he ▸ h.ready.active)
    rw [show m.vm = v from rfl, hcr, hu.words, Ram.setWord_self] at hgone
    exact absurd hgone (by decide)
  · rw [hfinal, hu.used]
    simp
  · have hs := (confined_iff m _).mp hc
    rw [OnOwnPages, hactions] at hs
    exact (hs.1 256 (hframes ▸ mem_singleton_self 256)).1
      ⟨v.cr3, h.ready.active, 768, le_rfl, by decide, hidx ▸ hpde, by rw [hidx]⟩

end RetroOs.Kernel.UserMemory
