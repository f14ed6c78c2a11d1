import RetroOs.Kernel.DemandPaging
import RetroOs.Kernel.UserMemory

/-! What one action of a memory call does to the translation of kernel addresses and to the frames that
are in use. -/
namespace RetroOs.Kernel.UserMemory
open Lib Ram Vm

/-- The active directory is one of those that exist, all in frames in use and none in frame 0. -/
structure Ready (s : Vm) (dirs : List Nat) : Prop where
  layout : Layout s dirs
  active : s.cr3 ∈ s.kernelDirectory :: dirs
  zeroUsed : ¬ s.pmm.Free 0
  zeroPlain : 0 ∉ s.kernelDirectory :: dirs

def KernelTable (s : Vm) (dirs : List Nat) (table : Nat) : Prop :=
  ∃ d ∈ s.kernelDirectory :: dirs, ∃ i, 768 ≤ i ∧ i < 1024 ∧ present (s.ram d i) = true ∧
    frameOf (s.ram d i) = table

/-- What the boot code keeps for the kernel, directories and tables, and what is mapped beyond the
linear map, which shows every frame. -/
def BacksKernel (reserved : Nat → Prop) (s : Vm) (dirs : List Nat) (f : Nat) : Prop :=
  reserved f ∨ IsStructure s dirs f ∨ ∃ d ∈ s.kernelDirectory :: dirs, ∃ virt : Word, 0xE0000000 ≤ virt ∧
    ∃ x, translate s.ram d virt = some x ∧ x.frame = f

/-- A page that another process has in user mode. -/
def BacksOther (s : Vm) (dirs : List Nat) (f : Nat) : Prop :=
  ∃ d ∈ dirs, d ≠ s.cr3 ∧ ∃ virt < kernelVirtualBase, ∃ x, translate s.ram d virt = some x ∧ x.frame = f ∧
    x.flags &&& 4 ≠ 0

/-- The action changes the translation of no kernel address in any directory and frees no frame that
backs the kernel or another process. -/
structure Keeps (reserved : Nat → Prop) (dirs : List Nat) (s : State) (a : Action) : Prop where
  kernel : ∀ d ∈ s.vm.kernelDirectory :: dirs, ∀ virt, kernelVirtualBase ≤ virt →
    translate (s.exec a).vm.ram d virt = translate s.vm.ram d virt
  frames : ∀ f, BacksKernel reserved s.vm dirs f ∨ BacksOther s.vm dirs f → s.vm.pmm.mmapTest f = true →
    (s.exec a).vm.pmm.mmapTest f = true

/-- The table that a mapping of `virt` writes: the one that is there, or the frame that is taken for it. -/
def mapTable (s : Vm) (virt : Word) : Nat :=
  if present (s.ram s.cr3 (pdIndex virt)) then frameOf (s.ram s.cr3 (pdIndex virt)) else s.allocFrame.2

/-- What `handle_demand_paging` maps: the state with the page allocated, its address and the flags. -/
def demandPage (s : Vm) (addr : Word) : Option (Vm × Word × Word) :=
  if alreadyPresent s addr then none
  else if 0xE0000000 ≤ addr then
    if s.allocFrame.2 = 0 then none else some (s.allocFrame.1, frameAddr s.allocFrame.2, 3)
  else if s.currentProcess = none then none
  else
    match shmGetSegment s addr with
    | some shmid => some (s, (s.shmSegments shmid).physAddr + (entryAddr addr - (s.shmSegments shmid).virtStart), 7)
    | none =>
      if 0x00400000 ≤ addr ∧ addr < 0x70000000 ∨ 0xAF000000 ≤ addr ∧ addr ≤ 0xB0000000 then
        some (s.allocFrame.1, frameAddr s.allocFrame.2, 7)
      else none

/-- A new table is for a user address. One that kernel addresses go through holds the entry `w` of the page already, and no
other where it is cleared for a new one. -/
structure MapsOutside (s : Vm) (dirs : List Nat) (virt : Word) (table : Nat) (w : Word) : Prop where
  low : present (s.ram s.cr3 (pdIndex virt)) = true ∨ virt < kernelVirtualBase
  kernel : KernelTable s dirs table → s.ram table (ptIndex virt) = w ∧
    (present (s.ram s.cr3 (pdIndex virt)) = true ∨ ∀ i < 1024, i ≠ ptIndex virt → present (s.ram table i) = false)

def ReadsThrough (s : Vm) (dirs : List Nat) (frame i : Nat) : Prop :=
  ∃ d ∈ s.kernelDirectory :: dirs, ∃ virt, kernelVirtualBase ≤ virt ∧ (translate s.ram d virt).isSome ∧
    (frame = d ∧ i = pdIndex virt ∨ frame = frameOf (s.ram d (pdIndex virt)) ∧ i = ptIndex virt)

def Covers (lo hi i : Nat) : Prop := lo < 4 * i + 4 ∧ 4 * i < hi

def StaysOwn (reserved : Nat → Prop) (dirs : List Nat) (s : State) : Action → Prop
  | .mapPage phys virt => MapsOutside s.vm dirs virt (mapTable s.vm virt) (entryAddr phys ||| 7)
  | .fault addr => ∀ u phys flags, demandPage s.vm addr = some (u, phys, flags) →
      MapsOutside s.vm dirs addr (mapTable u addr) (entryAddr phys ||| flags)
  | .store frame lo hi => ∀ i, Covers lo hi i → ¬ ReadsThrough s.vm dirs frame i
  | .unmapPage virt => ∀ f ∈ unmapFrames s.vm virt,
      ¬ KernelTable s.vm dirs (frameOf (s.vm.ram s.vm.cr3 (pdIndex virt))) ∧
        (BacksKernel reserved s.vm dirs f ∨ BacksOther s.vm dirs f → s.vm.pmm.mmapTest f = false)
  | _ => True

structure Takes (s t : Vm) : Prop where
  free : ∀ f, t.pmm.Free f → s.pmm.Free f
  used : ∀ f, s.pmm.mmapTest f = true → t.pmm.mmapTest f = true
  cr3 : t.cr3 = s.cr3
  kernelDirectory : t.kernelDirectory = s.kernelDirectory

variable {s t u : Vm} {dirs : List Nat} {virt addr phys flags w : Word} {d f i lo hi frame table : Nat} {k : Nat}
  {page : Nat → Word}

theorem takes_closed : AllocClosed Takes where
  refl _ := ⟨fun _ => id, fun _ => id, rfl, rfl⟩
  trans h h' := ⟨fun f hf => h.free f (h'.free f hf), fun f hf => h'.used f (h.used f hf),
    h'.cr3.trans h.cr3, h'.kernelDirectory.trans h.kernelDirectory⟩
  allocFrame s := by
    refine ⟨fun f hf => ?_, fun f => Pmm.allocBlock_mono, rfl, rfl⟩
    rcases s.pmm.allocBlock_cases with h | ⟨g, -, -, h⟩
    · exact (congrArg (fun r => r.1.Free f) h).mp hf
    · exact (h.free_iff.mp hf).1
  setPage _ _ _ := ⟨fun _ => id, fun _ => id, rfl, rfl⟩
  setWord _ _ _ _ := ⟨fun _ => id, fun _ => id, rfl, rfl⟩

theorem allocFrame_cases (s : Vm) :
    s.allocFrame.2 = 0 ∨ s.pmm.Free s.allocFrame.2 ∧ ¬ s.allocFrame.1.pmm.Free s.allocFrame.2 := by
  rcases s.pmm.allocBlock_cases with h | ⟨g, hg, ha, h⟩
  · refine .inl ?_
    rw [allocFrame, h]
    exact (by decide : frameOf 0 = 0)
  · have hfree := Pmm.mmapFirstFree_some hg
    have he : s.allocFrame.2 = g := by rw [allocFrame, ha, frameOf_frameAddr hfree.lt]
    rw [he]
    exact .inr ⟨hfree, fun hn => (h.free_iff.mp hn).2 (List.mem_singleton_self g)⟩

theorem word_ext {v w : Word} (hf : frameOf v = frameOf w) (he : entryFlags v = entryFlags w) : v = w := by
  refine BitVec.eq_of_toNat_eq ?_
  have hm := congrArg BitVec.toNat he
  rw [entryFlags_toNat, entryFlags_toNat] at hm
  rw [frameOf, frameOf] at hf
  omega

theorem exists_address (hi : i < 1024) (hk : k < 1024) : ∃ virt : Word, pdIndex virt = i ∧ ptIndex virt = k := by
  have hf : frameOf (frameAddr (i * 1024 + k)) = i * 1024 + k := frameOf_frameAddr (by omega)
  refine ⟨frameAddr (i * 1024 + k), ?_, ?_⟩
  · rw [pdIndex_eq, hf]
    omega
  · rw [ptIndex_eq, hf]
    omega

private theorem exists_kernel_address (hi : 768 ≤ i) (hi' : i < 1024) (hk : k < 1024) :
    ∃ virt : Word, kernelVirtualBase ≤ virt ∧ pdIndex virt = i ∧ ptIndex virt = k := by
  obtain ⟨virt, rfl, hpt⟩ := exists_address hi' hk
  exact ⟨virt, le_pdIndex_iff.mp hi, rfl, hpt⟩

theorem translate_isSome {ram : Ram} : (translate ram d virt).isSome = true ↔
    present (ram d (pdIndex virt)) = true ∧ present (ram (frameOf (ram d (pdIndex virt))) (ptIndex virt)) = true := by
  rw [← Bool.and_eq_true_iff, translate]
  split
  · next hc => simp [hc]
  · next hc => simp [hc]

private theorem entry_of_translate (hd : t.ram d (pdIndex virt) = s.ram d (pdIndex virt))
    (hp : present (s.ram d (pdIndex virt)) = true) (h : translate t.ram d virt = translate s.ram d virt)
    (he : present (s.ram (frameOf (s.ram d (pdIndex virt))) (ptIndex virt)) = true ∨
      present (t.ram (frameOf (s.ram d (pdIndex virt))) (ptIndex virt)) = true) :
    t.ram (frameOf (s.ram d (pdIndex virt))) (ptIndex virt) =
      s.ram (frameOf (s.ram d (pdIndex virt))) (ptIndex virt) := by
  simp only [translate, hd, hp, Bool.true_and] at h
  split_ifs at h with ht hs
  · rw [Option.some.injEq, Translation.mk.injEq] at h
    exact word_ext h.1 h.2.1
  · next hs =>
    rcases he with he | he
    · exact absurd he hs
    · exact absurd he ht

/-- What is left of the directory and the table an address was mapped in. -/
structure MapsIn (s t : Vm) (dirs : List Nat) (virt : Word) : Prop where
  entry : present (t.ram s.cr3 (pdIndex virt)) = true
  plain : frameOf (t.ram s.cr3 (pdIndex virt)) ∉ s.kernelDirectory :: dirs
  entries : ∀ i, i ≠ pdIndex virt ∨ present (s.ram s.cr3 i) = true → t.ram s.cr3 i = s.ram s.cr3 i
  others : ∀ f, f ≠ s.cr3 → f ≠ frameOf (t.ram s.cr3 (pdIndex virt)) → t.ram f = s.ram f
  page : present (t.ram (frameOf (t.ram s.cr3 (pdIndex virt))) (ptIndex virt)) = true
  fresh : present (s.ram s.cr3 (pdIndex virt)) = true ∨ frameOf (t.ram s.cr3 (pdIndex virt)) = 0 ∨
    s.pmm.Free (frameOf (t.ram s.cr3 (pdIndex virt)))

/-- And in that table, `table`, only the entry of the page is another, or all are where the table is new. -/
structure MapsTo (s t : Vm) (dirs : List Nat) (virt : Word) (table : Nat) (w : Word) : Prop extends MapsIn s t dirs virt where
  through : frameOf (t.ram s.cr3 (pdIndex virt)) = table
  words : ∀ i, t.ram table i =
    if i = ptIndex virt then w else if present (s.ram s.cr3 (pdIndex virt)) then s.ram table i else 0

/-- The entries that are present before or after are the same. -/
def TableKept (old new : Nat → Word) : Prop :=
  ∀ i < 1024, present (old i) = true ∨ present (new i) = true → new i = old i

theorem MapsTo.kept_iff (h : MapsTo s t dirs virt table w) : TableKept (s.ram table) (t.ram table) ↔
    s.ram table (ptIndex virt) = w ∧
      (present (s.ram s.cr3 (pdIndex virt)) = true ∨ ∀ i < 1024, i ≠ ptIndex virt → present (s.ram table i) = false) := by
  have hw : present w = true := by
    have hpage := h.page
    rwa [h.through, h.words, if_pos rfl] at hpage
  constructor
  · intro hk
    have hself := hk _ (ptIndex_lt virt)
    rw [h.words, if_pos rfl] at hself
    refine ⟨(hself (.inr hw)).symm, ?_⟩
    by_cases hp : present (s.ram s.cr3 (pdIndex virt)) = true
    · exact .inl hp
    refine .inr fun i hi hne => ?_
    by_contra hq
    rw [Bool.not_eq_false] at hq
    have hsame := hk i hi (.inl hq)
    rw [h.words, if_neg hne, if_neg hp] at hsame
    rw [← hsame] at hq
    exact absurd hq (by decide)
  · rintro ⟨hself, hrest⟩ i hi hpi
    rw [h.words] at hpi ⊢
    split_ifs at hpi ⊢ with he hp
    · rw [he, hself]
    · rfl
    · rw [hrest.resolve_left hp i hi he] at hpi
      exact absurd hpi (by decide)

namespace MapsIn

theorem dir (h : MapsIn s t dirs virt) (hd : d ∈ s.kernelDirectory :: dirs)
    (hi : d ≠ s.cr3 ∨ i ≠ pdIndex virt ∨ present (s.ram s.cr3 i) = true) : t.ram d i = s.ram d i := by
  by_cases he : d = s.cr3
  · subst he
    exact h.entries i (hi.resolve_left fun hn => hn rfl)
  · exact congrFun (h.others d he fun hf => h.plain (hf ▸ hd)) i

theorem ready (h : MapsIn s t dirs virt) (hr : Ready s dirs) (ht : Takes s t)
    (hf : ¬ t.pmm.Free (frameOf (t.ram s.cr3 (pdIndex virt)))) : Ready t dirs := by
  have hkd := ht.kernelDirectory
  have hdir : ∀ d ∈ s.kernelDirectory :: dirs, ∀ i,
      t.ram d i = s.ram d i ∨ d = s.cr3 ∧ i = pdIndex virt := by
    intro d hd i
    by_cases he : d = s.cr3 ∧ i = pdIndex virt
    · exact .inr he
    · exact .inl (h.dir hd (by tauto))
  refine ⟨⟨?_, ?_, ?_⟩, ?_, fun hz => hr.zeroUsed (ht.free 0 hz), hkd ▸ hr.zeroPlain⟩ <;> simp only [hkd]
  · exact fun d hd hn => hr.layout.dirHeld d hd (ht.free d hn)
  · intro d hd i hi hp
    rcases hdir d hd i with he | ⟨rfl, rfl⟩
    · rw [he] at hp ⊢
      exact fun hn => hr.layout.tableHeld d hd i hi hp (ht.free _ hn)
    · exact hf
  · intro d hd i hi hp
    rcases hdir d hd i with he | ⟨rfl, rfl⟩
    · rw [he] at hp ⊢
      exact hr.layout.apart d hd i hi hp
    · exact h.plain
  · rw [ht.cr3]
    exact hr.active

theorem plain_of (h : MapsIn s t dirs virt) (hkd : t.kernelDirectory = s.kernelDirectory)
    (hs : ¬ IsStructure s dirs f) (hf : ¬ s.pmm.Free f) (h0 : f ≠ 0) : ¬ IsStructure t dirs f := by
  rintro (hd | ⟨d, hd, i, hi, hp, he⟩)
  · exact hs (.inl (hkd ▸ hd))
  · rw [hkd] at hd
    by_cases hold : d ≠ s.cr3 ∨ i ≠ pdIndex virt ∨ present (s.ram s.cr3 i) = true
    · rw [h.dir hd hold] at hp he
      exact hs (.inr ⟨d, hd, i, hi, hp, he⟩)
    · simp only [not_or, not_not] at hold
      obtain ⟨rfl, rfl, hn⟩ := hold
      rcases h.fresh.resolve_left hn with hz | hfree
      · exact h0 (he.symm.trans hz)
      · exact hf (he ▸ hfree)

end MapsIn

theorem MapsTo.kernel_iff (h : MapsTo s t dirs virt table w) (hr : Ready s dirs) :
    (∀ d ∈ s.kernelDirectory :: dirs, ∀ addr, kernelVirtualBase ≤ addr →
      translate t.ram d addr = translate s.ram d addr) ↔ MapsOutside s dirs virt table w := by
  constructor
  · intro hk
    have hlow : present (s.ram s.cr3 (pdIndex virt)) = true ∨ virt < kernelVirtualBase := by
      by_contra hn
      rw [not_or, BitVec.not_lt] at hn
      have he := hk s.cr3 hr.active virt hn.2
      simp [translate, h.entry, h.page, hn.1] at he
    refine ⟨hlow, ?_⟩
    rintro ⟨d, hd, i, hi, hi', hp, hT⟩
    refine h.kept_iff.mp fun k hk' hpk => ?_
    obtain ⟨addr, ha, hai, hak⟩ := exists_kernel_address hi hi' hk'
    have hdir : t.ram d (pdIndex addr) = s.ram d (pdIndex addr) := by
      rw [hai]
      refine h.dir hd ?_
      by_cases he : d = s.cr3
      · subst he
        exact .inr (.inr hp)
      · exact .inl he
    rw [← hai] at hp hT
    have hsame := entry_of_translate hdir hp (hk d hd addr ha)
    rw [hT, hak] at hsame
    exact hsame hpk
  · intro hm d hd addr ha
    have hdir : t.ram d (pdIndex addr) = s.ram d (pdIndex addr) := by
      refine h.dir hd ?_
      by_cases he : d = s.cr3
      · by_cases hi : pdIndex addr = pdIndex virt
        · refine .inr (.inr ?_)
          rw [hi]
          refine hm.low.resolve_right fun hv => ?_
          have := le_pdIndex_iff.mp (hi ▸ le_pdIndex_iff.mpr ha)
          exact absurd hv (BitVec.not_lt.mpr this)
        · exact .inr (.inl hi)
      · exact .inl he
    by_cases hp : present (s.ram d (pdIndex addr)) = true
    · have hne : frameOf (s.ram d (pdIndex addr)) ≠ s.cr3 := fun he =>
        hr.layout.apart d hd _ (pdIndex_lt addr) hp (he ▸ hr.active)
      by_cases hT : frameOf (s.ram d (pdIndex addr)) = frameOf (t.ram s.cr3 (pdIndex virt))
      · rw [h.through] at hT
        have hkept := h.kept_iff.mpr (hm.kernel ⟨d, hd, _, le_pdIndex_iff.mpr ha, pdIndex_lt addr, hp, hT⟩) _ (ptIndex_lt addr)
        rw [← hT] at hkept
        simp only [translate, hdir]
        by_cases hq : present (s.ram (frameOf (s.ram d (pdIndex addr))) (ptIndex addr)) = true ∨
            present (t.ram (frameOf (s.ram d (pdIndex addr))) (ptIndex addr)) = true
        · rw [hkept hq]
        · simp only [not_or, Bool.not_eq_true] at hq
          simp [hq.1, hq.2]
      · exact translate_congr hdir fun _ => h.others _ hne hT
    · simp [translate, hdir, hp]

/-- A page was mapped: its directory and table are as they should be, and its entry is `w`. -/
structure Mapped (s t : Vm) (dirs : List Nat) (virt w : Word) : Prop where
  maps : MapsTo s t dirs virt (mapTable s virt) w
  ready : Ready t dirs

theorem Mapped.word (h : Mapped s t dirs virt w) : t.ram (frameOf (t.ram s.cr3 (pdIndex virt))) (ptIndex virt) = w := by
  rw [h.maps.through, h.maps.words, if_pos rfl]

private theorem vmMapPage_present (h : Ready s dirs) (phys virt : Word) (hw : present flags = true)
    (hp : present (s.ram s.cr3 (pdIndex virt)) = true) :
    Mapped s (vmMapPage s phys virt flags) dirs virt (entryAddr phys ||| flags) := by
  have htakes : Takes s (vmMapPage s phys virt flags) := takes_closed.mapPage ..
  have hap := h.layout.apart _ h.active _ (pdIndex_lt virt) hp
  have hmap : vmMapPage s phys virt flags =
      s.setWord (frameOf (s.ram s.cr3 (pdIndex virt))) (ptIndex virt) (entryAddr phys ||| flags) := by
    rw [vmMapPage, mapPage]
    simp only [hp, if_true]
  have hcr : (vmMapPage s phys virt flags).ram s.cr3 = s.ram s.cr3 := by
    rw [hmap]
    exact setWord_ne fun he => hap (he ▸ h.active)
  have hpage : (vmMapPage s phys virt flags).ram (frameOf (s.ram s.cr3 (pdIndex virt))) (ptIndex virt) =
      entryAddr phys ||| flags := by
    rw [hmap]
    exact setWord_self
  have hm : MapsIn s (vmMapPage s phys virt flags) dirs virt := by
    refine ⟨?_, ?_, fun i _ => congrFun hcr i, fun f _ hf => ?_, ?_, .inl hp⟩
    · rw [hcr, hp]
    · rw [hcr]
      exact hap
    · rw [hcr] at hf
      rw [hmap]
      exact setWord_ne hf
    · rw [hcr, hpage, present_entryAddr_or, hw]
  refine ⟨⟨hm, ?_, fun i => ?_⟩, hm.ready h htakes ?_⟩
  · rw [hcr, mapTable, if_pos hp]
  · rw [mapTable, if_pos hp, if_pos hp]
    by_cases hi : i = ptIndex virt
    · rw [hi, if_pos rfl, hpage]
    · rw [if_neg hi, hmap]
      exact Ram.setWord_other hi
  · rw [hcr]
    exact fun hn => h.layout.tableHeld _ h.active _ (pdIndex_lt virt) hp (htakes.free _ hn)

private theorem vmMapPage_absent (h : Ready s dirs) (phys virt : Word) (hw : present flags = true)
    (hp : ¬ present (s.ram s.cr3 (pdIndex virt)) = true) :
    Mapped s (vmMapPage s phys virt flags) dirs virt (entryAddr phys ||| flags) := by
  set T := s.allocFrame.2 with hT
  obtain ⟨hTd, hTlt⟩ : T ∉ s.kernelDirectory :: dirs ∧ T < 2 ^ 20 := by
    rcases allocFrame_cases s with hz | ⟨hfree, -⟩
    · rw [hT, hz]
      exact ⟨h.zeroPlain, by decide⟩
    · exact ⟨fun hd => h.layout.dirHeld T hd hfree, hfree.lt⟩
  have hne : s.cr3 ≠ T := fun he => hTd (he ▸ h.active)
  set e := frameAddr T ||| (7 : Word) with he
  have hef : frameOf e = T := frameOf_frameAddr_or hTlt (by decide)
  set v := (s.allocFrame.1.setPage T zeroPage).setWord s.cr3 (pdIndex virt) e with hv
  have hve : v.ram s.cr3 (pdIndex virt) = e := setWord_self
  have hmap : vmMapPage s phys virt flags = v.setWord T (ptIndex virt) (entryAddr phys ||| flags) := by
    rw [vmMapPage, mapPage]
    simp only [hp, Bool.false_eq_true, if_false]
    change v.setWord (frameOf (v.ram s.cr3 (pdIndex virt))) _ _ = _
    rw [hve, hef]
  have hcr : (vmMapPage s phys virt flags).ram s.cr3 = v.ram s.cr3 := by
    rw [hmap]
    exact setWord_ne hne
  have hTe : frameOf ((vmMapPage s phys virt flags).ram s.cr3 (pdIndex virt)) = T := by rw [hcr, hve, hef]
  have hpage : (vmMapPage s phys virt flags).ram T (ptIndex virt) = entryAddr phys ||| flags := by
    rw [hmap]
    exact setWord_self
  have hm : MapsIn s (vmMapPage s phys virt flags) dirs virt := by
    refine ⟨?_, ?_, fun i hi => ?_, fun f hf hf' => ?_, ?_, .inr ?_⟩
    · rw [hcr, hve, he, present_frameAddr_or]
      decide
    · rw [hTe]
      exact hTd
    · have hi' : i ≠ pdIndex virt := hi.elim id fun hpi he => hp (he ▸ hpi)
      rw [hcr, hv, setWord_ram, setWord_other hi', setPage_ram, setPage_ne hne]
      rfl
    · rw [hTe] at hf'
      rw [hmap, setWord_ram, setWord_ne hf', hv, setWord_ram, setWord_ne hf, setPage_ram,
        setPage_ne hf']
      rfl
    · rw [hTe, hpage, present_entryAddr_or, hw]
    · rw [hTe]
      exact (allocFrame_cases s).imp id And.left
  refine ⟨⟨hm, ?_, fun i => ?_⟩, hm.ready h (takes_closed.mapPage ..) ?_⟩
  · rw [hTe, mapTable, if_neg hp]
  · rw [mapTable, if_neg hp, if_neg hp]
    by_cases hi : i = ptIndex virt
    · rw [hi, if_pos rfl, hpage]
    · rw [if_neg hi, hmap, Vm.setWord_ram, Ram.setWord_other hi, hv, Vm.setWord_ram, Ram.setWord_ne hne.symm, Vm.setPage_ram,
        Ram.setPage_self]
      rfl
  · rw [hTe, hmap]
    rcases allocFrame_cases s with hz | ⟨-, hn⟩
    · exact fun hn => h.zeroUsed ((takes_closed.allocFrame s).free 0 (hz ▸ hn))
    · exact hn

theorem Ready.vmMapPage (h : Ready s dirs) (phys virt : Word) (hw : present flags = true) :
    Mapped s (vmMapPage s phys virt flags) dirs virt (entryAddr phys ||| flags) := by
  by_cases hp : present (s.ram s.cr3 (pdIndex virt)) = true
  · exact vmMapPage_present h phys virt hw hp
  · exact vmMapPage_absent h phys virt hw hp

theorem Ready.fault (h : Ready s dirs) (addr : Word) :
    Ready (handleDemandPaging s addr).1 dirs ∧
      (demandPage s addr = none ∧ (handleDemandPaging s addr).1.ram = s.ram ∨ ∃ u phys flags,
        demandPage s addr = some (u, phys, flags) ∧
          MapsTo s (handleDemandPaging s addr).1 dirs addr (mapTable u addr) (entryAddr phys ||| flags)) := by
  -- The frame for the page is taken first, and memory stays as it is till then.
  have taken : ∀ u : Vm, Takes s u → u.ram = s.ram → Ready u dirs ∧ ∀ phys flags, present flags = true →
      Ready (Kernel.vmMapPage u phys (entryAddr addr) flags) dirs ∧
        MapsTo s (Kernel.vmMapPage u phys (entryAddr addr) flags) dirs addr (mapTable u addr) (entryAddr phys ||| flags) := by
    intro u ht hram
    have hu : Ready u dirs := by
      refine ⟨⟨?_, ?_, ?_⟩, ?_, fun hz => h.zeroUsed (ht.free 0 hz), ht.kernelDirectory ▸ h.zeroPlain⟩ <;>
        simp only [ht.kernelDirectory, ht.cr3, hram]
      · exact fun d hd hn => h.layout.dirHeld d hd (ht.free d hn)
      · exact fun d hd i hi hp hn => h.layout.tableHeld d hd i hi hp (ht.free _ hn)
      · exact h.layout.apart
      · exact h.active
    refine ⟨hu, fun phys flags hf => ?_⟩
    obtain ⟨hm, hr⟩ := hu.vmMapPage phys (entryAddr addr) hf
    refine ⟨hr, ?_⟩
    have htable : mapTable u (entryAddr addr) = mapTable u addr := by rw [mapTable, mapTable, pdIndex_entryAddr]
    obtain ⟨⟨h1, h2, h3, h4, h5, h6⟩, h7, h8⟩ := hm
    simp only [htable, pdIndex_entryAddr, ptIndex_entryAddr, ht.cr3, ht.kernelDirectory, hram] at h1 h2 h3 h4 h5 h6 h7 h8
    exact ⟨⟨h1, h2, h3, h4, h5, h6.imp id (Or.imp id (ht.free _))⟩, h7, h8⟩
  have hself := taken s (takes_closed.refl s) rfl
  have halloc := taken s.allocFrame.1 (takes_closed.allocFrame s) rfl
  rw [handleDemandPaging, demandPage]
  by_cases ha : alreadyPresent s addr = true
  · rw [if_pos ha, if_pos ha]
    exact ⟨h, .inl ⟨rfl, rfl⟩⟩
  rw [if_neg ha, if_neg ha]
  by_cases hk : 0xE0000000 ≤ addr
  · rw [if_pos hk, if_pos hk]
    by_cases hz : s.allocFrame.2 = 0
    · simp only [hz, if_true]
      exact ⟨halloc.1, .inl ⟨trivial, rfl⟩⟩
    · simp only [hz, if_false]
      have := halloc.2 (frameAddr s.allocFrame.2) 3 (by decide)
      exact ⟨this.1, .inr ⟨_, _, _, rfl, this.2⟩⟩
  rw [if_neg hk, if_neg hk]
  by_cases hc : s.currentProcess = none
  · rw [if_pos hc, if_pos hc]
    exact ⟨h, .inl ⟨rfl, rfl⟩⟩
  rw [if_neg hc, if_neg hc]
  cases shmGetSegment s addr with
  | some shmid =>
    have := hself.2 ((s.shmSegments shmid).physAddr + (entryAddr addr - (s.shmSegments shmid).virtStart)) 7 (by decide)
    exact ⟨this.1, .inr ⟨_, _, _, rfl, this.2⟩⟩
  | none =>
    dsimp only
    split
    · have := halloc.2 (frameAddr s.allocFrame.2) 7 (by decide)
      exact ⟨this.1, .inr ⟨_, _, _, rfl, this.2⟩⟩
    · exact ⟨h, .inl ⟨rfl, rfl⟩⟩

private theorem clearByte_present {b : Nat} (h : present (clearByte w b) = true) : present w = true := by
  rw [present_eq, clearByte, BitVec.getLsbD_and, Bool.and_eq_true] at h
  rw [present_eq]
  exact h.1

private theorem clearBytes_outside (h : ¬ Covers lo hi i) : clearBytes page lo hi i = page i :=
  forUpto_invariant (fun _ w => w = page i) rfl fun b hb w hw => by
    rw [Covers] at h
    rw [if_neg (by omega), hw]

private theorem clearBytes_covered (h : 4 * i < hi) : present (clearBytes page 0 hi i) = false := by
  have hall : 0 < 4 → present (clearBytes page 0 hi i) = false := by
    refine forUpto_invariant (fun n w => 0 < n → present w = false) (fun h0 => absurd h0 (lt_irrefl 0))
      fun b _ w hw _ => ?_
    by_cases hb : b = 0
    · subst hb
      rw [if_pos (by omega), clearByte, present_eq, BitVec.getLsbD_and]
      simp
    · have hw := hw (Nat.pos_of_ne_zero hb)
      split
      · by_contra hn
        rw [Bool.not_eq_false] at hn
        rw [clearByte_present hn] at hw
        cases hw
      · exact hw
  exact hall (by decide)

/-- A store either starts with a page or is to a page that is no directory and no table. -/
def PlainStore (s : Vm) (dirs : List Nat) (frame lo : Nat) : Prop := lo = 0 ∨ ¬ IsStructure s dirs frame

namespace PlainStore
variable (hp : PlainStore s dirs frame lo)
include hp

theorem entry (hf : IsStructure s dirs f)
    (hq : present ((s.setPage frame (clearBytes (s.ram frame) lo hi)).ram f i) = true) :
    (s.setPage frame (clearBytes (s.ram frame) lo hi)).ram f i = s.ram f i := by
  by_cases he : f = frame
  · subst he
    obtain rfl : lo = 0 := hp.resolve_right fun hn => hn hf
    rw [setPage_ram, setPage_self] at hq ⊢
    by_cases hc : Covers 0 hi i
    · rw [clearBytes_covered hc.2] at hq
      cases hq
    · exact clearBytes_outside hc
  · exact congrFun (setPage_ne he) i

theorem ready (hr : Ready s dirs) : Ready (s.setPage frame (clearBytes (s.ram frame) lo hi)) dirs := by
  refine ⟨⟨hr.layout.dirHeld, fun d hd i hi hq => ?_, fun d hd i hi hq => ?_⟩, hr.active, hr.zeroUsed, hr.zeroPlain⟩
  · have he := hp.entry (.inl hd) hq
    rw [he] at hq ⊢
    exact hr.layout.tableHeld d hd i hi hq
  · have he := hp.entry (.inl hd) hq
    rw [he] at hq ⊢
    exact hr.layout.apart d hd i hi hq

theorem kernel_iff : (∀ d ∈ s.kernelDirectory :: dirs, ∀ virt, kernelVirtualBase ≤ virt →
      translate (s.setPage frame (clearBytes (s.ram frame) lo hi)).ram d virt = translate s.ram d virt) ↔
    ∀ i, Covers lo hi i → ¬ ReadsThrough s dirs frame i := by
  set t := s.setPage frame (clearBytes (s.ram frame) lo hi) with ht
  have htable : ∀ d ∈ s.kernelDirectory :: dirs, ∀ virt, present (s.ram d (pdIndex virt)) = true →
      IsStructure s dirs (frameOf (s.ram d (pdIndex virt))) := fun d hd virt hq =>
    .inr ⟨d, hd, _, pdIndex_lt virt, hq, rfl⟩
  constructor
  · rintro hk i hc ⟨d, hd, virt, hv, hsome, hi⟩
    have hlo : lo = 0 := hp.resolve_right fun hn => hn <| by
      rcases hi with ⟨rfl, -⟩ | ⟨rfl, -⟩
      · exact .inl hd
      · exact htable d hd virt (translate_isSome.mp hsome).1
    subst hlo
    have habs : present (t.ram frame i) = false := by
      rw [ht, setPage_ram, setPage_self]
      exact clearBytes_covered hc.2
    rw [← hk d hd virt hv] at hsome
    obtain ⟨hw, hw'⟩ := translate_isSome.mp hsome
    rcases hi with ⟨rfl, rfl⟩ | ⟨rfl, rfl⟩
    · rw [habs] at hw
      cases hw
    · rw [hp.entry (.inl hd) hw] at hw'
      rw [habs] at hw'
      cases hw'
  · intro hn d hd virt hv
    by_cases hsome : (translate s.ram d virt).isSome
    · have hkeep : ∀ f i, (f = d ∧ i = pdIndex virt ∨ f = frameOf (s.ram d (pdIndex virt)) ∧ i = ptIndex virt) →
          t.ram f i = s.ram f i := by
        intro f i hi
        by_cases he : f = frame
        · subst he
          rw [ht, setPage_ram, setPage_self]
          exact clearBytes_outside fun hc => hn i hc ⟨d, hd, virt, hv, hsome, hi⟩
        · exact congrFun (setPage_ne he) i
      simp only [translate, hkeep d _ (.inl ⟨rfl, rfl⟩), hkeep _ _ (.inr ⟨rfl, rfl⟩)]
    · by_contra hne
      have hsome' : (translate t.ram d virt).isSome := by
        rw [Option.not_isSome_iff_eq_none] at hsome
        rw [hsome] at hne
        exact Option.isSome_iff_ne_none.mpr hne
      obtain ⟨hw, hw'⟩ := translate_isSome.mp hsome'
      have he := hp.entry (.inl hd) hw
      rw [he] at hw hw'
      have he' := hp.entry (htable d hd virt hw) hw'
      rw [he'] at hw'
      exact hsome (translate_isSome.mpr ⟨hw, hw'⟩)

end PlainStore

structure Unmapped (s t : Vm) (virt : Word) (f : Nat) : Prop where
  frames : unmapFrames s virt = [f]
  table : present (s.ram s.cr3 (pdIndex virt)) = true
  page : present (s.ram (frameOf (s.ram s.cr3 (pdIndex virt))) (ptIndex virt)) = true
  words : t.ram = s.ram.setWord (frameOf (s.ram s.cr3 (pdIndex virt))) (ptIndex virt) 0
  used : ∀ g, t.pmm.mmapTest g = (s.pmm.mmapTest g && !decide (g = f))
  maxBlocks : t.pmm.maxBlocks = s.pmm.maxBlocks
  rest : t.kernelDirectory = s.kernelDirectory ∧ t.cr3 = s.cr3

theorem vmUnmapPage_cases (s : Vm) (virt : Word) :
    unmapFrames s virt = [] ∧ vmUnmapPage s virt = s ∨ ∃ f, Unmapped s (vmUnmapPage s virt) virt f := by
  rw [vmUnmapPage_eq]
  split
  · next hc =>
    have hfr : unmapFrames s virt = [frameOf (s.ram (frameOf (s.ram s.cr3 (pdIndex virt))) (ptIndex virt))] := by
      rw [unmapFrames, if_pos hc]
    obtain ⟨hp, hq⟩ := Bool.and_eq_true_iff.mp hc
    have hlt : ∀ g ∈ unmapFrames s virt, g < 2 ^ 20 := fun g hg => by
      rw [hfr] at hg
      rw [List.mem_singleton.mp hg]
      exact frameOf_lt _
    have hused : ∀ g, (s.pmm.release (unmapFrames s virt)).mmapTest g =
        (s.pmm.mmapTest g && !decide (g = frameOf (s.ram (frameOf (s.ram s.cr3 (pdIndex virt))) (ptIndex virt)))) :=
      fun g => by
        rw [Pmm.mmapTest_release hlt, hfr]
        simp
    exact .inr ⟨_, hfr, hp, hq, rfl, hused, Pmm.maxBlocks_release _, rfl, rfl⟩
  · next hc =>
    refine .inl ⟨?_, rfl⟩
    rw [unmapFrames, if_neg hc]

theorem Unmapped.free {g : Nat} (h : Unmapped s t virt f) (hg : t.pmm.Free g) :
    s.pmm.Free g ∨ g = f ∧ s.pmm.mmapTest f = true := by
  obtain ⟨hlt, ht⟩ := hg
  rw [h.maxBlocks] at hlt
  rw [h.used, Bool.and_eq_false_iff] at ht
  cases hm : s.pmm.mmapTest g with
  | false => exact .inl ⟨hlt, hm⟩
  | true =>
    obtain rfl : g = f := by simpa [hm] using ht
    exact .inr ⟨rfl, hm⟩

theorem Unmapped.kernel_iff (h : Unmapped s t virt f) (hr : Ready s dirs) :
    (∀ d ∈ s.kernelDirectory :: dirs, ∀ addr, kernelVirtualBase ≤ addr →
      translate t.ram d addr = translate s.ram d addr) ↔
    ¬ KernelTable s dirs (frameOf (s.ram s.cr3 (pdIndex virt))) := by
  have hdir : ∀ d ∈ s.kernelDirectory :: dirs, t.ram d = s.ram d := fun d hd => by
    rw [h.words]
    exact setWord_ne fun he => hr.layout.apart _ hr.active _ (pdIndex_lt virt) h.table (he ▸ hd)
  constructor
  · rintro hk ⟨d, hd, i, hi, hi', hp, hT⟩
    obtain ⟨addr, ha, rfl, hak⟩ := exists_kernel_address hi hi' (ptIndex_lt virt)
    have hsome : (translate s.ram d addr).isSome := translate_isSome.mpr ⟨hp, by rw [hT, hak, h.page]⟩
    rw [← hk d hd addr ha] at hsome
    have hgone := (translate_isSome.mp hsome).2
    rw [hdir d hd, hT, hak, h.words, setWord_self] at hgone
    exact absurd hgone (by decide)
  · intro hn d hd addr ha
    refine translate_congr (congrFun (hdir d hd) _) fun hp => ?_
    rw [h.words]
    exact setWord_ne fun he => hn ⟨d, hd, _, le_pdIndex_iff.mpr ha, pdIndex_lt addr, hp, he⟩

theorem Unmapped.ready (h : Unmapped s t virt f) (hr : Ready s dirs)
    (hf : s.pmm.mmapTest f = true → ¬ IsStructure s dirs f ∧ f ≠ 0) : Ready t dirs := by
  have hdir : ∀ d ∈ s.kernelDirectory :: dirs, t.ram d = s.ram d := fun d hd => by
    rw [h.words]
    exact setWord_ne fun he => hr.layout.apart _ hr.active _ (pdIndex_lt virt) h.table (he ▸ hd)
  have hheld : ∀ g, IsStructure s dirs g → ¬ t.pmm.Free g := fun g hg hn => by
    rcases h.free hn with hn | ⟨rfl, hu⟩
    · exact hr.layout.not_free hg hn
    · exact (hf hu).1 hg
  obtain ⟨hkd, hcr⟩ := h.rest
  refine ⟨⟨?_, ?_, ?_⟩, hkd ▸ hcr ▸ hr.active, fun hn => ?_, hkd ▸ hr.zeroPlain⟩
  · rw [hkd]
    exact fun d hd => hheld d (.inl hd)
  · rw [hkd]
    intro d hd i hi hp
    rw [hdir d hd] at hp ⊢
    exact hheld _ (.inr ⟨d, hd, i, hi, hp, rfl⟩)
  · rw [hkd]
    intro d hd i hi hp
    rw [hdir d hd] at hp ⊢
    exact hr.layout.apart d hd i hi hp
  · rcases h.free hn with hn | ⟨h0, hu⟩
    · exact hr.zeroUsed hn
    · exact (hf hu).2 h0.symm

end RetroOs.Kernel.UserMemory
