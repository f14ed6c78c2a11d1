import RetroOs.Kernel.UserMemoryCalls

/-! One round of the loop of `sys_sbrk` and `sys_mmap`: a frame is taken, mapped and cleared, with a frame for the table where
there is none. -/
namespace RetroOs.Kernel
open Lib Act Ram
namespace Pmm
variable {p : Pmm} {n : Nat}

theorem exhausted_iff : Exhausted p ↔ ¬ p.CanAlloc 1 := by
  constructor
  · intro h hc
    obtain ⟨f, q, ha, hg, -⟩ := allocBlock_spec (n := 0) hc
    rw [allocBlock_exhausted h] at ha
    have hused := (hg.mmapTest f).symm
    rw [← (Prod.mk.inj ha).1, (hg.free f (List.mem_singleton_self f)).2] at hused
    simp at hused
  · intro h
    by_contra hn
    rw [Exhausted, not_or] at hn
    obtain ⟨f, hf⟩ := Option.ne_none_iff_exists'.mp hn.2
    refine h ⟨?_, Finset.card_pos.mpr ⟨f, mem_freeFrames.mpr (mmapFirstFree_some hf)⟩⟩
    rw [Nat.one_le_iff_ne_zero]
    intro hz
    exact hn.1 (BitVec.eq_of_toNat_eq hz)

theorem canAlloc_allocBlock (p : Pmm) (n : Nat) : p.allocBlock.1.CanAlloc (n + 1) ↔ p.CanAlloc (n + 2) := by
  constructor
  · intro h
    rcases p.allocBlock_cases with he | ⟨f, hf, -, hg⟩
    · rw [he] at h
      have hne : ¬ Exhausted p := fun hex => exhausted_iff.mp hex (h.mono (Nat.le_add_left 1 n))
      exact absurd (congrArg Prod.fst he) (allocBlock_changes hne)
    · have hne : ¬ Exhausted p := fun hex => by
        have hused := hg.mmapTest f
        rw [allocBlock_exhausted hex, (mmapFirstFree_some hf).2] at hused
        simp at hused
      have hone : p.CanAlloc 1 := not_not.mp fun hn => hne (exhausted_iff.mpr hn)
      constructor
      · have hq : p.allocBlock.1.freeBlockCount = p.freeBlockCount - 1 := by
          rw [freeBlockCount, freeBlockCount, hg.maxBlocks, hg.usedBlocks, BitVec.sub_sub]
          rfl
        have hcount := h.1
        have hpos := hone.1
        bv_omega
      · have hq : p.allocBlock.1.freeFrames = p.freeFrames.erase f := by
          ext g
          rw [Finset.mem_erase, mem_freeFrames, mem_freeFrames, hg.free_iff, List.mem_singleton, and_comm]
        have hcard := h.2
        have hmem := mem_freeFrames.mpr (mmapFirstFree_some hf)
        rw [hq, Finset.card_erase_of_mem hmem] at hcard
        omega
  · intro h
    obtain ⟨f, q, ha, -, hc⟩ := allocBlock_spec h
    rw [ha]
    exact hc

end Pmm

namespace UserMemory

variable {dirs : List Nat} {virt w : Word} {s t u : State} {v v' : Vm} {es : List Action} {b : Bool} {rest : List Word}
  {lo hi f : Nat} {page : Nat → Word}

theorem Ready.allocFrame (h : Ready v dirs) : Ready v.allocFrame.1 dirs ∧
    (v.allocFrame.2 = 0 ∧ ¬ v.pmm.CanAlloc 1 ∧ v.allocFrame.1 = v ∨
      v.allocFrame.2 ≠ 0 ∧ v.pmm.CanAlloc 1 ∧ v.pmm.Free v.allocFrame.2 ∧ ¬ v.allocFrame.1.pmm.Free v.allocFrame.2) := by
  have ht := takes_closed.allocFrame v
  refine ⟨⟨⟨fun d hd hn => h.layout.dirHeld d hd (ht.free d hn),
    fun d hd i hi hp hn => h.layout.tableHeld d hd i hi hp (ht.free _ hn), h.layout.apart⟩, h.active,
    fun hn => h.zeroUsed (ht.free 0 hn), h.zeroPlain⟩, ?_⟩
  by_cases hcan : v.pmm.CanAlloc 1
  · obtain ⟨g, u, hu, hfree, hau, -⟩ := allocFrame_spec (n := 0) hcan
    rw [hu]
    refine .inr ⟨fun h0 => ?_, hcan, hfree, hau.not_free_new (List.mem_singleton_self g)⟩
    exact h.zeroUsed (h0 ▸ hfree)
  · rw [Vm.allocFrame, allocBlock_exhausted (Pmm.exhausted_iff.mpr hcan)]
    exact .inl ⟨(by decide : frameOf 0 = 0), hcan, rfl⟩

def tableFor (v : Vm) (virt : Word) : Nat :=
  if present (v.ram v.cr3 (pdIndex virt)) then frameOf (v.ram v.cr3 (pdIndex virt)) else v.allocFrame.2

private theorem vmMapPage_words (h : Ready v dirs) (phys virt flags : Word) :
    (vmMapPage v phys virt flags).ram v.cr3 (pdIndex virt) = (if present (v.ram v.cr3 (pdIndex virt)) then
      v.ram v.cr3 (pdIndex virt) else frameAddr (tableFor v virt) ||| 7) ∧
    ∀ j ≠ ptIndex virt, (vmMapPage v phys virt flags).ram (tableFor v virt) j =
      if present (v.ram v.cr3 (pdIndex virt)) then v.ram (tableFor v virt) j else 0 := by
  by_cases hp : present (v.ram v.cr3 (pdIndex virt)) = true
  · have hap := h.layout.apart _ h.active _ (pdIndex_lt virt) hp
    have hne : v.cr3 ≠ frameOf (v.ram v.cr3 (pdIndex virt)) := fun he => hap (he ▸ h.active)
    rw [tableFor, if_pos hp, if_pos hp, vmMapPage, mapPage]
    simp only [hp, if_true]
    exact ⟨congrFun (setWord_ne hne) _, fun j hj => setWord_other hj⟩
  · obtain ⟨-, hcases⟩ := h.allocFrame
    obtain ⟨hTd, hlt⟩ : v.allocFrame.2 ∉ v.kernelDirectory :: dirs ∧ v.allocFrame.2 < 2 ^ 20 := by
      rcases hcases with ⟨h0, -⟩ | ⟨-, -, hfree, -⟩
      · rw [h0]
        exact ⟨h.zeroPlain, by decide⟩
      · exact ⟨fun hd => h.layout.dirHeld _ hd hfree, hfree.lt⟩
    have hne : v.cr3 ≠ v.allocFrame.2 := fun he => hTd (he ▸ h.active)
    have hword : ((v.allocFrame.1.setPage v.allocFrame.2 zeroPage).setWord v.cr3 (pdIndex virt)
        (frameAddr v.allocFrame.2 ||| 7)).ram v.cr3 (pdIndex virt) = frameAddr v.allocFrame.2 ||| 7 := setWord_self
    rw [tableFor, if_neg hp, if_neg hp, vmMapPage, mapPage]
    simp only [hp, Bool.false_eq_true, if_false]
    rw [hword, frameOf_frameAddr_or hlt (by decide)]
    refine ⟨(congrFun (setWord_ne hne) _).trans hword, fun j hj => ?_⟩
    rw [Vm.setWord_ram, setWord_other hj, Vm.setWord_ram, setWord_ne hne.symm, Vm.setPage_ram, setPage_self]
    rfl

private theorem clearBytes_zero {i : Nat} (h : i < 1024) : clearBytes page 0 4096 i = 0 := by
  have hcond : ∀ b < 4, 0 ≤ 4 * i + b ∧ 4 * i + b < 4096 := fun b hb => by omega
  rw [clearBytes]
  simp only [forUpto, hcond, show (0 : Nat) < 4 by decide, show 1 < 4 by decide, show 2 < 4 by decide,
    show 3 < 4 by decide, and_self, if_true, clearByte, BitVec.and_assoc]
  exact BitVec.and_zero

private theorem storePage_returns (hr : Ready s.vm dirs) (hp : PlainPage dirs virt s)
    (h : (storePage virt lo hi).Returns s es () t) :
    ∃ f, storeFrame virt s = some f ∧ es = [.store f lo hi] ∧ t = s.exec (.store f lo hi) := by
  have h := returns_read_bind.mp h
  cases hf : storeFrame virt s with
  | some f =>
    rw [hf] at h
    obtain ⟨rfl, rfl⟩ := returns_perform.mp h
    exact ⟨f, rfl, rfl, rfl⟩
  | none =>
    rw [hf] at h
    obtain ⟨gs, hthen, -⟩ := returns_perform_bind.mp (returns_read_bind.mp h)
    have hstuck : storeFrame virt (s.exec (.fault virt)) = none := by
      refine storeFrame_stuck hp hf ?_
      obtain ⟨x, hx, -⟩ := hp
      have hpde := (translate_isSome.mp (by rw [hx]; rfl : (translate s.vm.ram s.vm.cr3 virt).isSome = true)).1
      change (handleDemandPaging s.vm virt).1.ram (handleDemandPaging s.vm virt).1.cr3 (pdIndex virt) = _
      rw [(takes_closed.handleDemandPaging ..).cr3]
      rcases (hr.fault virt).2 with ⟨-, hram⟩ | ⟨_, _, _, -, hm⟩
      · rw [hram]
      · exact hm.entries _ (.inr hpde)
    split at hthen
    · have hlast := returns_read_bind.mp hthen
      rw [hstuck] at hlast
      exact absurd hlast not_returns_stop
    · exact absurd hthen not_returns_stop

/-- A round of the loop takes a frame, or ends the loop where there is none. -/
theorem mapPages_cons : (mapPages (virt :: rest)).Returns s es b t ↔
    ∃ gs, es = .allocBlock :: gs ∧ (s.vm.allocFrame.2 = 0 ∧ gs = [] ∧ b = false ∧ t = s.exec .allocBlock ∨
      s.vm.allocFrame.2 ≠ 0 ∧ ∃ fs hs u, (memset virt).Returns
        ((s.exec .allocBlock).exec (.mapPage (frameAddr s.vm.allocFrame.2) virt)) fs () u ∧
        (mapPages rest).Returns u hs b t ∧ gs = .mapPage (frameAddr s.vm.allocFrame.2) virt :: (fs ++ hs)) := by
  have halloc : ∀ {fs : List Action} {f : Nat} {u : State}, pmmAllocBlock.Returns s fs f u ↔
      fs = [.allocBlock] ∧ f = s.vm.allocFrame.2 ∧ u = s.exec .allocBlock := by
    intro fs f u
    rw [pmmAllocBlock, returns_read_bind, returns_perform_bind]
    constructor
    · rintro ⟨gs, h, rfl⟩
      obtain ⟨rfl, rfl, rfl⟩ := returns_pure.mp h
      exact ⟨rfl, rfl, rfl⟩
    · rintro ⟨rfl, rfl, rfl⟩
      exact ⟨[], returns_pure.mpr ⟨rfl, rfl, rfl⟩, rfl⟩
  rw [mapPages, returns_bind]
  constructor
  · rintro ⟨fs, gs, f, u, hf, h, rfl⟩
    obtain ⟨rfl, rfl, rfl⟩ := halloc.mp hf
    refine ⟨gs, rfl, ?_⟩
    split at h
    · next h0 =>
      obtain ⟨rfl, rfl, rfl⟩ := returns_pure.mp h
      exact .inl ⟨h0, rfl, rfl, rfl⟩
    · next h0 =>
      obtain ⟨gs', hthen, rfl⟩ := returns_perform_bind.mp h
      obtain ⟨fs, hs, _, u, hclear, hrest, rfl⟩ := returns_bind.mp hthen
      exact .inr ⟨h0, fs, hs, u, hclear, hrest, rfl⟩
  · rintro ⟨gs, rfl, ⟨h0, rfl, rfl, rfl⟩ | ⟨h0, fs, hs, u, hmem, hrest, rfl⟩⟩
    · refine ⟨[.allocBlock], [], _, _, halloc.mpr ⟨rfl, rfl, rfl⟩, ?_, rfl⟩
      rw [if_pos h0]
      exact returns_pure.mpr ⟨rfl, rfl, rfl⟩
    · refine ⟨[.allocBlock], _, _, _, halloc.mpr ⟨rfl, rfl, rfl⟩, ?_, rfl⟩
      rw [if_neg h0]
      exact returns_perform_bind.mpr ⟨fs ++ hs, returns_bind.mpr ⟨fs, hs, (), u, hmem, hrest, rfl⟩, rfl⟩

/-- From `v` to `v'` a page was mapped to a frame that was free, and cleared. The table was there, or was made in a frame that
was free too, or in frame 0 where there was no second one. -/
structure GrowsPage (v v' : Vm) (virt : Word) (f pt : Nat) : Prop where
  takes : Takes v v'
  free : v.pmm.Free f
  taken : ¬ v'.pmm.Free f
  apart : f ≠ v.cr3 ∧ pt ≠ v.cr3 ∧ f ≠ pt
  table : present (v.ram v.cr3 (pdIndex virt)) = true ∧ pt = frameOf (v.ram v.cr3 (pdIndex virt)) ∨
    present (v.ram v.cr3 (pdIndex virt)) = false ∧ (v.pmm.CanAlloc 2 ∧ v.pmm.Free pt ∨ ¬ v.pmm.CanAlloc 2 ∧ pt = 0)
  dir : v'.ram v.cr3 (pdIndex virt) = if present (v.ram v.cr3 (pdIndex virt)) then v.ram v.cr3 (pdIndex virt)
    else frameAddr pt ||| 7
  dirs : ∀ i ≠ pdIndex virt, v'.ram v.cr3 i = v.ram v.cr3 i
  entry : v'.ram pt (ptIndex virt) = frameAddr f ||| 7
  entries : ∀ j ≠ ptIndex virt, v'.ram pt j = if present (v.ram v.cr3 (pdIndex virt)) then v.ram pt j else 0
  cleared : ∀ i < 1024, v'.ram f i = 0
  others : ∀ g, g ≠ v.cr3 → g ≠ pt → g ≠ f → v'.ram g = v.ram g
  count : ∀ k, v'.pmm.CanAlloc (k + 1) ↔
    v.pmm.CanAlloc (1 + (if present (v.ram v.cr3 (pdIndex virt)) then 0 else 1) + (k + 1))

private theorem mapPage_pmm (v : Vm) (pd : Nat) (phys virt flags : Word) : (mapPage v pd phys virt flags).pmm =
    if present (v.ram pd (pdIndex virt)) then v.pmm else v.allocFrame.1.pmm := by
  rw [mapPage]
  by_cases hp : present (v.ram pd (pdIndex virt)) = true
  · simp only [hp, if_true]
    rfl
  · simp only [hp, Bool.false_eq_true, if_false]
    rfl

private theorem tableFor_cases (h : Ready v dirs) (virt : Word) :
    present (v.ram v.cr3 (pdIndex virt)) = true ∧ tableFor v.allocFrame.1 virt = frameOf (v.ram v.cr3 (pdIndex virt)) ∨
      present (v.ram v.cr3 (pdIndex virt)) = false ∧
        (v.pmm.CanAlloc 2 ∧ v.allocFrame.1.pmm.Free (tableFor v.allocFrame.1 virt) ∨
          ¬ v.pmm.CanAlloc 2 ∧ tableFor v.allocFrame.1 virt = 0) := by
  by_cases hp : present (v.ram v.cr3 (pdIndex virt)) = true
  · exact .inl ⟨hp, if_pos hp⟩
  · have hpt : tableFor v.allocFrame.1 virt = v.allocFrame.1.allocFrame.2 := if_neg hp
    rw [hpt]
    refine .inr ⟨eq_false_of_ne_true hp, ?_⟩
    rcases h.allocFrame.1.allocFrame.2 with ⟨h0, hno, -⟩ | ⟨-, hcan, hfree, -⟩
    · exact .inr ⟨fun hc => hno ((Pmm.canAlloc_allocBlock _ 0).mpr hc), h0⟩
    · exact .inl ⟨(Pmm.canAlloc_allocBlock _ 0).mp hcan, hfree⟩

theorem newTable_lt {p : Pmm} {pt : Nat} (h : p.Free pt ∨ pt = 0) : pt < 2 ^ 20 := by
  rcases h with hfree | rfl
  · exact hfree.lt
  · decide

private theorem entryAddr_frameAddr (f : Nat) : entryAddr (frameAddr f) = frameAddr f := by
  refine word_ext (frameOf_entryAddr _) ?_
  have h := entryFlags_entryAddr_or (frameAddr f) 0
  rw [show entryAddr (frameAddr f) ||| 0 = entryAddr (frameAddr f) from BitVec.or_zero] at h
  rw [h, entryFlags_frameAddr]
  decide

private theorem growsPage (virt : Word) {m : Vm} {pt : Nat} (h : Ready v dirs) (hf : v.allocFrame.2 = f) (h0 : f ≠ 0)
    (hpt : tableFor v.allocFrame.1 virt = pt) (hm : vmMapPage v.allocFrame.1 (frameAddr f) virt 7 = m) :
    GrowsPage v (m.setPage f (clearBytes (m.ram f) 0 4096)) virt f pt := by
  obtain ⟨hra, hcases⟩ := h.allocFrame
  obtain ⟨-, -, hfree, hno⟩ := hcases.resolve_left fun hz => h0 (hf.symm.trans hz.1)
  have htable := tableFor_cases h virt
  have hmap := (hra.vmMapPage (frameAddr f) virt (show present 7 = true by decide))
  obtain ⟨hdir, hwords⟩ := vmMapPage_words hra (frameAddr f) virt 7
  have hta : Takes v v.allocFrame.1 := takes_closed.allocFrame v
  have htm : Takes v.allocFrame.1 m := hm ▸ takes_closed.mapPage ..
  have hpmm : m.pmm = if present (v.ram v.cr3 (pdIndex virt)) then v.allocFrame.1.pmm else v.allocFrame.1.allocFrame.1.pmm :=
    (congrArg Vm.pmm hm.symm).trans (mapPage_pmm v.allocFrame.1 _ _ _ _)
  rw [hf] at hfree hno
  rw [hpt] at htable hdir hwords
  rw [hm] at hmap hdir hwords
  have hlt : pt < 2 ^ 20 := by
    rcases htable with ⟨-, he⟩ | ⟨-, hnew⟩
    · exact he ▸ frameOf_lt _
    · exact newTable_lt (hnew.imp And.right And.right)
  have hframe : frameOf (m.ram v.cr3 (pdIndex virt)) = pt := by
    rw [show m.ram v.cr3 (pdIndex virt) = _ from hdir]
    split
    · next hp => rw [← hpt, tableFor, if_pos hp]
    · exact frameOf_frameAddr_or hlt (by decide)
  have hcr : f ≠ v.cr3 := fun he => h.layout.dirHeld _ h.active (he ▸ hfree)
  have hptcr : pt ≠ v.cr3 := fun he => hmap.maps.plain (by
    rw [show frameOf (m.ram v.allocFrame.1.cr3 (pdIndex virt)) = pt from hframe, he]
    exact h.active)
  have hfpt : f ≠ pt := by
    intro he
    rcases htable with ⟨hp, ht⟩ | ⟨-, ⟨-, ht⟩ | ⟨-, ht⟩⟩
    · exact h.layout.tableHeld _ h.active _ (pdIndex_lt virt) hp (ht ▸ he ▸ hfree)
    · exact hno (he ▸ ht)
    · exact h0 (he.trans ht)
  have hkeep : ∀ g ≠ f, (m.setPage f (clearBytes (m.ram f) 0 4096)).ram g = m.ram g := fun g hg => setPage_ne hg
  refine ⟨takes_closed.trans hta (takes_closed.trans htm (takes_closed.setPage ..)), hfree, fun hn => hno (htm.free f hn), ⟨hcr, hptcr, hfpt⟩,
    htable.imp_right fun ht => ⟨ht.1, ht.2.imp_left fun hc => ⟨hc.1, hta.free _ hc.2⟩⟩, ?_, fun i hi => ?_, ?_, fun j hj => ?_, fun i hi => ?_,
    fun g hg hgpt hgf => ?_, fun k => ?_⟩
  · rw [hkeep _ hcr.symm]
    exact hdir
  · rw [hkeep _ hcr.symm]
    exact hmap.maps.entries i (.inl hi)
  · rw [hkeep _ hfpt.symm]
    have hword := hmap.word
    rw [show frameOf (m.ram v.allocFrame.1.cr3 (pdIndex virt)) = pt from hframe, entryAddr_frameAddr] at hword
    exact hword
  · rw [hkeep _ hfpt.symm]
    exact hwords j hj
  · rw [Vm.setPage_ram, setPage_self]
    exact clearBytes_zero hi
  · rw [hkeep _ hgf]
    exact hmap.maps.others g hg (by
      rw [show frameOf (m.ram v.allocFrame.1.cr3 (pdIndex virt)) = pt from hframe]
      exact hgpt)
  · rw [Vm.setPage_pmm, hpmm]
    split
    · rw [show 1 + 0 + (k + 1) = k + 2 by omega]
      exact Pmm.canAlloc_allocBlock v.pmm k
    · rw [show 1 + 1 + (k + 1) = k + 1 + 2 by omega]
      exact (Pmm.canAlloc_allocBlock _ k).trans (Pmm.canAlloc_allocBlock v.pmm (k + 1))

theorem mapPages_round (h : Ready s.vm dirs) (halign : entryFlags virt = 0) (hret : (mapPages (virt :: rest)).Returns s es b t) :
    ¬ s.vm.pmm.CanAlloc 1 ∧ b = false ∧ es = [.allocBlock] ∧ t = s ∨ s.vm.pmm.CanAlloc 1 ∧ ∃ f pt u gs,
      GrowsPage s.vm u.vm virt f pt ∧ Ready u.vm dirs ∧ u.heapEnd = s.heapEnd ∧ u.nextMmapAddr = s.nextMmapAddr ∧
        (mapPages rest).Returns u gs b t ∧ es = .allocBlock :: .mapPage (frameAddr f) virt :: .store f 0 4096 :: gs := by
  obtain ⟨hra, hcases⟩ := h.allocFrame
  obtain ⟨gs, rfl, ⟨h0, rfl, rfl, rfl⟩ | ⟨h0, fs, hs, u, hclear, hrest, rfl⟩⟩ := mapPages_cons.mp hret
  · obtain ⟨-, hno, hsame⟩ := hcases.resolve_right fun hne => hne.1 h0
    refine .inl ⟨hno, rfl, rfl, ?_⟩
    rw [State.exec, hsame]
  · obtain ⟨-, hcan, hfree, hno⟩ := hcases.resolve_left fun hz => h0 hz.1
    have htaken : Taken dirs s.vm.allocFrame.2 (s.exec .allocBlock) :=
      ⟨hra, fun _ => ⟨hfree.lt, hno, fun hs => h.layout.not_free hs hfree⟩⟩
    obtain ⟨hready, hplain, x, hx, hframe, hflags⟩ := htaken.mapPage h0 virt
    have hgrows := growsPage virt h rfl h0 rfl rfl
    generalize hm : vmMapPage (s.exec .allocBlock).vm (frameAddr s.vm.allocFrame.2) virt 7 = m at hready hplain hx
    have hgrows : GrowsPage s.vm (m.setPage s.vm.allocFrame.2 (clearBytes (m.ram s.vm.allocFrame.2) 0 4096)) virt
        s.vm.allocFrame.2 (tableFor s.vm.allocFrame.1 virt) := hm ▸ hgrows
    have hexec : (s.exec .allocBlock).exec (.mapPage (frameAddr s.vm.allocFrame.2) virt) = { s with vm := m } := by
      rw [← hm]
      rfl
    rw [hexec] at hclear
    obtain ⟨fs, hs', _, w, hstore, hdone, rfl⟩ := returns_bind.mp hclear
    rw [halign] at hstore hdone
    obtain ⟨rfl, -, rfl⟩ := returns_pure.mp hdone
    have hpage : PlainPage dirs virt { s with vm := m } := ⟨x, hx, by rw [hflags]; decide, hframe ▸ hplain⟩
    obtain ⟨g, hg, rfl, rfl⟩ := storePage_returns (s := { s with vm := m }) hready hpage hstore
    obtain ⟨y, hy, rfl⟩ := storeFrame_eq_some hg
    cases hx.symm.trans hy
    rw [hframe] at hrest ⊢
    refine .inr ⟨hcan, _, _, { s with vm := m.setPage s.vm.allocFrame.2 (clearBytes (m.ram s.vm.allocFrame.2) 0 4096) }, hs,
      hgrows, ?_, rfl, rfl, hrest, rfl⟩
    exact PlainStore.ready (.inl rfl) hready

end UserMemory
end RetroOs.Kernel
