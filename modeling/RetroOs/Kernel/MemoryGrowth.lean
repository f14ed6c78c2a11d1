import RetroOs.Kernel.GrowthRuns

/-! What `sys_sbrk` and `sys_mmap` leave behind when memory runs out, and what is mapped once the break has moved. -/
namespace RetroOs.Kernel.UserMemory
open Lib List BitVec Act

variable {m : Caller} {v v' : Vm} {s t u : State} {es fs : List Action} {ok : Bool} {pages : List Word}
  {virt a b r increment start addr length : Word} {i j : Nat}

section Pages

theorem entryFlags_eq_zero : entryFlags virt = 0 ↔ virt.toNat % 4096 = 0 := by
  rw [← entryFlags_toNat]
  exact ⟨fun h => congrArg BitVec.toNat h, fun h => BitVec.eq_of_toNat_eq h⟩

private theorem entryAddr_of_aligned (h : entryFlags virt = 0) : entryAddr virt = virt := by
  refine eq_of_toNat_eq ?_
  have hmod := entryFlags_eq_zero.mp h
  rw [entryAddr_toNat]
  omega

theorem entryFlags_entryAddr (w : Word) : entryFlags (entryAddr w) = 0 := by
  rw [entryFlags_eq_zero, entryAddr_toNat]
  omega

theorem entryAddr_eq (hpd : pdIndex a = pdIndex b) (hpt : ptIndex a = ptIndex b) : entryAddr a = entryAddr b := by
  rw [pdIndex_eq, pdIndex_eq] at hpd
  rw [ptIndex_eq, ptIndex_eq] at hpt
  refine eq_of_toNat_eq ?_
  rw [frameOf, frameOf] at hpd hpt
  rw [entryAddr_toNat, entryAddr_toNat]
  omega

private theorem pagesFrom_aligned {base : Word} (h : entryFlags base = 0) {n : Nat} : ∀ u ∈ pagesFrom base n, entryFlags u = 0 := by
  intro u hu
  obtain ⟨i, -, rfl⟩ := mem_map.mp hu
  have hmod := entryFlags_eq_zero.mp h
  rw [entryFlags_eq_zero, toNat_add, toNat_ofNat]
  omega

theorem brkPages_aligned {oldPageTop newPageTop : Word} (h : entryFlags oldPageTop = 0) :
    ∀ u ∈ brkPages oldPageTop newPageTop, entryFlags u = 0 := by
  intro u hu
  rw [brkPages] at hu
  split at hu
  · exact pagesFrom_aligned h u hu
  · exact absurd hu not_mem_nil

private theorem numPages_eq_zero : numPages length = 0 ↔ entryAddr (length + 0xFFF) = 0 := by
  have h := entryAddr_toNat (length + 0xFFF)
  rw [numPages, toNat_udiv, show (4096 : Word).toNat = 4096 from rfl]
  constructor
  · intro h0
    refine eq_of_toNat_eq ?_
    rw [h, h0]
    rfl
  · intro h0
    rw [h0] at h
    have h : 0 = (length + 0xFFF).toNat / 4096 * 4096 := h
    omega

end Pages

section Maps

theorem translate_entryAddr {ram : Ram} {d : Nat} : translate ram d (entryAddr a) = translate ram d a := by
  rw [translate, translate, pdIndex_entryAddr, ptIndex_entryAddr]

theorem translate_eq (v : Vm) (a : Word) : translate v.ram v.cr3 a =
    if present (dirEntry v (pdIndex a)) && present (entryOf v a) then
      some ⟨frameOf (entryOf v a), entryFlags (entryOf v a), entryFlags (dirEntry v (pdIndex a))⟩ else none := rfl

def OwnEntries (v : Vm) (pages : List Word) : Prop := ∀ u ∈ pages, ∀ a, SameEntry v u a → entryAddr a = u

theorem MapsPages.translate_mem (h : MapsPages v v' pages) (hu : a ∈ pages) : ∃ x, translate v'.ram v'.cr3 a = some x ∧
    v.pmm.Free x.frame ∧ x.frame = frameOf (entryOf v' a) ∧ ∀ i < 1024, v'.ram x.frame i = 0 := by
  obtain ⟨f, hf⟩ := h.fresh a hu
  have hp : present (dirEntry v' (pdIndex a)) = true := (h.tables _).mpr (.inr ⟨a, hu, rfl⟩)
  have hpte : present (entryOf v' a) = true := by
    rw [hf.entry, present_frameAddr_or]
    decide
  have hframe : frameOf (entryOf v' a) = f := by rw [hf.entry, frameOf_frameAddr_or hf.free.lt (by decide)]
  rw [translate_eq, hp, hpte, hframe]
  exact ⟨_, rfl, hf.free, rfl, hf.clear⟩

theorem MapsPages.translate_other (h : MapsPages v v' pages) (hno : ∀ u ∈ pages, ¬ SameEntry v u a) :
    translate v'.ram v'.cr3 a = translate v.ram v.cr3 a := by
  rw [translate_eq, translate_eq]
  cases hp : present (dirEntry v' (pdIndex a)) with
  | false =>
    have hv : present (dirEntry v (pdIndex a)) = false := eq_false_of_ne_true fun hv => by
      rw [(h.tables _).mpr (.inl hv)] at hp
      cases hp
    rw [hv]
    rfl
  | true =>
    rw [h.others a hp hno]
    cases hv : present (dirEntry v (pdIndex a)) with
    | true => rw [if_pos rfl, h.kept _ hv]
    | false => simp

theorem MapsPages.same (h : MapsPages v v' pages) (hab : SameEntry v' a b) (hne : entryAddr b ≠ entryAddr a) : SameEntry v a b := by
  obtain ⟨hpt, hpd | ⟨ha, hb, htable⟩⟩ := hab
  · exact absurd (entryAddr_eq hpd hpt).symm hne
  · exact h.apart.same h.kept ha hb htable hpt

theorem SameEntry.grow (h : SameEntry v a b) (hkept : ∀ i, present (dirEntry v i) = true → dirEntry v' i = dirEntry v i) :
    SameEntry v' a b := by
  refine ⟨h.1, h.2.imp_right fun ⟨ha, hb, htable⟩ => ?_⟩
  rw [hkept _ ha, hkept _ hb]
  exact ⟨ha, hb, htable⟩

end Maps

/-- The page tables, the allocator, the break and the next address of `sys_mmap` are as before the call. -/
structure Unchanged (m : Caller) (t : State) : Prop where
  cr3 : t.vm.cr3 = m.vm.cr3
  tables : ∀ f, IsStructure m.vm m.dirs f → t.vm.ram f = m.vm.ram f
  pmm : t.vm.pmm = m.vm.pmm
  heapEnd : t.heapEnd = m.heapEnd
  nextMmapAddr : t.nextMmapAddr = m.nextMmapAddr

theorem Unchanged.refl (m : Caller) : Unchanged m m.toState := ⟨rfl, fun _ _ => rfl, rfl, rfl, rfl⟩

/-- A page below the break that is not mapped, where the heap starts at `start`. -/
def Missing (m : Caller) (start brk virt : Word) : Prop :=
  start ≤ entryAddr virt ∧ entryAddr virt < brk ∧ translate m.vm.ram m.vm.cr3 virt = none

structure Grown (m : Caller) (start brk : Word) (es : List Action) (t : State) : Prop where
  heapEnd : t.heapEnd = brk
  mapped : ∀ virt, Missing m start brk virt → ∃ x, translate t.vm.ram t.vm.cr3 virt = some x ∧ m.vm.pmm.Free x.frame ∧
    ∀ i < 1024, t.vm.ram x.frame i = 0
  kept : ∀ virt, ¬ Missing m start brk virt → translate t.vm.ram t.vm.cr3 virt = translate m.vm.ram m.vm.cr3 virt
  own : ∀ a b, Missing m start brk a → entryAddr b ≠ entryAddr a → ¬ SameEntry t.vm a b
  distinct : ∀ a b, Missing m start brk a → Missing m start brk b → entryAddr b ≠ entryAddr a →
    (translate t.vm.ram t.vm.cr3 a).map Translation.frame ≠ (translate t.vm.ram t.vm.cr3 b).map Translation.frame
  replaces : ∀ phys virt, .mapPage phys virt ∈ es → translate m.vm.ram m.vm.cr3 virt = none

/-- The pages that `sys_sbrk` maps. -/
def growthPages (m : Caller) (increment : Word) : List Word :=
  brkPages (entryAddr (m.heapEnd + 0xFFF)) (entryAddr (m.heapEnd + increment + 0xFFF))

/-- The pages that are mapped are those that are missing, no other page goes through their entries, and a table that
no frame is left for is not made over one in use. -/
structure Matches (m : Caller) (start increment : Word) : Prop where
  missing : ∀ virt, entryAddr virt ∈ growthPages m increment ↔ Missing m start (m.heapEnd + increment) virt
  own : OwnEntries m.vm (growthPages m increment)
  lowTable : growthPages m increment = [] ∨ m.vm.pmm.CanAlloc (framesFor m.vm (growthPages m increment)) ∨
    ∀ i < 1024, present (dirEntry m.vm i) = true → frameOf (dirEntry m.vm i) ≠ 0

section Growth
variable {dirs : List Nat} {init : List Word} {last : Word} {w : Vm} {f pt : Nat}

private theorem growthPages_aligned (hu : a ∈ growthPages m increment) : entryAddr a = a :=
  entryAddr_of_aligned (brkPages_aligned (entryFlags_entryAddr _) a hu)

theorem Growing.maps_last (hgrow : Growing dirs v init w) (hv : Ready v dirs) (hcan : w.pmm.CanAlloc 1)
    (hg : GrowsPage w v' last f pt) (hlow : v.pmm.CanAlloc (framesFor v (init ++ [last])) ∨
      ∀ i < 1024, present (dirEntry v i) = true → frameOf (dirEntry v i) ≠ 0) : MapsPages v v' (init ++ [last]) := by
  refine (hgrow.maps hcan).step hg hgrow.ready (fun hp i hi hpi => ?_) hv
  by_cases htwo : w.pmm.CanAlloc 2
  · exact hg.newTable hgrow.ready (fun _ => htwo) hp i hi hpi
  obtain ⟨-, -, rfl⟩ := (hg.table.resolve_left fun hold => Bool.false_ne_true (hp.symm.trans hold.1)).2.resolve_left fun hc => htwo hc.1
  have hconcat := framesFor_concat (hgrow.maps hcan) last
  rw [hp, if_neg Bool.false_ne_true] at hconcat
  have hlow := hlow.resolve_left fun hc => htwo ((hgrow.left 1).mpr (hconcat ▸ hc))
  cases hvi : present (dirEntry v i) with
  | true =>
    rw [hgrow.kept i hvi]
    exact hlow i hi hvi
  | false => exact hgrow.tables hcan i hvi hpi

theorem Growing.low_last (hgrow : Growing dirs v init w) (hcan : w.pmm.CanAlloc 1) (hg : GrowsPage w v' last f pt)
    (hno : ¬ v.pmm.CanAlloc (framesFor v (init ++ [last]))) (hi : i < 1024) (hp : present (dirEntry v i) = true)
    (h0 : frameOf (dirEntry v i) = 0) : (translate v'.ram v'.cr3 last).isSome ∧
      ∃ b, entryAddr b ≠ entryAddr last ∧ SameEntry v' last b := by
  have hconcat := framesFor_concat (hgrow.maps hcan) last
  have habsent : present (dirEntry w (pdIndex last)) = false := eq_false_of_ne_true fun hlast => by
    rw [hlast, if_pos rfl] at hconcat
    exact hno (hconcat ▸ (hgrow.left 0).mp hcan)
  rw [habsent, if_neg Bool.false_ne_true] at hconcat
  have htwo : ¬ w.pmm.CanAlloc 2 := fun hc => hno (hconcat ▸ (hgrow.left 1).mp hc)
  obtain ⟨-, -, rfl⟩ :=
    (hg.table.resolve_left fun hold => Bool.false_ne_true (habsent.symm.trans hold.1)).2.resolve_left fun hc => htwo hc.1
  have hlast : present (dirEntry v' (pdIndex last)) = true := hg.present_dirEntry.mpr (.inr rfl)
  have hkept : dirEntry w i = dirEntry v i := hgrow.kept i hp
  have hpi : dirEntry v' i = dirEntry v i := (hg.dirEntry_kept (.inr (hkept.symm ▸ hp))).trans hkept
  obtain ⟨b, rfl, hpt⟩ := exists_address hi (ptIndex_lt last)
  constructor
  · rw [translate_isSome]
    refine ⟨hlast, ?_⟩
    change present (v'.ram (frameOf (dirEntry v' (pdIndex last))) (ptIndex last)) = true
    rw [hg.frameOf_dirEntry, hg.entry, present_frameAddr_or]
    decide
  · refine ⟨b, fun heq => ?_, hpt.symm, .inr ⟨hlast, ?_, ?_⟩⟩
    · have hpd := congrArg pdIndex heq
      rw [pdIndex_entryAddr, pdIndex_entryAddr] at hpd
      rw [hpd] at hp hkept
      rw [hkept, hp] at habsent
      cases habsent
    · rw [hpi, hp]
    · rw [hg.frameOf_dirEntry, hpi, h0]

theorem Grown.missing (h : Grown m start addr es t) (ht : (translate t.vm.ram t.vm.cr3 a).isSome = true)
    (hm : translate m.vm.ram m.vm.cr3 a = none) : Missing m start addr a := by
  by_contra hn
  rw [h.kept a hn, hm] at ht
  cases ht

end Growth

section Sbrk
variable {brk : Word}

private theorem mapPages_grows (h : (mapPages (growthPages m increment)).Returns m.toState fs true u)
    (hlow : growthPages m increment = [] ∨ m.vm.pmm.CanAlloc (framesFor m.vm (growthPages m increment)) ∨
      ∀ i < 1024, present (dirEntry m.vm i) = true → frameOf (dirEntry m.vm i) ≠ 0) :
    MapsPages m.vm u.vm (growthPages m increment) := by
  have halign : ∀ u ∈ growthPages m increment, entryFlags u = 0 := brkPages_aligned (entryFlags_entryAddr _)
  rcases eq_nil_or_concat (growthPages m increment) with hnil | ⟨init, last, hpages⟩
  · rw [hnil] at h ⊢
    obtain ⟨-, -, rfl⟩ := mapPages_nil.mp h
    exact .refl
  · have hne : growthPages m increment ≠ [] := by simp [hpages]
    have hlow := hlow.resolve_left hne
    rw [concat_eq_append] at hpages
    rw [hpages] at h halign hlow ⊢
    obtain ⟨w, f, pt, hgrow, hcan, hg⟩ := mapPages_last m.ready halign h
    exact hgrow.maps_last m.ready hcan hg hlow

theorem Grown.unmapped (hg : Grown m start brk (fs ++ [.setHeapEnd brk]) t) (h : (mapPages pages).Returns s fs true u)
    (ha : a ∈ pages) : translate m.vm.ram m.vm.cr3 a = none := by
  obtain ⟨phys, hm⟩ := (mapPages_mapped h).2 rfl a ha
  exact hg.replaces phys a (mem_append_left _ hm)

theorem Grown.lowTable (hg : Grown m start brk (fs ++ [.setHeapEnd brk]) { u with heapEnd := brk })
    (h : (mapPages (growthPages m increment)).Returns m.toState fs true u) :
    growthPages m increment = [] ∨ m.vm.pmm.CanAlloc (framesFor m.vm (growthPages m increment)) ∨
      ∀ i < 1024, present (dirEntry m.vm i) = true → frameOf (dirEntry m.vm i) ≠ 0 := by
  have halign : ∀ u ∈ growthPages m increment, entryFlags u = 0 := brkPages_aligned (entryFlags_entryAddr _)
  rcases eq_nil_or_concat (growthPages m increment) with hnil | ⟨init, last, hpages⟩
  · exact .inl hnil
  refine .inr (or_iff_not_imp_left.mpr fun hno i hi hp h0 => ?_)
  rw [concat_eq_append] at hpages
  rw [hpages] at h halign hno
  obtain ⟨w, f, pt, hgrow, hcan, hlast⟩ := mapPages_last m.ready halign h
  obtain ⟨hsome, b, hne, hsame⟩ := hgrow.low_last hcan hlast hno hi hp h0
  have hnone := hg.unmapped h (mem_append_right _ (mem_singleton_self last))
  exact hg.own last b (hg.missing hsome hnone) hne hsame

theorem Grown.matches (hg : Grown m start brk (fs ++ [.setHeapEnd brk]) { u with heapEnd := brk })
    (h : (mapPages (growthPages m increment)).Returns m.toState fs true u) (hbrk : m.heapEnd + increment = brk) :
    Matches m start increment := by
  have hlow := hg.lowTable h
  have hmaps := mapPages_grows h hlow
  have hmissing : ∀ virt, entryAddr virt ∈ growthPages m increment → Missing m start brk virt := fun virt hu => by
    obtain ⟨x, hx, -⟩ := hmaps.translate_mem hu
    have hv := hg.unmapped h hu
    rw [translate_entryAddr] at hx hv
    exact hg.missing (by rw [hx]; rfl) hv
  have hown : OwnEntries m.vm (growthPages m increment) := fun a ha b hab => by
    have haa := growthPages_aligned ha
    by_contra hne
    exact hg.own a b (hmissing a (haa.symm ▸ ha)) (fun he => hne (he.trans haa)) (hab.grow hmaps.kept)
  refine ⟨fun virt => ⟨fun hu => hbrk ▸ hmissing virt hu, fun hv => ?_⟩, hown, hlow⟩
  by_contra hn
  obtain ⟨x, hx, -⟩ := hg.mapped virt (hbrk ▸ hv)
  have hsame := hmaps.translate_other fun a ha hab => hn (hown a ha virt hab ▸ ha)
  rw [hx, hv.2.2] at hsame
  cases hsame

theorem Matches.apart (hm : Matches m start increment) (ha : Missing m start (m.heapEnd + increment) a)
    (hne : entryAddr b ≠ entryAddr a) : ¬ SameEntry m.vm a b := fun hab => by
  refine hne (hm.own _ ((hm.missing a).mpr ha) b ⟨?_, ?_⟩)
  · rw [ptIndex_entryAddr]
    exact hab.1
  · rw [pdIndex_entryAddr]
    exact hab.2

theorem Matches.grown (hm : Matches m start increment) (h : (mapPages (growthPages m increment)).Returns m.toState fs true u) :
    Grown m start (m.heapEnd + increment) (fs ++ [.setHeapEnd (m.heapEnd + increment)])
      { u with heapEnd := m.heapEnd + increment } := by
  have hmaps := mapPages_grows h hm.lowTable
  have hin : ∀ {virt}, Missing m start (m.heapEnd + increment) virt → entryAddr virt ∈ growthPages m increment :=
    fun hv => (hm.missing _).mpr hv
  refine ⟨rfl, fun virt hv => ?_, fun virt hv => ?_, fun a b ha hne hab => hm.apart ha hne (hmaps.same hab hne),
    fun a b ha hb hne => ?_, fun phys virt hmem => ?_⟩
  · obtain ⟨x, hx, hfree, -, hclear⟩ := hmaps.translate_mem (hin hv)
    rw [translate_entryAddr] at hx
    exact ⟨x, hx, hfree, hclear⟩
  · refine hmaps.translate_other fun a ha hab => hv ?_
    exact (hm.missing virt).mp (hm.own a ha virt hab ▸ ha)
  · obtain ⟨x, hx, -, hxf, -⟩ := hmaps.translate_mem (hin ha)
    obtain ⟨y, hy, -, hyf, -⟩ := hmaps.translate_mem (hin hb)
    rw [translate_entryAddr] at hx hy
    simp only [hx, hy, Option.map_some, ne_eq, Option.some.injEq, hxf, hyf]
    intro hxy
    have hs := hmaps.distinct _ (hin ha) _ (hin hb) hxy
    rw [SameEntry, ptIndex_entryAddr, ptIndex_entryAddr, pdIndex_entryAddr, pdIndex_entryAddr] at hs
    exact hm.apart ha hne hs
  · have hpage : virt ∈ growthPages m increment := (mapPages_mapped h).1 phys virt ((mem_append.mp hmem).resolve_right fun hc =>
      nomatch mem_singleton.mp hc)
    exact ((hm.missing virt).mp ((growthPages_aligned hpage).symm ▸ hpage)).2.2

end Sbrk

section Calls
variable {dirs : List Nat}

private theorem sysSbrk_returns (h : (sysSbrk increment).Returns m.toState es r t) :
    r = -enomem ∧ (mapPages (growthPages m increment)).Returns m.toState es false t ∨
      ∃ fs u, (mapPages (growthPages m increment)).Returns m.toState fs true u ∧ r = m.heapEnd ∧
        es = fs ++ [.setHeapEnd (m.heapEnd + increment)] ∧ t = { u with heapEnd := m.heapEnd + increment } := by
  have h := returns_read_bind.mp h
  obtain ⟨fs, gs, ok, u, hmap, hthen, rfl⟩ := returns_bind.mp h
  cases ok with
  | false =>
    obtain ⟨rfl, rfl, rfl⟩ := returns_pure.mp hthen
    exact .inl ⟨rfl, (append_nil fs).symm ▸ hmap⟩
  | true =>
    obtain ⟨hs, hdone, rfl⟩ := returns_perform_bind.mp hthen
    obtain ⟨rfl, rfl, rfl⟩ := returns_pure.mp hdone
    exact .inr ⟨fs, u, hmap, rfl, rfl, rfl⟩

private theorem mapPages_without (hv : Ready s.vm dirs) (hno : ¬ s.vm.pmm.CanAlloc 1) (h : (mapPages pages).Returns s es ok t) : t = s := by
  obtain ⟨h0, -, hsame⟩ := hv.allocFrame.2.resolve_right fun hc => hno hc.2.1
  cases pages with
  | nil => exact (mapPages_nil.mp h).2.2
  | cons virt rest =>
    obtain ⟨gs, rfl, ⟨-, -, -, rfl⟩ | ⟨hne, -⟩⟩ := mapPages_cons.mp h
    · rw [State.exec, hsame]
    · exact absurd h0 hne

theorem mapPages_ok (hv : Ready s.vm dirs) (halign : ∀ u ∈ pages, entryFlags u = 0) (h : (mapPages pages).Returns s es ok t) :
    ok = true ↔ pages = [] ∨ s.vm.pmm.CanAlloc (framesFor s.vm pages.dropLast + 1) := by
  rcases mapPages_runs hv halign h with ⟨rfl, -⟩ | ⟨rfl, hne, hno⟩
  · refine iff_of_true rfl ?_
    rcases eq_nil_or_concat pages with hnil | ⟨init, last, rfl⟩
    · exact .inl hnil
    rw [concat_eq_append] at h halign ⊢
    obtain ⟨w, f, pt, hgrow, hcan, -⟩ := mapPages_last hv halign h
    rw [dropLast_concat]
    exact .inr ((hgrow.left 0).mp hcan)
  · exact iff_of_false Bool.false_ne_true (not_or.mpr ⟨hne, hno⟩)

private theorem mapPages_failed (hv : Ready s.vm dirs) (h : (mapPages pages).Returns s es false t) :
    t = s ∧ ¬ s.vm.pmm.CanAlloc 1 ∨ t.vm.pmm ≠ s.vm.pmm ∧ s.vm.pmm.CanAlloc 1 := by
  by_cases hcan : s.vm.pmm.CanAlloc 1
  · cases pages with
    | nil => cases (mapPages_nil.mp h).2.1
    | cons virt rest => exact .inr ⟨mapPages_changes hv h hcan, hcan⟩
  · exact .inl ⟨mapPages_without hv hcan h, hcan⟩

/-- A call that fails leaves no trace, and one that succeeds maps what was missing. -/
def SbrkOk (m : Caller) (start increment : Word) (es : List Action) (r : Word) (t : State) : Prop :=
  (r = -enomem → Unchanged m t) ∧ (r ≠ -enomem → Grown m start (m.heapEnd + increment) es t)

/-- There is no frame at all, or one for every page and for every table but the last, and the pages are those that are missing.
A break at -12 cannot be told from the error. -/
def SbrkFits (m : Caller) (start increment : Word) : Prop :=
  growthPages m increment ≠ [] ∧ ¬ m.vm.pmm.CanAlloc 1 ∨
    (growthPages m increment = [] ∨ m.vm.pmm.CanAlloc (framesFor m.vm (growthPages m increment).dropLast + 1)) ∧
      if m.heapEnd = -enomem then increment = 0 else Matches m start increment

private theorem sysSbrk_ok_iff (h : (sysSbrk increment).Returns m.toState es r t) :
    SbrkOk m start increment es r t ↔ SbrkFits m start increment := by
  have halign : ∀ u ∈ growthPages m increment, entryFlags u = 0 := brkPages_aligned (entryFlags_entryAddr _)
  rcases sysSbrk_returns h with ⟨rfl, hmap⟩ | ⟨fs, u, hmap, rfl, rfl, rfl⟩
  · obtain ⟨hne, hno⟩ := not_or.mp (mt (mapPages_ok m.ready halign hmap).mpr Bool.false_ne_true)
    have hok : SbrkOk m start increment es (-enomem) t ↔ Unchanged m t :=
      ⟨fun hs => hs.1 rfl, fun hu => ⟨fun _ => hu, fun hr => absurd rfl hr⟩⟩
    have hfits : SbrkFits m start increment ↔ ¬ m.vm.pmm.CanAlloc 1 := by
      rw [SbrkFits, or_iff_left fun hc => not_or.mpr ⟨hne, hno⟩ hc.1, and_iff_right hne]
    rw [hok, hfits]
    rcases mapPages_failed m.ready hmap with ⟨rfl, hcan⟩ | ⟨hpmm, hcan⟩
    · exact iff_of_true (.refl m) hcan
    · exact iff_of_false (fun hu => hpmm hu.pmm) (not_not.mpr hcan)
  · have hcan := (mapPages_ok m.ready halign hmap).mp rfl
    have hfits : SbrkFits m start increment ↔ if m.heapEnd = -enomem then increment = 0 else Matches m start increment := by
      rw [SbrkFits, and_iff_right hcan, or_iff_right]
      rintro ⟨hne, hno⟩
      exact hno ((hcan.resolve_left hne).mono (Nat.le_add_left 1 _))
    rw [hfits]
    split
    · next hbrk =>
      constructor
      · intro hs
        have hsame : m.heapEnd + increment = m.heapEnd := (hs.1 hbrk).heapEnd
        bv_omega
      · rintro rfl
        have hzero : m.heapEnd + 0 = m.heapEnd := BitVec.add_zero _
        have hnil : growthPages m 0 = [] := by rw [growthPages, hzero, brkPages, if_neg (BitVec.lt_irrefl _)]
        rw [hnil] at hmap
        obtain ⟨-, -, rfl⟩ := mapPages_nil.mp hmap
        rw [hzero]
        exact ⟨fun _ => .refl m, fun hr => absurd hbrk hr⟩
    · next hbrk =>
      exact ⟨fun hs => (hs.2 hbrk).matches hmap rfl, fun hm => ⟨fun hr => absurd hr hbrk, fun _ => hm.grown hmap⟩⟩

def mmapStart (m : Caller) (addr : Word) : Word := if addr = 0 then m.nextMmapAddr else addr

def mmapPages (m : Caller) (addr length : Word) : List Word := pagesFrom (mmapStart m addr) (numPages length)

private theorem mmapPages_eq_nil : mmapPages m addr length = [] ↔ numPages length = 0 := by
  rw [mmapPages, pagesFrom, map_eq_nil_iff, range_eq_nil]

/-- With the choice left to the kernel the next address has moved before the first page is taken. -/
theorem sysMmap_returns (h : (sysMmap addr length).Returns m.toState es r t) : ∃ hs fs ok u,
    (mapPages (mmapPages m addr length)).Returns u fs ok t ∧ es = hs ++ fs ∧
      (∀ P : State → Action → Prop, (∀ s next, P s (.setNextMmapAddr next)) →
        (Along State.exec P m.toState es ↔ Along State.exec P u fs)) ∧
      r = (if ok then mmapStart m addr else -enomem) ∧ u.vm = m.vm ∧ u.heapEnd = m.heapEnd ∧
      u.nextMmapAddr = if addr = 0 then m.nextMmapAddr + entryAddr (length + 0xFFF) else m.nextMmapAddr := by
  obtain ⟨hs, gs, base, u, hbase, hthen, rfl⟩ := returns_bind.mp h
  obtain ⟨fs, hs', ok, t', hmap, hdone, rfl⟩ := returns_bind.mp hthen
  have hret : hs' = [] ∧ r = (if ok then base else -enomem) ∧ t = t' := by
    cases ok with
    | false => exact returns_pure.mp hdone
    | true => exact returns_pure.mp hdone
  obtain ⟨rfl, rfl, rfl⟩ := hret
  rw [append_nil]
  rw [mmapBase] at hbase
  split at hbase
  · next h0 =>
    have hbase := returns_read_bind.mp hbase
    obtain ⟨ks, hpure, rfl⟩ := returns_perform_bind.mp hbase
    obtain ⟨rfl, rfl, rfl⟩ := returns_pure.mp hpure
    rw [mmapPages, mmapStart, if_pos h0, if_pos h0]
    exact ⟨_, fs, ok, _, hmap, rfl, fun P hP => and_iff_right (hP _ _), rfl, rfl, rfl, rfl⟩
  · next h0 =>
    obtain ⟨rfl, rfl, rfl⟩ := returns_pure.mp hbase
    rw [mmapPages, mmapStart, if_neg h0, if_neg h0]
    exact ⟨[], fs, ok, _, hmap, rfl, fun P _ => Iff.rfl, rfl, rfl, rfl, rfl⟩

/-- A call that fails leaves no trace. -/
def MmapOk (m : Caller) (r : Word) (t : State) : Prop := r = -enomem → Unchanged m t

/-- There is no frame at all for an address of the caller's, or one for every page and for every table but the last. From an
address inside a page the clearing of one page runs into the next, and may itself take frames: there each request that is
made from the caller's state on has to find one. -/
def MmapFits (m : Caller) (addr length : Word) : Prop :=
  numPages length = 0 ∨ addr ≠ 0 ∧ ¬ m.vm.pmm.CanAlloc 1 ∨ mmapStart m addr ≠ -enomem ∧
    if entryFlags (mmapStart m addr) = 0 then
      m.vm.pmm.CanAlloc (framesFor m.vm (mmapPages m addr length).dropLast + 1)
    else Along State.exec FindsFrame m.toState ((sysMmap addr length).actions m.toState)

private theorem sysMmap_ok_iff (h : (sysMmap addr length).Returns m.toState es r t) : MmapOk m r t ↔ MmapFits m addr length := by
  rw [MmapFits, h.1]
  obtain ⟨hs, fs, ok, u, hmap, rfl, halong, rfl, hvm, hheap, hnext⟩ := sysMmap_returns h
  have hready : Ready u.vm m.dirs := hvm.symm ▸ m.ready
  have hu : addr ≠ 0 ∨ numPages length = 0 → Unchanged m u := fun hc => by
    refine ⟨congrArg Vm.cr3 hvm, fun f _ => by rw [hvm], congrArg Vm.pmm hvm, hheap, hnext.trans ?_⟩
    split
    · next h0 =>
      rw [numPages_eq_zero.mp (hc.resolve_left (not_not.mpr h0))]
      exact BitVec.add_zero _
    · rfl
  by_cases hzero : numPages length = 0
  · rw [mmapPages_eq_nil.mpr hzero] at hmap
    obtain ⟨-, -, rfl⟩ := mapPages_nil.mp hmap
    exact iff_of_true (fun _ => hu (.inr hzero)) (.inl hzero)
  have hne : mmapPages m addr length ≠ [] := mt mmapPages_eq_nil.mp hzero
  have hfinds : (if entryFlags (mmapStart m addr) = 0 then m.vm.pmm.CanAlloc (framesFor m.vm (mmapPages m addr length).dropLast + 1)
      else Along State.exec FindsFrame m.toState (hs ++ fs)) ↔ ok = true := by
    split
    · next halign =>
      have hpages : ∀ u ∈ mmapPages m addr length, entryFlags u = 0 := pagesFrom_aligned halign
      rw [mapPages_ok hready hpages hmap, or_iff_right hne, hvm]
    · rw [mapPages_finds hmap]
      exact halong FindsFrame fun _ _ => trivial
  rw [hfinds, or_iff_right hzero]
  cases ok with
  | false =>
    have hok : MmapOk m (if false = true then mmapStart m addr else -enomem) t ↔ Unchanged m t := ⟨fun hm => hm rfl, fun hm _ => hm⟩
    rw [hok, or_iff_left fun hc => Bool.false_ne_true hc.2, ← hvm]
    rcases mapPages_failed hready hmap with ⟨rfl, hno⟩ | ⟨hpmm, hcan⟩
    · rw [and_iff_left hno]
      refine ⟨fun hm h0 => hzero ?_, fun h0 => hu (.inl h0)⟩
      have hmoved := hm.nextMmapAddr
      rw [hnext, if_pos h0] at hmoved
      rw [numPages_eq_zero]
      change entryAddr (length + 0xFFF) = (0 : BitVec 32)
      bv_omega
    · exact iff_of_false (fun hm => hpmm (hm.pmm.trans (congrArg Vm.pmm hvm.symm))) fun hc => hc.2 hcan
  | true =>
    have hcan : u.vm.pmm.CanAlloc 1 := by
      by_contra hno
      obtain ⟨virt, rest, hcons⟩ := exists_cons_of_ne_nil hne
      rw [hcons] at hmap
      obtain ⟨gs, -, ⟨-, -, hok, -⟩ | ⟨h0, -⟩⟩ := mapPages_cons.mp hmap
      · cases hok
      · exact hno (hready.allocFrame.2.resolve_left fun hz => h0 hz.1).2.1
    obtain ⟨virt, rest, hcons⟩ := exists_cons_of_ne_nil hne
    have hpmm := mapPages_changes hready (hcons ▸ hmap) hcan
    rw [and_iff_left rfl, or_iff_right fun hc => hc.2 (hvm ▸ hcan)]
    constructor
    · intro hm hr
      exact hpmm ((hm hr).pmm.trans (congrArg Vm.pmm hvm.symm))
    · exact fun hr he => absurd he hr

end Calls

/-- When the two calls do as they should, whatever address the heap is taken to start at. -/
theorem memory_calls_ok_iff (m : Caller) :
    (∀ start increment es r t, (sysSbrk increment).Returns m.toState es r t →
      (SbrkOk m start increment es r t ↔ SbrkFits m start increment)) ∧
    ∀ addr length es r t, (sysMmap addr length).Returns m.toState es r t → (MmapOk m r t ↔ MmapFits m addr length) :=
  ⟨fun _ _ _ _ _ h => sysSbrk_ok_iff h, fun _ _ _ _ _ h => sysMmap_ok_iff h⟩

def oneFrameVm : Vm where
  pmm := ⟨fun i => if i = 0 then 0xFFFFFFFF else 0xFFFFFFFE, 64, 63, Pmm.twoWords_lt⟩
  ram f i := if f = 2 ∧ i = 256 then 0x3007 else 0
  kernelDirectory := 1
  currentDirectory := some 1
  cr3 := 2
  currentProcess := some 2
  shmSegments _ := ⟨0, 0, 0, 0, 0, false⟩

private theorem oneFrameVm_entry {d i : Nat} (h : present (oneFrameVm.ram d i) = true) : frameOf (oneFrameVm.ram d i) = 3 := by
  rw [oneFrameVm] at h ⊢
  simp only at h ⊢
  split at h
  · next hc =>
    rw [if_pos hc]
    decide
  · cases h

/-- A process with its break at the start of the heap. -/
def oneFrameCaller : Caller where
  vm := oneFrameVm
  heapEnd := 0x40000000
  nextMmapAddr := 0x80000000
  dirs := [2]
  reserved := (· < 32)
  low := by decide
  ready := by
    refine ⟨⟨by decide, fun d _ i _ hp => ?_, fun d _ i _ hp => ?_⟩, by decide, by decide, by decide⟩
    · rw [oneFrameVm_entry hp]
      decide
    · rw [oneFrameVm_entry hp]
      decide

private theorem oneFrameCaller_sbrk : (sysSbrk 0x2000).result oneFrameCaller.toState = some (-enomem) := by decide +kernel

theorem memory_calls_ok_oneFrame :
    (SbrkOk oneFrameCaller 0x40000000 0x2000 ((sysSbrk 0x2000).actions oneFrameCaller.toState) (-enomem)
      ((sysSbrk 0x2000).final oneFrameCaller.toState) ↔ SbrkFits oneFrameCaller 0x40000000 0x2000) ∧
    (MmapOk oneFrameCaller 0x80000000 ((sysMmap 0 0x1000).final oneFrameCaller.toState) ↔ MmapFits oneFrameCaller 0 0x1000) := by
  have hmmap : (sysMmap 0 0x1000).result oneFrameCaller.toState = some 0x80000000 := by decide +kernel
  exact ⟨(memory_calls_ok_iff oneFrameCaller).1 0x40000000 0x2000 _ _ _ (returns_of_result oneFrameCaller_sbrk),
    (memory_calls_ok_iff oneFrameCaller).2 0 0x1000 _ _ _ (returns_of_result hmmap)⟩

/-- Two pages are asked for, one is there: the call fails, and the page it took stays mapped. -/
theorem sbrk_half_grown : ∃ m : Caller, ∃ es t, (sysSbrk 0x2000).Returns m.toState es (-enomem) t ∧
    translate m.vm.ram m.vm.cr3 0x40000000 = none ∧ (translate t.vm.ram t.vm.cr3 0x40000000).isSome ∧
      ∀ start, ¬ SbrkOk m start 0x2000 es (-enomem) t := by
  refine ⟨oneFrameCaller, _, _, returns_of_result oneFrameCaller_sbrk, by decide +kernel, by decide +kernel, fun start h => ?_⟩
  have hused : ((sysSbrk 0x2000).final oneFrameCaller.toState).vm.pmm.mmapTest 32 = true := by decide +kernel
  rw [(h.1 rfl).pmm] at hused
  exact absurd hused (by decide)

end RetroOs.Kernel.UserMemory
