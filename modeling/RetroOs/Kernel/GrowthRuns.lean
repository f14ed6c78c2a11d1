import RetroOs.Kernel.PageGrowth

/-! The pages that `sys_sbrk` and `sys_mmap` map one after the other: their entries, their frames, and what else is mapped. -/
namespace RetroOs.Kernel.UserMemory
open Lib List Along Act

variable {dirs : List Nat} {v w w' : Vm} {virt a b : Word} {pages : List Word} {f g pt i j : Nat}

/-- An entry of the active directory. -/
def dirEntry (v : Vm) (i : Nat) : Word := v.ram v.cr3 i

/-- The page table entry of an address, where there is a table. -/
def entryOf (v : Vm) (virt : Word) : Word := v.ram (frameOf (dirEntry v (pdIndex virt))) (ptIndex virt)

/-- Two addresses have one page table entry: they are in one page, or the directory has the table twice. -/
def SameEntry (v : Vm) (a b : Word) : Prop :=
  ptIndex a = ptIndex b ∧ (pdIndex a = pdIndex b ∨ present (dirEntry v (pdIndex a)) = true ∧
    present (dirEntry v (pdIndex b)) = true ∧ frameOf (dirEntry v (pdIndex a)) = frameOf (dirEntry v (pdIndex b)))

/-- Where a table was missing, the one that is there now is for no other entry of the directory. -/
def NewTablesApart (v v' : Vm) : Prop :=
  ∀ i < 1024, ∀ j < 1024, i ≠ j → present (dirEntry v i) = false → present (dirEntry v' i) = true →
    present (dirEntry v' j) = true → frameOf (dirEntry v' i) ≠ frameOf (dirEntry v' j)

structure FreshPage (v v' : Vm) (virt : Word) (f : Nat) : Prop where
  free : v.pmm.Free f
  taken : ¬ v'.pmm.Free f
  entry : entryOf v' virt = frameAddr f ||| 7
  clear : ∀ i < 1024, v'.ram f i = 0
  noTable : ∀ i < 1024, present (dirEntry v' i) = true → frameOf (dirEntry v' i) ≠ f

/-- From `v` to `v'` pages were mapped in the active directory. -/
structure MapsPages (v v' : Vm) (pages : List Word) : Prop where
  takes : Takes v v'
  kept : ∀ i, present (dirEntry v i) = true → dirEntry v' i = dirEntry v i
  tables : ∀ i, present (dirEntry v' i) = true ↔ present (dirEntry v i) = true ∨ ∃ u ∈ pages, pdIndex u = i
  apart : NewTablesApart v v'
  fresh : ∀ u ∈ pages, ∃ f, FreshPage v v' u f
  distinct : ∀ a ∈ pages, ∀ b ∈ pages, frameOf (entryOf v' a) = frameOf (entryOf v' b) → SameEntry v a b
  others : ∀ a, present (dirEntry v' (pdIndex a)) = true → (∀ u ∈ pages, ¬ SameEntry v u a) →
    entryOf v' a = if present (dirEntry v (pdIndex a)) then entryOf v a else 0

/-- No directory entry goes through the table, if it was just made. -/
def NewTable (w : Vm) (virt : Word) (pt : Nat) : Prop :=
  present (dirEntry w (pdIndex virt)) = false → ∀ i < 1024, present (dirEntry w i) = true → frameOf (dirEntry w i) ≠ pt

/-- The address has the entry that was just written. -/
def Rewritten (w' : Vm) (pt : Nat) (virt a : Word) : Prop :=
  frameOf (dirEntry w' (pdIndex a)) = pt ∧ ptIndex a = ptIndex virt

instance : Decidable (Rewritten w' pt virt a) := inferInstanceAs (Decidable (_ ∧ _))

theorem MapsPages.refl : MapsPages v v [] where
  takes := takes_closed.refl v
  kept _ _ := rfl
  tables i := (or_iff_left fun ⟨_, hu, _⟩ => not_mem_nil hu).symm
  apart i _ j _ _ hno hp := absurd hp (by rw [hno]; exact Bool.false_ne_true)
  fresh _ hu := absurd hu not_mem_nil
  distinct _ ha := absurd ha not_mem_nil
  others a ha _ := (if_pos ha).symm

theorem NewTablesApart.same (hapart : NewTablesApart v w) (hkept : ∀ i, present (dirEntry v i) = true → dirEntry w i = dirEntry v i)
    (ha : present (dirEntry w (pdIndex a)) = true) (hb : present (dirEntry w (pdIndex b)) = true)
    (htable : frameOf (dirEntry w (pdIndex a)) = frameOf (dirEntry w (pdIndex b))) (hpt : ptIndex a = ptIndex b) :
    SameEntry v a b := by
  refine ⟨hpt, ?_⟩
  by_cases heq : pdIndex a = pdIndex b
  · exact .inl heq
  cases hpa : present (dirEntry v (pdIndex a)) with
  | false => exact absurd htable (hapart _ (pdIndex_lt a) _ (pdIndex_lt b) heq hpa ha hb)
  | true =>
    cases hpb : present (dirEntry v (pdIndex b)) with
    | false => exact absurd htable.symm (hapart _ (pdIndex_lt b) _ (pdIndex_lt a) (Ne.symm heq) hpb hb ha)
    | true =>
      rw [hkept _ hpa, hkept _ hpb] at htable
      exact .inr ⟨rfl, rfl, htable⟩

namespace GrowsPage
variable (h : GrowsPage w w' virt f pt)
include h

private theorem table_lt : pt < 2 ^ 20 := by
  rcases h.table with ⟨-, he⟩ | ⟨-, hnew⟩
  · exact he ▸ frameOf_lt _
  · exact newTable_lt (hnew.imp And.right And.right)

theorem dirEntry_eq (i : Nat) : dirEntry w' i = w'.ram w.cr3 i := by rw [dirEntry, h.takes.cr3]

theorem dirEntry_kept (hi : i ≠ pdIndex virt ∨ present (dirEntry w i) = true) : dirEntry w' i = dirEntry w i := by
  rw [h.dirEntry_eq]
  by_cases hiv : i = pdIndex virt
  · subst hiv
    exact h.dir.trans (if_pos (hi.resolve_left fun hne => hne rfl))
  · exact h.dirs i hiv

theorem frameOf_dirEntry : frameOf (dirEntry w' (pdIndex virt)) = pt := by
  rw [h.dirEntry_eq, h.dir]
  rcases h.table with ⟨hp, he⟩ | ⟨hp, -⟩
  · rw [if_pos hp, he]
  · rw [if_neg (by rw [hp]; exact Bool.false_ne_true)]
    exact frameOf_frameAddr_or h.table_lt (by decide)

theorem present_dirEntry : present (dirEntry w' i) = true ↔ present (dirEntry w i) = true ∨ pdIndex virt = i := by
  by_cases hiv : i = pdIndex virt
  · subst hiv
    refine iff_of_true ?_ (.inr rfl)
    rw [h.dirEntry_eq, h.dir]
    split
    · assumption
    · rw [present_frameAddr_or]
      decide
  · rw [h.dirEntry_kept (.inl hiv), or_iff_left (Ne.symm hiv)]

theorem dirEntry_cases (hi : present (dirEntry w' i) = true) : dirEntry w' i = dirEntry w i ∧ present (dirEntry w i) = true ∨
    i = pdIndex virt ∧ present (dirEntry w i) = false ∧ frameOf (dirEntry w' i) = pt := by
  cases hp : present (dirEntry w i) with
  | true => exact .inl ⟨h.dirEntry_kept (.inr hp), rfl⟩
  | false =>
    rw [h.present_dirEntry, hp] at hi
    obtain rfl := hi.resolve_left Bool.false_ne_true
    exact .inr ⟨rfl, rfl, h.frameOf_dirEntry⟩

theorem entryOf_eq (hr : Ready w dirs) (hnew : NewTable w virt pt) (ha : present (dirEntry w' (pdIndex a)) = true) :
    entryOf w' a = if Rewritten w' pt virt a then frameAddr f ||| 7
      else if present (dirEntry w (pdIndex a)) then entryOf w a else 0 := by
  by_cases hrw : Rewritten w' pt virt a
  · rw [if_pos hrw, entryOf, hrw.1, hrw.2]
    exact h.entry
  rw [if_neg hrw]
  by_cases hpd : pdIndex a = pdIndex virt
  · have hpt : ptIndex a ≠ ptIndex virt := fun hpt => hrw ⟨by rw [hpd, h.frameOf_dirEntry], hpt⟩
    rw [entryOf, hpd, h.frameOf_dirEntry, h.entries _ hpt]
    rcases h.table with ⟨hp, he⟩ | ⟨hp, -⟩
    · rw [if_pos hp, if_pos (show present (dirEntry w (pdIndex virt)) = true from hp), entryOf, hpd, he]
      rfl
    · rw [dirEntry, hp, if_neg Bool.false_ne_true, if_neg Bool.false_ne_true]
  · rw [h.present_dirEntry, or_iff_left (Ne.symm hpd)] at ha
    have hsame := h.dirEntry_kept (.inl hpd)
    have hcr : frameOf (dirEntry w (pdIndex a)) ≠ w.cr3 := by
      intro he
      have hap := hr.layout.apart _ hr.active _ (pdIndex_lt a) ha
      rw [show frameOf (w.ram w.cr3 (pdIndex a)) = w.cr3 from he] at hap
      exact hap hr.active
    have hf : frameOf (dirEntry w (pdIndex a)) ≠ f := fun he =>
      hr.layout.tableHeld _ hr.active _ (pdIndex_lt a) ha (he ▸ h.free)
    rw [if_pos ha, entryOf, entryOf, hsame]
    by_cases hT : frameOf (dirEntry w (pdIndex a)) = pt
    · have hpt : ptIndex a ≠ ptIndex virt := fun hpt => hrw ⟨by rw [hsame, hT], hpt⟩
      have hp : present (dirEntry w (pdIndex virt)) = true := by
        by_contra hn
        exact hnew (eq_false_of_ne_true hn) _ (pdIndex_lt a) ha hT
      rw [hT, h.entries _ hpt]
      exact if_pos hp
    · exact congrFun (h.others _ hcr hT hf) _

theorem mem_of_not_rewritten (ha : a ∈ pages ++ [virt]) (hne : ¬ Rewritten w' pt virt a) : a ∈ pages := by
  refine (mem_append.mp ha).resolve_right fun hav => hne ?_
  rw [mem_singleton.mp hav]
  exact ⟨h.frameOf_dirEntry, rfl⟩

end GrowsPage

theorem FreshPage.step (hu : FreshPage v w a g) (hg : GrowsPage w w' virt f pt) (hv : Ready v dirs) (ht : Takes v w)
    (hentry : entryOf w' a = entryOf w a) : FreshPage v w' a g := by
  have hg0 : g ≠ 0 := fun he => hv.zeroUsed (he ▸ hu.free)
  have hcr : g ≠ w.cr3 := fun he => hv.layout.dirHeld _ hv.active (ht.cr3 ▸ he ▸ hu.free)
  have hpt : g ≠ pt := by
    rintro rfl
    rcases hg.table with ⟨hp, he⟩ | ⟨-, ⟨-, hfree⟩ | ⟨-, h0⟩⟩
    · exact hu.noTable _ (pdIndex_lt virt) hp he.symm
    · exact hu.taken hfree
    · exact hg0 h0
  have hf : g ≠ f := fun he => hu.taken (he ▸ hg.free)
  refine ⟨hu.free, fun hn => hu.taken (hg.takes.free g hn), hentry.trans hu.entry, fun i hi => ?_, fun i hi hp => ?_⟩
  · rw [hg.others g hcr hpt hf]
    exact hu.clear i hi
  · rcases hg.dirEntry_cases hp with ⟨he, hold⟩ | ⟨-, -, he⟩
    · rw [he]
      exact hu.noTable i hi hold
    · rw [he]
      exact hpt.symm

theorem NewTablesApart.step (h : NewTablesApart v w) (hg : GrowsPage w w' virt f pt) (hnew : NewTable w virt pt) :
    NewTablesApart v w' := by
  intro i hi j hj hij hno hpi hpj
  rcases hg.dirEntry_cases hpi with ⟨he, hold⟩ | ⟨rfl, hw, he⟩
  · rcases hg.dirEntry_cases hpj with ⟨he', hold'⟩ | ⟨rfl, hw', he'⟩
    · rw [he, he']
      exact h i hi j hj hij hno hold hold'
    · rw [he, he']
      exact hnew hw' i hi hold
  · rcases hg.dirEntry_cases hpj with ⟨he', hold'⟩ | ⟨rfl, -, -⟩
    · rw [he, he']
      exact (hnew hw j hj hold').symm
    · exact absurd rfl hij

namespace MapsPages
variable (h : MapsPages v w pages) (hg : GrowsPage w w' virt f pt)
include h hg

theorem step_kept (hi : present (dirEntry v i) = true) : dirEntry w' i = dirEntry v i :=
  (hg.dirEntry_kept (.inr ((h.tables i).mpr (.inl hi)))).trans (h.kept i hi)

private theorem step_tables (i : Nat) :
    present (dirEntry w' i) = true ↔ present (dirEntry v i) = true ∨ ∃ u ∈ pages ++ [virt], pdIndex u = i := by
  rw [hg.present_dirEntry, h.tables, or_assoc]
  simp only [List.mem_append, List.mem_singleton, or_and_right, exists_or, exists_eq_left]

theorem step_present (ha : a ∈ pages ++ [virt]) : present (dirEntry w' (pdIndex a)) = true :=
  (h.step_tables hg _).mpr (.inr ⟨a, ha, rfl⟩)

variable (hr : Ready w dirs) (hnew : NewTable w virt pt)
include hr hnew

theorem step_entry (ha : a ∈ pages) (hne : ¬ Rewritten w' pt virt a) : entryOf w' a = entryOf w a := by
  have hold : present (dirEntry w (pdIndex a)) = true := (h.tables _).mpr (.inr ⟨a, ha, rfl⟩)
  rw [hg.entryOf_eq hr hnew (h.step_present hg (mem_append_left _ ha)), if_neg hne, if_pos hold]

private theorem step_rewritten (ha : a ∈ pages ++ [virt]) (hrw : Rewritten w' pt virt a) : FreshPage v w' a f := by
  refine ⟨h.takes.free f hg.free, hg.taken, ?_, hg.cleared, fun i hi hp => ?_⟩
  · rw [hg.entryOf_eq hr hnew (h.step_present hg ha), if_pos hrw]
  · rcases hg.dirEntry_cases hp with ⟨he, hp'⟩ | ⟨-, -, he⟩
    · rw [he]
      intro heq
      exact hr.layout.tableHeld _ hr.active i hi hp' (heq ▸ hg.free)
    · rw [he]
      exact hg.apart.2.2.symm

private theorem step_fresh (hv : Ready v dirs) (ha : a ∈ pages ++ [virt]) : ∃ g, FreshPage v w' a g := by
  by_cases hrw : Rewritten w' pt virt a
  · exact ⟨f, h.step_rewritten hg hr hnew ha hrw⟩
  · have hin := hg.mem_of_not_rewritten ha hrw
    obtain ⟨g, hg'⟩ := h.fresh a hin
    exact ⟨g, hg'.step hg hv h.takes (h.step_entry hg hr hnew hin hrw)⟩

private theorem step_distinct (ha : a ∈ pages ++ [virt]) (hb : b ∈ pages ++ [virt])
    (hab : frameOf (entryOf w' a) = frameOf (entryOf w' b)) : SameEntry v a b := by
  have hnewFrame : ∀ {a}, a ∈ pages ++ [virt] → Rewritten w' pt virt a → frameOf (entryOf w' a) = f := fun ha hrw => by
    rw [(h.step_rewritten hg hr hnew ha hrw).entry, frameOf_frameAddr_or hg.free.lt (by decide)]
  have hframe : ∀ {a}, a ∈ pages ++ [virt] → ¬ Rewritten w' pt virt a → frameOf (entryOf w' a) ≠ f := fun {a} ha hne heq => by
    have hin := hg.mem_of_not_rewritten ha hne
    obtain ⟨g, hg'⟩ := h.fresh a hin
    rw [h.step_entry hg hr hnew hin hne, hg'.entry, frameOf_frameAddr_or hg'.free.lt (by decide)] at heq
    exact hg'.taken (heq ▸ hg.free)
  by_cases haa : Rewritten w' pt virt a
  · by_cases hbb : Rewritten w' pt virt b
    · exact (h.apart.step hg hnew).same (fun _ => h.step_kept hg) (h.step_present hg ha) (h.step_present hg hb)
        (haa.1.trans hbb.1.symm) (haa.2.trans hbb.2.symm)
    · exact absurd (hab.symm.trans (hnewFrame ha haa)) (hframe hb hbb)
  · by_cases hbb : Rewritten w' pt virt b
    · exact absurd (hab.trans (hnewFrame hb hbb)) (hframe ha haa)
    · have hain := hg.mem_of_not_rewritten ha haa
      have hbin := hg.mem_of_not_rewritten hb hbb
      rw [h.step_entry hg hr hnew hain haa, h.step_entry hg hr hnew hbin hbb] at hab
      exact h.distinct a hain b hbin hab

private theorem step_others (ha : present (dirEntry w' (pdIndex a)) = true) (hno : ∀ u ∈ pages ++ [virt], ¬ SameEntry v u a) :
    entryOf w' a = if present (dirEntry v (pdIndex a)) then entryOf v a else 0 := by
  have hvirt : virt ∈ pages ++ [virt] := mem_append_right _ (mem_singleton_self virt)
  have hne : ¬ Rewritten w' pt virt a := by
    rintro ⟨htable, hpt⟩
    refine hno virt hvirt ?_
    exact (h.apart.step hg hnew).same (fun _ => h.step_kept hg) (h.step_present hg hvirt) ha
      (hg.frameOf_dirEntry.trans htable.symm) hpt.symm
  rw [hg.entryOf_eq hr hnew ha, if_neg hne]
  cases hp : present (dirEntry w (pdIndex a)) with
  | true =>
    rw [if_pos rfl]
    exact h.others a hp fun u hu => hno u (mem_append_left _ hu)
  | false =>
    have hv' : present (dirEntry v (pdIndex a)) = false := eq_false_of_ne_true fun hp' => by
      rw [(h.tables _).mpr (.inl hp')] at hp
      cases hp
    rw [hv', if_neg Bool.false_ne_true, if_neg Bool.false_ne_true]

theorem step (hv : Ready v dirs) : MapsPages v w' (pages ++ [virt]) where
  takes := takes_closed.trans h.takes hg.takes
  kept _ := h.step_kept hg
  tables := h.step_tables hg
  apart := h.apart.step hg hnew
  fresh _ := h.step_fresh hg hr hnew hv
  distinct _ ha _ hb := h.step_distinct hg hr hnew ha hb
  others _ := h.step_others hg hr hnew

end MapsPages

def framesFor (v : Vm) (pages : List Word) : Nat :=
  pages.length + ((pages.map pdIndex).toFinset.filter fun i => present (dirEntry v i) = false).card

private theorem framesFor_nil : framesFor v [] = 0 := rfl

theorem framesFor_concat (h : MapsPages v w pages) (virt : Word) : framesFor v (pages ++ [virt]) =
    framesFor v pages + (1 + if present (dirEntry w (pdIndex virt)) then 0 else 1) := by
  have hset : ((pages ++ [virt]).map pdIndex).toFinset = insert (pdIndex virt) (pages.map pdIndex).toFinset := by
    ext i
    simp
  have hmem : pdIndex virt ∈ (pages.map pdIndex).toFinset ↔ ∃ u ∈ pages, pdIndex u = pdIndex virt := by simp
  rw [framesFor, framesFor, hset, length_append, length_singleton]
  cases hp : present (dirEntry w (pdIndex virt)) with
  | true =>
    rw [if_pos rfl]
    rcases (h.tables _).mp hp with hold | hu
    · rw [Finset.filter_insert, if_neg (by rw [hold]; decide)]
      omega
    · rw [Finset.insert_eq_of_mem (hmem.mpr hu)]
      omega
  | false =>
    have hno := not_or.mp fun hc => Bool.false_ne_true (hp.symm.trans ((h.tables _).mpr hc))
    rw [if_neg Bool.false_ne_true, Finset.filter_insert, if_pos (eq_false_of_ne_true hno.1), Finset.card_insert_of_notMem]
    · omega
    · exact fun hin => hno.2 (hmem.mp (Finset.mem_filter.mp hin).1)

private theorem framesFor_dropLast (v : Vm) (pages : List Word) : framesFor v pages.dropLast ≤ framesFor v pages := by
  have hsub : (pages.dropLast.map pdIndex).toFinset ⊆ (pages.map pdIndex).toFinset := by
    intro i hi
    rw [mem_toFinset] at hi ⊢
    exact map_subset _ (dropLast_subset pages) hi
  have hcard := Finset.card_le_card (Finset.filter_subset_filter (fun i => present (dirEntry v i) = false) hsub)
  have hlen : pages.dropLast.length = pages.length - 1 := length_dropLast
  rw [framesFor, framesFor]
  omega

/-- The pages are mapped as long as frames last, and what they took is missing. -/
structure Growing (dirs : List Nat) (v : Vm) (pages : List Word) (w : Vm) : Prop where
  ready : Ready w dirs
  left : ∀ k, w.pmm.CanAlloc (k + 1) ↔ v.pmm.CanAlloc (framesFor v pages + (k + 1))
  kept : ∀ i, present (dirEntry v i) = true → dirEntry w i = dirEntry v i
  maps : w.pmm.CanAlloc 1 → MapsPages v w pages
  tables : w.pmm.CanAlloc 1 → ∀ i, present (dirEntry v i) = false → present (dirEntry w i) = true → frameOf (dirEntry w i) ≠ 0

theorem Growing.start (h : Ready v dirs) : Growing dirs v [] v := by
  refine ⟨h, fun k => by rw [framesFor_nil, Nat.zero_add], fun _ _ => rfl, fun _ => .refl, fun _ i hno hp => ?_⟩
  rw [hno] at hp
  cases hp

theorem GrowsPage.newTable (h : GrowsPage w w' virt f pt) (hr : Ready w dirs)
    (hcan : present (dirEntry w (pdIndex virt)) = false → w.pmm.CanAlloc 2) : NewTable w virt pt := by
  intro hp i hi hpi heq
  rcases h.table with ⟨hp', -⟩ | ⟨-, ⟨-, hfree⟩ | ⟨hno, -⟩⟩
  · rw [show present (w.ram w.cr3 (pdIndex virt)) = false from hp] at hp'
    cases hp'
  · exact hr.layout.tableHeld _ hr.active i hi hpi (heq ▸ hfree)
  · exact hno (hcan hp)

theorem Growing.step (h : Growing dirs v pages w) (hv : Ready v dirs) (hcan : w.pmm.CanAlloc 1) (hg : GrowsPage w w' virt f pt)
    (hr : Ready w' dirs) : Growing dirs v (pages ++ [virt]) w' := by
  have hmaps := h.maps hcan
  have htwo : w'.pmm.CanAlloc 1 → present (dirEntry w (pdIndex virt)) = false → w.pmm.CanAlloc 2 := fun hcan' hp => by
    have hcount := (hg.count 0).mp hcan'
    rw [show present (w.ram w.cr3 (pdIndex virt)) = false from hp] at hcount
    exact hcount.mono (by simp)
  refine ⟨hr, fun k => ?_, fun i hi => ?_, fun hcan' => hmaps.step hg h.ready (hg.newTable h.ready (htwo hcan')) hv,
    fun hcan' i hno hp => ?_⟩
  · have hcount := hg.count k
    have hconcat := framesFor_concat hmaps virt
    change w'.pmm.CanAlloc (k + 1) ↔ w.pmm.CanAlloc (1 + (if present (dirEntry w (pdIndex virt)) then 0 else 1) + (k + 1)) at hcount
    generalize (if present (dirEntry w (pdIndex virt)) = true then 0 else 1) = m at hcount hconcat
    rw [hcount, hconcat, show 1 + m + (k + 1) = m + (k + 1) + 1 by omega, h.left]
    rw [show framesFor v pages + (m + (k + 1) + 1) = framesFor v pages + (1 + m) + (k + 1) by omega]
  · exact (hg.dirEntry_kept (.inr ((h.kept i hi).symm ▸ hi))).trans (h.kept i hi)
  · rcases hg.dirEntry_cases hp with ⟨he, hold⟩ | ⟨rfl, hw, he⟩
    · rw [he]
      exact h.tables hcan i hno hold
    · rw [he]
      rcases hg.table with ⟨hp', -⟩ | ⟨-, ⟨-, hfree⟩ | ⟨hn, -⟩⟩
      · rw [show present (w.ram w.cr3 (pdIndex virt)) = false from hw] at hp'
        cases hp'
      · exact fun h0 => h.ready.zeroUsed (h0 ▸ hfree)
      · exact absurd (htwo hcan' hw) hn

variable {s t u : State} {es fs gs : List Action} {ok : Bool} {xs ys : List Word} {act : Action}

theorem mapPages_nil : (mapPages []).Returns s es ok t ↔ es = [] ∧ ok = true ∧ t = s := returns_pure

private theorem mapPages_append (h : (mapPages (xs ++ ys)).Returns s es ok t) : ok = false ∧ (mapPages xs).Returns s es ok t ∨
    ∃ u fs gs, (mapPages xs).Returns s fs true u ∧ (mapPages ys).Returns u gs ok t ∧ es = fs ++ gs := by
  induction xs generalizing s es with
  | nil => exact .inr ⟨s, [], es, mapPages_nil.mpr ⟨rfl, rfl, rfl⟩, h, rfl⟩
  | cons virt xs ih =>
    obtain ⟨gs, rfl, ⟨h0, rfl, rfl, rfl⟩ | ⟨h0, fs, hs, u, hclear, hrest, rfl⟩⟩ := mapPages_cons.mp h
    · exact .inl ⟨rfl, mapPages_cons.mpr ⟨[], rfl, .inl ⟨h0, rfl, rfl, rfl⟩⟩⟩
    · rcases ih hrest with ⟨hok, hxs⟩ | ⟨u', fs', gs', hxs, hys, rfl⟩
      · exact .inl ⟨hok, mapPages_cons.mpr ⟨_, rfl, .inr ⟨h0, fs, hs, u, hclear, hxs, rfl⟩⟩⟩
      · refine .inr ⟨u', _, gs', mapPages_cons.mpr ⟨_, rfl, .inr ⟨h0, fs, fs', u, hclear, hxs, rfl⟩⟩, hys, ?_⟩
        simp

/-- What the loop does to the machine: frames are taken, pages mapped and cleared. -/
inductive Action.Takes : Action → Prop where
  | allocBlock : Takes .allocBlock
  | mapPage (phys virt : Word) : Takes (.mapPage phys virt)
  | fault (addr : Word) : Takes (.fault addr)
  | store (frame lo hi : Nat) : Takes (.store frame lo hi)

inductive Action.Clears : Action → Prop where
  | fault (addr : Word) : Clears (.fault addr)
  | store (frame lo hi : Nat) : Clears (.store frame lo hi)

theorem Action.Clears.takes (h : act.Clears) : act.Takes := by
  cases h with
  | fault addr => exact .fault addr
  | store frame lo hi => exact .store frame lo hi

private theorem storePage_clears {lo hi : Nat} (h : (storePage virt lo hi).Returns s es () t) : ∀ a ∈ es, a.Clears := by
  have h := returns_read_bind.mp h
  cases hf : storeFrame virt s with
  | some f =>
    rw [hf] at h
    obtain ⟨rfl, -⟩ := Act.returns_perform.mp h
    intro a ha
    rw [mem_singleton.mp ha]
    exact .store ..
  | none =>
    rw [hf] at h
    obtain ⟨gs, hthen, rfl⟩ := returns_perform_bind.mp (returns_read_bind.mp h)
    have hgs : ∀ a ∈ gs, a.Clears := by
      split at hthen
      · have hlast := returns_read_bind.mp hthen
        split at hlast
        · obtain ⟨rfl, -⟩ := Act.returns_perform.mp hlast
          intro a ha
          rw [mem_singleton.mp ha]
          exact .store ..
        · exact absurd hlast not_returns_stop
      · exact absurd hthen not_returns_stop
    intro a ha
    rcases mem_cons.mp ha with rfl | ha
    · exact .fault virt
    · exact hgs a ha

theorem memset_clears (h : (memset virt).Returns s es () t) : ∀ a ∈ es, a.Clears := by
  obtain ⟨fs, gs, _, u, hfirst, hthen, rfl⟩ := returns_bind.mp h
  intro a ha
  rcases mem_append.mp ha with ha | ha
  · exact storePage_clears hfirst a ha
  · split at hthen
    · exact storePage_clears hthen a ha
    · obtain ⟨rfl, -, -⟩ := returns_pure.mp hthen
      exact absurd ha not_mem_nil

private theorem mapPages_takes (h : (mapPages pages).Returns s es ok t) : ∀ a ∈ es, a.Takes := by
  induction pages generalizing s es with
  | nil =>
    obtain ⟨rfl, -, -⟩ := mapPages_nil.mp h
    exact fun a ha => absurd ha not_mem_nil
  | cons virt rest ih =>
    obtain ⟨gs, rfl, ⟨-, rfl, -, -⟩ | ⟨-, fs, hs, u, hclear, hrest, rfl⟩⟩ := mapPages_cons.mp h
    · intro a ha
      rw [mem_singleton.mp ha]
      exact .allocBlock
    · intro a ha
      rcases mem_cons.mp ha with rfl | ha
      · exact .allocBlock
      rcases mem_cons.mp ha with rfl | ha
      · exact .mapPage ..
      rcases mem_append.mp ha with ha | ha
      · exact (memset_clears hclear a ha).takes
      · exact ih hrest a ha

theorem Action.Takes.exec (h : act.Takes) (s : State) : UserMemory.Takes s.vm (s.exec act).vm := by
  cases h with
  | allocBlock => exact takes_closed.allocFrame s.vm
  | mapPage phys virt => exact takes_closed.mapPage ..
  | fault addr => exact takes_closed.handleDemandPaging ..
  | store frame lo hi => exact takes_closed.setPage ..

private theorem takes_foldl (h : ∀ a ∈ es, a.Takes) (s : State) : Takes s.vm (es.foldl State.exec s).vm :=
  relates (P := fun _ a => a.Takes) (R := fun s t : State => Takes s.vm t.vm) (fun s => takes_closed.refl s.vm)
    (fun h h' => takes_closed.trans h h') (fun s _ ha => ha.exec s) (of_forall fun a ha _ => h a ha)

theorem mapPages_mapped (h : (mapPages pages).Returns s es ok t) :
    (∀ phys virt, .mapPage phys virt ∈ es → virt ∈ pages) ∧
      (ok = true → ∀ virt ∈ pages, ∃ phys, .mapPage phys virt ∈ es) := by
  induction pages generalizing s es with
  | nil =>
    obtain ⟨rfl, -, -⟩ := mapPages_nil.mp h
    exact ⟨fun _ _ ha => absurd ha not_mem_nil, fun _ _ hv => absurd hv not_mem_nil⟩
  | cons virt rest ih =>
    obtain ⟨gs, rfl, ⟨-, rfl, rfl, -⟩ | ⟨-, fs, hs, u, hclear, hrest, rfl⟩⟩ := mapPages_cons.mp h
    · exact ⟨fun _ _ ha => (nomatch mem_singleton.mp ha), nofun⟩
    · obtain ⟨hin, hall⟩ := ih hrest
      refine ⟨fun phys virt' ha => ?_, fun hok virt' hv => ?_⟩
      · rcases mem_cons.mp ha with ha | ha
        · cases ha
        rcases mem_cons.mp ha with ha | ha
        · cases ha
          exact .head _
        rcases mem_append.mp ha with ha | ha
        · cases memset_clears hclear _ ha
        · exact .tail _ (hin phys virt' ha)
      · rcases mem_cons.mp hv with rfl | hv
        · exact ⟨_, .tail _ (.head _)⟩
        · obtain ⟨phys, hm⟩ := hall hok virt' hv
          exact ⟨phys, .tail _ (.tail _ (mem_append_right _ hm))⟩

def FindsFrame (s : State) : Action → Prop
  | .allocBlock => s.vm.allocFrame.2 ≠ 0
  | _ => True

theorem mapPages_finds (h : (mapPages pages).Returns s es ok t) : ok = true ↔ Along State.exec FindsFrame s es := by
  induction pages generalizing s es with
  | nil =>
    obtain ⟨rfl, rfl, -⟩ := mapPages_nil.mp h
    exact iff_of_true rfl trivial
  | cons virt rest ih =>
    obtain ⟨gs, rfl, ⟨h0, rfl, rfl, -⟩ | ⟨h0, fs, hs, u, hclear, hrest, rfl⟩⟩ := mapPages_cons.mp h
    · exact iff_of_false Bool.false_ne_true fun ha => ha.1 h0
    · have hfs : ∀ {s : State}, Along State.exec FindsFrame s fs := of_forall fun a ha _ => by
        cases memset_clears hclear a ha with
        | fault addr => trivial
        | store frame lo hi => trivial
      obtain ⟨rfl, -, rfl⟩ := hclear
      rw [ih hrest]
      constructor
      · exact fun ha => ⟨h0, trivial, append.mpr ⟨hfs, ha⟩⟩
      · exact fun ha => (append.mp ha.2.2).2

theorem mapPages_runs (hv : Ready s.vm dirs) (halign : ∀ u ∈ pages, entryFlags u = 0) (h : (mapPages pages).Returns s es ok t) :
    ok = true ∧ Growing dirs s.vm pages t.vm ∨
      ok = false ∧ pages ≠ [] ∧ ¬ s.vm.pmm.CanAlloc (framesFor s.vm pages.dropLast + 1) := by
  induction pages using reverseRecOn generalizing es ok t with
  | nil =>
    obtain ⟨-, rfl, rfl⟩ := mapPages_nil.mp h
    exact .inl ⟨rfl, .start hv⟩
  | append_singleton init last ih =>
    have ih : ∀ {es ok t}, (mapPages init).Returns s es ok t → _ := fun h => ih (fun u hu => halign u (mem_append_left _ hu)) h
    rw [dropLast_concat]
    rcases mapPages_append h with ⟨rfl, hinit⟩ | ⟨u, fs, gs, hinit, hlast, -⟩
    · obtain ⟨-, -, hno⟩ := (ih hinit).resolve_left fun hok => Bool.false_ne_true hok.1
      refine .inr ⟨rfl, append_ne_nil_of_right_ne_nil _ (cons_ne_nil _ _), fun hcan => hno (hcan.mono ?_)⟩
      exact Nat.succ_le_succ (framesFor_dropLast s.vm init)
    · obtain ⟨-, hgrow⟩ := (ih hinit).resolve_right fun hok => Bool.false_ne_true hok.1.symm
      rcases mapPages_round hgrow.ready (halign last (mem_append_right _ (mem_singleton_self last))) hlast with
        ⟨hno, rfl, -, -⟩ | ⟨hcan, f, pt, u', gs', hg, hready, -, -, hdone, -⟩
      · refine .inr ⟨rfl, append_ne_nil_of_right_ne_nil _ (cons_ne_nil _ _), fun hcan => ?_⟩
        exact hno ((hgrow.left 0).mpr hcan)
      · obtain ⟨-, rfl, rfl⟩ := mapPages_nil.mp hdone
        exact .inl ⟨rfl, hgrow.step hv hcan hg hready⟩

theorem mapPages_last {init : List Word} {last : Word} (hv : Ready s.vm dirs) (halign : ∀ u ∈ init ++ [last], entryFlags u = 0)
    (h : (mapPages (init ++ [last])).Returns s es true t) :
    ∃ w f pt, Growing dirs s.vm init w ∧ w.pmm.CanAlloc 1 ∧ GrowsPage w t.vm last f pt := by
  obtain ⟨u, fs, gs, hinit, hlast, -⟩ := (mapPages_append h).resolve_left fun hok => Bool.false_ne_true hok.1.symm
  obtain ⟨-, hgrow⟩ := (mapPages_runs hv (fun u hu => halign u (mem_append_left _ hu)) hinit).resolve_right fun hok =>
    Bool.false_ne_true hok.1.symm
  obtain ⟨hcan, f, pt, u', gs', hg, -, -, -, hdone, -⟩ := (mapPages_round hgrow.ready
    (halign last (mem_append_right _ (mem_singleton_self last))) hlast).resolve_left fun hok => Bool.false_ne_true hok.2.1.symm
  obtain ⟨-, -, rfl⟩ := mapPages_nil.mp hdone
  exact ⟨u.vm, f, pt, hgrow, hcan, hg⟩

theorem mapPages_changes (hv : Ready s.vm dirs) (h : (mapPages (virt :: pages)).Returns s es ok t)
    (hcan : s.vm.pmm.CanAlloc 1) : t.vm.pmm ≠ s.vm.pmm := by
  obtain ⟨h0, -, hfree, hno⟩ := hv.allocFrame.2.resolve_left fun hz => hz.2.1 hcan
  obtain ⟨gs, rfl, -⟩ := mapPages_cons.mp h
  have hes := mapPages_takes h
  have ht : Takes (s.exec .allocBlock).vm t.vm := by
    obtain ⟨hes', -, rfl⟩ := h
    rw [final, hes']
    exact takes_foldl (fun a ha => hes a (.tail _ ha)) (s.exec .allocBlock)
  exact fun heq => hno (ht.free _ (heq ▸ hfree))

end RetroOs.Kernel.UserMemory
