import RetroOs.Drivers.Fat16Lookups
import RetroOs.Drivers.Fat16Writes

/-! What a new entry does to the lookups in every directory of the volume: in the one that it is put in, in those that
share clusters with it, and in the root; and that a file written in the root changes no lookup there. -/
namespace RetroOs.Drivers
open Lib List Chain Option
namespace Fat16

variable {b : Bpb} {d d₁ d' : Disk} {a attr c e x dir n : Nat} {l k xs ys : List Nat} {m : Memory} {name t : CString}
  {p : Nat → Bool} {r : Option Int} {data : List UInt8}

/-! ### Lookups along a list of slots -/

private theorem liveSlots_append (m : Memory) (xs ys : List Nat) : ∃ zs ⊆ ys, liveSlots m (xs ++ ys) = liveSlots m xs ++ zs := by
  induction xs with
  | nil => exact ⟨liveSlots m ys, fun e he => (mem_liveSlots he).1, rfl⟩
  | cons x xs ih =>
    obtain ⟨zs, hsub, hzs⟩ := ih
    rw [cons_append, liveSlots_cons, liveSlots_cons, hzs]
    split
    · exact ⟨[], nil_subset _, rfl⟩
    · refine ⟨zs, hsub, ?_⟩
      split <;> rfl

private theorem find_front (h : (liveSlots m xs).find? p = some x) (ys : List Nat) : (liveSlots m (xs ++ ys)).find? p = some x := by
  obtain ⟨zs, -, hzs⟩ := liveSlots_append m xs ys
  rw [hzs, find?_append, h]
  rfl

private theorem find_append (h : (liveSlots m (xs ++ ys)).find? p = some x) : (liveSlots m xs).find? p = some x ∨ x ∈ ys := by
  obtain ⟨zs, hsub, hzs⟩ := liveSlots_append m xs ys
  rw [hzs, find?_append] at h
  cases hfront : (liveSlots m xs).find? p with
  | some y =>
    rw [hfront] at h
    exact .inl h
  | none =>
    rw [hfront, none_or] at h
    exact .inr (hsub (mem_of_find?_eq_some h))

theorem Directory.shared (h : Directory b d e l) (hdir : Directory b d dir k) (ha : a ∈ slotsOf b e l)
    (ha' : a ∈ slotsOf b dir k) :
    ∃ xs ys, slotsOf b e l = xs ++ ys ∧ a ∉ xs ∧ ys ⊆ slotsOf b dir k := by
  by_cases h0 : e = 0
  · rw [slotsOf, if_pos h0] at ha ⊢
    rw [slotsOf] at ha' ⊢
    split at ha'
    · next hz =>
      rw [if_pos hz]
      exact ⟨[], rootSlots b, rfl, not_mem_nil, List.Subset.refl _⟩
    · obtain ⟨q, -, haq⟩ := mem_flatMap.mp ha'
      exact absurd ha (not_rootSlots haq)
  · rw [slotsOf, if_neg h0] at ha ⊢
    obtain ⟨q, hq, haq⟩ := mem_flatMap.mp ha
    rw [slotsOf] at ha' ⊢
    split at ha'
    · exact absurd ha' (not_rootSlots haq)
    · next hz =>
      rw [if_neg hz]
      obtain ⟨q', hq', haq'⟩ := mem_flatMap.mp ha'
      obtain rfl := clusterSlots_unique (h.inVolume q hq).two_le (hdir.inVolume q' hq').two_le haq haq'
      obtain ⟨l₁, l₂, rfl⟩ := append_of_mem hq
      obtain ⟨k₁, k₂, rfl⟩ := append_of_mem hq'
      have hrest := unique (suffix h.chain) (suffix hdir.chain)
      refine ⟨l₁.flatMap (clusterSlots b), (q :: l₂).flatMap (clusterSlots b), flatMap_append, fun hmem => ?_, ?_⟩
      · obtain ⟨y, hy, hay⟩ := mem_flatMap.mp hmem
        have hyv := h.inVolume y (mem_append_left _ hy)
        obtain rfl := clusterSlots_unique (h.inVolume q hq).two_le hyv.two_le haq hay
        have hdis := (nodup_append.mp (nodup h.chain)).2.2
        exact hdis q hy q (.head _) rfl
      · rw [hrest, flatMap_append]
        exact subset_append_right _ _

/-! ### A new entry -/

theorem Beside.findEntry (hb : Beside b d d' dir l) (h : Directory b d dir l) (t : CString) :
    findEntry b d' dir t = findEntry b d dir t := by
  rw [(h.beside hb).dirSlots.findEntry, h.dirSlots.findEntry, find_congr hb.slots]

section
variable (hent : Entered b d d' a name attr c)
include hent

theorem Entered.dirSlots (h : Directory b d e l) : DirSlots b d' e (slotsOf b e l) :=
  h.dirSlots.congr fun x hx => hent.fat x hx.fat

section
variable (hdir : Directory b d dir k) (hfree : freeSlot d.bytes (slotsOf b dir k) = some a)
include hdir hfree

theorem Entered.found (hattr : attr = attrArchive ∨ attr = attrDirectory) (hname : Findable name)
    (hnone : findEntry b d dir name = some none) : findEntry b d' dir name = some (some a) := by
  obtain ⟨hE5, hback⟩ := (findable_iff name).mp hname
  rw [hdir.dirSlots.findEntry, some.injEq] at hnone
  have hkeep : ∀ e ∈ slotsOf b dir k, e ≠ a → d.bytes.AgreeOn d'.bytes e 32 :=
    fun e he hea => hent.keep e (hdir.slot he).aligned hea
  have hself : hasName d'.bytes name a := (hent.hasName_iff hback).mpr rfl
  rw [(hent.dirSlots hdir).findEntry, find_new hfree hkeep hent.used (hent.live hattr hE5) hself hnone]

theorem Entered.kept (hback : folded (stored name) = foldString name) (hnone : findEntry b d dir name = some none)
    (h : Directory b d e l) (hold : findEntry b d e t = some (some x)) :
    findEntry b d' e t = some (some x) ∧ d.bytes.AgreeOn d'.bytes x 32 := by
  rw [hdir.dirSlots.findEntry, some.injEq] at hnone
  rw [h.dirSlots.findEntry, some.injEq] at hold
  obtain ⟨hx, hx0, hxlive⟩ := mem_liveSlots (mem_of_find?_eq_some hold)
  have hunused : d.bytes a = 0 ∨ d.bytes a = 0xE5 := by simpa using find?_some hfree
  have hxa : x ≠ a := by
    rintro rfl
    exact hunused.elim hx0 hxlive.1
  have hkeep : ∀ y ∈ slotsOf b e l, y ≠ a → d.bytes.AgreeOn d'.bytes y 32 :=
    fun y hy hya => hent.keep y (h.slot hy).aligned hya
  refine ⟨?_, hkeep x hx hxa⟩
  rw [(hent.dirSlots h).findEntry, some.injEq]
  by_cases hfold : foldString name = foldString t
  · by_cases ha : a ∈ slotsOf b e l
    · obtain ⟨xs, ys, hsplit, hxs, hys⟩ := h.shared hdir ha (mem_of_find?_eq_some hfree)
      rw [hsplit] at hold hkeep ⊢
      rcases find_append hold with hfront | hxy
      · have hagree : ∀ y ∈ xs, d.bytes.AgreeOn d'.bytes y 32 := fun y hy =>
          hkeep y (mem_append_left ys hy) fun hya => hxs (hya ▸ hy)
        exact find_front ((find_congr hagree).trans hfront) ys
      · -- an entry of the name in the shared part would have been found
        have hlive := hdir.packed.mem_liveSlots (hys hxy) hx0 hxlive
        have hsame : hasName d.bytes name x = true := by
          rw [hasName_fold hfold]
          exact find?_some hold
        exact absurd hsame (find?_eq_none.mp hnone x hlive)
    · exact (find_congr fun y hy => hkeep y hy fun hya => ha (hya ▸ hy)).trans hold
  · exact find_old hunused hkeep hent.used (mt (hent.hasName_iff hback).mp hfold) hold

end

theorem Entered.root (hfree : freeSlot d.bytes (slotsOf b dir k) = some a) (hback : folded (stored name) = foldString name)
    (h : Directory b d 0 l)
    (hnew : findEntry b d' 0 t = some (some x)) :
    (∃ y, findEntry b d 0 t = some (some y)) ∨ dir = 0 ∧ foldString name = foldString t := by
  rw [(hent.dirSlots h).findEntry, some.injEq] at hnew
  obtain ⟨hx, hx0, hxlive⟩ := mem_liveSlots (mem_of_find?_eq_some hnew)
  by_cases hxa : x = a
  · subst hxa
    refine .inr ⟨?_, (hent.hasName_iff hback).mp (find?_some hnew)⟩
    have hin : x ∈ slotsOf b dir k := mem_of_find?_eq_some hfree
    by_contra h0
    rw [slotsOf, if_neg h0] at hin
    obtain ⟨q, -, hq⟩ := mem_flatMap.mp hin
    exact not_rootSlots hq hx
  · have hagree := hent.keep x (h.slot hx).aligned hxa
    rw [hagree x (Nat.le_refl x) (by omega)] at hx0
    have hlive := h.packed.mem_liveSlots hx hx0 ((Live.congr hagree).mp hxlive)
    rcases h.search t with ⟨-, hno⟩ | ⟨y, -, -, hy⟩
    · refine absurd ⟨x, hlive, ?_⟩ hno
      rw [← hasName_congr hagree]
      exact find?_some hnew
    · exact .inl ⟨y, hy⟩

end

/-! ### The calls -/

def AddsEntry (b : Bpb) (d : Disk) (dir : Nat) (name : CString) : Prop :=
  findEntry b d dir name = some none ∧ ∃ a, iterateDir b d dir (findFreeCallback d.bytes) = some (some a)

theorem addEntry_nothing (h : ¬ AddsEntry b d dir name) {i : Int} (hr : (addEntry b d dir name attr c).2 = some i) :
    (addEntry b d dir name attr c).1 = d ∧ i < 0 := by
  rw [addEntry] at hr ⊢
  split at hr
  · cases hr
  · cases hr
    exact ⟨rfl, by decide⟩
  · next hnone =>
    split at hr
    · cases hr
    · cases hr
      exact ⟨rfl, by decide⟩
    · next a hfree => exact absurd ⟨hnone, a, hfree⟩ h

theorem mkdirVfs_nothing (h : ∀ e, ¬ ReadsFree b d.bytes e) (dir : Nat) (name : CString) :
    (mkdirVfs b d dir name).1.bytes = d.bytes ∧ (mkdirVfs b d dir name).2 = some (-1) := by
  obtain ⟨hzero, hbytes⟩ := allocCluster_none h
  rw [mkdirVfs]
  dsimp only
  rw [if_pos hzero]
  exact ⟨hbytes, rfl⟩

/-- What a call leaves that adds `name` to a directory: all directories as they were, or, where it returns 0, a new
entry. -/
inductive Outcome (b : Bpb) (d d' : Disk) (dir : Nat) (name : CString) : Option Int → Prop where
  | kept {r : Option Int} (hb : ∀ e l, Directory b d e l → Beside b d d' e l) (hr : r ≠ some 0) : Outcome b d d' dir name r
  | added {d₁ : Disk} {a attr cluster : Nat} {k : List Nat} (hb : ∀ e l, Directory b d e l → Beside b d d₁ e l)
    (hdir : Directory b d₁ dir k) (hfree : freeSlot d₁.bytes (slotsOf b dir k) = some a)
    (hnone : findEntry b d₁ dir name = some none) (hent : Entered b d₁ d' a name attr cluster)
    (hattr : attr = attrArchive ∨ attr = attrDirectory) : Outcome b d d' dir name (some 0)

private theorem addEntry_outcome (hg : Geometry b) (hb : ∀ e l, Directory b d e l → Beside b d d₁ e l) (h : Directory b d dir k)
    (hattr : attr = attrArchive ∨ attr = attrDirectory) :
    Outcome b d (addEntry b d₁ dir name attr c).1 dir name (addEntry b d₁ dir name attr c).2 := by
  have hdir := h.beside (hb dir k h)
  rw [addEntry]
  rcases hdir.search name with ⟨hnone, -⟩ | ⟨e, -, -, hfound⟩
  · rw [hnone, hdir.dirSlots.findFree]
    cases hfree : freeSlot d₁.bytes (slotsOf b dir k) with
    | none => exact .kept hb (by simp)
    | some a =>
      have hslot := hdir.slot (mem_of_find?_eq_some hfree)
      exact .added hb hdir hfree hnone (patchSector_entered hg hslot name attr c) hattr
  · rw [hfound]
    exact .kept hb (by simp)

theorem createVfs_outcome (hg : Geometry b) (h : Directory b d dir k) (name : CString) :
    Outcome b d (createVfs b d dir name).1 dir name (createVfs b d dir name).2 :=
  addEntry_outcome hg (fun _ _ _ => .refl) h (.inl rfl)

theorem mkdirVfs_outcome (hg : Geometry b) (h : Directory b d dir k) (hscan : ScanInside b d.bytes) (name : CString) :
    Outcome b d (mkdirVfs b d dir name).1 dir name (mkdirVfs b d dir name).2 := by
  have halloc : ∀ e l, Directory b d e l → Beside b d (allocCluster b d).1 e l ∧
      ((allocCluster b d).2 = 0 ∨ InVolume b (allocCluster b d).2 ∧ (allocCluster b d).2 ∉ l) :=
    fun e l he => he.alloc_beside hg hscan
  rw [mkdirVfs]
  dsimp only
  split
  · exact .kept (fun e l he => (halloc e l he).1) (by simp)
  · next hne =>
    refine addEntry_outcome hg (fun e l he => ?_) h (.inr rfl)
    obtain ⟨hb, hc⟩ := halloc e l he
    obtain ⟨hv, hcl⟩ := hc.resolve_left hne
    exact hb.trans ((he.beside hb).clear_beside hg hv hcl)

section
variable (h : Outcome b d d' dir name r)
include h

theorem Outcome.adds (hdir : Directory b d dir k) (hr : r = some 0) : AddsEntry b d dir name := by
  cases h with
  | kept _ hne => exact absurd hr hne
  | @added _ a _ _ k' hb hdir₁ hfree hnone _ _ =>
    have hbk := hb dir k hdir
    have hslots : slotsOf b dir k' = slotsOf b dir k := by
      rw [unique hdir₁.chain (hdir.beside hbk).chain]
    rw [hbk.findEntry hdir] at hnone
    rw [hslots, hbk.freeSlot_eq] at hfree
    exact ⟨hnone, a, by rw [hdir.dirSlots.findFree, hfree]⟩

theorem Outcome.stays (hback : r = some 0 → folded (stored name) = foldString name) (he : Directory b d e l)
    (hold : findEntry b d e t = some (some x)) : findEntry b d' e t = some (some x) ∧ d.bytes.AgreeOn d'.bytes x 32 := by
  have hmem : x ∈ slotsOf b e l := by
    rw [he.dirSlots.findEntry, some.injEq] at hold
    exact (mem_liveSlots (mem_of_find?_eq_some hold)).1
  cases h with
  | kept hb _ => exact ⟨((hb e l he).findEntry he t).trans hold, (hb e l he).slots x hmem⟩
  | added hb hdir hfree hnone hent _ =>
    have hbe := hb e l he
    rw [← hbe.findEntry he t] at hold
    obtain ⟨hfound, hagree⟩ := hent.kept hdir hfree (hback rfl) hnone (he.beside hbe) hold
    exact ⟨hfound, (hbe.slots x hmem).trans hagree⟩

theorem Outcome.root (hback : r = some 0 → folded (stored name) = foldString name) (hroot : Directory b d 0 l)
    (hnew : findEntry b d' 0 t = some (some x)) :
    (∃ y, findEntry b d 0 t = some (some y)) ∨ r = some 0 ∧ dir = 0 ∧ foldString name = foldString t := by
  cases h with
  | kept hb _ =>
    rw [(hb 0 l hroot).findEntry hroot] at hnew
    exact .inl ⟨x, hnew⟩
  | added hb _ hfree _ hent _ =>
    have hbr := hb 0 l hroot
    rcases hent.root hfree (hback rfl) (hroot.beside hbr) hnew with ⟨y, hy⟩ | hdir
    · rw [hbr.findEntry hroot] at hy
      exact .inl ⟨y, hy⟩
    · exact .inr ⟨rfl, hdir⟩

theorem Outcome.found (hname : Findable name) (hr : r = some 0) : ∃ x, findEntry b d' dir name = some (some x) := by
  cases h with
  | kept _ hne => exact absurd hr hne
  | added _ hdir hfree hnone hent hattr => exact ⟨_, hent.found hdir hfree hattr hname hnone⟩

end

/-! ### A file of the root is written -/

def HasSpace (b : Bpb) (d : Disk) (first n : Nat) : Prop :=
  ∃ l k, LinkChain fatLinks (getFatEntry b d) first l ∧ (∀ x ∈ l, InVolume b x) ∧ FreeClusters b d k ∧
    n ≤ (l.length + k.length) * clusterSize b

theorem HasSpace.congr (h : HasSpace b d c n) (hfat : ∀ x < 256 * b.sectorsPerFat, getFatEntry b d' x = getFatEntry b d x) :
    HasSpace b d' c n := by
  obtain ⟨l, k, hchain, hv, hfree, hroom⟩ := h
  have hchain' := hchain.congr fun x hx => hfat x (hv x hx).fat
  have hfree' := hfree.congr fun x hx => hfat x (hfree.inVolume x hx).fat
  exact ⟨l, k, hchain', hv, hfree', hroom⟩

theorem writeFile_root (hg : Geometry b) (hs : 1 ≤ b.sectorsPerCluster) (hfound : findEntry b d 0 name = some (some a))
    (hd : data ≠ []) (hspace : HasSpace b d (firstCluster d a) data.length) (t : CString) :
    findEntry b (writeFile b d name data).1 0 t = findEntry b d 0 t := by
  obtain ⟨l, k, hchain, hv, hfree, hroom⟩ := hspace
  obtain ⟨l', hf⟩ := writeVfs_filled hg hs hchain hv hd hfree (cluster_of_room hd hroom) (.inl hroom)
  have hfind := hfound
  rw [findEntry_root, some.injEq] at hfind
  have hagain := (find_congr hf.written.root).trans hfind
  have ha := (mem_liveSlots (mem_of_find?_eq_some hfind)).1
  rw [writeFile_call hfound (by rw [findEntry_root, hagain]), findEntry_root, findEntry_root, some.injEq]
  split
  · exact find_congr_head (hf.written.heads ha data.length)
  · exact find_congr hf.written.root

end Fat16
end RetroOs.Drivers
