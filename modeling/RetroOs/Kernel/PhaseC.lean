import RetroOs.Kernel.PhaseATree
import RetroOs.Kernel.PhaseAPaths

/-! The intents of Phase C that move files: a delete renames into the recycle bin and notes this in a history of 64
entries, and an undo takes the last one back. -/
namespace RetroOs.Kernel
open Lib

/-- The file system, and the history from its top on. -/
structure PhaseC where
  fs : PhaseA
  history : List (CString × CString)

namespace PhaseC
open PhaseA

def historySize : Nat := 64
def recyclePath : CString := .ofString "/system/.recycle"

def basename (path : CString) : CString :=
  if path = [] then []
  else
    match skipName path (path.length - 1) with
    | none => path
    | some i => path.drop (i + 1)

/-- Where a delete moves what is at the path. -/
def target (path : CString) : CString := recyclePath ++ slash :: basename path

def historyPush (p : PhaseC) (src dst : CString) : PhaseC :=
  if p.history.length ≥ historySize then p else { p with history := (src, dst) :: p.history }

/-- `ACT_DELETE` of `sys_context_execute` with `fs_soft_delete`; no value where a path or a name overruns its buffer. -/
def delete (p : PhaseC) (path : CString) : Option (PhaseC × Bool) :=
  if path.length < maxPath ∧ (basename path).length < maxName then
    let p := p.historyPush path (target path)
    (p.fs.rename path (target path)).map fun r => ({ p with fs := r.1 }, r.2)
  else none

def undo (p : PhaseC) : Option PhaseC :=
  match p.history with
  | [] => some p
  | (src, dst) :: history => (p.fs.rename dst src).map fun r => { fs := r.1, history }

end PhaseC

inductive Intent where
  | delete (path : CString)
  | undo

def PhaseC.exec (p : PhaseC) : Intent → Option (PhaseC × Bool)
  | .delete path => p.delete path
  | .undo => p.undo.map fun q => (q, true)

end RetroOs.Kernel

/-! What a rename does to the tree up to the order of entries: an entry leaves one directory and comes into another,
and a rename back undoes that. -/
namespace RetroOs.Kernel
open Lib PathName
namespace PhaseA

variable {s s' t t' u : PhaseA} {old new parent c oldName newName : CString} {cs : List CString} {d e i k n od nd : Nat}
  {P Q : Nat → CString → Prop}

/-- Each inode has its own block, and the names in a directory differ. -/
structure Distinct (s : PhaseA) : Prop extends Exclusive s where
  names : ∀ d, ((children s d).map Prod.fst).Nodup

structure SameTree (s t : PhaseA) : Prop where
  inodes : t.inodes = s.inodes
  inodeCount : t.inodeCount = s.inodeCount
  blockCount : t.blockCount = s.blockCount
  entries : ∀ d, (children t d).Perm (children s d)
  files : ∀ i < s.inodeCount, (s.inodes i).type ≠ .dir → SameInode s t i

/-! ### Lookups by the entries of a directory -/

theorem Exclusive.inside (h : Exclusive s) (hd : (s.inodes d).type = .dir) (hi : i < (s.inodes d).size) :
    Inside (s.inodes d).block i := by
  have hcap := Nat.lt_of_lt_of_le hi (h.dir_size d hd)
  exact inside_of_lt (Nat.lt_of_lt_of_le (h.block_lt d (h.dir_lt hd)) h.blocks_le) (Nat.le_of_lt hcap) (.inl hcap)

theorem children_getElem_iff (hd : (s.inodes d).type = .dir) {p : CString × Nat} :
    (children s d)[i]? = some p ↔ i < (s.inodes d).size ∧ entryAt s.bytes (s.inodes d).block i = p := by
  rw [children_dir hd, List.getElem?_map]
  by_cases hi : i < (s.inodes d).size
  · rw [List.getElem?_range hi, Option.map_some, Option.some_inj, and_iff_right hi]
  · rw [List.getElem?_eq_none (by rwa [List.length_range, ← Nat.not_lt])]
    exact iff_of_false (Option.some_ne_none _).symm fun h => hi h.1

theorem length_children (hd : (s.inodes d).type = .dir) : (children s d).length = (s.inodes d).size := by
  rw [children_dir hd, List.length_map, List.length_range]

theorem Distinct.findEntry_child (h : Distinct s) (hd : (s.inodes d).type = .dir) (hlen : c.length < maxName)
    (hm : (c, k) ∈ children s d) :
    ∃ i, findEntry s d c = some (some i) ∧ (children s d)[i]? = some (c, k) ∧ s.entryInode d i = k := by
  obtain ⟨i, hi⟩ := List.mem_iff_getElem?.mp hm
  obtain ⟨hsize, hentry⟩ := (children_getElem_iff hd).mp hi
  have hname : ∀ j, s.bytes.strEq (entryAddr (s.inodes d).block j) c = true ↔ (entryAt s.bytes (s.inodes d).block j).1 = c :=
    fun j => Memory.strEq_iff hlen
  have hfind : ((List.range (s.inodes d).size).find? fun j => s.bytes.strEq (entryAddr (s.inodes d).block j) c) = some i := by
    obtain ⟨j, hj⟩ : ∃ j, ((List.range (s.inodes d).size).find? fun j => s.bytes.strEq (entryAddr (s.inodes d).block j) c) = some j := by
      refine Option.isSome_iff_exists.mp (List.find?_isSome.mpr ⟨i, List.mem_range.mpr hsize, ?_⟩)
      rw [hname, hentry]
    have hjsize := List.mem_range.mp (List.mem_of_find?_eq_some hj)
    have hjname : (entryAt s.bytes (s.inodes d).block j).1 = c := (hname j).mp (List.find?_some (p := fun j => s.bytes.strEq (entryAddr (s.inodes d).block j) c) hj)
    -- the names differ, so that it is this one
    have hat : ∀ x < (s.inodes d).size, ((children s d).map Prod.fst)[x]? = some (entryAt s.bytes (s.inodes d).block x).1 := by
      intro x hx
      rw [List.getElem?_map, (children_getElem_iff hd).mpr ⟨hx, rfl⟩, Option.map_some]
    have hji : j = i := by
      refine (List.getElem?_inj ?_ (h.names d)).mp ?_
      · obtain ⟨hlt, -⟩ := List.getElem?_eq_some_iff.mp (hat j hjsize)
        exact hlt
      · rw [hat j hjsize, hat i hsize, hjname, hentry]
    rw [hj, hji]
  refine ⟨i, ?_, hi, congrArg Prod.snd hentry⟩
  rw [findEntry, hfind]
  exact if_pos (h.inside hd hsize)

theorem Exclusive.findEntry_absent (h : Exclusive s) (hd : (s.inodes d).type = .dir) (hlen : c.length < maxName)
    (hm : c ∉ (children s d).map Prod.fst) : findEntry s d c = some none := by
  have hfind : ((List.range (s.inodes d).size).find? fun j => s.bytes.strEq (entryAddr (s.inodes d).block j) c) = none := by
    refine List.find?_eq_none.mpr fun j hj heq => hm ?_
    have hname : (entryAt s.bytes (s.inodes d).block j).1 = c := (Memory.strEq_iff hlen).mp heq
    rw [← hname]
    exact List.mem_map_of_mem (List.mem_iff_getElem?.mpr ⟨j, (children_getElem_iff hd).mpr ⟨List.mem_range.mp hj, rfl⟩⟩)
  rw [findEntry, hfind]
  refine if_pos ?_
  rcases Nat.eq_zero_or_pos (s.inodes d).size with hzero | hpos
  · exact .inl hzero
  · exact .inr (h.inside hd (Nat.sub_lt hpos Nat.one_pos))

theorem Distinct.resolveToken_child (h : Distinct s) (hd : (s.inodes d).type = .dir) (hne : c ≠ []) (hlen : c.length < maxName)
    (hm : (c, k) ∈ children s d) (hk : k < maxInodes) : resolveToken s d c = some (some k) := by
  obtain ⟨i, hfind, -, hinode⟩ := h.findEntry_child hd hlen hm
  rw [resolveToken, if_neg (Nat.not_le.mpr hlen), if_neg hne, hfind]
  dsimp only
  rw [hinode, if_pos hk]

/-- Names lead from one directory to the next by entries for which `P` does not hold. -/
inductive DirPath (s : PhaseA) (P : Nat → CString → Prop) : Nat → List CString → Nat → Prop
  | nil (d : Nat) : DirPath s P d [] d
  | cons {d k e : Nat} {c : CString} {cs : List CString} (hd : (s.inodes d).type = .dir) (hc : c.length < maxName)
    (hP : ¬ P d c) (hm : (c, k) ∈ children s d) (hk : k < maxInodes) (h : DirPath s P k cs e) : DirPath s P d (c :: cs) e

theorem DirPath.nameWalk (h : Distinct s) (hp : DirPath s P d cs e) (hcs : ∀ c ∈ cs, c ∈ Names) :
    nameWalk (resolveToken s) d cs = some (some e) := by
  induction hp with
  | nil => rfl
  | cons hd hc _ hm hk _ ih =>
    obtain ⟨hname, hcs⟩ := List.forall_mem_cons.mp hcs
    rw [nameWalk_cons (h.resolveToken_child hd hname.1 hc hm hk)]
    exact ih hcs

theorem DirPath.mono (hp : DirPath s P d cs e) (htype : ∀ d, (s.inodes d).type = .dir → (t.inodes d).type = .dir)
    (hkeep : ∀ d c k, ¬ P d c → (c, k) ∈ children s d → (c, k) ∈ children t d ∧ ¬ Q d c) : DirPath t Q d cs e := by
  induction hp with
  | nil => exact .nil _
  | cons hd hc hP hm hk _ ih =>
    obtain ⟨hmt, hQ⟩ := hkeep _ _ _ hP hm
    exact .cons (htype _ hd) hc hQ hmt hk ih

/-! ### A rename between directories -/

def Splits (s : PhaseA) (P : Nat → CString → Prop) (path : CString) (d : Nat) (name : CString) : Prop :=
  ∃ parent, splitPath path = some (parent, name) ∧ parent.head? = some slash ∧ DirPath s P 0 (components slash parent.tail) d

/-- A rename for which all is there: the entry, its new directory with room and without the new name; and neither path
leads through the entry itself. -/
structure Movable (s : PhaseA) (old new : CString) (od : Nat) (oldName : CString) (nd : Nat) (newName : CString) (n : Nat) :
    Prop where
  oldPath : Splits s (fun d c => d = od ∧ c = oldName) old od oldName
  newPath : Splits s (fun d c => d = od ∧ c = oldName) new nd newName
  oldDir : (s.inodes od).type = .dir
  entry : (oldName, n) ∈ children s od
  newDir : HasSlot s nd
  fresh : newName ∉ (children s nd).map Prod.fst

structure Moved (s t : PhaseA) (od : Nat) (oldName : CString) (nd : Nat) (newName : CString) (n : Nat) : Prop where
  records : ∀ i, t.inodes i = { s.inodes i with size := (t.inodes i).size }
  others : ∀ i, (s.inodes i).type ≠ .dir → t.inodes i = s.inodes i
  inodeCount : t.inodeCount = s.inodeCount
  blockCount : t.blockCount = s.blockCount
  entries : ∀ d, ((if d = od then [(oldName, n)] else []) ++ children t d).Perm
    ((if d = nd then [(newName, n)] else []) ++ children s d)
  files : ∀ i < s.inodeCount, (s.inodes i).type ≠ .dir → SameInode s t i

theorem Splits.resolve (h : Distinct s) (hp : Splits s P old d oldName) :
    ∃ parent, splitPath old = some (parent, oldName) ∧ resolve s parent = some (some d) := by
  obtain ⟨parent, hsplit, habs, hpath⟩ := hp
  exact ⟨parent, hsplit, (resolve_eq s habs).trans (hpath.nameWalk h (components_names _))⟩

private theorem record_resize (h : t.inodes = Function.update s.inodes d { s.inodes d with size := n }) (i : Nat) :
    t.inodes i = { s.inodes i with size := (t.inodes i).size } := by
  rw [h]
  by_cases hi : i = d
  · rw [hi, Function.update_self]
  · rw [Function.update_of_ne hi]

theorem Movable.rename (h : Distinct s) (hm : Movable s old new od oldName nd newName n) :
    ∃ t, s.rename old new = some (t, true) ∧ Moved s t od oldName nd newName n ∧ Exclusive t := by
  obtain ⟨oldParent, hso, hro⟩ := hm.oldPath.resolve h
  obtain ⟨newParent, hsn, hrn⟩ := hm.newPath.resolve h
  obtain ⟨i, hfind, hget, hinode⟩ := h.findEntry_child hm.oldDir (splitPath_name hso) hm.entry
  have hmissing := h.toExclusive.findEntry_absent hm.newDir.1 (splitPath_name hsn) hm.fresh
  have hi := ((children_getElem_iff hm.oldDir).mp hget).1
  -- both steps find their entry in the blocks
  obtain ⟨u, hu⟩ : ∃ u, s.addEntry nd (s.inodes nd).block newName n = some u := ⟨_, if_pos (hm.newDir.inside h.toExclusive)⟩
  have ha := addEntry_appended (hm.newDir.inside h.toExclusive) (splitPath_name hsn) (hinode ▸ Memory.load32_lt ..) hu rfl
  have hue := h.toExclusive.appended hm.newDir ha
  obtain ⟨htype, hsize⟩ := ha.resized od
  have hodu : (u.inodes od).type = .dir := htype.trans hm.oldDir
  have hiu := Nat.lt_of_lt_of_le hi hsize
  obtain ⟨t, ht⟩ : ∃ t, u.removeEntry od i = some t :=
    ⟨_, if_pos (hue.inside hodu (Nat.sub_lt (Nat.zero_lt_of_lt hiu) Nat.one_pos))⟩
  have hrem := removeEntry_removed hiu ht
  have hte := hue.removed hrem
  refine ⟨t, ?_, ⟨?_, ?_, ?_, ?_, ?_, ?_⟩, hte⟩
  · simp [PhaseA.rename, hso, hsn, hro, hrn, hfind, hmissing, hinode, hu, ht]
  · intro j
    rw [record_resize hrem.inodes j, record_resize ha.inodes j]
  · intro j htypej
    have hjn : j ≠ nd := fun heq => htypej (heq ▸ hm.newDir.1)
    have hjo : j ≠ od := fun heq => htypej (heq ▸ hm.oldDir)
    rw [hrem.inodes, ha.inodes, Function.update_of_ne hjo, Function.update_of_ne hjn]
  · rw [hrem.inodeCount, ha.inodeCount]
  · rw [hrem.blockCount, ha.blockCount]
  · intro d
    have hadded : (children u d).Perm ((if d = nd then [(newName, n)] else []) ++ children s d) := by
      by_cases hd : d = nd
      · subst hd
        rw [if_pos rfl, ha.children_self hm.newDir]
        exact List.perm_append_comm
      · rw [if_neg hd, ha.children_other h.toExclusive hm.newDir hue hd]
        exact .refl _
    refine List.Perm.trans ?_ hadded
    by_cases hd : d = od
    · subst hd
      have hgetu : (children u d)[i]? = some (oldName, n) := by
        by_cases hdn : d = nd
        · subst hdn
          rw [ha.children_self hm.newDir, List.getElem?_append_left (List.getElem?_eq_some_iff.mp hget).1, hget]
        · rw [ha.children_other h.toExclusive hm.newDir hue hdn, hget]
      rw [if_pos rfl, hrem.children_self hodu hiu]
      obtain ⟨hlt, hval⟩ := List.getElem?_eq_some_iff.mp hgetu
      have hperm := List.getElem_cons_eraseIdx_perm hlt
      rwa [hval] at hperm
    · rw [if_neg hd, hrem.children_other hue hodu hiu hte hd]
      exact .refl _
  · intro j hj htypej
    have hjn : j ≠ nd := fun heq => htypej (heq ▸ hm.newDir.1)
    have hjo : j ≠ od := fun heq => htypej (heq ▸ hm.oldDir)
    exact (ha.sameInode h.toExclusive hm.newDir hj hjn).trans (hrem.sameInode hue hodu hiu (by rwa [ha.inodeCount]) hjo)

/-! ### What a move leaves -/

section
variable (hv : Moved s t od oldName nd newName n)
include hv

theorem Moved.type (i : Nat) : (t.inodes i).type = (s.inodes i).type := by rw [hv.records i]

theorem Moved.names (h : Distinct s) (hfresh : newName ∉ (children s nd).map Prod.fst) (d : Nat) :
    ((if d = od then [oldName] else []) ++ (children t d).map Prod.fst).Nodup := by
  have hperm := (hv.entries d).map Prod.fst
  rw [List.map_append, List.map_append] at hperm
  have hafter : ((if d = nd then [newName] else []) ++ (children s d).map Prod.fst).Nodup := by
    by_cases hd : d = nd
    · subst hd
      rw [if_pos rfl]
      exact List.nodup_cons.mpr ⟨hfresh, h.names d⟩
    · rw [if_neg hd]
      exact h.names d
  have hleft : (if d = od then [(oldName, n)] else []).map Prod.fst = if d = od then [oldName] else [] := by
    split <;> rfl
  have hright : (if d = nd then [(newName, n)] else []).map Prod.fst = if d = nd then [newName] else [] := by
    split <;> rfl
  rw [hleft, hright] at hperm
  exact hperm.nodup_iff.mpr hafter

theorem Moved.distinct (h : Distinct s) (hfresh : newName ∉ (children s nd).map Prod.fst) (ht : Exclusive t) : Distinct t :=
  ⟨ht, fun d => (List.nodup_append.mp (hv.names h hfresh d)).2.1⟩

theorem Moved.keep (hm : (c, k) ∈ children s d) (hne : ¬ (d = od ∧ c = oldName)) : (c, k) ∈ children t d := by
  have hmem : (c, k) ∈ (if d = od then [(oldName, n)] else []) ++ children t d :=
    (hv.entries d).mem_iff.mpr (List.mem_append_right _ hm)
  rcases List.mem_append.mp hmem with hold | hmt
  · split at hold
    · next hd => exact absurd ⟨hd, (Prod.mk.inj (List.mem_singleton.mp hold)).1⟩ hne
    · cases hold
  · exact hmt

theorem Moved.entry (hne : nd = od → newName ≠ oldName) : (newName, n) ∈ children t nd := by
  have hmem : (newName, n) ∈ (if nd = od then [(oldName, n)] else []) ++ children t nd := by
    refine (hv.entries nd).mem_iff.mpr (List.mem_append_left _ ?_)
    rw [if_pos rfl]
    exact List.mem_singleton.mpr rfl
  rcases List.mem_append.mp hmem with hold | hmt
  · split at hold
    · next hd => exact absurd (Prod.mk.inj (List.mem_singleton.mp hold)).1 (hne hd)
    · cases hold
  · exact hmt

end

theorem Movable.back (h : Distinct s) (hm : Movable s old new od oldName nd newName n)
    (hv : Moved s t od oldName nd newName n) : Movable t new old nd newName od oldName n := by
  have hnew : ∀ k, (newName, k) ∉ children s nd := fun k hk => hm.fresh (List.mem_map_of_mem hk)
  have hne : nd = od → newName ≠ oldName := by
    rintro rfl rfl
    exact hnew n hm.entry
  have hpath : ∀ {path d name}, Splits s (fun d c => d = od ∧ c = oldName) path d name →
      Splits t (fun d c => d = nd ∧ c = newName) path d name := by
    rintro path d name ⟨parent, hsplit, habs, hp⟩
    refine ⟨parent, hsplit, habs, hp.mono (fun d hd => (hv.type d).trans hd) fun d c k hP hmem => ⟨hv.keep hmem hP, ?_⟩⟩
    rintro ⟨rfl, rfl⟩
    exact hnew k hmem
  have holdDir : (t.inodes od).type = .dir := (hv.type od).trans hm.oldDir
  refine ⟨hpath hm.newPath, hpath hm.oldPath, (hv.type nd).trans hm.newDir.1, hv.entry hne, ⟨holdDir, ?_⟩, ?_⟩
  · have hlen := (hv.entries od).length_eq
    have hcap := h.dir_size od hm.oldDir
    rw [if_pos rfl, List.length_append, List.length_append, length_children holdDir, length_children hm.oldDir,
      List.length_singleton] at hlen
    by_cases hd : od = nd
    · have hroom := hm.newDir.2
      rw [← hd] at hroom
      rw [if_pos hd, List.length_singleton] at hlen
      omega
    · rw [if_neg hd, List.length_nil] at hlen
      omega
  · have hnodup := hv.names h hm.fresh od
    rw [if_pos rfl] at hnodup
    exact (List.nodup_cons.mp hnodup).1

theorem Moved.back (hv : Moved s t od oldName nd newName n) (hb : Moved t u nd newName od oldName n) : SameTree s u := by
  have hentries : ∀ d, (children u d).Perm (children s d) := fun d =>
    (List.perm_append_left_iff _).mp ((hb.entries d).trans (hv.entries d))
  refine ⟨funext fun i => ?_, hb.inodeCount.trans hv.inodeCount, hb.blockCount.trans hv.blockCount, hentries, fun i hi htype => ?_⟩
  · by_cases htype : (s.inodes i).type = .dir
    · have htypeu : (u.inodes i).type = .dir := (hb.type i).trans ((hv.type i).trans htype)
      have hsize : (u.inodes i).size = (s.inodes i).size := by
        rw [← length_children htypeu, ← length_children htype, (hentries i).length_eq]
      rw [hb.records i, hv.records i, hsize]
    · have htypet : (t.inodes i).type ≠ .dir := by rwa [hv.type i]
      rw [hb.others i htypet, hv.others i htype]
  · exact (hv.files i hi htype).trans (hb.files i (hv.inodeCount ▸ hi) (by rwa [hv.type i]))

/-! ### The same tree -/

theorem SameTree.distinct (h : Distinct s) (hs : SameTree s t) : Distinct t := by
  refine ⟨⟨hs.inodeCount ▸ h.inodes_le, hs.blockCount ▸ h.blocks_le, ?_, ?_, ?_, ?_⟩, fun d => ?_⟩
  · rw [hs.inodes, hs.inodeCount, hs.blockCount]
    exact h.block_lt
  · rw [hs.inodes, hs.inodeCount]
    exact h.block_inj
  · rw [hs.inodes]
    exact h.dir_size
  · rw [hs.inodes, hs.inodeCount]
    exact h.unused
  · exact (((hs.entries d).map Prod.fst).nodup_iff).mpr (h.names d)

theorem SameTree.movable (hs : SameTree s t) (hm : Movable s old new od oldName nd newName n) :
    Movable t old new od oldName nd newName n := by
  have hpath : ∀ {path d name}, Splits s (fun d c => d = od ∧ c = oldName) path d name →
      Splits t (fun d c => d = od ∧ c = oldName) path d name := by
    rintro path d name ⟨parent, hsplit, habs, hp⟩
    exact ⟨parent, hsplit, habs, hp.mono (fun d hd => by rwa [hs.inodes]) fun d c k hP hmem => ⟨(hs.entries d).mem_iff.mpr hmem, hP⟩⟩
  refine ⟨hpath hm.oldPath, hpath hm.newPath, by rw [hs.inodes]; exact hm.oldDir, (hs.entries od).mem_iff.mpr hm.entry, ?_, ?_⟩
  · rw [HasSlot, hs.inodes]
    exact hm.newDir
  · exact fun hmem => hm.fresh (((hs.entries nd).map Prod.fst).mem_iff.mp hmem)

theorem SameTree.moved (hs : SameTree s s') (hv : Moved s t od oldName nd newName n) (hv' : Moved s' t' od oldName nd newName n) :
    SameTree t t' := by
  have hentries : ∀ d, (children t' d).Perm (children t d) := fun d =>
    (List.perm_append_left_iff _).mp <|
      (hv'.entries d).trans <| ((List.perm_append_left_iff _).mpr (hs.entries d)).trans (hv.entries d).symm
  refine ⟨funext fun i => ?_, ?_, ?_, hentries, fun i hi htype => ?_⟩
  · by_cases htype : (s.inodes i).type = .dir
    · have ht : (t.inodes i).type = .dir := (hv.type i).trans htype
      have ht' : (t'.inodes i).type = .dir := (hv'.type i).trans (by rwa [hs.inodes])
      have hsize : (t'.inodes i).size = (t.inodes i).size := by
        rw [← length_children ht', ← length_children ht, (hentries i).length_eq]
      rw [hv'.records i, hv.records i, hs.inodes, hsize]
    · rw [hv'.others i (by rwa [hs.inodes]), hv.others i htype, hs.inodes]
  · rw [hv'.inodeCount, hv.inodeCount, hs.inodeCount]
  · rw [hv'.blockCount, hv.blockCount, hs.blockCount]
  · have htype' : (s.inodes i).type ≠ .dir := by rwa [hv.type i] at htype
    have his : i < s.inodeCount := hv.inodeCount ▸ hi
    have hleft := hv.files i his htype'
    have hmid := hs.files i his htype'
    have hright := hv'.files i (by rwa [hs.inodeCount]) (by rwa [hs.inodes])
    have hall := hmid.trans hright
    refine ⟨hall.1.trans hleft.1.symm, fun x hlo hhi => ?_⟩
    rw [hleft.1] at hlo hhi
    exact (hall.2 x hlo hhi).trans (hleft.2 x hlo hhi).symm

end PhaseA
end RetroOs.Kernel

/-! Runs of deletes and undos: the history is a stack of moves each of which can be taken back, as long as nothing is
pushed that was not deleted and nothing is deleted that was not pushed. -/
namespace RetroOs.Kernel
open Lib PathName PhaseA
namespace PhaseC

variable {p q : PhaseC} {s s' s₀ : PhaseA} {path : CString} {history : List (CString × CString)} {intents : List Intent}
  {i : Intent} {ok : Bool}

/-- What is at the path can be moved into the recycle bin. -/
def Deletable (s : PhaseA) (path : CString) : Prop :=
  ∃ od oldName nd newName n, Movable s path (target path) od oldName nd newName n

/-- A delete that succeeds while there is a place in the history, and otherwise one that does not. -/
def Undoable (p : PhaseC) : Intent → Prop
  | .delete path =>
    if p.history.length < historySize then Deletable p.fs path else moves p.fs path (target path) = none
  | .undo => True

def Step (p : PhaseC) (i : Intent) (q : PhaseC) : Prop := Undoable p i ∧ ∃ ok, p.exec i = some (q, ok)

/-- An undo after a delete that succeeds gives the tree back, and one that fails changes nothing. -/
def DeleteRestores (p : PhaseC) (path : CString) : Prop :=
  ∀ q ok, p.delete path = some (q, ok) →
    (ok = true → ∃ r, q.undo = some r ∧ SameTree p.fs r.fs) ∧ (ok = false → q.fs = p.fs ∧ q.history = p.history)

/-- Each move in the history can be taken back, one after the other from the top. -/
def Pending : PhaseA → List (CString × CString) → Prop
  | _, [] => True
  | s, (src, dst) :: history =>
    (∃ od oldName nd newName n, Movable s dst src od oldName nd newName n) ∧
      ∃ t, s.rename dst src = some (t, true) ∧ Pending t history

theorem Pending.same (h : Distinct s) (hs : SameTree s s') (hp : Pending s history) : Pending s' history := by
  induction history generalizing s s' with
  | nil => trivial
  | cons entry history ih =>
    obtain ⟨src, dst⟩ := entry
    obtain ⟨⟨od, oldName, nd, newName, n, hm⟩, t, ht, hrest⟩ := hp
    have hm' := hs.movable hm
    obtain ⟨u, hu, hv, hue⟩ := hm.rename h
    obtain rfl := (Prod.mk.inj (Option.some.inj (hu.symm.trans ht))).1
    obtain ⟨u', hu', hv', -⟩ := hm'.rename (hs.distinct h)
    exact ⟨⟨od, oldName, nd, newName, n, hm'⟩, u', hu', ih (hv.distinct h hm.fresh hue) (hs.moved hv hv') hrest⟩

/-- What holds in every state of a run. -/
structure Inv (p : PhaseC) : Prop where
  distinct : Distinct p.fs
  pending : Pending p.fs p.history

private theorem delete_some (e : p.delete path = some (q, ok)) :
    ∃ t, p.fs.rename path (target path) = some (t, ok) ∧ q = { p.historyPush path (target path) with fs := t } := by
  obtain ⟨-, e⟩ := Option.ite_none_right_eq_some.mp e
  obtain ⟨⟨t, ok'⟩, hrename, hret⟩ := Option.map_eq_some_iff.mp e
  obtain ⟨rfl, rfl⟩ := Prod.mk.inj hret
  have hfs : (p.historyPush path (target path)).fs = p.fs := by
    rw [historyPush]
    split <;> rfl
  exact ⟨t, by rwa [hfs] at hrename, rfl⟩

theorem Inv.delete (h : Inv p) (hroom : p.history.length < historySize) (hd : Deletable p.fs path)
    (e : p.delete path = some (q, ok)) : ok = true ∧ Inv q ∧ ∃ r, q.undo = some r ∧ SameTree p.fs r.fs := by
  obtain ⟨t, hrename, rfl⟩ := delete_some e
  obtain ⟨od, oldName, nd, newName, n, hm⟩ := hd
  obtain ⟨u, hu, hv, hue⟩ := hm.rename h.distinct
  obtain ⟨rfl, rfl⟩ := Prod.mk.inj (Option.some.inj (hu.symm.trans hrename))
  have hdu := hv.distinct h.distinct hm.fresh hue
  have hback := hm.back h.distinct hv
  obtain ⟨r, hr, hvr, -⟩ := hback.rename hdu
  have hsame := hv.back hvr
  have hpush : p.historyPush path (target path) = { p with history := (path, target path) :: p.history } :=
    if_neg (Nat.not_le.mpr hroom)
  rw [hpush]
  refine ⟨rfl, ⟨hdu, ⟨nd, newName, od, oldName, n, hback⟩, r, hr, h.pending.same h.distinct hsame⟩, ⟨r, p.history⟩, ?_, hsame⟩
  show (u.rename (target path) path).map _ = _
  rw [hr]
  rfl

private theorem delete_full (hfull : ¬ p.history.length < historySize) (hno : moves p.fs path (target path) = none)
    (e : p.delete path = some (q, ok)) : ok = false ∧ q = p := by
  obtain ⟨t, hrename, rfl⟩ := delete_some e
  have hpush : p.historyPush path (target path) = p := if_pos (Nat.not_lt.mp hfull)
  rcases rename_steps hrename with ⟨rfl, rfl⟩ | ⟨-, c, hc, -⟩
  · exact ⟨rfl, by rw [hpush]⟩
  · rw [hno] at hc
    cases hc

theorem Inv.step (h : Inv p) (hu : Undoable p i) (e : p.exec i = some (q, ok)) : Inv q := by
  cases i with
  | delete path =>
    rw [Undoable] at hu
    split at hu
    · next hroom => exact (h.delete hroom hu e).2.1
    · next hfull => rwa [(delete_full hfull hu e).2]
  | undo =>
    obtain ⟨r, hr, hret⟩ := Option.map_eq_some_iff.mp e
    obtain ⟨rfl, -⟩ := Prod.mk.inj hret
    obtain ⟨fs, history⟩ := p
    cases history with
    | nil =>
      obtain rfl := Option.some.inj hr
      exact h
    | cons entry history =>
      obtain ⟨src, dst⟩ := entry
      obtain ⟨⟨od, oldName, nd, newName, n, hm⟩, t, ht, hrest⟩ := h.pending
      obtain ⟨u, hu, hv, hue⟩ := hm.rename h.distinct
      obtain rfl := (Prod.mk.inj (Option.some.inj (hu.symm.trans ht))).1
      obtain ⟨⟨r, ok'⟩, hrename, rfl⟩ := Option.map_eq_some_iff.mp hr
      obtain rfl := (Prod.mk.inj (Option.some.inj (hrename.symm.trans ht))).1
      exact ⟨hv.distinct h.distinct hm.fresh hue, hrest⟩

theorem Inv.run (h : Distinct s₀) (hrun : Trace Step ⟨s₀, []⟩ intents p) : Inv p := by
  induction hrun with
  | nil => exact ⟨h, trivial⟩
  | snoc _ hstep ih =>
    obtain ⟨hu, ok, e⟩ := hstep
    exact ih.step hu e

/-- In every run of such intents from a tree, a delete of this kind can be undone, or it changes nothing. -/
theorem delete_undo_runs (h : Distinct s₀) (hrun : Trace Step ⟨s₀, []⟩ intents p) (hu : Undoable p (.delete path)) :
    DeleteRestores p path := by
  have hinv := Inv.run h hrun
  intro q ok e
  rw [Undoable] at hu
  split at hu
  · next hroom =>
    obtain ⟨rfl, -, hundo⟩ := hinv.delete hroom hu e
    exact ⟨fun _ => hundo, fun hno => absurd hno (by decide)⟩
  · next hfull =>
    obtain ⟨rfl, rfl⟩ := delete_full hfull hu e
    exact ⟨fun hno => absurd hno (by decide), fun _ => ⟨rfl, rfl⟩⟩

/-- The file that the bootstrap makes, and the recycle bin. -/
def ReadmeDeletable (s : PhaseA) : Prop :=
  (∀ d ∈ [0, 1, 2, 3, 6, 7], (s.inodes d).type = .dir) ∧ (CString.ofString "home", 1) ∈ children s 0 ∧
    (CString.ofString "user", 2) ∈ children s 1 ∧ (CString.ofString "Desktop", 3) ∈ children s 2 ∧
    (CString.ofString "readme.txt", 8) ∈ children s 3 ∧ (CString.ofString "system", 6) ∈ children s 0 ∧
    (CString.ofString ".recycle", 7) ∈ children s 6 ∧ HasSlot s 7 ∧
    CString.ofString "readme.txt" ∉ (children s 7).map Prod.fst

instance (s : PhaseA) : Decidable (ReadmeDeletable s) := inferInstanceAs (Decidable (_ ∧ _))

theorem ReadmeDeletable.deletable (h : ReadmeDeletable s) : Deletable s (.ofString "/home/user/Desktop/readme.txt") := by
  obtain ⟨hdir, hhome, huser, hdesktop, hreadme, hsystem, hbin, hslot, hfresh⟩ := h
  refine ⟨3, .ofString "readme.txt", 7, .ofString "readme.txt", 8,
    ⟨.ofString "/home/user/Desktop", by decide, by decide, ?_⟩, ⟨.ofString "/system/.recycle", by decide, by decide, ?_⟩,
    hdir 3 (by decide), hreadme, hslot, hfresh⟩
  · exact .cons (hdir 0 (by decide)) (by decide) (by decide) hhome (by decide) <|
      .cons (hdir 1 (by decide)) (by decide) (by decide) huser (by decide) <|
        .cons (hdir 2 (by decide)) (by decide) (by decide) hdesktop (by decide) (.nil 3)
  · exact .cons (hdir 0 (by decide)) (by decide) (by decide) hsystem (by decide) <|
      .cons (hdir 6 (by decide)) (by decide) (by decide) hbin (by decide) (.nil 7)

theorem readme_comes_back : ∃ s₀, bootstrap = some s₀ ∧ ∃ q r,
    PhaseC.delete ⟨s₀, []⟩ (.ofString "/home/user/Desktop/readme.txt") = some (q, true) ∧ q.undo = some r ∧ SameTree s₀ r.fs := by
  have hev : (bootstrap.map fun s₀ => (decide (ReadmeDeletable s₀),
      (PhaseC.delete ⟨s₀, []⟩ (.ofString "/home/user/Desktop/readme.txt")).map Prod.snd)) = some (true, some true) := by
    decide +kernel
  obtain ⟨s₀, hb, hev⟩ := Option.map_eq_some_iff.mp hev
  obtain ⟨hdel, hok⟩ := Prod.mk.inj hev
  have hd := (of_decide_eq_true hdel).deletable
  obtain ⟨⟨q, ok⟩, hdelete, rfl⟩ := Option.map_eq_some_iff.mp hok
  have hdistinct : Distinct s₀ := ⟨bootstrap_exclusive hb, fun d => (bootstrap_tree hb).names d⟩
  have hu : Undoable ⟨s₀, []⟩ (.delete (.ofString "/home/user/Desktop/readme.txt")) := by
    have hroom : (⟨s₀, []⟩ : PhaseC).history.length < historySize := show 0 < historySize by decide
    rw [Undoable, if_pos hroom]
    exact hd
  obtain ⟨r, hr, hsame⟩ := (delete_undo_runs hdistinct .nil hu q true hdelete).1 rfl
  exact ⟨s₀, hb, q, r, hdelete, hr, hsame⟩

theorem delete_missing_noted : ∃ s₀ q, bootstrap = some s₀ ∧ PhaseC.delete ⟨s₀, []⟩ (.ofString "/x") = some (q, false) ∧
    q.history = [(.ofString "/x", .ofString "/system/.recycle/x")] ∧ ¬ DeleteRestores ⟨s₀, []⟩ (.ofString "/x") := by
  have hev : (bootstrap.bind fun s₀ => (PhaseC.delete ⟨s₀, []⟩ (.ofString "/x")).map fun r => (r.1.history, r.2)) =
      some ([(.ofString "/x", .ofString "/system/.recycle/x")], false) := by decide +kernel
  obtain ⟨s₀, hb, hev⟩ := Option.bind_eq_some_iff.mp hev
  obtain ⟨⟨q, ok⟩, hdelete, hev⟩ := Option.map_eq_some_iff.mp hev
  obtain ⟨hhistory, rfl⟩ := Prod.mk.inj hev
  refine ⟨s₀, q, hb, hdelete, hhistory, fun h => ?_⟩
  have hsame := ((h q false hdelete).2 rfl).2
  rw [hhistory] at hsame
  cases hsame

end PhaseC
end RetroOs.Kernel
