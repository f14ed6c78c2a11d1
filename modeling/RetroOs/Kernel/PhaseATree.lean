import RetroOs.Kernel.PhaseABlocks
import RetroOs.Lib.Tree

/-! The directories of the Phase A file system form a tree over any run of its operations. -/
namespace RetroOs.Kernel
open Lib List Option Nat Prod
namespace PhaseA

variable {s t u s₀ : PhaseA} {dir i j n b d : Nat} {name old new : CString} {type : InodeType}
  {ok : Bool} {op : Op} {ops : List Op} {m m' : Memory}

def entryAt (m : Memory) (b j : Nat) : CString × Nat :=
  (m.cstr (entryAddr b j) maxName, m.load32 (entryAddr b j + maxName))

/-- The entries of a directory; a file has none. -/
def children (s : PhaseA) (d : Nat) : List (CString × Nat) :=
  if (s.inodes d).type = .dir then (range (s.inodes d).size).map (entryAt s.bytes (s.inodes d).block) else []

theorem children_dir (hd : (s.inodes d).type = .dir) :
    children s d = (range (s.inodes d).size).map (entryAt s.bytes (s.inodes d).block) :=
  if_pos hd

theorem children_of_ne (hd : (s.inodes d).type ≠ .dir) : children s d = [] := if_neg hd

theorem entryAt_congr (h : m.AgreeOn m' (entryAddr b j) entrySize) : entryAt m' b j = entryAt m b j := by
  have hname : m.AgreeOn m' (entryAddr b j) maxName := h.mono (le_refl _) (by simp [entrySize])
  have hid : m.AgreeOn m' (entryAddr b j + maxName) 4 := h.mono (Nat.le_add_right ..) (by simp [entrySize]; omega)
  exact Prod.ext hname.cstr hid.load32

private theorem entryAt_shift (h : ∀ x < entrySize, m' (entryAddr b j + x) = m (entryAddr b i + x)) :
    entryAt m' b j = entryAt m b i := by
  have hname := Memory.cstr_congr (n := maxName) fun x hx => h x (lt_trans hx (by decide))
  have hid : ∀ x < 4, m' (entryAddr b j + maxName + x) = m (entryAddr b i + maxName + x) := by
    intro x hx
    rw [Nat.add_assoc, Nat.add_assoc]
    exact h (maxName + x) (Nat.add_lt_add_left hx _)
  refine Prod.ext hname ?_
  simp only [entryAt, Memory.load32]
  rw [hid 1 (by decide), hid 2 (by decide), hid 3 (by decide), show m' (entryAddr b j + maxName) = _ from
    hid 0 (by decide), add_zero]

theorem SameInode.children (h : Exclusive s) (hsame : SameInode s t d) : children t d = children s d := by
  by_cases hd : (s.inodes d).type = .dir
  · have hcap : (s.inodes d).size ≤ 60 := h.dir_size d hd
    rw [children_dir hd, children_dir (by rw [hsame.1]; exact hd), hsame.1]
    apply map_congr_left
    intro j hj
    have hj := mem_range.mp hj
    apply entryAt_congr (hsame.2.mono ?_ ?_)
    · simp only [entryAddr_eq, blockSize]
      omega
    · simp only [entryAddr_eq, blockSize, entrySize, maxName]
      omega
  · rw [children_of_ne hd, children_of_ne (by rw [hsame.1]; exact hd)]

theorem Exclusive.children_unused (h : Exclusive s) (hn : s.inodeCount ≤ n) : children s n = [] := by
  apply children_of_ne
  rw [h.unused n hn]
  exact InodeType.noConfusion

theorem Made.children (h : Exclusive s) (hm : Made s u type) (hu : Exclusive u) : children u = children s := by
  funext i
  rcases lt_trichotomy i s.inodeCount with hi | rfl | hi
  · exact (hm.sameInode h hi).children h
  · rw [h.children_unused (le_refl _)]
    obtain ⟨m, -, rfl⟩ := hm
    simp [PhaseA.children, setBytes, newInode]
  · have hcount : u.inodeCount = s.inodeCount + 1 := by
      obtain ⟨m, -, rfl⟩ := hm
      rfl
    rw [h.children_unused (le_of_lt hi), hu.children_unused (by omega)]

theorem Appended.children_other (h : Exclusive s) (hs : HasSlot s dir) (ha : Appended s t dir name n)
    (ht : Exclusive t) (hne : d ≠ dir) : children t d = children s d := by
  rcases lt_or_ge d s.inodeCount with hd | hd
  · exact (ha.sameInode h hs hd hne).children h
  · rw [h.children_unused hd, ht.children_unused (ha.inodeCount.symm ▸ hd)]

theorem Appended.children_self (hs : HasSlot s dir) (ha : Appended s t dir name n) :
    children t dir = children s dir ++ [(name, n)] := by
  have hself : t.inodes dir = { s.inodes dir with size := (s.inodes dir).size + 1 } := by
    rw [ha.inodes, Function.update_self]
  rw [children_dir hs.1, children_dir (by rw [hself]; exact hs.1), hself, range_succ, map_append]
  congr 1
  · apply map_congr_left
    intro j hj
    have hj := mem_range.mp hj
    apply entryAt_congr (ha.keeps _ _ (Or.inl ?_))
    simp only [entryAddr_eq, entrySize, maxName]
    omega
  · exact congrArg (· :: []) (Prod.ext ha.name ha.inode)

theorem Removed.children_self (hd : (s.inodes dir).type = .dir) (hr : Removed s t dir i)
    (hi : i < (s.inodes dir).size) : children t dir = (children s dir).eraseIdx i := by
  have hself : t.inodes dir = { s.inodes dir with size := (s.inodes dir).size - 1 } := by
    rw [hr.inodes, Function.update_self]
  rw [children_dir hd, children_dir (by rw [hself]; exact hd), hself]
  dsimp only
  apply ext_getElem?
  intro j
  rw [getElem?_eraseIdx, getElem?_map, getElem?_map, getElem?_map]
  by_cases hj : j < (s.inodes dir).size - 1
  · rw [getElem?_range hj, getElem?_range (by omega), getElem?_range (by omega)]
    by_cases hji : j < i
    · rw [if_pos hji]
      apply congrArg some
      apply entryAt_congr (hr.keeps _ _ (Or.inl ?_))
      simp only [entryAddr_eq, entrySize, maxName]
      omega
    · rw [if_neg hji]
      exact congrArg some (entryAt_shift (hr.shifted j (not_lt.mp hji) (by omega)))
  · rw [if_neg (by omega), getElem?_eq_none (by rw [length_range]; omega),
      getElem?_eq_none (by rw [length_range]; omega)]
    rfl

theorem Removed.children_other (h : Exclusive s) (hd : (s.inodes dir).type = .dir) (hr : Removed s t dir i)
    (hi : i < (s.inodes dir).size) (ht : Exclusive t) (hne : d ≠ dir) : children t d = children s d := by
  rcases lt_or_ge d s.inodeCount with hlt | hge
  · exact (hr.sameInode h hd hi hlt hne).children h
  · rw [h.children_unused hge, ht.children_unused (hr.inodeCount.symm ▸ hge)]

theorem findEntry_missing (hf : findEntry s d name = some none) (hd : (s.inodes d).type = .dir)
    (hname : name.length < maxName) : name ∉ (children s d).map fst := by
  simp only [findEntry] at hf
  split at hf
  · split at hf
    · cases hf
    · cases hf
  · next hnone =>
    intro hmem
    rw [children_dir hd, List.map_map] at hmem
    obtain ⟨j, hj, heq⟩ := mem_map.mp hmem
    have hne := find?_eq_none.mp hnone j hj
    exact hne ((Memory.strEq_iff hname).mpr heq)

/-- An operation that adds an entry with a name the directory has not got, and a rename into a directory
that is not under what it moves. -/
def KeepsTree (s : PhaseA) : Op → Prop
  | .createInDir pdir name _ =>
    ∀ d ∈ pdir, (s.inodes d).type = .dir → findEntry s d name = some none → s.inodeCount < maxInodes →
      HasSlot s d ∧ storedName s d name ∉ (children s d).map fst
  | .rename oldpath newpath =>
    ∀ d ∈ moves s oldpath newpath, ¬ Under (children s) (s.entryInode d.1 d.2.1) d.2.2.1
  | .mkdir _ | .createFile _ | .write _ _ => True

/-- The directories form a tree with all inodes in it. -/
def TreeShaped (s : PhaseA) : Prop := IsTree 0 (children s) (range s.inodeCount)

theorem creates_missing {path : CString} {c : Nat × CString} (h : c ∈ creates s path) :
    findEntry s c.1 c.2 = some none ∧ c.2.length < maxName := by
  obtain ⟨parent, hsp, -, hf, -⟩ := creates_spec h
  exact ⟨hf, splitPath_name hsp⟩

private theorem moves_missing {c : Nat × Nat × Nat × CString} (h : c ∈ moves s old new) :
    findEntry s c.2.2.1 c.2.2.2 = some none ∧ c.2.2.2.length < maxName := by
  obtain ⟨oldParent, oldName, newParent, -, -, hsn, -, -, hf⟩ := moves_spec h
  exact ⟨hf, splitPath_name hsn⟩

theorem TreeShaped.created (h : Exclusive s) (htree : TreeShaped s) (hb : s.blockCount < blocks)
    (hn : s.inodeCount < maxInodes) (hm : Made s u type) (hs : HasSlot s dir)
    (ha : Appended u t dir name s.inodeCount) (hname : name ∉ (children s dir).map fst) : TreeShaped t := by
  have hu := h.made hm hn hb
  have hsu : HasSlot u dir := by
    rw [HasSlot, hm.dir_eq h hs.1]
    exact hs
  have hcu := hm.children h hu
  have hcount : t.inodeCount = s.inodeCount + 1 := by
    rw [ha.inodeCount]
    obtain ⟨m, -, rfl⟩ := hm
    rfl
  rw [TreeShaped, hcount, range_succ]
  apply IsTree.add htree (mem_range.mpr (h.dir_lt hs.1)) (by simp) hname
  · rw [ha.children_self hsu, hcu]
  · intro e he
    rw [ha.children_other hu hsu (hu.appended hsu ha) he, hcu]

theorem TreeShaped.of_children (htree : TreeShaped s) (hc : ∀ i, children t i = children s i)
    (hcount : t.inodeCount = s.inodeCount) : TreeShaped t := by
  rw [TreeShaped, hcount, show children t = children s from funext hc]
  exact htree

theorem Written.children (h : Exclusive s) (hf : (s.inodes j).type = .file) (hw : Written s t j) (ht : Exclusive t)
    (i : Nat) : children t i = children s i := by
  by_cases hij : i = j
  · obtain ⟨size, hin⟩ := hw.inodes
    rw [hij, children_of_ne (by rw [hin, Function.update_self, hf]; exact InodeType.noConfusion),
      children_of_ne (by rw [hf]; exact InodeType.noConfusion)]
  · rcases lt_or_ge i s.inodeCount with hi | hi
    · exact (hw.sameInode h hf hi hij).children h
    · rw [h.children_unused hi, ht.children_unused (hw.inodeCount.symm ▸ hi)]

theorem children_getElem (hd : (s.inodes d).type = .dir) (hi : i < (s.inodes d).size) :
    ∃ k, (children s d)[i]? = some (k, s.entryInode d i) := by
  rw [children_dir hd, getElem?_map, getElem?_range hi]
  exact ⟨_, rfl⟩

private theorem exec_tree (h : Exclusive s) (htree : TreeShaped s) (hr : Roomy s op) (hk : KeepsTree s op)
    (e : s.exec op = some (t, ok)) : TreeShaped t := by
  have ht := (exec_exclusive h hr e).1
  cases op with
  | mkdir path =>
    rcases mkdir_cases h hr e with ⟨rfl, rfl⟩ | ⟨-, hb, hn, c, hc, hs, u, hm, ha⟩
    · exact htree
    · obtain ⟨hf, hname⟩ := creates_missing hc
      exact htree.created h hb hn hm hs ha (findEntry_missing hf hs.1 hname)
  | createFile path =>
    obtain ⟨⟨t, r⟩, he, hret⟩ := map_eq_some_iff.mp e
    cases hret
    rcases createFile_cases h hr he with ⟨rfl, rfl⟩ | ⟨-, hb, hn, c, hc, hs, u, hm, ha⟩
    · exact htree
    · obtain ⟨hf, hname⟩ := creates_missing hc
      exact htree.created h hb hn hm hs ha (findEntry_missing hf hs.1 hname)
  | createInDir pdir name directory =>
    obtain ⟨⟨t, r⟩, he, hret⟩ := map_eq_some_iff.mp e
    cases hret
    rcases createInDir_cases h hr he with ⟨rfl, rfl⟩ | ⟨hb, hn, c, hc, htype, hf, u, hm, hcase⟩
    · exact htree
    · obtain ⟨hs, hname⟩ := hk c hc htype hf hn
      rcases hcase with ⟨hfull, -⟩ | ⟨-, -, ha⟩
      · exact absurd hs.2 (Nat.not_lt.mpr hfull)
      · exact htree.created h hb hn hm hs ha hname
  | write f data =>
    obtain ⟨rfl, -⟩ := Prod.mk.inj (Option.some.inj e)
    rcases write_cases s f data with hs | ⟨i, hi, htype, hw⟩
    · rw [hs]
      exact htree
    · exact htree.of_children (hw.children h htype ht) hw.inodeCount
  | rename old new =>
    rcases rename_cases h hr e with ⟨rfl, rfl⟩ | ⟨-, c, hc, hdir, hs, hi, u, ha, hrem⟩
    · exact htree
    · have hu := h.appended hs ha
      obtain ⟨htype, hsize⟩ := ha.resized c.1
      obtain ⟨hf, hname⟩ := moves_missing hc
      obtain ⟨k, hentry⟩ := children_getElem hdir hi
      have hdu := htype.trans hdir
      have hiu := lt_of_lt_of_le hi hsize
      rw [TreeShaped, hrem.inodeCount, ha.inodeCount]
      exact IsTree.move htree hentry (mem_range.mpr (h.dir_lt hs.1)) (hk c hc)
        (findEntry_missing hf hs.1 hname) (ha.children_self hs) (fun e he => ha.children_other h hs hu he)
        (hrem.children_self hdu hiu) fun e he => hrem.children_other hu hdu hiu ht he

def TreeStep (s : PhaseA) (op : Op) (t : PhaseA) : Prop := RoomyStep s op t ∧ KeepsTree s op

theorem TreeShaped.run (h : Exclusive s₀) (htree : TreeShaped s₀) (hrun : Trace TreeStep s₀ ops s) :
    TreeShaped s := by
  induction hrun with
  | nil => exact htree
  | snoc hrun hstep ih =>
    obtain ⟨⟨hr, ok, e⟩, hk⟩ := hstep
    exact exec_tree (h.run (hrun.mono fun _ _ _ h => h.1)) ih hr hk e

private theorem bootRoot_tree : TreeShaped bootRoot := by
  have hempty : ∀ i, children bootRoot i = [] := fun i =>
    (congrFun (bootRoot_made.children fresh_exclusive bootRoot_exclusive) i).trans
      (fresh_exclusive.children_unused (zero_le i))
  have hcount : bootRoot.inodeCount = 1 := by
    obtain ⟨m, -, h⟩ := bootRoot_made
    rw [h]
    rfl
  rw [TreeShaped, hcount, range_one]
  refine ⟨nodup_singleton 0, ?_, fun d _ => hempty d, fun d => ?_, fun n hn => ?_⟩
  · simp [hempty]
  · rw [hempty]
    exact nodup_nil
  · rw [mem_singleton.mp hn]
    exact .refl

theorem bootstrap_tree (hb : bootstrap = some s) : TreeShaped s := by
  obtain ⟨ops, hrun⟩ := bootstrap_run hb
  refine bootRoot_tree.run bootRoot_exclusive (hrun.mono fun s op t h => ⟨h.1, ?_⟩)
  cases op with
  | mkdir _ | createFile _ | write _ _ => trivial
  | createInDir _ _ _ | rename _ _ => exact h.2.elim

/-- In every run from the bootstrap that keeps to room and to the tree, each inode but the root has one
entry in one directory, lies under the root and not under itself, the names in a directory differ, and
only a write changes an inode that is not a directory. -/
theorem tree_runs (hb : bootstrap = some s₀) (hrun : Trace TreeStep s₀ ops s) :
    (∀ n < s.inodeCount, n ≠ 0 → ∃! p : Nat × Nat, ∃ k, (children s p.1)[p.2]? = some (k, n)) ∧
      (∀ n < s.inodeCount, Under (children s) 0 n) ∧
      (∀ n, ¬ Relation.TransGen (HasEntry (children s)) n n) ∧
      (∀ d, ((children s d).map fst).Nodup) ∧
      ∀ op t, TreeStep s op t → ∀ i < s.inodeCount, (s.inodes i).type ≠ .dir →
        (∀ data, op ≠ .write (some i) data) → SameInode s t i := by
  have h := bootstrap_exclusive hb
  have htree := (bootstrap_tree hb).run h hrun
  refine ⟨fun n hn hroot => htree.named_once (mem_range.mpr hn) hroot,
    fun n hn => htree.reach n (mem_range.mpr hn), fun n => htree.acyclic, htree.names, ?_⟩
  rintro op t ⟨⟨hr, ok, e⟩, -⟩ i hi hd hw
  apply (exec_exclusive (h.run (hrun.mono fun _ _ _ h => h.1)) hr e).2.1 i hi
  intro htouch
  cases op with
  | write f data => exact hw data (congrArg (Op.write · data) htouch.1)
  | mkdir _ | createFile _ | createInDir _ _ _ | rename _ _ => exact hd htouch.2

/-- A new directory, one made in it through the VFS, and a directory of the bootstrap moved there. -/
def moveDocuments : List Op :=
  [.mkdir (.ofString "/work"), .createInDir (some 9) (.ofString "notes") true,
    .rename (.ofString "/home/user/Documents") (.ofString "/work/notes/Documents")]

theorem documents_moved : ∃ s₀ s, bootstrap = some s₀ ∧ Trace TreeStep s₀ moveDocuments s ∧
    (children s 9).map snd = [10] ∧ (children s 10).map snd = [4] ∧ Under (children s) 0 4 ∧
    (∃! p : Nat × Nat, ∃ k, (children s p.1)[p.2]? = some (k, 4)) := by
  have hev : (bootstrap.bind fun s₀ => (s₀.exec moveDocuments[0]).bind fun r₁ => (r₁.1.exec moveDocuments[1]).bind fun r₂ =>
      (r₂.1.exec moveDocuments[2]).map fun r₃ => decide (RoomyAll s₀ moveDocuments ∧ HasSlot r₁.1 9 ∧
        storedName r₁.1 9 (.ofString "notes") ∉ (children r₁.1 9).map fst ∧
        ((moves r₂.1 (.ofString "/home/user/Documents") (.ofString "/work/notes/Documents")).map fun c =>
          (r₂.1.entryInode c.1 c.2.1, c.2.2.1)) = some (4, 10) ∧ (children r₂.1 4).length = 0 ∧ r₃.1.inodeCount = 11 ∧
        (children r₃.1 9).map snd = [10] ∧ (children r₃.1 10).map snd = [4])) = some true := by decide +kernel
  obtain ⟨s₀, hb, hev⟩ := bind_eq_some_iff.mp hev
  obtain ⟨⟨s₁, ok₁⟩, e₁, hev⟩ := bind_eq_some_iff.mp hev
  obtain ⟨⟨s₂, ok₂⟩, e₂, hev⟩ := bind_eq_some_iff.mp hev
  obtain ⟨⟨s₃, ok₃⟩, e₃, hev⟩ := map_eq_some_iff.mp hev
  obtain ⟨hroomy, hslot, hname, hmove, hempty, hcount, hwork, hnotes⟩ := of_decide_eq_true hev
  obtain ⟨h₁, hroomy⟩ := hroomy.head e₁
  obtain ⟨h₂, hroomy⟩ := hroomy.head e₂
  have hmkdir : TreeStep s₀ moveDocuments[0] s₁ := ⟨h₁, trivial⟩
  have hcreate : TreeStep s₁ moveDocuments[1] s₂ := ⟨h₂, fun d hd _ _ _ => by
    cases hd
    exact ⟨hslot, hname⟩⟩
  have hrename : TreeStep s₂ moveDocuments[2] s₃ := by
    refine ⟨(hroomy.head e₃).1, fun c hc hunder => ?_⟩
    rw [Option.mem_def.mp hc, Option.map_some] at hmove
    obtain ⟨hfrom, hto⟩ := Prod.mk.inj (Option.some.inj hmove)
    rw [hfrom, hto] at hunder
    -- The directory moved is empty.
    rcases hunder.cases_head with heq | ⟨d, he, -⟩
    · exact absurd heq (by decide)
    · rw [HasEntry, eq_nil_of_length_eq_zero hempty] at he
      cases he
  have hrun : Trace TreeStep s₀ moveDocuments s₃ := ((Trace.nil.snoc hmkdir).snoc hcreate).snoc hrename
  obtain ⟨honce, hunder, -⟩ := tree_runs hb hrun
  change s₃.inodeCount = 11 at hcount
  exact ⟨s₀, s₃, hb, hrun, hwork, hnotes, hunder 4 (by omega), honce 4 (by omega) (by decide)⟩

theorem rename_into_itself : ∃ s₀ t, bootstrap = some s₀ ∧
    s₀.exec (.rename (.ofString "/home") (.ofString "/home/x")) = some (t, true) ∧
    1 < t.inodeCount ∧ ¬ Under (children t) 0 1 := by
  have hev : (bootstrap.bind fun s₀ => (s₀.exec (.rename (.ofString "/home") (.ofString "/home/x"))).map
      fun r => (r.2, r.1.inodeCount, [0, 6, 7].map fun d => (children r.1 d).map snd)) =
      some (true, 9, [[6], [7], []]) := by decide +kernel
  obtain ⟨s₀, hb, hev⟩ := bind_eq_some_iff.mp hev
  obtain ⟨⟨t, ok⟩, e, hev⟩ := map_eq_some_iff.mp hev
  simp only [List.map_cons, List.map_nil, Prod.mk.injEq, List.cons.injEq, and_true] at hev
  obtain ⟨rfl, hcount, h₀, h₆, h₇⟩ := hev
  refine ⟨s₀, t, hb, e, by omega, fun hunder => ?_⟩
  -- From the root only `system` and `.recycle` are reached.
  have hclosed : ∀ n, Under (children t) 0 n → n = 0 ∨ n = 6 ∨ n = 7 := by
    intro n hn
    induction hn with
    | refl => exact Or.inl rfl
    | tail _ he ih =>
      rcases ih with rfl | rfl | rfl
      · exact Or.inr (Or.inl (mem_singleton.mp (h₀ ▸ he)))
      · exact Or.inr (Or.inr (mem_singleton.mp (h₆ ▸ he)))
      · rw [HasEntry, h₇] at he
        cases he
  exact absurd (hclosed 1 hunder) (by decide)

end PhaseA
end RetroOs.Kernel
