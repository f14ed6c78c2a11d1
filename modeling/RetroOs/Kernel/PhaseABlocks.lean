import RetroOs.Kernel.PhaseASteps

/-! Who owns the blocks of the Phase A file system, over any run of its operations. -/
namespace RetroOs.Kernel
open Lib Option Nat Function
namespace PhaseA

variable {s t u s₀ : PhaseA} {dir i j n b : Nat} {name old new : CString} {type : InodeType}
  {ok : Bool} {op : Op} {ops : List Op}

def parentDir (s : PhaseA) (path : CString) : Option Nat :=
  (splitPath path).bind fun p => (resolve s p.1).join

/-- The file that an operation writes and the directories in which it creates or renames. -/
def Touches (s : PhaseA) : Op → Nat → Prop
  | .mkdir path, i => i ∈ parentDir s path ∧ (s.inodes i).type = .dir
  | .createFile path, i => i ∈ parentDir s path ∧ (s.inodes i).type = .dir
  | .createInDir pdir _ _, i => i ∈ pdir ∧ (s.inodes i).type = .dir
  | .write f _, i => i ∈ f ∧ (s.inodes i).type = .file
  | .rename oldpath newpath, i =>
    (i ∈ parentDir s oldpath ∨ i ∈ parentDir s newpath) ∧ (s.inodes i).type = .dir

/-- The operations that make an inode. -/
def Op.creates : Op → Prop
  | .mkdir _ | .createFile _ | .createInDir _ _ _ => True
  | .write _ _ | .rename _ _ => False

/-- The record and the data of an inode stay. -/
def SameInode (s t : PhaseA) (i : Nat) : Prop :=
  t.inodes i = s.inodes i ∧ s.bytes.AgreeOn t.bytes (blockSize * (s.inodes i).block) blockSize

theorem SameInode.refl : SameInode s s i := ⟨rfl, Memory.AgreeOn.refl⟩

theorem SameInode.trans (h : SameInode s u i) (h' : SameInode u t i) : SameInode s t i := by
  refine ⟨h'.1.trans h.1, h.2.trans ?_⟩
  rw [← h.1]
  exact h'.2

theorem Exclusive.blocks_ne (h : Exclusive s) (hi : i < s.inodeCount) (hj : j < s.inodeCount) (hne : i ≠ j) :
    (s.inodes i).block ≠ (s.inodes j).block :=
  fun heq => hne (h.block_inj i hi j hj heq)

theorem Made.sameInode (h : Exclusive s) (hm : Made s u type) (hi : i < s.inodeCount) : SameInode s u i := by
  obtain ⟨m, hclear, rfl⟩ := hm
  refine ⟨Function.update_of_ne (Nat.ne_of_lt hi) .., hclear _ _ (Or.inl ?_)⟩
  have := h.block_lt i hi
  simp only [blockSize]
  omega

theorem Appended.sameInode (h : Exclusive s) (hs : HasSlot s dir) (ha : Appended s t dir name n)
    (hi : i < s.inodeCount) (hne : i ≠ dir) : SameInode s t i := by
  have hb := h.blocks_ne hi (h.dir_lt hs.1) hne
  have hcap : (s.inodes dir).size < 60 := hs.2
  refine ⟨by rw [ha.inodes, update_of_ne hne], ha.keeps _ _ ?_⟩
  simp only [entryAddr_eq, blockSize, entrySize, maxName]
  omega

theorem Removed.sameInode (h : Exclusive s) (hd : (s.inodes dir).type = .dir) (hr : Removed s t dir j)
    (hj : j < (s.inodes dir).size) (hi : i < s.inodeCount) (hne : i ≠ dir) : SameInode s t i := by
  have hb := h.blocks_ne hi (h.dir_lt hd) hne
  have hcap : (s.inodes dir).size ≤ 60 := h.dir_size dir hd
  refine ⟨by rw [hr.inodes, update_of_ne hne], hr.keeps _ _ ?_⟩
  simp only [entryAddr_eq, blockSize]
  omega

theorem Written.exclusive (h : Exclusive s) (hf : (s.inodes j).type = .file) (hw : Written s t j) :
    Exclusive t := by
  obtain ⟨size, hin⟩ := hw.inodes
  apply h.resize hin (fun hd => ?_) hw.inodeCount hw.blockCount
  rw [hf] at hd
  cases hd

theorem Written.sameInode (h : Exclusive s) (hf : (s.inodes j).type = .file) (hw : Written s t j)
    (hi : i < s.inodeCount) (hne : i ≠ j) : SameInode s t i := by
  obtain ⟨size, hin⟩ := hw.inodes
  have hj : j < s.inodeCount := h.allocated (by rw [hf]; exact InodeType.noConfusion)
  have hb := h.blocks_ne hi hj hne
  refine ⟨by rw [hin, update_of_ne hne], hw.keeps _ _ ?_⟩
  simp only [blockSize]
  omega

theorem Appended.resized (ha : Appended s t dir name n) (i : Nat) :
    (t.inodes i).type = (s.inodes i).type ∧ (s.inodes i).size ≤ (t.inodes i).size := by
  rw [ha.inodes]
  by_cases hne : i = dir
  · simp [hne]
  · rw [update_of_ne hne]
    exact ⟨rfl, le_refl _⟩

private theorem creates_parent {path : CString} {d : Nat × CString} (h : d ∈ creates s path) :
    d.1 ∈ parentDir s path := by
  obtain ⟨parent, hsp, hres, -⟩ := creates_spec h
  simp [parentDir, hsp, hres]

private theorem moves_parents {d : Nat × Nat × Nat × CString} (h : d ∈ moves s old new) :
    d.1 ∈ parentDir s old ∧ d.2.2.1 ∈ parentDir s new := by
  obtain ⟨oldParent, oldName, newParent, hso, hro, hsn, hrn, -⟩ := moves_spec h
  simp [parentDir, hso, hro, hsn, hrn]

theorem created_sameInode (h : Exclusive s) (hb : s.blockCount < blocks) (hn : s.inodeCount < maxInodes)
    (hm : Made s u type) (hs : HasSlot s dir) (ha : Appended u t dir name n) :
    Exclusive t ∧ ∀ i < s.inodeCount, i ≠ dir → SameInode s t i := by
  have hu := h.made hm hn hb
  have hsu : HasSlot u dir := by
    rw [HasSlot, hm.dir_eq h hs.1]
    exact hs
  have hcount : u.inodeCount = s.inodeCount + 1 := by
    obtain ⟨m, -, rfl⟩ := hm
    rfl
  refine ⟨hu.appended hsu ha, fun i hi hne => ?_⟩
  exact (hm.sameInode h hi).trans (ha.sameInode hu hsu (hcount ▸ lt_succ_of_lt hi) hne)

/-- A step for which there is room keeps the blocks apart, changes only what it touches, and fails
without a change where it would need a block and there is none. -/
structure Isolated (s : PhaseA) (op : Op) (t : PhaseA) (ok : Bool) : Prop where
  blocks : ∀ i < t.inodeCount, ∀ j < t.inodeCount, i ≠ j → (t.inodes i).block ≠ (t.inodes j).block
  others : ∀ i < s.inodeCount, ¬ Touches s op i → SameInode s t i
  noBlock : op.creates → PhaseA.blocks ≤ s.blockCount → t = s ∧ ok = false

theorem exec_exclusive (h : Exclusive s) (hr : Roomy s op) (e : s.exec op = some (t, ok)) :
    Exclusive t ∧ (∀ i < s.inodeCount, ¬ Touches s op i → SameInode s t i) ∧
      (op.creates → blocks ≤ s.blockCount → t = s ∧ ok = false) := by
  cases op with
  | mkdir path =>
    rcases mkdir_cases h hr e with ⟨rfl, rfl⟩ | ⟨-, hb, hn, d, hd, hs, u, hm, ha⟩
    · exact ⟨h, fun _ _ _ => .refl, fun _ _ => ⟨rfl, rfl⟩⟩
    · obtain ⟨ht, hsame⟩ := created_sameInode h hb hn hm hs ha
      refine ⟨ht, fun i hi hno => hsame i hi fun heq => hno ?_, fun _ hfull => absurd hb (not_lt.mpr hfull)⟩
      exact heq ▸ ⟨creates_parent hd, hs.1⟩
  | createFile path =>
    obtain ⟨⟨t, r⟩, hc, hret⟩ := map_eq_some_iff.mp e
    cases hret
    rcases createFile_cases h hr hc with ⟨rfl, rfl⟩ | ⟨-, hb, hn, d, hd, hs, u, hm, ha⟩
    · exact ⟨h, fun _ _ _ => .refl, fun _ _ => ⟨rfl, rfl⟩⟩
    · obtain ⟨ht, hsame⟩ := created_sameInode h hb hn hm hs ha
      refine ⟨ht, fun i hi hno => hsame i hi fun heq => hno ?_, fun _ hfull => absurd hb (not_lt.mpr hfull)⟩
      exact heq ▸ ⟨creates_parent hd, hs.1⟩
  | createInDir pdir name directory =>
    obtain ⟨⟨t, r⟩, hc, hret⟩ := map_eq_some_iff.mp e
    cases hret
    rcases createInDir_cases h hr hc with ⟨rfl, rfl⟩ | ⟨hb, hn, d, hd, htype, -, u, hm, hcase⟩
    · exact ⟨h, fun _ _ _ => .refl, fun _ _ => ⟨rfl, rfl⟩⟩
    · rcases hcase with ⟨-, -, rfl⟩ | ⟨-, hs, ha⟩
      · exact ⟨h.made hm hn hb, fun i hi _ => hm.sameInode h hi,
          fun _ hfull => absurd hb (not_lt.mpr hfull)⟩
      · obtain ⟨ht, hsame⟩ := created_sameInode h hb hn hm hs ha
        refine ⟨ht, fun i hi hno => hsame i hi fun heq => hno ?_,
          fun _ hfull => absurd hb (not_lt.mpr hfull)⟩
        exact heq ▸ ⟨hd, htype⟩
  | write f data =>
    obtain ⟨rfl, -⟩ := Prod.mk.inj (some.inj e)
    rcases write_cases s f data with hs | ⟨i, hi, htype, hw⟩
    · rw [hs]
      exact ⟨h, fun _ _ _ => .refl, fun hc => hc.elim⟩
    · exact ⟨hw.exclusive h htype, fun j hj hno => hw.sameInode h htype hj fun heq => hno (heq ▸ ⟨hi, htype⟩),
        fun hc => hc.elim⟩
  | rename old new =>
    rcases rename_cases h hr e with ⟨rfl, rfl⟩ | ⟨-, d, hd, hdir, hs, hi, u, ha, hrem⟩
    · exact ⟨h, fun _ _ _ => .refl, fun hc => hc.elim⟩
    · obtain ⟨hold, hnew⟩ := moves_parents hd
      have hu := h.appended hs ha
      obtain ⟨htype, hsize⟩ := ha.resized d.1
      refine ⟨hu.removed hrem, fun i hlt hno => ?_, fun hc => hc.elim⟩
      have hnd : i ≠ d.2.2.1 := fun heq => hno (heq ▸ ⟨Or.inr hnew, hs.1⟩)
      have hod : i ≠ d.1 := fun heq => hno (heq ▸ ⟨Or.inl hold, hdir⟩)
      exact (ha.sameInode h hs hlt hnd).trans (hrem.sameInode hu (htype.trans hdir)
        (lt_of_lt_of_le hi hsize) (ha.inodeCount ▸ hlt) hod)

/-- A step of the file system for which there is room. -/
def RoomyStep (s : PhaseA) (op : Op) (t : PhaseA) : Prop := Roomy s op ∧ ∃ ok, s.exec op = some (t, ok)

theorem Exclusive.run (h : Exclusive s₀) (hrun : Trace RoomyStep s₀ ops s) : Exclusive s := by
  induction hrun with
  | nil => exact h
  | snoc _ hstep ih =>
    obtain ⟨hr, ok, e⟩ := hstep
    exact (exec_exclusive ih hr e).1

instance (s : PhaseA) : DecidablePred (Roomy s)
  | .mkdir path => inferInstanceAs (Decidable (∀ d ∈ creates s path, _ → _))
  | .createFile path => inferInstanceAs (Decidable (∀ d ∈ creates s path, _))
  | .createInDir pdir _ _ => inferInstanceAs (Decidable (∀ d ∈ pdir, _ → _ → _ → _))
  | .write _ _ => inferInstanceAs (Decidable True)
  | .rename old new => inferInstanceAs (Decidable (∀ d ∈ moves s old new, _))

/-- There is room for each of the operations, one after the other. -/
def RoomyAll (s : PhaseA) : List Op → Prop
  | [] => True
  | op :: ops => Roomy s op ∧ ∀ r ∈ s.exec op, RoomyAll r.1 ops

instance decidableRoomyAll (s : PhaseA) : (ops : List Op) → Decidable (RoomyAll s ops)
  | [] => inferInstanceAs (Decidable True)
  | op :: ops =>
    have := fun t : PhaseA => decidableRoomyAll t ops
    inferInstanceAs (Decidable (Roomy s op ∧ ∀ r ∈ s.exec op, RoomyAll r.1 ops))

theorem RoomyAll.head (h : RoomyAll s (op :: ops)) (e : s.exec op = some (t, ok)) :
    RoomyStep s op t ∧ RoomyAll t ops :=
  ⟨⟨h.1, ok, e⟩, h.2 _ e⟩

/-- The operations of the bootstrap before its last, the write. -/
def bootOps : List Op :=
  [.mkdir (.ofString "/home"), .mkdir (.ofString "/home/user"), .mkdir (.ofString "/home/user/Desktop"),
    .mkdir (.ofString "/home/user/Documents"), .mkdir (.ofString "/home/user/Downloads"),
    .mkdir (.ofString "/system"), .mkdir (.ofString "/system/.recycle"),
    .createFile (.ofString "/home/user/Desktop/readme.txt")]

private theorem bootOps_roomy : RoomyAll bootRoot bootOps := by decide +kernel

theorem fresh_exclusive : Exclusive fresh where
  inodes_le := zero_le _
  blocks_le := zero_le _
  block_lt _ hi := absurd hi (not_lt_zero _)
  block_inj _ hi := absurd hi (not_lt_zero _)
  dir_size _ hd := nomatch hd
  unused _ _ := rfl

theorem bootRoot_made : Made fresh bootRoot .dir := by
  have hb : fresh.blockCount < blocks := by decide
  obtain ⟨s₁, h₁, h₂, h₃⟩ := allocInode_block (s := fresh) .dir (by decide)
  obtain ⟨hblock, hnew⟩ := allocated_eq .dir hb
  have hroot : bootRoot = (newInode fresh .dir).clearBlock fresh.blockCount := by
    simp only [bootRoot, h₁, h₂]
    rw [h₃, hnew, hblock]
  rw [hroot]
  exact Made.of_clear fresh .dir

theorem bootRoot_exclusive : Exclusive bootRoot := fresh_exclusive.made bootRoot_made (by decide) (by decide)

/-- The operations of the bootstrap: those that make an inode at a path, and writes. -/
def Op.Boots : Op → Prop
  | .mkdir _ | .createFile _ | .write _ _ => True
  | .createInDir _ _ _ | .rename _ _ => False

private theorem bootHierarchy_run {root : PhaseA} (hall : RoomyAll root bootOps) (hb : root.bootHierarchy = some s) :
    ∃ ops, Trace (fun s op t => RoomyStep s op t ∧ op.Boots) root ops s := by
  obtain ⟨⟨s₁, ok₁⟩, e₁, hb⟩ := bind_eq_some_iff.mp hb
  obtain ⟨h₁, hall⟩ := hall.head e₁
  obtain ⟨⟨s₂, ok₂⟩, e₂, hb⟩ := bind_eq_some_iff.mp hb
  obtain ⟨h₂, hall⟩ := hall.head e₂
  obtain ⟨⟨s₃, ok₃⟩, e₃, hb⟩ := bind_eq_some_iff.mp hb
  obtain ⟨h₃, hall⟩ := hall.head e₃
  obtain ⟨⟨s₄, ok₄⟩, e₄, hb⟩ := bind_eq_some_iff.mp hb
  obtain ⟨h₄, hall⟩ := hall.head e₄
  obtain ⟨⟨s₅, ok₅⟩, e₅, hb⟩ := bind_eq_some_iff.mp hb
  obtain ⟨h₅, hall⟩ := hall.head e₅
  obtain ⟨⟨s₆, ok₆⟩, e₆, hb⟩ := bind_eq_some_iff.mp hb
  obtain ⟨h₆, hall⟩ := hall.head e₆
  obtain ⟨⟨s₇, ok₇⟩, e₇, hb⟩ := bind_eq_some_iff.mp hb
  obtain ⟨h₇, hall⟩ := hall.head e₇
  obtain ⟨⟨s₈, id⟩, e₈, hb⟩ := bind_eq_some_iff.mp hb
  have h₈ : s₇.exec (.createFile (.ofString "/home/user/Desktop/readme.txt")) = some (s₈, id.isSome) := by
    rw [exec, e₈]
    rfl
  have hrun : Trace (fun s op t => RoomyStep s op t ∧ op.Boots) root bootOps s₈ :=
    (((((((Trace.nil.snoc ⟨h₁, trivial⟩).snoc ⟨h₂, trivial⟩).snoc ⟨h₃, trivial⟩).snoc ⟨h₄, trivial⟩).snoc
      ⟨h₅, trivial⟩).snoc ⟨h₆, trivial⟩).snoc ⟨h₇, trivial⟩).snoc ⟨(hall.head h₈).1, trivial⟩
  cases id with
  | none =>
    cases hb
    exact ⟨_, hrun⟩
  | some id =>
    cases hb
    have hw : RoomyStep s₈ (.write (some id) welcome) (s₈.write (some id) welcome).1 := ⟨trivial, _, rfl⟩
    exact ⟨_, hrun.snoc ⟨hw, trivial⟩⟩

theorem bootstrap_run (hb : bootstrap = some s) :
    ∃ ops, Trace (fun s op t => RoomyStep s op t ∧ op.Boots) bootRoot ops s :=
  bootHierarchy_run bootOps_roomy hb

theorem bootstrap_exclusive (hb : bootstrap = some s) : Exclusive s := by
  obtain ⟨ops, hrun⟩ := bootstrap_run hb
  exact bootRoot_exclusive.run (hrun.mono fun _ _ _ h => h.1)

/-- In every run from the bootstrap for which there is room, no two inodes have a block in common,
no operation changes an inode it is not on, and one that cannot get a block changes nothing. -/
theorem roomy_runs (hb : bootstrap = some s₀) (hrun : Trace RoomyStep s₀ ops s) (hr : Roomy s op)
    (e : s.exec op = some (t, ok)) : Isolated s op t ok := by
  have h := (bootstrap_exclusive hb).run hrun
  obtain ⟨ht, hsame, hblock⟩ := exec_exclusive h hr e
  exact ⟨fun i hi j hj hne => ht.blocks_ne hi hj hne, hsame, hblock⟩

theorem mkdir_in_booted : ∃ s₀ t, bootstrap = some s₀ ∧ s₀.exec (.mkdir (.ofString "/home/user/Music")) =
    some (t, true) ∧ Isolated s₀ (.mkdir (.ofString "/home/user/Music")) t true := by
  have hev : ∃ s₀ ∈ bootstrap, Roomy s₀ (.mkdir (.ofString "/home/user/Music")) ∧
      ∃ r ∈ s₀.exec (.mkdir (.ofString "/home/user/Music")), r.2 = true := by decide +kernel
  obtain ⟨s₀, hb, hr, ⟨t, ok⟩, e, rfl⟩ := hev
  exact ⟨s₀, t, hb, e, roomy_runs hb .nil hr e⟩

/-- Directories made one in the other until the blocks have run out. -/
def fillOps : List Op :=
  (List.range 56).map fun k => .createInDir (some (if k = 0 then 7 else k + 8)) (.ofString "a") true

/-- One directory in the other, until no block is left for one. -/
theorem blocks_run_out :
    (∃ s₀ s, bootstrap = some s₀ ∧ Trace (fun s op t => (s.exec op).map Prod.fst = some t) s₀ fillOps s ∧
      64 < s.inodeCount ∧ (s.inodes 0).block = (s.inodes 64).block) ∧
    ∃ s₀ t, bootstrap = some s₀ ∧
      s₀.exec (.createFile (.ofString "/home/user/Desktop/readme.txt/x")) = some (t, true) ∧
      (s₀.inodes 8).type = .file ∧ t.inodes 8 ≠ s₀.inodes 8 := by
  constructor
  · have hev : (bootstrap.bind fun s₀ => (fillOps.foldlM (fun (s : PhaseA) op => (s.exec op).map Prod.fst) s₀).map
        fun s => (s.inodeCount, (s.inodes 0).block, (s.inodes 64).block)) = some (65, 0, 0) := by decide +kernel
    obtain ⟨s₀, hb, hev⟩ := bind_eq_some_iff.mp hev
    obtain ⟨s, hs, hev⟩ := map_eq_some_iff.mp hev
    simp only [Prod.mk.injEq] at hev
    exact ⟨s₀, s, hb, trace_of_foldlM hs, by omega, by omega⟩
  · have hev : ∃ s₀ ∈ bootstrap, ∃ r ∈ s₀.exec (.createFile (.ofString "/home/user/Desktop/readme.txt/x")),
        r.2 = true ∧ (s₀.inodes 8).type = .file ∧ r.1.inodes 8 ≠ s₀.inodes 8 := by decide +kernel
    obtain ⟨s₀, hb, ⟨t, ok⟩, e, rfl, hchange⟩ := hev
    exact ⟨s₀, t, hb, e, hchange⟩

end PhaseA
end RetroOs.Kernel
