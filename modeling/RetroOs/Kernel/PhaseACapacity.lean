import RetroOs.Kernel.PhaseABlocks

/-! The number of entries in the directories of the Phase A file system, and what a failed operation
leaves behind. -/
namespace RetroOs.Kernel
open Lib Nat List Option Function Memory
namespace PhaseA

variable {s t u s₀ : PhaseA} {dir i j n b : Nat} {name old new : CString} {type : InodeType}
  {ok : Bool} {op : Op} {ops : List Op}

/-- A directory that gets an entry has a free slot for it. -/
def Fits (s : PhaseA) : Op → Prop
  | .mkdir path => ∀ d ∈ creates s path, (s.inodes d.1).type = .dir → (s.inodes d.1).size < dirCapacity
  | .createFile path => ∀ d ∈ creates s path, (s.inodes d.1).type = .dir → (s.inodes d.1).size < dirCapacity
  | .createInDir pdir name _ =>
    ∀ d ∈ pdir, (s.inodes d).type = .dir → findEntry s d name = some none → s.inodeCount < maxInodes →
      (s.inodes d).size < dirCapacity
  | .write _ _ => True
  | .rename oldpath newpath =>
    ∀ d ∈ moves s oldpath newpath, (s.inodes d.2.2.1).type = .dir → (s.inodes d.2.2.1).size < dirCapacity

instance (s : PhaseA) : DecidablePred (Fits s)
  | .mkdir path => inferInstanceAs (Decidable (∀ d ∈ creates s path, _ → _))
  | .createFile path => inferInstanceAs (Decidable (∀ d ∈ creates s path, _ → _))
  | .createInDir pdir _ _ => inferInstanceAs (Decidable (∀ d ∈ pdir, _ → _ → _ → _))
  | .write _ _ => inferInstanceAs (Decidable True)
  | .rename old new => inferInstanceAs (Decidable (∀ d ∈ moves s old new, _ → _))

/-- The entries that an operation adds or takes out are those of directories. -/
def InDirs (s : PhaseA) : Op → Prop
  | .mkdir _ | .createInDir _ _ _ => True
  | .createFile path => ∀ d ∈ creates s path, (s.inodes d.1).type = .dir
  | .write _ _ => False
  | .rename oldpath newpath =>
    ∀ d ∈ moves s oldpath newpath, (s.inodes d.1).type = .dir ∧ (s.inodes d.2.2.1).type = .dir

/-- The blocks of the directories that an operation is on, and of the inode that it makes. -/
def OwnBlock (s : PhaseA) : Op → Nat → Prop
  | .mkdir path, b | .createFile path, b => b = (allocBlock s).2 ∨ ∃ d ∈ creates s path, b = (s.inodes d.1).block
  | .createInDir pdir _ _, b => b = (allocBlock s).2 ∨ ∃ d ∈ pdir, b = (s.inodes d).block
  | .write f _, b => ∃ i ∈ f, b = (s.inodes i).block
  | .rename oldpath newpath, b =>
    ∃ d ∈ moves s oldpath newpath, b = (s.inodes d.1).block ∨ b = (s.inodes d.2.2.1).block

/-- No directory has more entries than its block holds; inodes are used in order. -/
structure Counted (s : PhaseA) : Prop where
  dir_size : ∀ i, (s.inodes i).type = .dir → (s.inodes i).size ≤ dirCapacity
  unused : ∀ i, s.inodeCount ≤ i → (s.inodes i).type = .unused

/-- A step keeps the directories within their blocks, writes no other block, and changes nothing if it fails. -/
structure Bounded (s : PhaseA) (op : Op) (t : PhaseA) (ok : Bool) : Prop where
  sizes : ∀ i, (t.inodes i).type = .dir → (t.inodes i).size ≤ dirCapacity
  inside : InDirs s op → ∀ b, ¬ OwnBlock s op b → s.bytes.AgreeOn t.bytes (blockSize * b) blockSize
  failed : ok = false → t = s

theorem Exclusive.counted (h : Exclusive s) : Counted s := ⟨h.dir_size, h.unused⟩

theorem Counted.congr (h : Counted s) (hin : t.inodes = s.inodes) (hc : t.inodeCount = s.inodeCount) : Counted t := by
  constructor
  · rw [hin]
    exact h.dir_size
  · rw [hin, hc]
    exact h.unused

variable (type) in
theorem allocated_bytes (s : PhaseA) : (allocated s type).bytes = s.bytes := by
  simp only [allocated, allocBlock]
  split <;> rfl

variable (type) in
theorem Counted.alloc (h : Counted s) : Counted (allocated s type) := by
  constructor
  · intro i
    by_cases hi : i = s.inodeCount
    · simp [allocated, hi]
    · simp only [allocated, update_of_ne hi]
      exact h.dir_size i
  · intro i hi
    have hne : i ≠ s.inodeCount := ne_of_gt hi
    simp only [allocated, update_of_ne hne]
    exact h.unused i (le_of_succ_le hi)

variable (type) in
theorem Counted.alloc_dir (h : Counted s) (hd : (s.inodes dir).type = .dir) :
    (allocated s type).inodes dir = s.inodes dir := by
  apply update_of_ne
  rintro rfl
  have hno := h.unused _ (le_refl _)
  rw [hd] at hno
  cases hno

theorem Counted.resize (h : Counted s) (hn : (s.inodes dir).type = .dir → n ≤ dirCapacity) : Counted (s.setSize dir n) := by
  constructor
  · intro i
    by_cases hi : i = dir
    · subst hi
      simpa [setSize, setInode] using hn
    · simpa [setSize, setInode, hi] using h.dir_size i
  · intro i hle
    by_cases hi : i = dir
    · subst hi
      simpa [setSize, setInode] using h.unused i hle
    · simpa [setSize, setInode, hi] using h.unused i hle

theorem addEntry_eq (e : s.addEntry dir b name n = some t) :
    t = (s.setBytes ((s.bytes.strcpy (entryAddr b (s.inodes dir).size) name).store32
      (entryAddr b (s.inodes dir).size + maxName) n)).setSize dir ((s.inodes dir).size + 1) := by
  simp only [addEntry] at e
  split at e
  · exact (some.inj e).symm
  · cases e

theorem Counted.addEntry (h : Counted s) (hfit : (s.inodes dir).type = .dir → (s.inodes dir).size < dirCapacity)
    (e : s.addEntry dir b name n = some t) : Counted t := by
  rw [addEntry_eq e]
  exact Counted.resize (h.congr rfl rfl) hfit

private theorem slot_block {c : Nat} (hj : j < dirCapacity) (hc : c ≠ b) :
    blockSize * c + blockSize ≤ entryAddr b j ∨ entryAddr b j + entrySize ≤ blockSize * c := by
  rw [dirCapacity_eq] at hj
  simp only [entryAddr_eq, blockSize, entrySize, maxName]
  omega

theorem addEntry_keeps (hname : name.length < maxName) (hfit : (s.inodes dir).size < dirCapacity)
    (e : s.addEntry dir b name n = some t) {c : Nat} (hc : c ≠ b) : s.bytes.AgreeOn t.bytes (blockSize * c) blockSize := by
  rw [addEntry_eq e]
  have hslot := slot_block hfit hc
  simp only [entrySize] at hslot
  apply (strcpy_agreeOn s.bytes name (b := entryAddr b (s.inodes dir).size) (by omega)).trans
  exact store32_agreeOn _ n (by omega)

private theorem clearBlock_keeps (s : PhaseA) {c : Nat} (hc : c ≠ b) :
    s.bytes.AgreeOn (s.clearBlock b).bytes (blockSize * c) blockSize := by
  apply fill_agreeOn
  simp only [blockSize]
  omega

theorem removeEntry_eq (e : s.removeEntry dir i = some t) :
    t = (s.setBytes (shiftEntries s.bytes (s.inodes dir).block i ((s.inodes dir).size - 1 - i))).setSize dir
      ((s.inodes dir).size - 1) := by
  simp only [removeEntry] at e
  split at e
  · exact (some.inj e).symm
  · cases e

private theorem removeEntry_keeps (hi : i < (s.inodes dir).size) (hsize : (s.inodes dir).size ≤ dirCapacity + 1)
    (e : s.removeEntry dir i = some t) {c : Nat} (hc : c ≠ (s.inodes dir).block) :
    s.bytes.AgreeOn t.bytes (blockSize * c) blockSize := by
  rw [removeEntry_eq e]
  apply (shiftEntries_spec ..).1
  rw [dirCapacity_eq] at hsize
  simp only [entryAddr_eq, blockSize]
  omega

theorem Counted.nameIn (h : Counted u) (hfit : (u.inodes dir).size < dirCapacity) : Counted (nameIn u dir b name n) :=
  Counted.resize (h.congr rfl rfl) fun _ => hfit

private theorem nameIn_keeps (u : PhaseA) (name : CString) (n : Nat) (hfit : (u.inodes dir).size < dirCapacity) {c : Nat} (hc : c ≠ b) :
    u.bytes.AgreeOn (nameIn u dir b name n).bytes (blockSize * c) blockSize := by
  have hslot := slot_block hfit hc
  have hlen : (name.take (maxName - 1)).length < maxName := by
    rw [length_take]
    exact lt_of_le_of_lt (min_le_left ..) (by decide)
  simp only [entrySize] at hslot
  apply (copyName_agreeOn u.bytes (name.take (maxName - 1)) (b := entryAddr b (u.inodes dir).size) (by omega)).trans
  exact store32_agreeOn _ n (by omega)

private theorem exec_mkdir {path : CString} (h : Counted s) (hf : Fits s (.mkdir path)) (e : s.mkdir path = some (t, ok)) :
    Counted t ∧ (∀ b, ¬ OwnBlock s (.mkdir path) b → s.bytes.AgreeOn t.bytes (blockSize * b) blockSize) ∧
      (ok = false → t = s) := by
  rcases mkdir_steps e with ⟨rfl, rfl⟩ | ⟨rfl, -, d, hd, htype, hname, e⟩
  · exact ⟨h, fun _ _ => .refl, fun _ => rfl⟩
  · have hfit := hf d hd htype
    have hdir : ((allocated s .dir).clearBlock (allocBlock s).2).inodes d.1 = s.inodes d.1 := h.alloc_dir .dir htype
    have hclear : Counted ((allocated s .dir).clearBlock (allocBlock s).2) := (h.alloc .dir).congr rfl rfl
    refine ⟨hclear.addEntry (by rw [hdir]; exact fun _ => hfit) e, fun b hb => ?_, Bool.noConfusion⟩
    have hb₁ : b ≠ (allocBlock s).2 := fun heq => hb (.inl heq)
    have hb₂ : b ≠ (s.inodes d.1).block := fun heq => hb (.inr ⟨d, hd, heq⟩)
    rw [← allocated_bytes .dir s]
    exact (clearBlock_keeps (allocated s .dir) hb₁).trans (addEntry_keeps hname (by rw [hdir]; exact hfit) e hb₂)

private theorem exec_createFile {path : CString} {r : Option Nat} (h : Counted s) (hf : Fits s (.createFile path))
    (e : s.createFile path = some (t, r)) :
    Counted t ∧ (InDirs s (.createFile path) → ∀ b, ¬ OwnBlock s (.createFile path) b →
      s.bytes.AgreeOn t.bytes (blockSize * b) blockSize) ∧ (r = none → t = s) := by
  rcases createFile_steps e with ⟨rfl, rfl⟩ | ⟨rfl, -, d, hd, hname, e⟩
  · exact ⟨h, fun _ _ _ => .refl, fun _ => rfl⟩
  · have hu := h.alloc .file
    have hfit : ((allocated s .file).inodes d.1).type = .dir → ((allocated s .file).inodes d.1).size < dirCapacity := by
      intro htype
      by_cases hd' : d.1 = s.inodeCount
      · -- The parent would be the new file itself.
        simp [allocated, hd'] at htype
      · simp only [allocated, update_of_ne hd'] at htype ⊢
        exact hf d hd htype
    refine ⟨hu.addEntry hfit e, fun hdirs b hb => ?_, fun hr => by cases hr⟩
    have htype := hdirs d hd
    rw [h.alloc_dir .file htype] at e
    have hb' : b ≠ (s.inodes d.1).block := fun heq => hb (.inr ⟨d, hd, heq⟩)
    rw [← allocated_bytes .file s]
    exact addEntry_keeps hname (hfit (by rw [h.alloc_dir .file htype]; exact htype)) e hb'

private theorem exec_createInDir {pdir : Option Nat} {directory : Bool} {r : Option Nat} (h : Counted s)
    (hf : Fits s (.createInDir pdir name directory)) (e : s.createInDir pdir name directory = some (t, r)) :
    Counted t ∧ (∀ b, ¬ OwnBlock s (.createInDir pdir name directory) b →
      s.bytes.AgreeOn t.bytes (blockSize * b) blockSize) ∧ (r = none → t = s) := by
  rcases createInDir_steps e with ⟨rfl, rfl⟩ | ⟨hi, d, hd, htype, hfind, hcase⟩
  · exact ⟨h, fun _ _ => .refl, fun _ => rfl⟩
  · have hfit := hf d hd htype hfind hi
    have hu : Counted (allocatedIn s directory) := by
      cases directory with
      | false => exact h.alloc .file
      | true => exact (h.alloc .dir).congr rfl rfl
    have hdir : (allocatedIn s directory).inodes d = s.inodes d := by
      cases directory with
      | false => exact h.alloc_dir .file htype
      | true => exact h.alloc_dir .dir htype
    rw [hdir] at hcase
    rcases hcase with ⟨hfull, -⟩ | ⟨-, rfl, rfl⟩
    · exact absurd hfit (not_lt.mpr hfull)
    · rw [← hdir] at hfit
      refine ⟨hu.nameIn hfit, fun b hb => ?_, fun hr => nomatch hr⟩
      have hb₁ : b ≠ (allocBlock s).2 := fun heq => hb (.inl heq)
      have hb₂ : b ≠ (s.inodes d).block := fun heq => hb (.inr ⟨d, hd, heq⟩)
      have halloc : s.bytes.AgreeOn (allocatedIn s directory).bytes (blockSize * b) blockSize := by
        cases directory with
        | false =>
          rw [← allocated_bytes .file s]
          exact .refl
        | true =>
          rw [← allocated_bytes .dir s]
          exact clearBlock_keeps (allocated s .dir) hb₁
      exact halloc.trans (nameIn_keeps _ name _ hfit hb₂)

private theorem exec_rename (h : Counted s) (hf : Fits s (.rename old new)) (e : s.rename old new = some (t, ok)) :
    Counted t ∧ (InDirs s (.rename old new) → ∀ b, ¬ OwnBlock s (.rename old new) b →
      s.bytes.AgreeOn t.bytes (blockSize * b) blockSize) ∧ (ok = false → t = s) := by
  rcases rename_steps e with ⟨rfl, rfl⟩ | ⟨rfl, d, hd, hi, hname, u, hadd, hrem⟩
  · exact ⟨h, fun _ _ _ => .refl, fun _ => rfl⟩
  · have hu := h.addEntry (hf d hd) hadd
    -- The record of the old directory, which may be the new one.
    have hold : (u.inodes d.1).block = (s.inodes d.1).block ∧ (u.inodes d.1).type = (s.inodes d.1).type ∧
        (s.inodes d.1).size ≤ (u.inodes d.1).size := by
      rw [addEntry_eq hadd]
      by_cases hne : d.1 = d.2.2.1
      · simp [setSize, setInode, setBytes, hne]
      · simp [setSize, setInode, setBytes, hne]
    obtain ⟨hblock, htype, hsize⟩ := hold
    have ht : Counted t := by
      rw [removeEntry_eq hrem]
      exact Counted.resize (hu.congr rfl rfl) fun hdir => (sub_le ..).trans (hu.dir_size d.1 hdir)
    refine ⟨ht, fun hdirs b hb => ?_, Bool.noConfusion⟩
    obtain ⟨holdDir, hnewDir⟩ := hdirs d hd
    have hb₁ : b ≠ (u.inodes d.1).block := fun heq => hb ⟨d, hd, .inl (heq.trans hblock)⟩
    have hb₂ : b ≠ (s.inodes d.2.2.1).block := fun heq => hb ⟨d, hd, .inr heq⟩
    have hcap := (hu.dir_size d.1 (htype.trans holdDir)).trans (le_succ _)
    exact (addEntry_keeps hname (hf d hd hnewDir) hadd hb₂).trans
      (removeEntry_keeps (lt_of_lt_of_le hi hsize) hcap hrem hb₁)

private theorem exec_bounded (h : Counted s) (hf : Fits s op) (e : s.exec op = some (t, ok)) : Counted t ∧ Bounded s op t ok := by
  cases op with
  | mkdir path =>
    obtain ⟨ht, hin, hfail⟩ := exec_mkdir h hf e
    exact ⟨ht, ht.dir_size, fun _ => hin, hfail⟩
  | createFile path =>
    obtain ⟨⟨t, r⟩, hc, hret⟩ := map_eq_some_iff.mp e
    cases hret
    obtain ⟨ht, hin, hfail⟩ := exec_createFile h hf hc
    exact ⟨ht, ht.dir_size, hin, fun hr => hfail (isSome_eq_false_iff.mp hr |> isNone_iff_eq_none.mp)⟩
  | createInDir pdir name directory =>
    obtain ⟨⟨t, r⟩, hc, hret⟩ := map_eq_some_iff.mp e
    cases hret
    obtain ⟨ht, hin, hfail⟩ := exec_createInDir h hf hc
    exact ⟨ht, ht.dir_size, fun _ => hin, fun hr => hfail (isSome_eq_false_iff.mp hr |> isNone_iff_eq_none.mp)⟩
  | write f data =>
    cases e
    have ht : Counted (s.write f data).1 := by
      rcases write_cases s f data with hs | ⟨i, -, htype, hw⟩
      · rw [hs]
        exact h
      · obtain ⟨size, hin⟩ := hw.inodes
        have hresize : Counted (s.setSize i size) := h.resize fun hd => by rw [htype] at hd; cases hd
        exact hresize.congr hin hw.inodeCount
    refine ⟨ht, ht.dir_size, fun hno => hno.elim, fun hfail => ?_⟩
    cases f with
    | none => rfl
    | some i =>
      by_cases htype : (s.inodes i).type = .file
      · simp [PhaseA.write, htype] at hfail
      · exact congrArg Prod.fst (if_pos htype)
  | rename old new =>
    obtain ⟨ht, hin, hfail⟩ := exec_rename h hf e
    exact ⟨ht, ht.dir_size, hin, hfail⟩

/-- A step into directories that are not full. -/
def FittingStep (s : PhaseA) (op : Op) (t : PhaseA) : Prop := Fits s op ∧ ∃ ok, s.exec op = some (t, ok)

theorem Counted.run (h : Counted s₀) (hrun : Trace FittingStep s₀ ops s) : Counted s := by
  induction hrun with
  | nil => exact h
  | snoc _ hstep ih =>
    obtain ⟨hf, ok, e⟩ := hstep
    exact (exec_bounded ih hf e).1

/-- In every run from the bootstrap whose creations and renames find a free slot, the directories stay
within their blocks, and an operation that fails changes nothing. -/
theorem bounded_runs (hb : bootstrap = some s₀) (hrun : Trace FittingStep s₀ ops s) (hf : Fits s op)
    (e : s.exec op = some (t, ok)) : Bounded s op t ok :=
  (exec_bounded ((bootstrap_exclusive hb).counted.run hrun) hf e).2

theorem create_in_booted : ∃ s₀ t, bootstrap = some s₀ ∧ s₀.exec (.createFile (.ofString "/home/notes")) = some (t, true) ∧
    Bounded s₀ (.createFile (.ofString "/home/notes")) t true := by
  have hev : ∃ s₀ ∈ bootstrap, Fits s₀ (.createFile (.ofString "/home/notes")) ∧
      ∃ r ∈ s₀.exec (.createFile (.ofString "/home/notes")), r.2 = true := by decide +kernel
  obtain ⟨s₀, hb, hf, ⟨t, ok⟩, e, rfl⟩ := hev
  exact ⟨s₀, t, hb, e, bounded_runs hb .nil hf e⟩

/-- Different names of one character. -/
def fillName (k : Nat) : CChar :=
  ⟨UInt8.ofNat (k % 255 + 1), fun h => by
    have hn := congrArg UInt8.toNat h
    simp at hn
    omega⟩

def fillOp (k : Nat) : Op := .createInDir (some 0) [fillName k] false

private theorem fillName_inj {k : Nat} (hj : j ≤ 60) (hk : k ≤ 60) (h : (fillName j).val = (fillName k).val) : j = k := by
  have hn := congrArg UInt8.toNat h
  simp [fillName] at hn
  omega

/-- The root directory has `k` entries, and none of the names from `k` on. -/
structure Filled (k : Nat) (s : PhaseA) : Prop where
  type : (s.inodes 0).type = .dir
  block : (s.inodes 0).block = 0
  size : (s.inodes 0).size = k
  count : s.inodeCount = k + 7
  names : ∀ j < k, ∀ n, k ≤ n → n ≤ 60 → s.bytes (entryAddr 0 j) ≠ (fillName n).val

variable {k : Nat}

theorem Filled.findEntry (h : Filled k s) (hn : k ≤ n) (hk : n ≤ 60) : findEntry s 0 [fillName n] = some none := by
  have hnone : (range (s.inodes 0).size).find? (fun j => s.bytes.strEq (entryAddr (s.inodes 0).block j) [fillName n]) = none := by
    apply find?_eq_none.mpr
    intro j hj heq
    rw [h.size] at hj
    rw [h.block] at heq
    have hname := h.names j (mem_range.mp hj) n hn hk
    simp [strEq, hname] at heq
  simp only [PhaseA.findEntry, hnone]
  apply if_pos
  right
  rw [h.block, h.size, Inside, entryAddr_eq]
  simp only [entrySize, maxName, blockSize, blocks]
  omega

theorem Filled.step (h : Filled k s) (hk : k < 60) : ∃ t, s.exec (fillOp k) = some (t, true) ∧ Filled (k + 1) t := by
  have hfind := h.findEntry (le_refl k) hk.le
  obtain ⟨s₁, hs₁, hs₂, hs₃⟩ := allocInode_block (s := s) .file (by rw [h.count, maxInodes]; omega)
  have hdir : (allocated s .file).inodes 0 = s.inodes 0 := update_of_ne (by rw [h.count]; omega) ..
  have hcap : ¬ (s.inodes 0).size ≥ dirCapacity := by
    rw [h.size]
    exact not_le.mpr hk
  refine ⟨nameIn (allocated s .file) 0 0 [fillName k] s.inodeCount, ?_, ?_⟩
  · simp [exec, fillOp, createInDir, h.type, hfind, hs₁, hs₂, hs₃, hdir, hcap, h.block, nameIn]
  · have hinode : (nameIn (allocated s .file) 0 0 [fillName k] s.inodeCount).inodes 0 = { s.inodes 0 with size := k + 1 } := by
      simp [nameIn, setSize, setInode, setBytes, hdir, h.size]
    have hbytes : (nameIn (allocated s .file) 0 0 [fillName k] s.inodeCount).bytes =
        (copyName s.bytes (entryAddr 0 k) [fillName k]).store32 (entryAddr 0 k + maxName) s.inodeCount := by
      simp [nameIn, setSize, setInode, setBytes, hdir, h.size, allocated_bytes, maxName]
    refine ⟨by rw [hinode]; exact h.type, by rw [hinode]; exact h.block, by rw [hinode], ?_, fun j hj n hn hle => ?_⟩
    · simp [nameIn, setSize, setInode, setBytes, allocated, h.count]
    · have hstore := store32_agreeOn (copyName s.bytes (entryAddr 0 k) [fillName k]) s.inodeCount (a := entryAddr 0 j)
        (n := 1) (b := entryAddr 0 k + maxName) (by simp only [entryAddr_eq, maxName]; omega)
      rw [hbytes, hstore _ (Nat.le_refl _) (Nat.lt_succ_self _)]
      rcases Nat.lt_succ_iff_lt_or_eq.mp hj with hlt | rfl
      · rw [copyName_agreeOn s.bytes [fillName k] (a := entryAddr 0 j) (k := 1) (by simp only [entryAddr_eq]; omega) _
          (le_refl _) (lt_succ_self _)]
        exact h.names j hlt n (le_of_succ_le hn) hle
      · have hfirst : copyName s.bytes (entryAddr 0 j) [fillName j] (entryAddr 0 j) = (fillName j).val := by
          simp [copyName, store8]
        rw [hfirst]
        exact fun heq => absurd (fillName_inj hk.le hle heq) (Nat.ne_of_lt hn)

theorem Filled.run (h : Filled k s₀) (m : Nat) (hm : k + m ≤ 60) :
    ∃ s, Trace (fun s op t => s.exec op = some (t, true)) s₀ ((range' k m).map fillOp) s ∧ Filled (k + m) s := by
  induction m with
  | zero => exact ⟨s₀, .nil, h⟩
  | succ m ih =>
    obtain ⟨s, hrun, hs⟩ := ih (le_of_succ_le hm)
    obtain ⟨t, e, ht⟩ := hs.step hm
    refine ⟨t, ?_, ht⟩
    rw [range'_concat, one_mul, map_append]
    exact hrun.snoc e

private theorem bootstrap_filled : ∃ s₀, bootstrap = some s₀ ∧ Filled 2 s₀ := by
  have hev : ∃ s₀ ∈ bootstrap, (s₀.inodes 0).type = .dir ∧ (s₀.inodes 0).block = 0 ∧ (s₀.inodes 0).size = 2 ∧
      s₀.inodeCount = 9 ∧ s₀.bytes 0 = 104 ∧ s₀.bytes 68 = 115 := by decide +kernel
  obtain ⟨s₀, hb, htype, hblock, hsize, hcount, hhome, hsystem⟩ := hev
  refine ⟨s₀, hb, htype, hblock, hsize, hcount, fun j hj n hn hle => ?_⟩
  have hname : (fillName n).val ≠ 104 ∧ (fillName n).val ≠ 115 := by
    constructor
    all_goals
      intro heq
      have hnat := congrArg UInt8.toNat heq
      simp [fillName] at hnat
      omega
  rcases (by omega : j = 0 ∨ j = 1) with rfl | rfl
  · exact fun heq => hname.1 (heq.symm.trans hhome)
  · exact fun heq => hname.2 (heq.symm.trans hsystem)

theorem full_directory :
    ∃ s₀ s, bootstrap = some s₀ ∧ Trace (fun s op t => s.exec op = some (t, true)) s₀ ((range' 2 58).map fillOp) s ∧
      (∃ t, s.exec (fillOp 60) = some (t, false) ∧ t.inodeCount ≠ s.inodeCount) ∧
      ∃ t, s.exec (.mkdir [slash, fillName 60]) = some (t, true) ∧ (t.inodes 0).type = .dir ∧
        dirCapacity < (t.inodes 0).size := by
  obtain ⟨s₀, hb, hfilled⟩ := bootstrap_filled
  obtain ⟨s, hrun, hs⟩ := hfilled.run 58 (by decide)
  have hfind := hs.findEntry (le_refl 60) (le_refl 60)
  have hi : s.inodeCount < maxInodes := by
    rw [hs.count]
    decide
  have hdir : ∀ type, (allocated s type).inodes 0 = s.inodes 0 :=
    fun _ => update_of_ne (by rw [hs.count]; decide) ..
  refine ⟨s₀, s, hb, hrun, ⟨allocated s .file, ?_, ?_⟩, ?_⟩
  · obtain ⟨s₁, hs₁, hs₂, hs₃⟩ := allocInode_block .file hi
    have hcap : (s.inodes 0).size ≥ dirCapacity := by rw [hs.size]; decide
    simp [exec, fillOp, createInDir, hs.type, hfind, hs₁, hs₂, hs₃, hdir, hcap]
  · simp [allocated]
  · obtain ⟨s₁, hs₁, hs₂, hs₃⟩ := allocInode_block .dir hi
    have hsplit : splitPath [slash, fillName 60] = some ([slash], [fillName 60]) := by decide +kernel
    have hres : resolve s [slash] = some (some 0) := rfl
    have hin : Inside (s.inodes 0).block (s.inodes 0).size := by
      rw [hs.block, hs.size]
      decide
    have hadd : ∃ t, ((allocated s .dir).clearBlock (allocBlock s).2).addEntry 0 (s.inodes 0).block [fillName 60] s.inodeCount =
        some t ∧ t.inodes 0 = { s.inodes 0 with size := (s.inodes 0).size + 1 } := by
      refine ⟨_, if_pos ?_, ?_⟩
      · simpa [clearBlock, setBytes, hdir] using hin
      · simp [setSize, setInode, clearBlock, setBytes, hdir]
    obtain ⟨t, hadd, hinode⟩ := hadd
    refine ⟨t, ?_, by rw [hinode]; exact hs.type, by simp [hinode, hs.size, dirCapacity_eq]⟩
    simp [exec, mkdir, hsplit, hres, hs.type, hfind, hs₁, hs₂, hs₃, hadd]

end PhaseA
end RetroOs.Kernel
