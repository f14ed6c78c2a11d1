import RetroOs.Kernel.PhaseA

/-! What each operation of the Phase A file system does where it finds a block and room for an entry. -/
namespace RetroOs.Kernel
open Lib Option Nat Function Memory List
namespace PhaseA

variable {s t u : PhaseA} {dir i j n b : Nat} {name parent old new : CString} {m : Memory} {type : InodeType}
  {ok : Bool} {op : Op} {path : CString} {r : Option Nat}

theorem entryAddr_eq : entryAddr b j = 4096 * b + 68 * j := rfl

theorem dirCapacity_eq : dirCapacity = 60 := rfl

theorem inside_of_lt (hb : b < blocks) (hj : j ≤ dirCapacity) (hjb : j < dirCapacity ∨ b + 1 < blocks) :
    Inside b j := by
  simp only [Inside, entryAddr_eq, entrySize, maxName, blockSize, blocks, dirCapacity_eq] at *
  omega

/-- The directory that a creation at `path` adds an entry to, once it is past its checks on the name
and on the inode table. -/
def creates (s : PhaseA) (path : CString) : Option (Nat × CString) :=
  match splitPath path with
  | none => none
  | some (parent, name) =>
    match resolve s parent with
    | some (some dir) =>
      if findEntry s dir name = some none ∧ s.inodeCount < maxInodes then some (dir, name) else none
    | _ => none

theorem creates_spec {d : Nat × CString} (h : d ∈ creates s path) :
    ∃ parent, splitPath path = some (parent, d.2) ∧ resolve s parent = some (some d.1) ∧
      findEntry s d.1 d.2 = some none ∧ s.inodeCount < maxInodes := by
  simp only [creates] at h
  split at h
  · cases h
  · next parent name hsp =>
    split at h
    · next dir hres =>
      split at h
      · next hf =>
        cases h
        exact ⟨parent, hsp, hres, hf⟩
      · cases h
    · cases h

def moves (s : PhaseA) (oldpath newpath : CString) : Option (Nat × Nat × Nat × CString) :=
  match splitPath oldpath, splitPath newpath with
  | some (oldParent, oldName), some (newParent, newName) =>
    match resolve s oldParent, resolve s newParent with
    | some (some oldDir), some (some newDir) =>
      match findEntry s oldDir oldName with
      | some (some i) => if findEntry s newDir newName = some none then some (oldDir, i, newDir, newName) else none
      | _ => none
    | _, _ => none
  | _, _ => none

theorem moves_spec {c : Nat × Nat × Nat × CString} (h : c ∈ moves s old new) :
    ∃ oldParent oldName newParent, splitPath old = some (oldParent, oldName) ∧ resolve s oldParent = some (some c.1) ∧
      splitPath new = some (newParent, c.2.2.2) ∧ resolve s newParent = some (some c.2.2.1) ∧
      findEntry s c.1 oldName = some (some c.2.1) ∧ findEntry s c.2.2.1 c.2.2.2 = some none := by
  simp only [moves] at h
  split at h
  · next oldParent oldName newParent newName hso hsn =>
    split at h
    · next oldDir newDir hro hrn =>
      split at h
      · next i hf =>
        split at h
        · next hnew =>
          cases h
          exact ⟨oldParent, oldName, newParent, hso, hro, hsn, hrn, hf, hnew⟩
        · cases h
      · cases h
    · cases h
  · cases h

/-- A directory with an entry to spare. -/
def HasSlot (s : PhaseA) (dir : Nat) : Prop := (s.inodes dir).type = .dir ∧ (s.inodes dir).size < dirCapacity

instance : Decidable (HasSlot s dir) := inferInstanceAs (Decidable (_ ∧ _))

/-- An operation that adds an entry adds it to a directory with room, and one that makes an inode finds
a block. -/
def Roomy (s : PhaseA) : Op → Prop
  | .mkdir path =>
    ∀ d ∈ creates s path, (s.inodes d.1).type = .dir → HasSlot s d.1 ∧ s.blockCount < blocks
  | .createFile path => ∀ d ∈ creates s path, HasSlot s d.1 ∧ s.blockCount < blocks
  | .createInDir pdir name _ =>
    ∀ d ∈ pdir, (s.inodes d).type = .dir → findEntry s d name = some none → s.inodeCount < maxInodes →
      s.blockCount < blocks
  | .write _ _ => True
  | .rename oldpath newpath =>
    ∀ d ∈ moves s oldpath newpath, (s.inodes d.1).type = .dir ∧ HasSlot s d.2.2.1

def newInode (s : PhaseA) (type : InodeType) : PhaseA :=
  { s with
    inodes := update s.inodes s.inodeCount
      { id := s.inodeCount, type, size := 0, block := s.blockCount, owner := 1000, group := 1000, perms := 0o755 }
    inodeCount := s.inodeCount + 1
    blockCount := s.blockCount + 1 }

/-- The tables once a creation has taken an inode and a block, block 0 where none is left. -/
def allocated (s : PhaseA) (type : InodeType) : PhaseA :=
  { (allocBlock s).1 with
    inodes := update s.inodes s.inodeCount
      { id := s.inodeCount, type, size := 0, block := (allocBlock s).2, owner := 1000, group := 1000, perms := 0o755 }
    inodeCount := s.inodeCount + 1 }

variable (type) in
theorem allocInode_block (hi : s.inodeCount < maxInodes) :
    ∃ s₁, allocInode s type = some (s₁, s.inodeCount) ∧ (allocBlock s₁).2 = (allocBlock s).2 ∧
      (allocBlock s₁).1.setBlock s.inodeCount (allocBlock s).2 = allocated s type := by
  refine ⟨_, if_neg (not_le.mpr hi), ?_, ?_⟩
  · simp only [allocBlock]
    split <;> rfl
  · simp only [allocBlock, allocated]
    split <;> simp [setBlock, setInode]

variable (type) in
theorem allocated_eq (hb : s.blockCount < blocks) :
    (allocBlock s).2 = s.blockCount ∧ allocated s type = newInode s type := by
  have hfree : ¬ s.blockCount ≥ blocks := not_le.mpr hb
  simp [allocated, allocBlock, hfree, newInode]

def Made (s u : PhaseA) (type : InodeType) : Prop :=
  ∃ m, (∀ a k, a + k ≤ blockSize * s.blockCount ∨ blockSize * s.blockCount + blockSize ≤ a →
    s.bytes.AgreeOn m a k) ∧ u = (newInode s type).setBytes m

/-- A new last entry in a directory. -/
structure Appended (s t : PhaseA) (dir : Nat) (name : CString) (n : Nat) : Prop where
  inodes : t.inodes = update s.inodes dir { s.inodes dir with size := (s.inodes dir).size + 1 }
  inodeCount : t.inodeCount = s.inodeCount
  blockCount : t.blockCount = s.blockCount
  name : t.bytes.cstr (entryAddr (s.inodes dir).block (s.inodes dir).size) maxName = name
  inode : t.bytes.load32 (entryAddr (s.inodes dir).block (s.inodes dir).size + maxName) = n
  keeps : ∀ a k, a + k ≤ entryAddr (s.inodes dir).block (s.inodes dir).size ∨
    entryAddr (s.inodes dir).block (s.inodes dir).size + entrySize ≤ a → s.bytes.AgreeOn t.bytes a k

/-- The entry `i` of a directory taken out, and those after it moved up. -/
structure Removed (s t : PhaseA) (dir i : Nat) : Prop where
  inodes : t.inodes = update s.inodes dir { s.inodes dir with size := (s.inodes dir).size - 1 }
  inodeCount : t.inodeCount = s.inodeCount
  blockCount : t.blockCount = s.blockCount
  shifted : ∀ j, i ≤ j → j + 1 < (s.inodes dir).size → ∀ x < entrySize,
    t.bytes (entryAddr (s.inodes dir).block j + x) = s.bytes (entryAddr (s.inodes dir).block (j + 1) + x)
  keeps : ∀ a k, a + k ≤ entryAddr (s.inodes dir).block i ∨
    entryAddr (s.inodes dir).block ((s.inodes dir).size - 1) ≤ a → s.bytes.AgreeOn t.bytes a k

/-- Each inode has its own block, and nothing past the two counters is in use. -/
structure Exclusive (s : PhaseA) : Prop where
  inodes_le : s.inodeCount ≤ maxInodes
  blocks_le : s.blockCount ≤ blocks
  block_lt : ∀ i < s.inodeCount, (s.inodes i).block < s.blockCount
  block_inj : ∀ i < s.inodeCount, ∀ j < s.inodeCount, (s.inodes i).block = (s.inodes j).block → i = j
  dir_size : ∀ i, (s.inodes i).type = .dir → (s.inodes i).size ≤ dirCapacity
  unused : ∀ i, s.inodeCount ≤ i → (s.inodes i).type = .unused

theorem Exclusive.allocated (h : Exclusive s) (hd : (s.inodes i).type ≠ .unused) : i < s.inodeCount := by
  by_contra hi
  exact hd (h.unused i (not_lt.mp hi))

theorem Exclusive.dir_lt (h : Exclusive s) (hd : (s.inodes dir).type = .dir) : dir < s.inodeCount := by
  apply h.allocated
  rw [hd]
  exact InodeType.noConfusion

theorem writeSlot_spec (m : Memory) (slot : Nat) (hname : name.length < maxName) (hn : n < 2 ^ 32) :
    let m' := (m.strcpy slot name).store32 (slot + maxName) n
    m'.cstr slot maxName = name ∧ m'.load32 (slot + maxName) = n ∧
      ∀ a k, a + k ≤ slot ∨ slot + entrySize ≤ a → m.AgreeOn m' a k := by
  have hcstr := cstr_strcpy m hname (a := slot)
  have hkeep := store32_agreeOn (m.strcpy slot name) n (a := slot) (n := maxName) (b := slot + maxName)
    (.inl (le_refl _))
  refine ⟨hkeep.cstr.trans hcstr, load32_store32 _ _ hn, fun a k hak => ?_⟩
  simp only [entrySize] at hak
  apply (strcpy_agreeOn m name (b := slot) (by omega)).trans
  exact store32_agreeOn _ n (by omega)

theorem splitPath_name (h : splitPath path = some (parent, name)) : name.length < maxName := by
  simp only [splitPath] at h
  split at h
  all_goals
    split at h
    · next hfit =>
      obtain ⟨-, rfl⟩ := Prod.mk.inj (some.inj h)
      exact hfit.2
    · cases h

private theorem newInode_dir (h : Exclusive s) (hd : (s.inodes dir).type = .dir) :
    (newInode s type).inodes dir = s.inodes dir :=
  Function.update_of_ne (Nat.ne_of_lt (h.dir_lt hd)) ..

theorem Made.dir_eq (h : Exclusive s) (hm : Made s u type) (hd : (s.inodes dir).type = .dir) :
    u.inodes dir = s.inodes dir := by
  obtain ⟨m, -, rfl⟩ := hm
  exact newInode_dir h hd

theorem Made.of_clear (s : PhaseA) (type : InodeType) :
    Made s ((newInode s type).clearBlock s.blockCount) type :=
  ⟨_, fun _ _ hak => fill_agreeOn s.bytes 0 hak, rfl⟩

theorem Made.of_newInode (s : PhaseA) (type : InodeType) : Made s (newInode s type) type :=
  ⟨s.bytes, fun _ _ _ => Memory.AgreeOn.refl, rfl⟩

theorem HasSlot.inside (h : Exclusive s) (hs : HasSlot s dir) :
    Inside (s.inodes dir).block (s.inodes dir).size := by
  have hb := h.block_lt dir (h.dir_lt hs.1)
  exact inside_of_lt (lt_of_lt_of_le hb h.blocks_le) hs.2.le (.inl hs.2)

theorem addEntry_appended (hin : Inside (s.inodes dir).block (s.inodes dir).size) (hname : name.length < maxName)
    (hn : n < 2 ^ 32) (e : s.addEntry dir b name n = some t) (hb : b = (s.inodes dir).block) :
    Appended s t dir name n := by
  subst hb
  obtain ⟨hcstr, hid, hslot⟩ :=
    writeSlot_spec s.bytes (entryAddr (s.inodes dir).block (s.inodes dir).size) hname hn
  simp only [addEntry, if_pos hin] at e
  cases e
  exact ⟨rfl, rfl, rfl, hcstr, hid, hslot⟩

private theorem addEntry_made (h : Exclusive s) (hm : Made s u type) (hs : HasSlot s dir) (hname : name.length < maxName)
    (hi : s.inodeCount < maxInodes) (e : u.addEntry dir (s.inodes dir).block name s.inodeCount = some t) :
    Appended u t dir name s.inodeCount := by
  have hdir := hm.dir_eq h hs.1
  have hid : s.inodeCount < 2 ^ 32 := lt_trans hi (by decide)
  apply addEntry_appended ?_ hname hid e (by rw [hdir])
  rw [hdir]
  exact hs.inside h

theorem mkdir_steps (e : s.mkdir path = some (t, ok)) :
    t = s ∧ ok = false ∨ ok = true ∧ s.inodeCount < maxInodes ∧ ∃ d ∈ creates s path, (s.inodes d.1).type = .dir ∧
      d.2.length < maxName ∧
      ((allocated s .dir).clearBlock (allocBlock s).2).addEntry d.1 (s.inodes d.1).block d.2 s.inodeCount = some t := by
  have hnone : some (s, false) = some (t, ok) → t = s ∧ ok = false := by
    intro heq
    cases heq
    exact ⟨rfl, rfl⟩
  obtain ⟨⟨parent, name⟩, hsp, e⟩ := bind_eq_some_iff.mp e
  obtain ⟨r, hres, e⟩ := bind_eq_some_iff.mp e
  cases r with
  | none => exact .inl (hnone e)
  | some dir =>
    by_cases htype : (s.inodes dir).type = .dir
    · obtain ⟨f, hf, e⟩ := bind_eq_some_iff.mp ((if_neg (not_not_intro htype)).symm.trans e)
      cases f with
      | some j => exact .inl (hnone e)
      | none =>
        by_cases hi : s.inodeCount < maxInodes
        · have hc : (dir, name) ∈ creates s path := by simp [creates, hsp, hres, hf, hi]
          obtain ⟨s₁, hs₁, hs₂, hs₃⟩ := allocInode_block .dir hi
          simp [hs₁, hs₂, hs₃] at e
          obtain ⟨u, he, hret⟩ := bind_eq_some_iff.mp e
          cases hret
          exact .inr ⟨rfl, hi, _, hc, htype, splitPath_name hsp, he⟩
        · have hfull : allocInode s .dir = none := if_pos (not_lt.mp hi)
          simp [hfull] at e
          exact .inl ⟨e.1.symm, e.2⟩
    · exact .inl (hnone ((if_pos htype).symm.trans e))

theorem mkdir_cases (h : Exclusive s) (hr : Roomy s (.mkdir path))
    (e : s.mkdir path = some (t, ok)) :
    t = s ∧ ok = false ∨ ok = true ∧ s.blockCount < blocks ∧ s.inodeCount < maxInodes ∧
      ∃ d ∈ creates s path, HasSlot s d.1 ∧ ∃ u, Made s u .dir ∧ Appended u t d.1 d.2 s.inodeCount := by
  rcases mkdir_steps e with hnone | ⟨rfl, hi, d, hd, htype, hname, e⟩
  · exact .inl hnone
  · obtain ⟨hs, hb⟩ := hr d hd htype
    obtain ⟨hblock, hnew⟩ := allocated_eq .dir hb
    rw [hblock, hnew] at e
    have hmade := Made.of_clear s .dir
    exact .inr ⟨rfl, hb, hi, d, hd, hs, _, hmade, addEntry_made h hmade hs hname hi e⟩

theorem createFile_steps (e : s.createFile path = some (t, r)) :
    t = s ∧ r = none ∨ r = some s.inodeCount ∧ s.inodeCount < maxInodes ∧ ∃ d ∈ creates s path, d.2.length < maxName ∧
      (allocated s .file).addEntry d.1 ((allocated s .file).inodes d.1).block d.2 s.inodeCount = some t := by
  have hnone : some (s, none) = some (t, r) → t = s ∧ r = none := by
    intro heq
    cases heq
    exact ⟨rfl, rfl⟩
  obtain ⟨⟨parent, name⟩, hsp, e⟩ := bind_eq_some_iff.mp e
  obtain ⟨d, hres, e⟩ := bind_eq_some_iff.mp e
  cases d with
  | none => exact .inl (hnone e)
  | some dir =>
    obtain ⟨f, hf, e⟩ := bind_eq_some_iff.mp e
    cases f with
    | some j => exact .inl (hnone e)
    | none =>
      by_cases hi : s.inodeCount < maxInodes
      · have hc : (dir, name) ∈ creates s path := by simp [creates, hsp, hres, hf, hi]
        obtain ⟨s₁, hs₁, hs₂, hs₃⟩ := allocInode_block .file hi
        simp [hs₁, hs₂, hs₃] at e
        obtain ⟨u, he, hret⟩ := bind_eq_some_iff.mp e
        cases hret
        exact .inr ⟨rfl, hi, _, hc, splitPath_name hsp, he⟩
      · have hfull : allocInode s .file = none := if_pos (not_lt.mp hi)
        simp [hfull] at e
        exact .inl ⟨e.1.symm, e.2.symm⟩

theorem createFile_cases (h : Exclusive s) (hr : Roomy s (.createFile path))
    (e : s.createFile path = some (t, r)) :
    t = s ∧ r = none ∨ r = some s.inodeCount ∧ s.blockCount < blocks ∧ s.inodeCount < maxInodes ∧
      ∃ d ∈ creates s path, HasSlot s d.1 ∧ ∃ u, Made s u .file ∧ Appended u t d.1 d.2 s.inodeCount := by
  rcases createFile_steps e with hnone | ⟨rfl, hi, d, hd, hname, e⟩
  · exact .inl hnone
  · obtain ⟨hs, hb⟩ := hr d hd
    rw [(allocated_eq .file hb).2, newInode_dir h hs.1] at e
    have hmade := Made.of_newInode s .file
    exact .inr ⟨rfl, hb, hi, d, hd, hs, _, hmade, addEntry_made h hmade hs hname hi e⟩

theorem copyName_agreeOn (m : Memory) (s : CString) {a k : Nat} (h : a + k ≤ b ∨ b + s.length < a) :
    m.AgreeOn (copyName m b s) a k := by
  induction s generalizing m b with
  | nil => exact Memory.AgreeOn.refl
  | cons c s ih =>
    rw [length_cons] at h
    have hc : m.AgreeOn (m.store8 b c) a k := store8_agreeOn m _ (by omega)
    have hz : (m.store8 b c).AgreeOn ((m.store8 b c).store8 (b + 1) 0) a k :=
      store8_agreeOn _ _ (by omega)
    exact (hc.trans hz).trans (ih _ (by omega))

private theorem cstr_copyName (m : Memory) (s : CString) {a k : Nat} (hs : s ≠ [] ∨ m a = 0) (hk : s.length < k) :
    (copyName m a s).cstr a k = s := by
  induction s generalizing m a k with
  | nil =>
    have hz : m a = 0 := hs.resolve_left fun hne => hne rfl
    cases k with
    | zero => cases hk
    | succ k => simp [copyName, cstr, hz]
  | cons c s ih =>
    cases k with
    | zero => cases hk
    | succ k =>
      have hz : ((m.store8 a c).store8 (a + 1) 0) (a + 1) = 0 := if_pos rfl
      have hrest := ih _ (.inr hz) (lt_of_succ_lt_succ hk)
      have ha : (copyName m a (c :: s)) a = c.val := by
        have hkeep := copyName_agreeOn ((m.store8 a c).store8 (a + 1) 0) s (a := a) (k := 1) (b := a + 1)
          (.inl (le_refl _))
        apply (hkeep a (le_refl a) (lt_succ_self a)).trans
        simp [store8]
      simp only [copyName] at ha ⊢
      simp [cstr, ha, c.property, hrest]

/-- The name an entry of `createInDir` gets: its first 63 characters, or what the slot held where it has none. -/
def storedName (s : PhaseA) (dir : Nat) (name : CString) : CString :=
  if name = [] then s.bytes.cstr (entryAddr (s.inodes dir).block (s.inodes dir).size) maxName
  else name.take (maxName - 1)

variable (name) in
/-- The last steps of `createInDir` in a directory with room. -/
theorem copyName_appended (h : Exclusive s) (hm : Made s u type) (hs : HasSlot s dir)
    (hi : s.inodeCount < maxInodes) :
    let slot := entryAddr (s.inodes dir).block (s.inodes dir).size
    Appended u
      ((u.setBytes ((copyName u.bytes slot (name.take (maxName - 1))).store32 (slot + maxName)
        s.inodeCount)).setSize dir ((s.inodes dir).size + 1))
      dir (storedName s dir name) s.inodeCount := by
  intro slot
  have hdir := hm.dir_eq h hs.1
  have hblock := h.block_lt dir (h.dir_lt hs.1)
  have hcap : (s.inodes dir).size < 60 := hs.2
  have hlen : (name.take (maxName - 1)).length < maxName := by
    rw [length_take]
    exact lt_of_le_of_lt (min_le_left ..) (by decide)
  have hid : s.inodeCount < 2 ^ 32 := lt_trans hi (by decide)
  have hkeep := store32_agreeOn (copyName u.bytes slot (name.take (maxName - 1))) s.inodeCount
    (a := slot) (n := maxName) (b := slot + maxName) (.inl (le_refl _))
  refine ⟨by simp [setSize, setInode, setBytes, hdir], rfl, rfl, ?_, ?_, ?_⟩
  · rw [hdir]
    apply hkeep.cstr.trans
    by_cases hnil : name = []
    · rw [storedName, if_pos hnil, hnil, take_nil, copyName]
      obtain ⟨m, hclear, rfl⟩ := hm
      apply (hclear slot maxName (.inl ?_)).cstr
      simp only [slot, entryAddr_eq, maxName, blockSize]
      omega
    · rw [storedName, if_neg hnil]
      apply cstr_copyName u.bytes _ (.inl fun htake => ?_) hlen
      exact (take_eq_nil_iff.mp htake).elim (fun hz => absurd hz (by decide)) hnil
  · rw [hdir]
    exact load32_store32 _ _ hid
  · intro a k hak
    rw [hdir] at hak
    simp only [entrySize, maxName] at hak hlen
    rw [show 64 - 1 = 63 from rfl] at hlen
    apply (copyName_agreeOn u.bytes (name.take 63) (b := slot) (by omega)).trans
    exact store32_agreeOn _ _ (by simp only [maxName]; omega)

/-- The tables of `createInDir` before it looks for room in the directory. -/
def allocatedIn (s : PhaseA) (directory : Bool) : PhaseA :=
  if directory then (allocated s .dir).clearBlock (allocBlock s).2 else allocated s .file

/-- The last steps of `createInDir`. -/
def nameIn (u : PhaseA) (dir block : Nat) (name : CString) (n : Nat) : PhaseA :=
  let slot := entryAddr block (u.inodes dir).size
  (u.setBytes ((copyName u.bytes slot (name.take (maxName - 1))).store32 (slot + maxName) n)).setSize dir
    ((u.inodes dir).size + 1)

theorem createInDir_steps {pdir : Option Nat} {directory : Bool}
    (e : s.createInDir pdir name directory = some (t, r)) :
    t = s ∧ r = none ∨ s.inodeCount < maxInodes ∧ ∃ d ∈ pdir, (s.inodes d).type = .dir ∧ findEntry s d name = some none ∧
      (dirCapacity ≤ ((allocatedIn s directory).inodes d).size ∧ r = none ∧ t = allocatedIn s directory ∨
        ((allocatedIn s directory).inodes d).size < dirCapacity ∧ r = some s.inodeCount ∧
          t = nameIn (allocatedIn s directory) d (s.inodes d).block name s.inodeCount) := by
  have hnone : some (s, none) = some (t, r) → t = s ∧ r = none := by
    intro heq
    cases heq
    exact ⟨rfl, rfl⟩
  cases pdir with
  | none => exact .inl (hnone e)
  | some dir =>
    by_cases htype : (s.inodes dir).type = .dir
    · obtain ⟨f, hf, e⟩ := bind_eq_some_iff.mp ((if_neg (not_not_intro htype)).symm.trans e)
      cases f with
      | some j => exact .inl (hnone e)
      | none =>
        by_cases hi : s.inodeCount < maxInodes
        · obtain ⟨s₁, hs₁, hs₂, hs₃⟩ := allocInode_block (if directory = true then .dir else .file) hi
          have hu : (if directory = true then
              (allocated s (if directory = true then .dir else .file)).clearBlock (allocBlock s).2
              else allocated s (if directory = true then .dir else .file)) = allocatedIn s directory := by
            cases directory <;> rfl
          simp only [hs₁, hs₂, hs₃, hu] at e
          refine .inr ⟨hi, dir, rfl, htype, hf, ?_⟩
          by_cases hfull : dirCapacity ≤ ((allocatedIn s directory).inodes dir).size
          · obtain ⟨rfl, rfl⟩ := Prod.mk.inj (some.inj ((if_pos hfull).symm.trans e))
            exact .inl ⟨hfull, rfl, rfl⟩
          · obtain ⟨rfl, rfl⟩ := Prod.mk.inj (some.inj ((if_neg hfull).symm.trans e))
            exact .inr ⟨not_le.mp hfull, rfl, rfl⟩
        · have hfull : allocInode s (if directory = true then .dir else .file) = none := if_pos (not_lt.mp hi)
          simp [hfull] at e
          exact .inl ⟨e.1.symm, e.2.symm⟩
    · exact .inl (hnone ((if_pos htype).symm.trans e))

theorem createInDir_cases {pdir : Option Nat} {directory : Bool} (h : Exclusive s)
    (hr : Roomy s (.createInDir pdir name directory)) (e : s.createInDir pdir name directory = some (t, r)) :
    t = s ∧ r = none ∨ s.blockCount < blocks ∧ s.inodeCount < maxInodes ∧ ∃ d ∈ pdir,
      (s.inodes d).type = .dir ∧ findEntry s d name = some none ∧
        ∃ u, Made s u (if directory then .dir else .file) ∧
          (dirCapacity ≤ (s.inodes d).size ∧ r = none ∧ t = u ∨
            r = some s.inodeCount ∧ HasSlot s d ∧ Appended u t d (storedName s d name) s.inodeCount) := by
  rcases createInDir_steps e with hnone | ⟨hi, d, hd, htype, hf, hcase⟩
  · exact .inl hnone
  · have hb := hr d hd htype hf hi
    have hm : Made s (allocatedIn s directory) (if directory then .dir else .file) := by
      cases directory with
      | false =>
        rw [allocatedIn, if_neg Bool.false_ne_true, (allocated_eq .file hb).2]
        exact Made.of_newInode s .file
      | true =>
        obtain ⟨hblock, hnew⟩ := allocated_eq .dir hb
        rw [allocatedIn, if_pos rfl, hblock, hnew]
        exact Made.of_clear s .dir
    have hdir := hm.dir_eq h htype
    refine .inr ⟨hb, hi, d, hd, htype, hf, _, hm, ?_⟩
    rw [hdir] at hcase
    rcases hcase with ⟨hfull, hr, ht⟩ | ⟨hroom, hr, rfl⟩
    · exact .inl ⟨hfull, hr, ht⟩
    · have hs : HasSlot s d := ⟨htype, hroom⟩
      have happ := copyName_appended name h hm hs hi
      rw [nameIn, hdir]
      exact .inr ⟨hr, hs, happ⟩

theorem Exclusive.made (h : Exclusive s) (hm : Made s u type) (hi : s.inodeCount < maxInodes)
    (hb : s.blockCount < blocks) : Exclusive u := by
  obtain ⟨m, -, rfl⟩ := hm
  have hnew : ∀ i < s.inodeCount + 1, i ≠ s.inodeCount → i < s.inodeCount := by omega
  have hother : ∀ i ≠ s.inodeCount, (newInode s type).inodes i = s.inodes i :=
    fun i hne => update_of_ne hne ..
  have hself : ((newInode s type).inodes s.inodeCount).block = s.blockCount := by simp [newInode]
  refine ⟨hi, hb, ?_, ?_, ?_, ?_⟩
  · intro i hin
    by_cases hne : i = s.inodeCount
    · rw [hne]
      exact hself ▸ lt_succ_self _
    · have := h.block_lt i (hnew i hin hne)
      exact (hother i hne).symm ▸ lt_succ_of_lt this
  · intro i hin j hjn heq
    simp only [setBytes] at heq
    by_cases hne : i = s.inodeCount
    · by_cases hnej : j = s.inodeCount
      · rw [hne, hnej]
      · rw [hne, hself, hother j hnej] at heq
        exact absurd heq (ne_of_gt (h.block_lt j (hnew j hjn hnej)))
    · by_cases hnej : j = s.inodeCount
      · rw [hnej, hself, hother i hne] at heq
        exact absurd heq (Nat.ne_of_lt (h.block_lt i (hnew i hin hne)))
      · rw [hother i hne, hother j hnej] at heq
        exact h.block_inj i (hnew i hin hne) j (hnew j hjn hnej) heq
  · intro i hd
    by_cases hne : i = s.inodeCount
    · simp [setBytes, newInode, hne]
    · simp only [setBytes, hother i hne] at hd ⊢
      exact h.dir_size i hd
  · intro i hle
    have hne : i ≠ s.inodeCount := ne_of_gt hle
    exact (congrArg Inode.type (hother i hne)).trans (h.unused i (le_of_succ_le hle))

theorem Exclusive.resize (h : Exclusive s)
    (hin : t.inodes = update s.inodes dir { s.inodes dir with size := n })
    (hsize : (s.inodes dir).type = .dir → n ≤ dirCapacity) (hi : t.inodeCount = s.inodeCount)
    (hb : t.blockCount = s.blockCount) : Exclusive t := by
  have htype : ∀ i, (t.inodes i).type = (s.inodes i).type := by
    intro i
    rw [hin]
    by_cases hne : i = dir
    · simp [hne]
    · rw [update_of_ne hne]
  have hblock : ∀ i, (t.inodes i).block = (s.inodes i).block := by
    intro i
    rw [hin]
    by_cases hne : i = dir
    · simp [hne]
    · rw [update_of_ne hne]
  refine ⟨hi ▸ h.inodes_le, hb ▸ h.blocks_le, ?_, ?_, ?_, ?_⟩
  · intro i hlt
    rw [hblock, hb]
    exact h.block_lt i (hi ▸ hlt)
  · intro i hil j hjl heq
    rw [hblock, hblock] at heq
    exact h.block_inj i (hi ▸ hil) j (hi ▸ hjl) heq
  · intro i hd
    rw [htype] at hd
    rw [hin]
    by_cases hne : i = dir
    · subst hne
      simpa using hsize hd
    · rw [update_of_ne hne]
      exact h.dir_size i hd
  · intro i hle
    rw [htype]
    exact h.unused i (hi ▸ hle)

theorem Exclusive.appended (h : Exclusive s) (hs : HasSlot s dir) (ha : Appended s t dir name n) : Exclusive t :=
  h.resize ha.inodes (fun _ => hs.2) ha.inodeCount ha.blockCount

theorem Exclusive.removed (h : Exclusive s) (hr : Removed s t dir i) : Exclusive t :=
  h.resize hr.inodes (fun hd => (sub_le ..).trans (h.dir_size dir hd)) hr.inodeCount hr.blockCount

theorem shiftEntries_spec (m : Memory) (b i count : Nat) :
    (∀ a k, a + k ≤ entryAddr b i ∨ entryAddr b (i + count) ≤ a → m.AgreeOn (shiftEntries m b i count) a k) ∧
      ∀ j, i ≤ j → j < i + count → ∀ x < entrySize,
        shiftEntries m b i count (entryAddr b j + x) = m (entryAddr b (j + 1) + x) := by
  induction count generalizing m i with
  | zero =>
    refine ⟨fun _ _ _ => Memory.AgreeOn.refl, fun j hij hj => ?_⟩
    exact absurd hj (not_lt.mpr hij)
  | succ count ih =>
    obtain ⟨hkeep, hshift⟩ := ih (m.move (entryAddr b i) (entryAddr b (i + 1)) entrySize) (i + 1)
    have hmove : ∀ a k, a + k ≤ entryAddr b i ∨ entryAddr b (i + 1) ≤ a →
        m.AgreeOn (m.move (entryAddr b i) (entryAddr b (i + 1)) entrySize) a k := by
      intro a k hak
      apply move_agreeOn
      simp only [entryAddr_eq, entrySize, maxName] at hak ⊢
      omega
    refine ⟨fun a k hak => ?_, fun j hij hj x hx => ?_⟩
    · simp only [entryAddr_eq] at hak hmove hkeep
      exact (hmove a k (by omega)).trans (hkeep a k (by omega))
    · simp only [shiftEntries]
      rcases eq_or_lt_of_le hij with rfl | hlt
      · have hk := hkeep (entryAddr b i) entrySize (.inl (le_of_eq (by simp [entryAddr_eq, entrySize, maxName]; omega)))
        rw [hk _ (Nat.le_add_right ..) (Nat.add_lt_add_left hx _), Memory.move,
          if_pos ⟨Nat.le_add_right .., Nat.add_lt_add_left hx _⟩, Nat.add_sub_cancel_left]
      · rw [hshift j hlt (by omega) x hx]
        apply hmove (entryAddr b (j + 1)) entrySize (Or.inr ?_) _ (Nat.le_add_right ..) (Nat.add_lt_add_left hx _)
        simp only [entryAddr_eq]
        omega

theorem removeEntry_removed (hi : i < (s.inodes dir).size) (e : s.removeEntry dir i = some t) :
    Removed s t dir i := by
  simp only [removeEntry] at e
  split at e
  · cases e
    obtain ⟨hkeep, hshift⟩ :=
      shiftEntries_spec s.bytes (s.inodes dir).block i ((s.inodes dir).size - 1 - i)
    rw [show i + ((s.inodes dir).size - 1 - i) = (s.inodes dir).size - 1 by omega] at hkeep hshift
    exact ⟨rfl, rfl, rfl, fun j hij hj => hshift j hij (by omega), hkeep⟩
  · cases e

theorem findEntry_found (hf : findEntry s dir name = some (some i)) :
    i < (s.inodes dir).size ∧ s.bytes.strEq (entryAddr (s.inodes dir).block i) name = true := by
  simp only [findEntry] at hf
  split at hf
  · next j hj =>
    split at hf
    · have hji : j = i := some.inj (some.inj hf)
      have heq := find?_some hj
      have hmem := mem_of_find?_eq_some hj
      exact hji ▸ ⟨mem_range.mp hmem, heq⟩
    · cases hf
  · split at hf
    · cases hf
    · cases hf

theorem rename_steps (e : s.rename old new = some (t, ok)) :
    t = s ∧ ok = false ∨ ok = true ∧ ∃ d ∈ moves s old new, d.2.1 < (s.inodes d.1).size ∧ d.2.2.2.length < maxName ∧
      ∃ u, s.addEntry d.2.2.1 (s.inodes d.2.2.1).block d.2.2.2 (s.entryInode d.1 d.2.1) = some u ∧
        u.removeEntry d.1 d.2.1 = some t := by
  obtain ⟨⟨oldParent, oldName⟩, hso, e⟩ := bind_eq_some_iff.mp e
  obtain ⟨⟨newParent, newName⟩, hsn, e⟩ := bind_eq_some_iff.mp e
  obtain ⟨od, hro, e⟩ := bind_eq_some_iff.mp e
  obtain ⟨nd, hrn, e⟩ := bind_eq_some_iff.mp e
  have hnone : some (s, false) = some (t, ok) → t = s ∧ ok = false := by
    intro heq
    cases heq
    exact ⟨rfl, rfl⟩
  cases od with
  | none => exact .inl (hnone e)
  | some oldDir =>
    cases nd with
    | none => exact .inl (hnone e)
    | some newDir =>
      obtain ⟨f, hfo, e⟩ := bind_eq_some_iff.mp e
      cases f with
      | none => exact .inl (hnone e)
      | some i =>
        obtain ⟨g, hfn, e⟩ := bind_eq_some_iff.mp e
        cases g with
        | some j => exact .inl (hnone e)
        | none =>
          have hm : (oldDir, i, newDir, newName) ∈ moves s old new := by
            simp [moves, hso, hsn, hro, hrn, hfo, hfn]
          obtain ⟨u, hu, e⟩ := bind_eq_some_iff.mp e
          obtain ⟨v, hv, hret⟩ := bind_eq_some_iff.mp e
          cases hret
          exact .inr ⟨rfl, _, hm, (findEntry_found hfo).1, splitPath_name hsn, u, hu, hv⟩

theorem rename_cases (h : Exclusive s) (hr : Roomy s (.rename old new)) (e : s.rename old new = some (t, ok)) :
    t = s ∧ ok = false ∨ ok = true ∧ ∃ d ∈ moves s old new, (s.inodes d.1).type = .dir ∧ HasSlot s d.2.2.1 ∧
      d.2.1 < (s.inodes d.1).size ∧ ∃ u, Appended s u d.2.2.1 d.2.2.2 (s.entryInode d.1 d.2.1) ∧
        Removed u t d.1 d.2.1 := by
  rcases rename_steps e with hnone | ⟨rfl, d, hd, hi, hname, u, hu, hv⟩
  · exact .inl hnone
  · obtain ⟨htype, hs⟩ := hr d hd
    have ha := addEntry_appended (hs.inside h) hname (load32_lt ..) hu rfl
    refine .inr ⟨rfl, d, hd, htype, hs, hi, u, ha, removeEntry_removed ?_ hv⟩
    rw [ha.inodes]
    by_cases hne : d.1 = d.2.2.1
    · rw [hne] at hi ⊢
      rw [update_self]
      exact lt_succ_of_lt hi
    · rw [update_of_ne hne]
      exact hi

/-- A file with other data in its block. -/
structure Written (s t : PhaseA) (f : Nat) : Prop where
  inodes : ∃ size, t.inodes = update s.inodes f { s.inodes f with size }
  inodeCount : t.inodeCount = s.inodeCount
  blockCount : t.blockCount = s.blockCount
  keeps : ∀ a k, a + k ≤ blockSize * (s.inodes f).block ∨ blockSize * (s.inodes f).block + blockSize ≤ a →
    s.bytes.AgreeOn t.bytes a k

theorem write_cases (s : PhaseA) (f : Option Nat) (data : List UInt8) :
    (s.write f data).1 = s ∨ ∃ i ∈ f, (s.inodes i).type = .file ∧ Written s (s.write f data).1 i := by
  cases f with
  | none => exact .inl rfl
  | some i =>
    by_cases htype : (s.inodes i).type = .file
    · refine .inr ⟨i, rfl, htype, ?_⟩
      have hwrite : s.write (some i) data = _ := if_neg (not_not_intro htype)
      rw [hwrite]
      refine ⟨⟨_, rfl⟩, rfl, rfl, fun a k hak => ?_⟩
      apply memcpy_agreeOn
      rw [length_take]
      omega
    · exact .inl (congrArg Prod.fst (if_pos htype))

end PhaseA
end RetroOs.Kernel
