import RetroOs.Kernel.PhaseABlocks

/-! Files of the Phase A file system as the VFS reads and writes them: the node's functions are given an offset and a
size, of which the read checks neither and the write uses the size alone. -/
namespace RetroOs.Kernel
open Lib List Nat Memory
namespace PhaseA

variable {s t u s₀ : PhaseA} {dir i j n b : Nat} {name : CString} {type : InodeType} {ok : Bool} {op : Op} {ops : List Op}

/-- The read function of a node that `wrap_phase_inode` makes: the bytes that it copies, and what it returns. A copy from
behind `phase_data_blocks` has no value. -/
def nodeRead (s : PhaseA) (i : Nat) (off sz : UInt32) : Option (List UInt8 × UInt32) :=
  if (s.inodes i).type ≠ .file then some ([], 0)
  else
    let addr := blockSize * (s.inodes i).block + off.toNat
    if sz = 0 ∨ addr + sz.toNat ≤ blockSize * blocks then some (s.bytes.bytes addr sz.toNat, sz) else none

def nodeWrite (s : PhaseA) (i : Nat) (_off sz : UInt32) (buf : Memory) : PhaseA × UInt32 :=
  if (s.inodes i).type ≠ .file then (s, 0)
  else
    match s.write (some i) (buf.bytes 0 sz.toNat) with
    | (s, none) => (s, 0xFFFFFFFF)
    | (s, some n) => (s, UInt32.ofNat n)

def vfsRead (s : PhaseA) (i : Nat) (offset size : UInt64) : Option (List UInt8 × UInt32) :=
  s.nodeRead i offset.toUInt32 size.toUInt32

def vfsWrite (s : PhaseA) (i : Nat) (offset size : UInt64) (buf : Memory) : PhaseA × UInt32 :=
  s.nodeWrite i offset.toUInt32 size.toUInt32 buf

def fileBytes (s : PhaseA) (i : Nat) : List UInt8 := s.bytes.bytes (blockSize * (s.inodes i).block) (s.inodes i).size

/-- The read gives bytes of the file from the offset on, none behind its end and no more than asked for. -/
def ReadsFile (s : PhaseA) (i : Nat) (off : UInt32) (size : UInt64) : Prop :=
  ∃ bytes n, s.vfsRead i off.toUInt64 size = some (bytes, n) ∧ bytes.length = n.toNat ∧ bytes.length ≤ size.toNat ∧
    bytes <+: (s.fileBytes i).drop off.toNat

/-- A write at the offset that reports `n` bytes: they are there, those before them are as they were, and a read of as many
finds them. -/
structure Stored (s t : PhaseA) (i : Nat) (off : UInt32) (n : UInt32) (buf : Memory) : Prop where
  there : ((t.fileBytes i).drop off.toNat).take n.toNat = buf.bytes 0 n.toNat
  before : (s.fileBytes i).take off.toNat <+: t.fileBytes i
  readBack : t.vfsRead i off.toUInt64 n.toUInt64 = some (buf.bytes 0 n.toNat, n)

def WritesFile (s : PhaseA) (i : Nat) (off : UInt32) (size : UInt64) (buf : Memory) : Prop :=
  (s.vfsWrite i off.toUInt64 size buf).2.toNat ≤ size.toNat ∧
    Stored s (s.vfsWrite i off.toUInt64 size buf).1 i off (s.vfsWrite i off.toUInt64 size buf).2 buf

/-! ### Blocks and sizes -/

/-- Every inode has its block in the blocks, and no more bytes than one holds. -/
structure Small (s : PhaseA) : Prop where
  block : ∀ i, (s.inodes i).block < blocks
  size : ∀ i, (s.inodes i).size ≤ blockSize

theorem Small.congr (h : Small s) (hin : t.inodes = s.inodes) : Small t := by
  constructor <;> rw [hin]
  · exact h.block
  · exact h.size

theorem Small.resize (h : Small s) (hn : n ≤ blockSize) : Small (s.setSize i n) := by
  have hself : (s.setSize i n).inodes i = { s.inodes i with size := n } := Function.update_self ..
  have hother : ∀ j, j ≠ i → (s.setSize i n).inodes j = s.inodes j := fun j hj => Function.update_of_ne hj ..
  constructor <;> intro j <;> by_cases hj : j = i
  · rw [hj, hself]
    exact h.block i
  · rw [hother j hj]
    exact h.block j
  · rw [hj, hself]
    exact hn
  · rw [hother j hj]
    exact h.size j

theorem Small.allocated (h : Small s) (type : InodeType) : Small (PhaseA.allocated s type) := by
  have hb : (allocBlock s).2 < blocks := by
    by_cases hfull : s.blockCount ≥ blocks
    · rw [allocBlock, if_pos hfull]
      exact (by decide : 0 < blocks)
    · rw [allocBlock, if_neg hfull]
      exact not_le.mp hfull
  have hself : (PhaseA.allocated s type).inodes s.inodeCount =
      { id := s.inodeCount, type, size := 0, block := (allocBlock s).2, owner := 1000, group := 1000, perms := 0o755 } :=
    Function.update_self ..
  have hother : ∀ j, j ≠ s.inodeCount → (PhaseA.allocated s type).inodes j = s.inodes j := fun j hj => Function.update_of_ne hj ..
  constructor <;> intro j <;> by_cases hj : j = s.inodeCount
  · rw [hj, hself]
    exact hb
  · rw [hother j hj]
    exact h.block j
  · rw [hj, hself]
    exact zero_le _
  · rw [hother j hj]
    exact h.size j

theorem Small.addEntry (h : Small s) (e : s.addEntry dir b name n = some t) : Small t := by
  rw [PhaseA.addEntry] at e
  split at e
  · next hin =>
    cases e
    refine Small.resize (h.congr rfl) ?_
    rw [Inside, entryAddr_eq] at hin
    simp only [entrySize, maxName, blockSize, blocks] at hin ⊢
    omega
  · cases e

theorem Small.removeEntry (h : Small s) (e : s.removeEntry dir i = some t) : Small t := by
  rw [PhaseA.removeEntry] at e
  split at e
  · cases e
    exact Small.resize (h.congr rfl) ((sub_le ..).trans (h.size dir))
  · cases e

theorem Small.exec (h : Small s) (e : s.exec op = some (t, ok)) : Small t := by
  cases op with
  | mkdir path =>
    rcases mkdir_steps e with ⟨rfl, -⟩ | ⟨-, -, d, -, -, -, e⟩
    · exact h
    · exact Small.addEntry (s := (PhaseA.allocated s .dir).clearBlock (allocBlock s).2) ((h.allocated .dir).congr rfl) e
  | createFile path =>
    obtain ⟨⟨v, r⟩, hcreate, he⟩ := Option.map_eq_some_iff.mp e
    obtain ⟨rfl, -⟩ := Prod.mk.inj he
    rcases createFile_steps hcreate with ⟨rfl, -⟩ | ⟨-, -, d, -, -, hadd⟩
    · exact h
    · exact (h.allocated .file).addEntry hadd
  | createInDir pdir name directory =>
    obtain ⟨⟨v, r⟩, hcreate, he⟩ := Option.map_eq_some_iff.mp e
    obtain ⟨rfl, -⟩ := Prod.mk.inj he
    have hmade : Small (allocatedIn s directory) := by
      rw [allocatedIn]
      split
      · exact (h.allocated .dir).congr rfl
      · exact h.allocated .file
    rcases createInDir_steps hcreate with ⟨rfl, -⟩ | ⟨-, d, -, -, -, ⟨-, -, rfl⟩ | ⟨hroom, -, rfl⟩⟩
    · exact h
    · exact hmade
    · refine Small.resize (hmade.congr rfl) (le_trans hroom ?_)
      decide
  | write f data =>
    obtain ⟨rfl, -⟩ := Prod.mk.inj (Option.some.inj e)
    cases f with
    | none => exact h
    | some f =>
      rw [PhaseA.write]
      split
      · exact h
      · refine Small.resize (h.congr rfl) ?_
        rw [length_take]
        exact min_le_left ..
  | rename old new =>
    rcases rename_steps e with ⟨rfl, -⟩ | ⟨-, d, -, -, -, u, hadd, hremove⟩
    · exact h
    · exact (h.addEntry hadd).removeEntry hremove

private theorem bootRoot_small : Small bootRoot := by
  have hfresh : Small fresh := ⟨fun _ => (by decide : 0 < blocks), fun _ => zero_le _⟩
  obtain ⟨m, -, hroot⟩ := bootRoot_made
  rw [hroot, ← (allocated_eq .dir (s := fresh) (by decide)).2]
  exact (hfresh.allocated .dir).congr rfl

/-- Any operation may follow any other. -/
def Step (s : PhaseA) (op : Op) (t : PhaseA) : Prop := ∃ ok, s.exec op = some (t, ok)

theorem small_runs (hb : bootstrap = some s₀) (hrun : Trace Step s₀ ops s) : Small s := by
  have hstart : Small s₀ := by
    obtain ⟨boots, hboot⟩ := bootstrap_run hb
    clear hb hrun
    induction hboot with
    | nil => exact bootRoot_small
    | snoc _ hstep ih =>
      obtain ⟨⟨-, ok, e⟩, -⟩ := hstep
      exact ih.exec e
  induction hrun with
  | nil => exact hstart
  | snoc _ hstep ih =>
    obtain ⟨ok, e⟩ := hstep
    exact ih.exec e

/-! ### Reads and writes -/

theorem toUInt32_toUInt64 (x : UInt32) : x.toUInt64.toUInt32 = x := by simp

private theorem reads_iff (h : Small s) (hf : (s.inodes i).type = .file) (off : UInt32) (size : UInt64) :
    ReadsFile s i off size ↔ size.toUInt32 = 0 ∨ off.toNat + size.toUInt32.toNat ≤ (s.inodes i).size := by
  have hblock := h.block i
  have hsize := h.size i
  have hsz : size.toUInt32.toNat ≤ size.toNat := by
    rw [UInt64.toNat_toUInt32]
    exact mod_le ..
  have hlen : ((s.fileBytes i).drop off.toNat).length = (s.inodes i).size - off.toNat := by
    rw [length_drop, fileBytes, length_bytes]
  rw [ReadsFile, vfsRead, toUInt32_toUInt64, nodeRead, if_neg (not_not.mpr hf)]
  generalize size.toUInt32 = sz at hsz ⊢
  constructor
  · rintro ⟨bytes, n, hread, hlength, -, hprefix⟩
    dsimp only at hread
    split at hread
    · cases hread
      have hle := hprefix.length_le
      rw [length_bytes, hlen] at hle
      by_cases h0 : sz.toNat = 0
      · exact .inl (UInt32.toNat_inj.mp h0)
      · right
        omega
    · cases hread
  · intro hin
    have hinside : sz = 0 ∨ blockSize * (s.inodes i).block + off.toNat + sz.toNat ≤ blockSize * blocks := by
      refine hin.imp id fun hin => ?_
      rw [blocks, blockSize] at *
      omega
    refine ⟨_, sz, if_pos hinside, length_bytes .., by rwa [length_bytes], ?_⟩
    rcases hin with rfl | hin
    · exact nil_prefix
    · have hsplit : (s.inodes i).size = off.toNat + (sz.toNat + ((s.inodes i).size - off.toNat - sz.toNat)) := by omega
      rw [fileBytes, hsplit, bytes_add, drop_left' (length_bytes ..), bytes_add]
      exact prefix_append ..

private theorem vfsWrite_eq (hf : (s.inodes i).type = .file) (off : UInt32) (size : UInt64) (buf : Memory) :
    ∃ t, s.vfsWrite i off.toUInt64 size buf = (t, UInt32.ofNat (min blockSize size.toUInt32.toNat)) ∧
      t.inodes i = { s.inodes i with size := min blockSize size.toUInt32.toNat } ∧
      t.fileBytes i = buf.bytes 0 (min blockSize size.toUInt32.toNat) := by
  generalize hsz : size.toUInt32 = sz
  have hdata : (buf.bytes 0 sz.toNat).take blockSize = buf.bytes 0 (min blockSize sz.toNat) := by
    have hsplit : sz.toNat = min blockSize sz.toNat + (sz.toNat - min blockSize sz.toNat) := by omega
    by_cases hle : sz.toNat ≤ blockSize
    · rw [take_of_length_le (by rwa [length_bytes]), min_eq_right hle]
    · rw [min_eq_left (by omega), show sz.toNat = blockSize + (sz.toNat - blockSize) by omega, bytes_add,
        take_left' (length_bytes ..)]
  have hlen := length_bytes buf 0 (min blockSize sz.toNat)
  let t : PhaseA := (s.setBytes (s.bytes.memcpy (blockSize * (s.inodes i).block) (buf.bytes 0 (min blockSize sz.toNat)))).setSize i
    (min blockSize sz.toNat)
  have hnode : t.inodes i = { s.inodes i with size := min blockSize sz.toNat } := Function.update_self ..
  have hwrite : s.write (some i) (buf.bytes 0 sz.toNat) = (t, some (min blockSize sz.toNat)) := by
    rw [PhaseA.write, if_neg (not_not.mpr hf)]
    simp only [hdata, hlen]
    rfl
  refine ⟨t, ?_, hnode, ?_⟩
  · rw [vfsWrite, hsz, nodeWrite, if_neg (not_not.mpr hf), hwrite]
  · rw [fileBytes, hnode]
    show (s.bytes.memcpy _ _).bytes _ _ = _
    rw [bytes_memcpy _ (le_of_eq hlen.symm), take_of_length_le (le_of_eq hlen)]

private theorem writes_iff (h : Small s) (hf : (s.inodes i).type = .file) (off : UInt32) (size : UInt64) (buf : Memory) :
    WritesFile s i off size buf ↔ off = 0 ∨ size.toUInt32 = 0 ∧ (s.inodes i).size = 0 := by
  obtain ⟨t, hwrite, hnode, hbytes⟩ := vfsWrite_eq hf off size buf
  have hsz : size.toUInt32.toNat ≤ size.toNat := by
    rw [UInt64.toNat_toUInt32]
    exact Nat.mod_le ..
  rw [WritesFile, hwrite]
  generalize size.toUInt32 = sz at hnode hbytes hsz ⊢
  have hcount : (UInt32.ofNat (min blockSize sz.toNat)).toNat = min blockSize sz.toNat := by
    rw [UInt32.toNat_ofNat', Nat.mod_eq_of_lt (by rw [blockSize]; omega)]
  generalize hn : min blockSize sz.toNat = n at hnode hbytes hcount ⊢
  have hold : (s.fileBytes i).length = (s.inodes i).size := Memory.length_bytes ..
  constructor
  · rintro ⟨-, hthere, hbefore, -⟩
    by_cases h0 : off = 0
    · exact .inl h0
    · have hpos : off.toNat ≠ 0 := fun hz => h0 (UInt32.toNat_inj.mp hz)
      -- nothing of the file is left behind the offset
      have hlength := congrArg List.length hthere
      rw [hbytes, List.length_take, List.length_drop, Memory.length_bytes, Memory.length_bytes, hcount] at hlength
      have hle := hbefore.length_le
      rw [hbytes, Memory.length_bytes, List.length_take, hold] at hle
      have hzero : sz.toNat = 0 := by
        rw [blockSize] at hn
        omega
      exact .inr ⟨UInt32.toNat_inj.mp hzero, by omega⟩
  · intro hcond
    have hzero : sz = 0 → 0 = n := by
      rintro rfl
      rw [← hn]
      exact (Nat.min_zero _).symm
    have hread : t.vfsRead i off.toUInt64 (UInt32.ofNat n).toUInt64 = some (buf.bytes 0 n, UInt32.ofNat n) := by
      rw [vfsRead, toUInt32_toUInt64, toUInt32_toUInt64, nodeRead, if_neg (not_not.mpr (by rw [hnode]; exact hf)), hnode]
      dsimp only
      rw [hcount]
      rcases hcond with rfl | ⟨rfl, -⟩
      · have hblock := h.block i
        have hbytes' : t.bytes.bytes (blockSize * (s.inodes i).block + (0 : UInt32).toNat) n = buf.bytes 0 n := by
          rw [UInt32.toNat_zero, Nat.add_zero, ← hbytes, fileBytes, hnode]
        have hinside : blockSize * (s.inodes i).block + (0 : UInt32).toNat + n ≤ blockSize * blocks := by
          rw [UInt32.toNat_zero]
          rw [blocks, blockSize] at *
          omega
        rw [if_pos (.inr hinside), hbytes']
      · obtain rfl : 0 = n := hzero rfl
        rw [if_pos (.inl rfl)]
        rfl
    refine ⟨by rw [hcount]; omega, ⟨?_, ?_, ?_⟩⟩
    · rw [hcount, hbytes]
      rcases hcond with rfl | ⟨rfl, -⟩
      · exact List.take_of_length_le (by rw [List.length_drop, Memory.length_bytes]; exact Nat.sub_le ..)
      · obtain rfl : 0 = n := hzero rfl
        rfl
    · rcases hcond with rfl | ⟨-, hempty⟩
      · exact List.nil_prefix
      · rw [List.eq_nil_of_length_eq_zero (hold.trans hempty), List.take_nil]
        exact List.nil_prefix
    · rw [hcount]
      exact hread

/-- Through the VFS a file is read as it should be within its bounds, and written so from its start; both calls leave out the
offset. -/
theorem vfs_file_iff (hb : bootstrap = some s₀) (hrun : Trace Step s₀ ops s) (hf : (s.inodes i).type = .file) (off : UInt32)
    (size : UInt64) (buf : Memory) :
    (ReadsFile s i off size ↔ size.toUInt32 = 0 ∨ off.toNat + size.toUInt32.toNat ≤ (s.inodes i).size) ∧
      (WritesFile s i off size buf ↔ off = 0 ∨ size.toUInt32 = 0 ∧ (s.inodes i).size = 0) :=
  ⟨reads_iff (small_runs hb hrun) hf off size, writes_iff (small_runs hb hrun) hf off size buf⟩

theorem readme_file : ∃ s, bootstrap = some s ∧ (s.inodes 8).type = .file ∧ ReadsFile s 8 0 60 ∧
    ¬ WritesFile s 8 1 1 (fun _ => 7) := by
  have hev : ∃ s ∈ bootstrap, (s.inodes 8).type = .file ∧ (s.inodes 8).size = 60 := by decide +kernel
  obtain ⟨s, hb, hf, hsize⟩ := hev
  have hiff := vfs_file_iff hb .nil hf
  refine ⟨s, hb, hf, ((hiff 0 60 (fun _ => 7)).1).mpr (.inr (by rw [hsize]; decide)), fun hw => ?_⟩
  rcases ((hiff 1 1 (fun _ => 7)).2).mp hw with h | ⟨h, -⟩
  · exact absurd h (by decide)
  · exact absurd h (by decide)

theorem read_behind_end : ∃ s, bootstrap = some s ∧ (s.inodes 8).type = .file ∧ ¬ ReadsFile s 8 0 61 := by
  have hev : ∃ s ∈ bootstrap, (s.inodes 8).type = .file ∧ (s.inodes 8).size = 60 := by decide +kernel
  obtain ⟨s, hb, hf, hsize⟩ := hev
  refine ⟨s, hb, hf, fun h => ?_⟩
  rcases (reads_iff (small_runs hb .nil) hf 0 61).mp h with h | h
  · exact absurd h (by decide)
  · rw [hsize] at h
    exact absurd h (by decide)

end PhaseA
end RetroOs.Kernel
