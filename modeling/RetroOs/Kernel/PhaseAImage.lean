import RetroOs.Kernel.PhaseACapacity

/-! The tables of the Phase A file system as `phase_vfs_sync` lays them out in one buffer, and as
`phase_vfs_load` takes them from it. -/
namespace RetroOs.Kernel
open Lib Nat Memory Inode

def InodeType.code : InodeType → Nat
  | .unused => 0
  | .file => 1
  | .dir => 2

def InodeType.ofCode : Nat → InodeType
  | 1 => .file
  | 2 => .dir
  | _ => .unused

theorem InodeType.ofCode_code (t : InodeType) : ofCode t.code = t := by
  cases t <;> rfl

theorem InodeType.code_lt (t : InodeType) : t.code < 2 ^ 32 := by
  cases t <;> decide

namespace Inode

/-- `sizeof(phase_inode)` -/
def recordSize : Nat := 68

def record (n : Inode) : Memory :=
  let m : Memory := fun _ => 0
  let m := (((m.store32 0 n.id).store32 4 n.type.code).store32 8 n.size).store32 12 n.block
  ((m.store16 60 n.owner).store16 62 n.group).store16 64 n.perms

def ofRecord (m : Memory) (a : Nat) : Inode where
  id := m.load32 a
  type := .ofCode (m.load32 (a + 4))
  size := m.load32 (a + 8)
  block := m.load32 (a + 12)
  owner := m.load16 (a + 60)
  group := m.load16 (a + 62)
  perms := m.load16 (a + 64)

/-- The values that the fields of a `phase_inode` have. -/
structure Fits (n : Inode) : Prop where
  id : n.id < 2 ^ 32
  size : n.size < 2 ^ 32
  block : n.block < 2 ^ 32
  owner : n.owner < 2 ^ 16
  group : n.group < 2 ^ 16
  perms : n.perms < 2 ^ 16

private theorem ofRecord_fits (m : Memory) (a : Nat) : (ofRecord m a).Fits :=
  ⟨load32_lt .., load32_lt .., load32_lt .., load16_lt .., load16_lt .., load16_lt ..⟩

private theorem ofRecord_record {n : Inode} (h : n.Fits) : ofRecord n.record 0 = n := by
  have h16 : ∀ {m : Memory} {a c v : Nat}, a + 4 ≤ c ∨ c + 2 ≤ a → (m.store16 c v).load32 a = m.load32 a :=
    fun hac => (store16_agreeOn _ _ hac).load32
  have h16' : ∀ {m : Memory} {a c v : Nat}, a + 2 ≤ c ∨ c + 2 ≤ a → (m.store16 c v).load16 a = m.load16 a :=
    fun hac => (store16_agreeOn _ _ hac).load16
  simp (disch := omega) only [ofRecord, record, zero_add, h16, h16', load32_store32_other]
  rw [load32_store32 _ _ h.id, load32_store32 _ _ n.type.code_lt, load32_store32 _ _ h.size,
    load32_store32 _ _ h.block, load16_store16 _ _ h.owner, load16_store16 _ _ h.group,
    load16_store16 _ _ h.perms, InodeType.ofCode_code]

private theorem ofRecord_congr {m m' : Memory} {a c : Nat} (h : ∀ x < recordSize, m (a + x) = m' (c + x)) :
    ofRecord m a = ofRecord m' c := by
  have hbyte : ∀ k x, k + x < 68 → m (a + k + x) = m' (c + k + x) := by
    intro k x hx
    rw [add_assoc, add_assoc]
    exact h (k + x) hx
  have h32 : ∀ k, k + 4 ≤ 68 → m.load32 (a + k) = m'.load32 (c + k) :=
    fun k hk => load32_shift fun x hx => hbyte k x (by omega)
  have h16 : ∀ k, k + 2 ≤ 68 → m.load16 (a + k) = m'.load16 (c + k) :=
    fun k hk => load16_shift fun x hx => hbyte k x (by omega)
  have h0 : m.load32 a = m'.load32 c := h32 0 (by decide)
  simp only [ofRecord, h0, h32 4 (by decide), h32 8 (by decide), h32 12 (by decide), h16 60 (by decide), h16 62 (by decide),
    h16 64 (by decide)]

end Inode

namespace PhaseA

variable {s t u : PhaseA} {i n b dir : Nat} {name : CString} {type : InodeType} {ok : Bool} {op : Op} {m : Memory}
  {x : Nat}

def tableSize : Nat := recordSize * maxInodes

def dataSize : Nat := blockSize * blocks

def totalSize : Nat := tableSize + dataSize + 8

private theorem tableSize_eq : tableSize = 17408 := rfl
private theorem dataSize_eq : dataSize = 262144 := rfl
private theorem totalSize_eq : totalSize = 279560 := rfl

def counters (s : PhaseA) : Memory :=
  let m : Memory := fun _ => 0
  (m.store32 0 s.inodeCount).store32 4 s.blockCount

/-- What `phase_vfs_sync` copies to its buffer. -/
def imageByte (s : PhaseA) (x : Nat) : UInt8 :=
  if x < tableSize then (s.inodes (x / recordSize)).record (x % recordSize)
  else if x < tableSize + dataSize then s.bytes (x - tableSize)
  else s.counters (x - (tableSize + dataSize))

def image (s : PhaseA) : List UInt8 := Memory.bytes s.imageByte 0 totalSize

def restore (s : PhaseA) (buf : Memory) : PhaseA where
  inodes i := if i < maxInodes then .ofRecord buf (recordSize * i) else s.inodes i
  bytes x := if x < dataSize then buf (tableSize + x) else s.bytes x
  inodeCount := buf.load32 (tableSize + dataSize)
  blockCount := buf.load32 (tableSize + dataSize + 4)

structure SameTables (s t : PhaseA) : Prop where
  inodes : ∀ i < maxInodes, t.inodes i = s.inodes i
  bytes : ∀ x < dataSize, t.bytes x = s.bytes x
  inodeCount : t.inodeCount = s.inodeCount
  blockCount : t.blockCount = s.blockCount

theorem SameTables.refl (s : PhaseA) : SameTables s s := ⟨fun _ _ => rfl, fun _ _ => rfl, rfl, rfl⟩

theorem SameTables.trans (h : SameTables s t) (h' : SameTables t u) : SameTables s u where
  inodes i hi := (h'.inodes i hi).trans (h.inodes i hi)
  bytes x hx := (h'.bytes x hx).trans (h.bytes x hx)
  inodeCount := h'.inodeCount.trans h.inodeCount
  blockCount := h'.blockCount.trans h.blockCount

/-- Tables with the root directory, whose values fit the fields of the image. -/
structure Storable (s : PhaseA) : Prop where
  fits : ∀ i, (s.inodes i).Fits
  root : 0 < s.inodeCount
  inodeCount : s.inodeCount < 2 ^ 32
  blockCount : s.blockCount < 2 ^ 32

@[simp] theorem image_length (s : PhaseA) : s.image.length = totalSize := by
  rw [image, Memory.bytes, List.length_map, List.length_range]

theorem image_getD (s : PhaseA) (v : UInt8) (hx : x < totalSize) : s.image.getD x v = s.imageByte x := by
  rw [image, bytes_getD _ _ hx, zero_add]

private theorem imageByte_inode (s : PhaseA) (hi : i < maxInodes) (hx : x < recordSize) :
    s.imageByte (recordSize * i + x) = (s.inodes i).record x := by
  have hlt : recordSize * i + x < tableSize := by
    rw [tableSize_eq]
    simp only [recordSize, maxInodes] at hi hx ⊢
    omega
  rw [imageByte, if_pos hlt, mul_add_div (by decide), div_eq_of_lt hx, mul_add_mod, mod_eq_of_lt hx, add_zero]

private theorem imageByte_data (s : PhaseA) (hx : x < dataSize) : s.imageByte (tableSize + x) = s.bytes x := by
  rw [imageByte, if_neg (Nat.not_lt.mpr (Nat.le_add_right ..)), if_pos (Nat.add_lt_add_left hx _), Nat.add_sub_cancel_left]

private theorem imageByte_counters (s : PhaseA) (x : Nat) : s.imageByte (tableSize + dataSize + x) = s.counters x := by
  rw [imageByte, if_neg (Nat.not_lt.mpr (by omega)), if_neg (Nat.not_lt.mpr (Nat.le_add_right ..)), Nat.add_sub_cancel_left]

private theorem counters_load (h : Storable s) : s.counters.load32 0 = s.inodeCount ∧ s.counters.load32 4 = s.blockCount := by
  constructor
  · rw [counters, load32_store32_other _ _ (.inl (by decide)), load32_store32 _ _ h.inodeCount]
  · exact load32_store32 _ _ h.blockCount

theorem restore_image (h : Storable s) (t : PhaseA) (hm : ∀ x < totalSize, m x = s.imageByte x) : SameTables s (t.restore m) := by
  obtain ⟨hin, hbl⟩ := counters_load h
  have hcount : ∀ x < 8, m (tableSize + dataSize + x) = s.counters x := by
    intro x hx
    rw [hm _ (Nat.add_lt_add_left hx _), imageByte_counters]
  constructor
  · intro i hi
    have hrec : ∀ x < recordSize, m (recordSize * i + x) = (s.inodes i).record (0 + x) := by
      intro x hx
      have hlt : recordSize * i + x < totalSize := by
        rw [totalSize_eq]
        simp only [recordSize, maxInodes] at hi hx ⊢
        omega
      rw [hm _ hlt, imageByte_inode s hi hx, zero_add]
    exact (if_pos hi).trans ((ofRecord_congr hrec).trans (ofRecord_record (h.fits i)))
  · intro x hx
    have hlt : tableSize + x < totalSize := by
      rw [tableSize_eq, totalSize_eq]
      rw [dataSize_eq] at hx
      omega
    exact (if_pos hx).trans ((hm _ hlt).trans (imageByte_data s hx))
  · rw [← hin]
    apply load32_shift
    intro x hx
    rw [zero_add]
    exact hcount x (by omega)
  · rw [← hbl]
    apply load32_shift
    intro x hx
    rw [add_assoc (tableSize + dataSize)]
    exact hcount (4 + x) (by omega)

theorem restore_fits (h : ∀ i, (s.inodes i).Fits) (m : Memory) (i : Nat) : ((s.restore m).inodes i).Fits := by
  simp only [restore]
  split
  · exact ofRecord_fits ..
  · exact h i

theorem SameTables.storable (h : SameTables s t) (hs : Storable s) (hfits : ∀ i, (t.inodes i).Fits) : Storable t where
  fits := hfits
  root := h.inodeCount ▸ hs.root
  inodeCount := h.inodeCount ▸ hs.inodeCount
  blockCount := h.blockCount ▸ hs.blockCount

namespace Storable

theorem congr (h : Storable s) (hi : ∀ i, (t.inodes i).Fits) (hn : t.inodeCount = s.inodeCount) (hb : t.blockCount = s.blockCount) :
    Storable t where
  fits := hi
  root := hn ▸ h.root
  inodeCount := hn ▸ h.inodeCount
  blockCount := hb ▸ h.blockCount

theorem setBytes (h : Storable s) (m : Memory) : Storable (s.setBytes m) := h.congr h.fits rfl rfl

theorem fits_update {f : Nat → Inode} {v : Inode} (h : ∀ i, (f i).Fits) (hv : v.Fits) (j i : Nat) :
    (Function.update f j v i).Fits := by
  by_cases hi : i = j
  · rwa [hi, Function.update_self]
  · rw [Function.update_of_ne hi]
    exact h i

theorem setSize (h : Storable s) (dir : Nat) (hn : n < 2 ^ 32) : Storable (s.setSize dir n) := by
  have hold := h.fits dir
  have hnew : ({ s.inodes dir with size := n } : Inode).Fits :=
    ⟨hold.id, hn, hold.block, hold.owner, hold.group, hold.perms⟩
  exact h.congr (fits_update h.fits hnew dir) rfl rfl

private theorem allocBlock_lt (h : Storable s) : (allocBlock s).1.blockCount < 2 ^ 32 ∧ (allocBlock s).2 < 2 ^ 32 := by
  simp only [allocBlock]
  split
  · exact ⟨h.blockCount, Nat.two_pow_pos 32⟩
  · next hb => exact ⟨lt_of_le_of_lt (not_le.mp hb) (by decide), h.blockCount⟩

theorem allocated (h : Storable s) (type : InodeType) (hi : s.inodeCount < maxInodes) : Storable (PhaseA.allocated s type) where
  fits := by
    have h1000 : 1000 < 2 ^ 16 := by decide
    have hperms : 0o755 < 2 ^ 16 := by decide
    exact fits_update h.fits ⟨h.inodeCount, Nat.two_pow_pos 32, h.allocBlock_lt.2, h1000, h1000, hperms⟩ s.inodeCount
  root := succ_pos _
  inodeCount := lt_of_le_of_lt hi (by decide)
  blockCount := h.allocBlock_lt.1

theorem addEntry (h : Storable s) (e : s.addEntry dir b name n = some t) : Storable t := by
  have hin : Inside b (s.inodes dir).size := by
    simp only [PhaseA.addEntry] at e
    split at e
    · next hin => exact hin
    · cases e
  have hsize : (s.inodes dir).size + 1 < 2 ^ 32 := by
    simp only [Inside, entryAddr_eq, entrySize, maxName, blockSize, blocks] at hin
    omega
  rw [addEntry_eq e]
  exact (h.setBytes _).setSize dir hsize

theorem removeEntry (h : Storable s) (e : s.removeEntry dir i = some t) : Storable t := by
  rw [removeEntry_eq e]
  exact (h.setBytes _).setSize dir (lt_of_le_of_lt (sub_le ..) (h.fits dir).size)

theorem nameIn (h : Storable u) (hfit : (u.inodes dir).size < dirCapacity) : Storable (nameIn u dir b name n) :=
  (h.setBytes _).setSize dir (lt_of_le_of_lt hfit (by decide))

theorem write (h : Storable s) (f : Option Nat) (data : List UInt8) : Storable (s.write f data).1 := by
  cases f with
  | none => exact h
  | some f =>
    rw [PhaseA.write]
    split
    · exact h
    · apply (h.setBytes _).setSize f
      rw [List.length_take]
      exact lt_of_le_of_lt (min_le_left ..) (by decide)

theorem exec (h : Storable s) (e : s.exec op = some (t, ok)) : Storable t := by
  cases op with
  | mkdir path =>
    rcases mkdir_steps e with ⟨rfl, -⟩ | ⟨-, hi, d, -, -, -, e⟩
    · exact h
    · exact ((h.allocated .dir hi).setBytes _).addEntry e
  | createFile path =>
    obtain ⟨⟨u, r⟩, hu, he⟩ := Option.map_eq_some_iff.mp e
    obtain ⟨rfl, -⟩ := Prod.mk.inj he
    rcases createFile_steps hu with ⟨rfl, -⟩ | ⟨-, hi, d, -, -, e⟩
    · exact h
    · exact (h.allocated .file hi).addEntry e
  | createInDir pdir name directory =>
    obtain ⟨⟨u, r⟩, hu, he⟩ := Option.map_eq_some_iff.mp e
    obtain ⟨rfl, -⟩ := Prod.mk.inj he
    rcases createInDir_steps hu with ⟨rfl, -⟩ | ⟨hi, d, -, -, -, hcase⟩
    · exact h
    · have hin : Storable (allocatedIn s directory) := by
        cases directory with
        | false => exact h.allocated .file hi
        | true => exact (h.allocated .dir hi).setBytes _
      rcases hcase with ⟨-, -, rfl⟩ | ⟨hfit, -, rfl⟩
      · exact hin
      · exact hin.nameIn hfit
  | write f data =>
    obtain ⟨rfl, -⟩ := Prod.mk.inj (Option.some.inj e)
    exact h.write f data
  | rename old new =>
    rcases rename_steps e with ⟨rfl, -⟩ | ⟨-, d, -, -, -, u, hadd, hrem⟩
    · exact h
    · exact (h.addEntry hadd).removeEntry hrem

end Storable

end PhaseA
end RetroOs.Kernel
