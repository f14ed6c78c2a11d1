import RetroOs.Lib.CString

/-! The FAT16 driver: the boot sector's fields, the file allocation table, directories as runs of
32-byte entries, and the calls of the file layer. Sectors are of 512 bytes. -/
namespace RetroOs.Drivers
open Lib List

/-- The fields of the boot sector that place the areas of the volume. -/
structure Bpb where
  bytesPerSector : Nat
  sectorsPerCluster : Nat
  reservedSectors : Nat
  fatsCount : Nat
  rootEntriesCount : Nat
  totalSectors16 : Nat
  sectorsPerFat : Nat
  totalSectors32 : Nat
  deriving DecidableEq, Repr

/-- The bytes of the disk; and, for the statements about them, the sectors written so far and the
calls of the cluster allocator with the bytes it searched and what it returned, the last ones first. -/
structure Disk where
  bytes : Memory
  written : List Nat
  allocs : List (Memory × Nat)

namespace Disk

def readSector (d : Disk) (lba : Nat) : Memory := fun i => d.bytes (512 * lba + i)

def writeSector (d : Disk) (lba : Nat) (buffer : Memory) : Disk where
  bytes x := if 512 * lba ≤ x ∧ x < 512 * lba + 512 then buffer (x - 512 * lba) else d.bytes x
  written := lba :: d.written
  allocs := d.allocs

def logAlloc (d : Disk) (m : Memory) (cluster : Nat) : Disk := { d with allocs := (m, cluster) :: d.allocs }

end Disk

namespace Bpb

/-- The packed fields, as `fat16_init` copies them. -/
def ofSector (m : Memory) : Bpb where
  bytesPerSector := m.load16 11
  sectorsPerCluster := (m 13).toNat
  reservedSectors := m.load16 14
  fatsCount := (m 16).toNat
  rootEntriesCount := m.load16 17
  totalSectors16 := m.load16 19
  sectorsPerFat := m.load16 22
  totalSectors32 := m.load32 32

variable (b : Bpb)

def rootDirStartSector : Nat := b.reservedSectors + b.fatsCount * b.sectorsPerFat
def rootSectors : Nat := (b.rootEntriesCount * 32 + 511) / 512
def dataStartSector : Nat := b.rootDirStartSector + b.rootSectors

/-- For clusters from 2 on. -/
def clusterToSector (cluster : Nat) : Nat := b.dataStartSector + (cluster - 2) * b.sectorsPerCluster

end Bpb

namespace Fat16

def chainEnd : Nat := 0xFFF0

def init (d : Disk) : Bpb := Bpb.ofSector (d.readSector 0)

def getFatEntry (b : Bpb) (d : Disk) (cluster : Nat) : Nat :=
  let fatOffset := cluster * 2
  (d.readSector (b.reservedSectors + fatOffset / 512)).load16 (fatOffset % 512)

def setFatEntry (b : Bpb) (d : Disk) (cluster value : Nat) : Disk :=
  let fatOffset := cluster * 2
  let fatSector := b.reservedSectors + fatOffset / 512
  let buffer := (d.readSector fatSector).store16 (fatOffset % 512) value
  let d := d.writeSector fatSector buffer
  if b.fatsCount > 1 then d.writeSector (fatSector + b.sectorsPerFat) buffer else d

/-- The whole range of cluster numbers is searched, whatever the volume's size. -/
def allocCluster (b : Bpb) (d : Disk) : Disk × Nat :=
  match (range' 2 (chainEnd - 2)).find? fun cluster => getFatEntry b d cluster == 0 with
  | some cluster => (setFatEntry b (d.logAlloc d.bytes cluster) cluster 0xFFFF, cluster)
  | none => (d.logAlloc d.bytes 0, 0)

/-- The fields of a directory entry that the driver reads. -/
structure Entry where
  filename : List UInt8
  ext : List UInt8
  attributes : Nat
  firstCluster : Nat
  fileSize : Nat
  deriving DecidableEq

def entryAt (m : Memory) (a : Nat) : Entry where
  filename := m.bytes a 8
  ext := m.bytes (a + 8) 3
  attributes := (m (a + 11)).toNat
  firstCluster := m.load16 (a + 26)
  fileSize := m.load32 (a + 28)

def attrDirectory : Nat := 0x10
def attrArchive : Nat := 0x20
def attrLfn : Nat := 0x0F

/-- The displayed name of an entry. -/
def toName (filename ext : List UInt8) : List UInt8 :=
  filename.filter (· ≠ 32) ++ if ext.head? = some 32 then [] else 46 :: ext.filter (· ≠ 32)

/-- Lower-case letters become upper-case ones. -/
def upper (c : UInt8) : UInt8 := if 97 ≤ c ∧ c ≤ 122 then c - 32 else c

/-- The comparison of `find_callback`, of a displayed name with a string. -/
def sameName : List UInt8 → CString → Bool
  | [], [] => true
  | [], _ :: _ => false
  | a :: _, [] => a == 0
  | a :: name, c :: s => upper a == upper c.val && sameName name s

section
variable {α : Type}

/-- One sector of a directory: a callback stops the iteration by a value. -/
def iterateSector (callback : Nat → Nat → Option α) (sector : Nat) : Option α :=
  (range 16).findSome? fun i => callback sector (i * 32)

def iterateCluster (b : Bpb) (callback : Nat → Nat → Option α) (cluster : Nat) : Option α :=
  (range b.sectorsPerCluster).findSome? fun s => iterateSector callback (b.clusterToSector cluster + s)

/-- The chain of a directory; no value if it is longer than there are clusters, and so has no end. -/
def iterateChain (b : Bpb) (d : Disk) (callback : Nat → Nat → Option α) : Nat → Nat → Option (Option α)
  | 0, _ => none
  | fuel + 1, cluster =>
    if 2 ≤ cluster ∧ cluster < chainEnd then
      match iterateCluster b callback cluster with
      | some r => some (some r)
      | none => iterateChain b d callback fuel (getFatEntry b d cluster)
    else some none

/-- Directory 0 is the root directory. -/
def iterateDir (b : Bpb) (d : Disk) (dirCluster : Nat) (callback : Nat → Nat → Option α) : Option (Option α) :=
  if dirCluster = 0 then
    some ((range b.rootSectors).findSome? fun s => iterateSector callback (b.rootDirStartSector + s))
  else iterateChain b d callback 0x10000 dirCluster

end

/-- The search stops without a result at the first entry never used. -/
def findCallback (m : Memory) (name : CString) (sector offset : Nat) : Option (Option Nat) :=
  let a := 512 * sector + offset
  let entry := entryAt m a
  if m a = 0 then some none
  else if m a = 0xE5 then none
  else if entry.attributes = attrLfn then none
  else if sameName (toName entry.filename entry.ext) name then some (some a)
  else none

def findEntry (b : Bpb) (d : Disk) (dirCluster : Nat) (name : CString) : Option (Option Nat) :=
  (iterateDir b d dirCluster (findCallback d.bytes name)).map (·.join)

def findFreeCallback (m : Memory) (sector offset : Nat) : Option Nat :=
  let a := 512 * sector + offset
  if m a = 0 ∨ m a = 0xE5 then some a else none

/-- The name parsed so far: `fi` and `ei` are the lengths written. -/
structure NameBuffer where
  filename : List UInt8
  ext : List UInt8
  inExt : Bool
  ei : Nat
  deriving DecidableEq

def parseChar (n : NameBuffer) (c : CChar) : NameBuffer :=
  let ch := upper c
  if ch = 46 then { n with inExt := true, ei := 0 }
  else if n.inExt then
    if n.ei < 3 then { n with ext := n.ext.set n.ei ch, ei := n.ei + 1 } else n
  else if n.filename.length < 8 then { n with filename := n.filename ++ [ch] }
  else n

/-- The 11 bytes of a name in a directory entry. -/
def encodeName (name : CString) : List UInt8 :=
  let n := name.foldl parseChar { filename := [], ext := [32, 32, 32], inExt := false, ei := 0 }
  n.filename ++ replicate (8 - n.filename.length) 32 ++ n.ext

/-- A new entry: its times, the high cluster word and the size are 0. -/
def entryBytes (name : CString) (attr cluster : Nat) : List UInt8 :=
  encodeName name ++ [UInt8.ofNat attr] ++ replicate 14 0 ++ [UInt8.ofNat cluster, UInt8.ofNat (cluster / 256)] ++
    replicate 4 0

def patchSector (d : Disk) (a : Nat) (bytes : List UInt8) : Disk :=
  d.writeSector (a / 512) ((d.readSector (a / 512)).memcpy (a % 512) bytes)

/-- The result is missing where a search has no end. -/
def addEntry (b : Bpb) (d : Disk) (dirCluster : Nat) (name : CString) (attr cluster : Nat) : Disk × Option Int :=
  match findEntry b d dirCluster name with
  | none => (d, none)
  | some (some _) => (d, some (-1))
  | some none =>
    match iterateDir b d dirCluster (findFreeCallback d.bytes) with
    | none => (d, none)
    | some none => (d, some (-2))
    | some (some a) => (patchSector d a (entryBytes name attr cluster), some 0)

def createVfs (b : Bpb) (d : Disk) (dirCluster : Nat) (name : CString) : Disk × Option Int :=
  addEntry b d dirCluster name attrArchive 0

def clearCluster (b : Bpb) (d : Disk) (cluster : Nat) : Disk :=
  (range b.sectorsPerCluster).foldl (fun d i => d.writeSector (b.clusterToSector cluster + i) fun _ => 0) d

def mkdirVfs (b : Bpb) (d : Disk) (dirCluster : Nat) (name : CString) : Disk × Option Int :=
  let (d, cluster) := allocCluster b d
  if cluster = 0 then (d, some (-1))
  else addEntry b (clearCluster b d cluster) dirCluster name attrDirectory cluster

/-- Each round clears an entry, so that at most all clusters are visited. -/
def freeChain (b : Bpb) (d : Disk) : Nat → Nat → Disk
  | 0, _ => d
  | fuel + 1, cluster =>
    if 2 ≤ cluster ∧ cluster < chainEnd then
      freeChain b (setFatEntry b d cluster 0) fuel (getFatEntry b d cluster)
    else d

def deleteFile (b : Bpb) (d : Disk) (name : CString) : Disk × Option Int :=
  match findEntry b d 0 name with
  | some (some a) => (patchSector (freeChain b d 0x10000 (entryAt d.bytes a).firstCluster) a [0xE5], some 0)
  | _ => (d, some (-1))

def unlinkVfs (b : Bpb) (d : Disk) (dirCluster : Nat) (name : CString) : Disk × Option Int :=
  if dirCluster = 0 then deleteFile b d name else (d, some (-1))

def renameVfs (b : Bpb) (d : Disk) (dirCluster : Nat) (oldName newName : CString) : Disk × Option Int :=
  match findEntry b d dirCluster oldName with
  | none => (d, none)
  | some none => (d, some (-1))
  | some (some a) => (patchSector d a (encodeName newName), some 0)

/-- What `vfs_node_t` keeps of an entry. -/
structure Node where
  name : CString
  impl : Nat
  size : Nat
  directory : Bool
  deriving DecidableEq

inductive Lookup where
  | devfs
  | node (n : Node)
  | missing
  deriving DecidableEq

def finddirVfs (b : Bpb) (d : Disk) (dirCluster : Nat) (name : CString) : Option Lookup :=
  if name = .ofString "dev" ∧ dirCluster = 0 then some .devfs
  else
    match findEntry b d dirCluster name with
    | none => none
    | some none => some .missing
    | some (some a) =>
      let entry := entryAt d.bytes a
      some (.node
        { name, impl := entry.firstCluster, size := entry.fileSize
          directory := entry.attributes.testBit 4 })

def writeSectors (d : Disk) (data : List UInt8) : Nat → Nat → Nat → Disk × Nat
  | 0, _, bytesWritten => (d, bytesWritten)
  | count + 1, sector, bytesWritten =>
    if bytesWritten < data.length then
      let chunk := min 512 (data.length - bytesWritten)
      let buffer := (d.readSector sector).memcpy 0 ((data.drop bytesWritten).take chunk)
      writeSectors (d.writeSector sector buffer) data count (sector + 1) (bytesWritten + chunk)
    else (d, bytesWritten)

/-- Each round writes at least one byte of what is left. -/
def writeClusters (b : Bpb) (d : Disk) (data : List UInt8) : Nat → Nat → Nat → Disk × Nat
  | 0, _, bytesWritten => (d, bytesWritten)
  | fuel + 1, cluster, bytesWritten =>
    if 2 ≤ cluster ∧ bytesWritten < data.length then
      let (d, bytesWritten) := writeSectors d data b.sectorsPerCluster (b.clusterToSector cluster) bytesWritten
      if bytesWritten < data.length then
        let next := getFatEntry b d cluster
        if next ≥ chainEnd ∨ next = 0 then
          let (d, newCluster) := allocCluster b d
          if newCluster = 0 then (d, bytesWritten)
          else writeClusters b (setFatEntry b d cluster newCluster) data fuel newCluster bytesWritten
        else writeClusters b d data fuel next bytesWritten
      else (d, bytesWritten)
    else (d, bytesWritten)

/-- The offset is not used, and neither the node's size nor the directory entry changes. The lookup at
the start has no effect. -/
def writeVfs (b : Bpb) (d : Disk) (node : Node) (_offset : Nat) (data : List UInt8) : Disk × Node × Nat :=
  if node.impl = 0 then
    let (d, cluster) := allocCluster b d
    if cluster = 0 then (d, node, 0)
    else
      let (d, written) := writeClusters b d data (data.length + 1) cluster 0
      (d, { node with impl := cluster }, written)
  else
    let (d, written) := writeClusters b d data (data.length + 1) node.impl 0
    (d, node, written)

def readSectors (d : Disk) (size : Nat) : Nat → Nat → Nat → Memory → Memory × Nat
  | 0, _, bytesRead, buffer => (buffer, bytesRead)
  | count + 1, sector, bytesRead, buffer =>
    let buffer := buffer.memcpy bytesRead ((d.readSector sector).bytes 0 512)
    if bytesRead + 512 ≥ size then (buffer, bytesRead + 512)
    else readSectors d size count (sector + 1) (bytesRead + 512) buffer

def readClusters (b : Bpb) (d : Disk) (size : Nat) : Nat → Nat → Nat → Memory → Memory
  | 0, _, _, buffer => buffer
  | fuel + 1, cluster, bytesRead, buffer =>
    if 2 ≤ cluster ∧ cluster < chainEnd ∧ bytesRead < size then
      let (buffer, bytesRead) := readSectors d size b.sectorsPerCluster (b.clusterToSector cluster) bytesRead buffer
      readClusters b d size fuel (getFatEntry b d cluster) bytesRead buffer
    else buffer

def readFile (b : Bpb) (d : Disk) (cluster size : Nat) (buffer : Memory) : Memory :=
  readClusters b d size (size + 1) cluster 0 buffer

/-- `tmp` is the buffer that `kmalloc` gives, if any. The sum of offset and size wraps around; no value
where the copy then leaves the buffer. -/
def readVfs (b : Bpb) (d : Disk) (node : Node) (offset size : Nat) (tmp : Option Memory) : Option (List UInt8) :=
  match tmp with
  | none => some []
  | some tmp =>
    let tmp := readFile b d node.impl node.size tmp
    if offset > node.size then some []
    else
      let size := if (offset + size) % 2 ^ 32 > node.size then node.size - offset else size
      if offset + size ≤ node.size then some (tmp.bytes offset size) else none

def writeFile (b : Bpb) (d : Disk) (filename : CString) (data : List UInt8) : Disk × Option Int :=
  match findEntry b d 0 filename with
  | some (some a) =>
    let entry := entryAt d.bytes a
    let node : Node := { name := filename, impl := entry.firstCluster, size := entry.fileSize, directory := false }
    let (d, node, written) := writeVfs b d node 0 data
    if written > 0 then
      match findEntry b d 0 filename with
      | some (some a) =>
        -- The size is the one asked for, not the one written.
        let buffer := ((d.readSector (a / 512)).store32 (a % 512 + 28) data.length).store16 (a % 512 + 26) node.impl
        (d.writeSector (a / 512) buffer, some written)
      | _ => (d, some written)
    else (d, some 0)
  | _ => (d, some (-1))

/-- A volume of seven sectors with the file `A` of the bytes 97 and 98. -/
def smallDisk : Disk where
  bytes x :=
    ([(12, 2), (13, 1), (14, 1), (16, 1), (17, 16), (19, 7), (22, 1), (516, 0xFF), (517, 0xFF), (1024, 65), (1035, 0x20),
      (1050, 2), (1052, 2), (1536, 97), (1537, 98)].lookup x).getD (if 1025 ≤ x ∧ x < 1035 then 32 else 0)
  written := []
  allocs := []

end Fat16
end RetroOs.Drivers
