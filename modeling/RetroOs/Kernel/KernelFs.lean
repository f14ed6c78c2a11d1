import RetroOs.Lib.CString
import RetroOs.Lib.Runs
import RetroOs.Lib.Allotment

/-! The file system on the kernel's RAM disk: a bitmap of 4096 blocks, a table of inodes with twelve
blocks each, and directories that are arrays of 132-byte entries in their first block. -/
namespace RetroOs.Kernel
open Lib List Function
namespace KernelFs

inductive InodeType where
  | file
  | dir
  deriving DecidableEq, Repr

structure Inode where
  id : Nat
  type : InodeType
  size : Nat
  blocks : Nat → Nat
  blockCount : Nat
  parent : Nat
  used : Bool
  uid : Nat
  gid : Nat
  permissions : Nat

end KernelFs

structure KernelFs where
  disk : Memory
  bitmap : Nat → Bool
  inodes : Nat → KernelFs.Inode
  usedBlocks : Nat
  usedInodes : Nat

namespace KernelFs

def maxInodes : Nat := 4096
def maxBlocks : Nat := 4096
def blockSize : Nat := 4096
def maxFilename : Nat := 128
def directBlocks : Nat := 12
def entrySize : Nat := 4 + maxFilename
def maxEntries : Nat := blockSize / entrySize

def blockPtr (block : Nat) : Nat := blockSize * block

def setInode (s : KernelFs) (i : Nat) (n : Inode) : KernelFs := { s with inodes := update s.inodes i n }
def setDisk (s : KernelFs) (m : Memory) : KernelFs := { s with disk := m }

/-- The first free block, cleared. -/
def allocBlock (s : KernelFs) : Option (KernelFs × Nat) :=
  ((range' 0 maxBlocks).find? fun i => !s.bitmap i).map fun i =>
    ({ s with
        bitmap := update s.bitmap i true
        usedBlocks := s.usedBlocks + 1
        disk := s.disk.fill (blockPtr i) 0 blockSize }, i)

/-- The inode that the next creation takes. -/
def freeInode (s : KernelFs) : Option Nat := (range' 0 maxInodes).find? fun i => !(s.inodes i).used

/-- The list of blocks keeps its old contents, but none of them counts. -/
def allocInode (s : KernelFs) (type : InodeType) (parent : Nat) : Option (KernelFs × Nat) :=
  s.freeInode.map fun i =>
    ({ s.setInode i
        { s.inodes i with
          used := true, id := i, type, size := 0, blockCount := 0, parent, permissions := 0o755, uid := 0, gid := 0 } with
        usedInodes := s.usedInodes + 1 }, i)

/-- `strncpy(entries[i].name, name, MAX_FILENAME - 1)` and the last byte. -/
def nameField (name : CString) : List UInt8 :=
  let chars := (name.take (maxFilename - 1)).map Subtype.val
  chars ++ replicate (maxFilename - chars.length) 0

def dirAdd (s : KernelFs) (dir child : Nat) (name : CString) : Option KernelFs :=
  if dir ≥ maxInodes then none
  else
    let n := s.inodes dir
    let r : Option KernelFs :=
      if n.blockCount = 0 then
        s.allocBlock.map fun r => r.1.setInode dir { n with blocks := update n.blocks 0 r.2, blockCount := 1 }
      else some s
    match r with
    | none => some s
    | some s =>
      let n := s.inodes dir
      if n.blocks 0 ≥ maxBlocks then none
      else
        let entries := blockPtr (n.blocks 0)
        match (range maxEntries).find? fun i => s.disk.load32 (entries + entrySize * i) = 0 with
        | none => some s
        | some i =>
          let slot := entries + entrySize * i
          some ((s.setDisk ((s.disk.store32 slot child).memcpy (slot + 4) (nameField name))).setInode dir
            { n with size := n.size + entrySize })

/-- A 32-bit number as the `int` that it is returned as. -/
def asInt (v : Nat) : Int := if v < 2 ^ 31 then v else v - 2 ^ 32

def dirLookup (s : KernelFs) (dir : Nat) (name : CString) : Option Int :=
  if dir ≥ maxInodes then none
  else
    let n := s.inodes dir
    if n.type ≠ .dir ∨ n.blockCount = 0 then some (-1)
    else if n.blocks 0 ≥ maxBlocks then none
    else
      let entries := blockPtr (n.blocks 0)
      match (range maxEntries).find? fun i =>
          s.disk.load32 (entries + entrySize * i) != 0 && s.disk.strEq (entries + entrySize * i + 4) name with
      | none => some (-1)
      | some i => some (asInt (s.disk.load32 (entries + entrySize * i)))

def createInternal (s : KernelFs) (parent : Nat) (name : CString) (type : InodeType) : Option (KernelFs × Option Nat) :=
  match s.allocInode type parent with
  | none => some (s, none)
  | some (s, inode) => (s.dirAdd parent inode name).map fun s => (s, some inode)

def writeBlocks (s : KernelFs) (inode : Nat) (data : List UInt8) : Nat → Nat → KernelFs × Nat
  | 0, written => (s, written)
  | slots + 1, written =>
    if written < data.length then
      match s.allocBlock with
      | none => (s, written)
      | some (s, block) =>
        let n := s.inodes inode
        let s := s.setInode inode { n with blocks := update n.blocks n.blockCount block, blockCount := n.blockCount + 1 }
        let toCopy := min blockSize (data.length - written)
        writeBlocks (s.setDisk (s.disk.memcpy (blockPtr block) ((data.drop written).take toCopy))) inode data slots
          (written + toCopy)
    else (s, written)

def writeInternal (s : KernelFs) (inode : Nat) (data : List UInt8) : Option (KernelFs × Nat) :=
  if inode ≥ maxInodes then none
  else
    let s := s.setInode inode { s.inodes inode with blockCount := 0, size := 0 }
    let (s, written) := writeBlocks s inode data directBlocks 0
    some (s.setInode inode { s.inodes inode with size := written }, written)

def readBlocks (s : KernelFs) (n : Inode) (len : UInt32) : Nat → UInt32 → UInt32 → List UInt8 → Option (List UInt8)
  | 0, _, _, _ => none
  | fuel + 1, read, pos, buf =>
    if read < len then
      let size : UInt32 := UInt32.ofNat blockSize
      let blockIdx := pos / size
      let blockOffset := pos % size
      if blockIdx.toNat ≥ n.blockCount then some buf
      else if n.blocks blockIdx.toNat ≥ maxBlocks then none
      else
        let validInBlock := size - blockOffset
        let toRead := if len - read < validInBlock then len - read else validInBlock
        readBlocks s n len fuel (read + toRead) (pos + toRead)
          (buf ++ s.disk.bytes (blockPtr (n.blocks blockIdx.toNat) + blockOffset.toNat) toRead.toNat)
    else some buf

def readInternal (s : KernelFs) (inode : Nat) (len offset : UInt32) : Option (List UInt8) :=
  if inode ≥ maxInodes then none
  else
    let n := s.inodes inode
    let size := UInt32.ofNat n.size
    if offset ≥ size then some []
    else
      let len := if offset + len > size then size - offset else len
      readBlocks s n len (len.toNat + 1) 0 offset []

def createFile (s : KernelFs) : KernelFs × Option Nat :=
  match s.allocInode .file 0 with
  | none => (s, none)
  | some (s, i) => (s, some i)

def write (s : KernelFs) (inode : Nat) (data : List UInt8) : Option (KernelFs × Option Nat) :=
  if inode ≥ maxInodes then some (s, none)
  else if ¬ (s.inodes inode).used then some (s, none)
  else
    let n := s.inodes inode
    let r : Option KernelFs :=
      if n.blockCount = 0 then
        s.allocBlock.map fun r => r.1.setInode inode { n with blocks := update n.blocks 0 r.2, blockCount := 1 }
      else some s
    match r with
    | none => some (s, none)
    | some s =>
      let n := s.inodes inode
      if n.blocks 0 ≥ maxBlocks then none
      else
        let data := data.take blockSize
        some ((s.setDisk (s.disk.memcpy (blockPtr (n.blocks 0)) data)).setInode inode { n with size := data.length },
          some data.length)

/-- The tables after they have been cleared. -/
def cleared : KernelFs where
  disk _ := 0
  bitmap _ := false
  inodes _ :=
    { id := 0, type := .file, size := 0, blocks := fun _ => 0, blockCount := 0, parent := 0, used := false, uid := 0, gid := 0
      permissions := 0 }
  usedBlocks := 0
  usedInodes := 0

def init : Option KernelFs := do
  let (s, root) ← cleared.allocInode .dir 0
  let (s, home) ← s.createInternal root (.ofString "home") .dir
  let (s, user) ← s.createInternal (home.getD 0) (.ofString "user") .dir
  let (s, _) ← s.createInternal (user.getD 0) (.ofString "Desktop") .dir
  let (s, _) ← s.createInternal (user.getD 0) (.ofString "Downloads") .dir
  let (s, _) ← s.createInternal (user.getD 0) (.ofString ".recycle_bin") .dir
  return s

inductive Op where
  | create (parent : Nat) (name : CString) (type : InodeType)
  | createFile
  | writeInternal (inode : Nat) (data : List UInt8)
  | write (inode : Nat) (data : List UInt8)

/-- What an operation does; no value where it leaves a table. -/
def exec (s : KernelFs) : Op → Option KernelFs
  | .create parent name type => (s.createInternal parent name type).map Prod.fst
  | .createFile => some s.createFile.1
  | .writeInternal inode data => (s.writeInternal inode data).map Prod.fst
  | .write inode data => (s.write inode data).map Prod.fst

def blockList (s : KernelFs) (i : Nat) : List Nat := (range (s.inodes i).blockCount).map (s.inodes i).blocks

def Live (s : KernelFs) (i : Nat) : Prop := i < maxInodes ∧ (s.inodes i).used = true

end KernelFs
end RetroOs.Kernel
