import RetroOs.Lib.CString
import RetroOs.Lib.Runs

/-! The Phase A file system: a table of inodes, 64 data blocks of 4096 bytes each, and directories
that are arrays of 68-byte entries in the first block of their inode. -/
namespace RetroOs.Kernel
open Lib

inductive InodeType where
  | unused
  | file
  | dir
  deriving DecidableEq, Repr

/-- Of `blocks` only the first is ever used. -/
structure Inode where
  id : Nat
  type : InodeType
  size : Nat
  block : Nat
  owner : Nat
  group : Nat
  perms : Nat
  deriving DecidableEq

structure PhaseA where
  inodes : Nat → Inode
  bytes : Memory
  inodeCount : Nat
  blockCount : Nat

namespace PhaseA

def blockSize : Nat := 4096
def blocks : Nat := 64
def maxInodes : Nat := 256
def maxPath : Nat := 256
def maxName : Nat := 64
def entrySize : Nat := maxName + 4

/-- The entries that fit in one block. -/
def dirCapacity : Nat := blockSize / entrySize

def entryAddr (block j : Nat) : Nat := blockSize * block + entrySize * j

def Inside (block j : Nat) : Prop := entryAddr block j + entrySize ≤ blockSize * blocks

instance (block j : Nat) : Decidable (Inside block j) := inferInstanceAs (Decidable (_ ≤ _))

def setInode (s : PhaseA) (i : Nat) (n : Inode) : PhaseA := { s with inodes := Function.update s.inodes i n }
def setBytes (s : PhaseA) (m : Memory) : PhaseA := { s with bytes := m }
def setBlock (s : PhaseA) (i b : Nat) : PhaseA := s.setInode i { s.inodes i with block := b }
def setSize (s : PhaseA) (i n : Nat) : PhaseA := s.setInode i { s.inodes i with size := n }

def allocBlock (s : PhaseA) : PhaseA × Nat :=
  if s.blockCount ≥ blocks then (s, 0) else ({ s with blockCount := s.blockCount + 1 }, s.blockCount)

def allocInode (s : PhaseA) (type : InodeType) : Option (PhaseA × Nat) :=
  if s.inodeCount ≥ maxInodes then none
  else
    let n : Inode :=
      { id := s.inodeCount, type, size := 0, block := 0, owner := 1000, group := 1000, perms := 0o755 }
    some ({ s with inodes := Function.update s.inodes s.inodeCount n, inodeCount := s.inodeCount + 1 }, s.inodeCount)

def clearBlock (s : PhaseA) (b : Nat) : PhaseA := s.setBytes (s.bytes.fill (blockSize * b) 0 blockSize)

private theorem slash_ne_zero : (47 : UInt8) ≠ 0 := by decide

def slash : CChar := ⟨47, slash_ne_zero⟩

def skipSlashes (path : CString) : Nat → Nat
  | 0 => 0
  | i + 1 => if path[i + 1]? = some slash then skipSlashes path i else i + 1

/-- `while (i >= 0 && path[i] != '/') i--;`, with no value once `i` is negative. -/
def skipName (path : CString) : Nat → Option Nat
  | 0 => if path[0]? = some slash then some 0 else none
  | i + 1 => if path[i + 1]? = some slash then some (i + 1) else skipName path i

/-- The parent and the name, unless one of them overruns its buffer. -/
def splitPath (path : CString) : Option (CString × CString) :=
  let cut := if path = [] then none else skipName path (skipSlashes path (path.length - 1))
  let (parent, name) :=
    match cut with
    | none => ([slash], path)
    | some 0 => ([slash], path.drop 1)
    | some i => (path.take i, path.drop (i + 1))
  if parent.length < maxPath ∧ name.length < maxName then some (parent, name) else none

/-- The first entry of this name. Inodes of any type are searched; a search that leaves
`phase_data_blocks` has no value. -/
def findEntry (s : PhaseA) (dir : Nat) (name : CString) : Option (Option Nat) :=
  let n := s.inodes dir
  match (List.range n.size).find? fun j => s.bytes.strEq (entryAddr n.block j) name with
  | some j => if Inside n.block j then some (some j) else none
  | none => if n.size = 0 ∨ Inside n.block (n.size - 1) then some none else none

def entryInode (s : PhaseA) (dir j : Nat) : Nat := s.bytes.load32 (entryAddr (s.inodes dir).block j + maxName)

/-- One component of a path; a token that overruns its buffer or an inode past the table has no value. -/
def resolveToken (s : PhaseA) (current : Nat) (token : CString) : Option (Option Nat) :=
  if token.length ≥ maxName then none
  else if token = [] then some (some current)
  else
    match findEntry s current token with
    | none => none
    | some none => some none
    | some (some j) => if s.entryInode current j < maxInodes then some (some (s.entryInode current j)) else none

def resolveFrom (s : PhaseA) (current : Nat) (token : CString) : CString → Option (Option Nat)
  | [] => resolveToken s current token
  | c :: rest =>
    if c = slash then
      match resolveToken s current token with
      | some (some next) => resolveFrom s next [] rest
      | r => r
    else resolveFrom s current (token ++ [c]) rest

def resolve (s : PhaseA) (path : CString) : Option (Option Nat) :=
  if path[0]? ≠ some slash then some none
  else if path = [slash] then some (some 0)
  else resolveFrom s 0 [] path.tail

def addEntry (s : PhaseA) (dir block : Nat) (name : CString) (n : Nat) : Option PhaseA :=
  let size := (s.inodes dir).size
  let slot := entryAddr block size
  if Inside block size then
    some ((s.setBytes ((s.bytes.strcpy slot name).store32 (slot + maxName) n)).setSize dir (size + 1))
  else none

def mkdir (s : PhaseA) (path : CString) : Option (PhaseA × Bool) := do
  let (parent, name) ← splitPath path
  let some dir ← resolve s parent | return (s, false)
  if (s.inodes dir).type ≠ .dir then return (s, false)
  if (← findEntry s dir name).isSome then return (s, false)
  match allocInode s .dir with
  | none => return (s, false)
  | some (s₁, n) =>
    let (s₂, b) := allocBlock s₁
    let s₃ ← ((s₂.setBlock n b).clearBlock b).addEntry dir (s.inodes dir).block name n
    return (s₃, true)

def createFile (s : PhaseA) (path : CString) : Option (PhaseA × Option Nat) := do
  let (parent, name) ← splitPath path
  let some dir ← resolve s parent | return (s, none)
  if (← findEntry s dir name).isSome then return (s, none)
  match allocInode s .file with
  | none => return (s, none)
  | some (s₁, n) =>
    let (s₂, b) := allocBlock s₁
    let s₃ := s₂.setBlock n b
    let s₄ ← s₃.addEntry dir (s₃.inodes dir).block name n
    return (s₄, some n)

def write (s : PhaseA) (f : Option Nat) (data : List UInt8) : PhaseA × Option Nat :=
  match f with
  | none => (s, none)
  | some f =>
    if (s.inodes f).type ≠ .file then (s, none)
    else
      let data := data.take blockSize
      ((s.setBytes (s.bytes.memcpy (blockSize * (s.inodes f).block) data)).setSize f data.length,
        some data.length)

def shiftEntries (m : Memory) (block i : Nat) : Nat → Memory
  | 0 => m
  | count + 1 => shiftEntries (m.move (entryAddr block i) (entryAddr block (i + 1)) entrySize) block (i + 1) count

def removeEntry (s : PhaseA) (dir i : Nat) : Option PhaseA :=
  let n := s.inodes dir
  if Inside n.block (n.size - 1) then
    some ((s.setBytes (shiftEntries s.bytes n.block i (n.size - 1 - i))).setSize dir (n.size - 1))
  else none

def rename (s : PhaseA) (oldpath newpath : CString) : Option (PhaseA × Bool) := do
  let (oldParent, oldName) ← splitPath oldpath
  let (newParent, newName) ← splitPath newpath
  let oldDir ← resolve s oldParent
  let newDir ← resolve s newParent
  let some oldDir := oldDir | return (s, false)
  let some newDir := newDir | return (s, false)
  let some i ← findEntry s oldDir oldName | return (s, false)
  let target := s.entryInode oldDir i
  if (← findEntry s newDir newName).isSome then return (s, false)
  let s₁ ← s.addEntry newDir (s.inodes newDir).block newName target
  let s₂ ← s₁.removeEntry oldDir i
  return (s₂, true)

/-- The name loop of `createInDir`: every character is followed by a terminator. -/
def copyName (m : Memory) (a : Nat) : CString → Memory
  | [] => m
  | c :: name => copyName ((m.store8 a c).store8 (a + 1) 0) (a + 1) name

def createInDir (s : PhaseA) (pdir : Option Nat) (name : CString) (directory : Bool) :
    Option (PhaseA × Option Nat) := do
  let some dir := pdir | return (s, none)
  if (s.inodes dir).type ≠ .dir then return (s, none)
  if (← findEntry s dir name).isSome then return (s, none)
  match allocInode s (if directory then .dir else .file) with
  | none => return (s, none)
  | some (s₁, n) =>
    let (s₂, b) := allocBlock s₁
    let s₃ := s₂.setBlock n b
    let s₄ := if directory then s₃.clearBlock b else s₃
    let idx := (s₄.inodes dir).size
    -- The inode and the block are taken by now.
    if idx ≥ dirCapacity then return (s₄, none)
    let slot := entryAddr (s.inodes dir).block idx
    return ((s₄.setBytes ((copyName s₄.bytes slot (name.take (maxName - 1))).store32 (slot + maxName) n)).setSize
      dir (idx + 1), some n)

/-- The tables of a machine just started, and the one left of a boot without a stored state. -/
def fresh : PhaseA where
  inodes _ := { id := 0, type := .unused, size := 0, block := 0, owner := 0, group := 0, perms := 0 }
  bytes _ := 0
  inodeCount := 0
  blockCount := 0

def welcome : List UInt8 :=
  ("Welcome to Retro-OS Phase A\nThis file is stored in RAM blocks.\n".toList.map fun c => c.toNat.toUInt8).take 60

/-- The first step of the bootstrap: the root directory. -/
def bootRoot : PhaseA :=
  match allocInode fresh .dir with
  | none => fresh
  | some (s₁, root) =>
    let (s₂, b) := allocBlock s₁
    (s₂.setBlock root b).clearBlock b

/-- The directories and the file that the bootstrap makes under the root. -/
def bootHierarchy (s : PhaseA) : Option PhaseA := do
  let (s, _) ← s.mkdir (.ofString "/home")
  let (s, _) ← s.mkdir (.ofString "/home/user")
  let (s, _) ← s.mkdir (.ofString "/home/user/Desktop")
  let (s, _) ← s.mkdir (.ofString "/home/user/Documents")
  let (s, _) ← s.mkdir (.ofString "/home/user/Downloads")
  let (s, _) ← s.mkdir (.ofString "/system")
  let (s, _) ← s.mkdir (.ofString "/system/.recycle")
  let (s, id) ← s.createFile (.ofString "/home/user/Desktop/readme.txt")
  match id with
  | none => return s
  | some id => return (s.write (some id) welcome).1

/-- The bootstrap where `phase_vfs_load` finds no stored state. -/
def bootstrap : Option PhaseA := bootRoot.bootHierarchy

inductive Op where
  | mkdir (path : CString)
  | createFile (path : CString)
  | createInDir (pdir : Option Nat) (name : CString) (directory : Bool)
  | write (f : Option Nat) (data : List UInt8)
  | rename (oldpath newpath : CString)

/-- What an operation does, and whether it succeeds; no value where it leaves a buffer or a table. -/
def exec (s : PhaseA) : Op → Option (PhaseA × Bool)
  | .mkdir path => s.mkdir path
  | .createFile path => (s.createFile path).map fun r => (r.1, r.2.isSome)
  | .createInDir pdir name directory => (s.createInDir pdir name directory).map fun r => (r.1, r.2.isSome)
  | .write f data => some ((s.write f data).1, (s.write f data).2.isSome)
  | .rename oldpath newpath => s.rename oldpath newpath

end PhaseA
end RetroOs.Kernel
