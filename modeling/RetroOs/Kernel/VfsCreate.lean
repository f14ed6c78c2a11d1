import RetroOs.Kernel.PhaseADurable
import RetroOs.Kernel.PhaseAPaths

/-! `vfs_create` over its two file systems: Phase A is tried first, and what fails there is made in the node that the
lookup of the parent finds, on the FAT16 volume or in Phase A again. -/
namespace RetroOs.Kernel
open Lib Drivers PathName

/-- The tables of Phase A with the flag of its saves, and the disk below the FAT16 root. -/
structure FileSystems where
  tables : PhaseA
  sync : Bool
  disk : Disk

/-- The nodes of devfs by the lookup they have. -/
inductive DevNode where
  | root
  | pts
  | device
  deriving DecidableEq

/-- A node by what its functions depend on. `vfs_root` is the directory 0 of the volume. -/
inductive VfsNode where
  | phase (inode : Nat)
  | fat (cluster : Nat)
  | dev (n : DevNode)
  deriving DecidableEq

/-- `devfs_finddir` and `pts_finddir`. The terminals that there are have nodes by these names. -/
def devFinddir (slaves : CString → Bool) : DevNode → CString → Option DevNode
  | .root, name =>
    if name = .ofString "null" ∨ name = .ofString "zero" ∨ name = .ofString "tty" ∨ name = .ofString "ptmx" then some .device
    else if name = .ofString "pts" then some .pts
    else none
  | .pts, name => if slaves name then some .device else none
  | .device, _ => none

/-- The names that `get_next_token` and `vfs_create` can store. -/
def nameSize : Nat := 128

def vfsDirectory : Nat := 1

structure CreateCall where
  path : CString
  type : Nat
  /-- `phase_vfs_sync` gets its buffer. -/
  buf : Bool

namespace CreateCall

/-- The last slash. -/
def cut (c : CreateCall) : Option Nat :=
  if c.path = [] then none else PhaseA.skipName c.path (c.path.length - 1)

/-- What is in front of the last slash. -/
def parentPath (c : CreateCall) : CString := c.cut.elim [] c.path.take

def name (c : CreateCall) : CString := c.cut.elim c.path fun k => c.path.drop (k + 1)

end CreateCall

namespace FileSystems
open PhaseA

variable (b : Bpb) (slaves : CString → Bool)

def phaseLookup (v : FileSystems) (dir : Nat) (name : CString) : Option (Option VfsNode) :=
  if (v.tables.inodes dir).type ≠ .dir then some none
  else
    match findEntry v.tables dir name with
    | none => none
    | some none => some none
    | some (some j) =>
      if v.tables.entryInode dir j < maxInodes then some (some (.phase (v.tables.entryInode dir j))) else none

def next (v : FileSystems) : VfsNode → CString → Option (Option VfsNode)
  | .phase i, name => v.phaseLookup i name
  | .fat cluster, name =>
    match Fat16.finddirVfs b v.disk cluster name with
    | none => none
    | some .missing => some none
    | some .devfs => some (some (.dev .root))
    | some (.node n) => some (some (.fat n.impl))
  | .dev n, name => some ((devFinddir slaves n name).map .dev)

/-- The loop of `vfs_resolve_path_relative`, which takes a character at least with each token. -/
def walk (v : FileSystems) : Nat → VfsNode → CString → Option (Option VfsNode)
  | 0, _, _ => none
  | n + 1, current, path =>
    if token slash path = [] then some (some current)
    else if nameSize ≤ (token slash path).length then none
    else
      match v.next b slaves current (token slash path) with
      | some (some next) => walk v n next (afterToken slash path)
      | r => r

def walkRoot (v : FileSystems) (path : CString) : Option (Option VfsNode) :=
  v.walk b slaves (path.length + 1) (.fat 0) path

/-- `vfs_resolve_path`; no value where a component overruns its buffer or a lookup has no end. -/
def resolvePath (v : FileSystems) (path : CString) : Option (Option VfsNode) :=
  if path.head? ≠ some slash then v.walkRoot b slaves path
  else if path = [slash] then some (some (.fat 0))
  else
    match resolve v.tables path with
    | none => none
    | some (some i) => some (some (.phase i))
    | some none => v.walkRoot b slaves path

def tryPhaseA (v : FileSystems) (c : CreateCall) : Option (PhaseA × Bool) :=
  if c.path.head? ≠ some slash then some (v.tables, false)
  else if c.type = vfsDirectory then v.tables.mkdir c.path
  else (v.tables.createFile c.path).map fun r => (r.1, r.2.isSome)

/-- The directory that the last step goes to. -/
def parentNode (v : FileSystems) (c : CreateCall) : Option (Option VfsNode) :=
  match c.cut with
  | some (k + 1) => if k + 1 < maxPath then v.resolvePath b slaves (c.path.take (k + 1)) else none
  | _ => some (some (.fat 0))

def createIn (v : FileSystems) (c : CreateCall) : VfsNode → Option (FileSystems × Int)
  | .phase i => do
    let (t, n) ← v.tables.createInDir (some i) c.name (c.type = vfsDirectory ∨ c.type = 2)
    match n with
    | none => return ({ v with tables := t }, -1)
    | some n => return ({ v with tables := t, disk := t.vfsSync b v.disk v.sync c.buf }, n)
  | .fat cluster =>
    let (d, r) := if c.type = vfsDirectory then Fat16.mkdirVfs b v.disk cluster c.name else Fat16.createVfs b v.disk cluster c.name
    r.map fun r => ({ v with disk := d }, r)
  | .dev _ => some (v, -1)

/-- `vfs_create`; no value where a name overruns its buffer or a search has no end. -/
def create (v : FileSystems) (c : CreateCall) : Option (FileSystems × Int) := do
  let (t, ok) ← v.tryPhaseA c
  if ok then return ({ v with tables := t, disk := t.vfsSync b v.disk v.sync c.buf }, 0)
  let v := { v with tables := t }
  let parent ← v.parentNode b slaves c
  if nameSize ≤ c.name.length then none
  match parent with
  | none => return (v, -1)
  | some node => v.createIn b c node

/-- The path leads to a node. -/
def Resolves (v : FileSystems) (path : CString) : Prop := ∃ n, v.resolvePath b slaves path = some (some n)

def PhaseHolds (v : FileSystems) (path : CString) : Prop := ∃ i, resolve v.tables path = some (some i)

def RootHolds (v : FileSystems) (path : CString) : Prop := ∃ n, v.walkRoot b slaves path = some (some n)

/-- No absolute path below the root leads somewhere in both. -/
def Separate (v : FileSystems) : Prop :=
  ∀ path, path.head? = some slash → components slash path ≠ [] → ¬ (v.PhaseHolds path ∧ v.RootHolds b slaves path)

/-- What a call should do: fail and change nothing where the path already leads somewhere; and where it returns 0, the
path leads to one object. -/
structure CreateContract (v : FileSystems) (path : CString) (v' : FileSystems) (r : Int) : Prop where
  existing : v.Resolves b slaves path → r < 0 ∧ v'.tables = v.tables ∧ v'.disk.bytes = v.disk.bytes
  made : r = 0 → v'.Resolves b slaves path ∧ ¬ (v'.PhaseHolds path ∧ v'.RootHolds b slaves path)

end FileSystems
end RetroOs.Kernel
