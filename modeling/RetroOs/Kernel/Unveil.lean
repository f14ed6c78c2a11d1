import RetroOs.Kernel.OpenFiles
import RetroOs.Lib.PathName

/-! The two calls that open a path, over a file system whose lookups are function pointers, and what the
list of unveiled paths asks of them. -/
namespace RetroOs.Kernel
open Lib PathName

abbrev Name := List Char

def dotName : Name := ['.']
def dotDotName : Name := ['.', '.']

/-- A name that `get_next_token` can store. -/
def tokenSize : ℕ := 128

/-- The nodes by address, 0 for null. `phase` is what `phase_vfs_resolve` finds, with a node around it; it has no
value where a component overruns the buffer there. `path` tells where a node is: whatever way a lookup goes, what it finds
in a directory lies below it under that name, or is the directory itself or its parent. -/
structure Vfs where
  root : ℕ
  finddir : ℕ → Option (Name → ℕ)
  lookup : ℕ → Option (Name → ℕ)
  phase : List Char → Option ℕ
  path : ℕ → List Name
  root_ne : root ≠ 0
  root_path : path root = []
  finddir_leads {d : ℕ} {f : Name → ℕ} {c : Name} : finddir d = some f → f c ≠ 0 → Leads dotName dotDotName (path d) c (path (f c))
  lookup_leads {d : ℕ} {f : Name → ℕ} {c : Name} : lookup d = some f → f c ≠ 0 → Leads dotName dotDotName (path d) c (path (f c))
  phase_target {p : List Char} {n : ℕ} : phase p = some n → n ≠ 0 →
    (∀ c ∈ components '/' p, c.length < tokenSize) ∧ Target dotName dotDotName [] (components '/' p) (path n)

namespace Vfs

/-- The entry of a directory; the root is looked up in Phase A where it has no function of its own. -/
def next (v : Vfs) (current : ℕ) (token : Name) : Option ℕ :=
  match v.finddir current, v.lookup current with
  | some f, _ => some (f token)
  | none, some f => some (f token)
  | none, none => if current = v.root then v.phase ('/' :: token) else some 0

/-- The loop of `vfs_resolve_path_relative`, which takes a character at least with each token. -/
def walk (v : Vfs) : ℕ → ℕ → List Char → Option ℕ
  | 0, _, _ => none
  | n + 1, current, path =>
    if token '/' path = [] then some current
    else if tokenSize ≤ (token '/' path).length then none
    else
      match v.next current (token '/' path) with
      | none => none
      | some next => if next = 0 then some 0 else walk v n next (afterToken '/' path)

def IsAbsolute (path : List Char) : Prop := path.head? = some '/'

instance (path : List Char) : Decidable (IsAbsolute path) := inferInstanceAs (Decidable (_ = _))

/-- The directory a relative path starts from. -/
def start (v : Vfs) (base : ℕ) : ℕ := if base = 0 then v.root else base

/-- The node of a path, 0 if there is none; no value where a component overruns its buffer. -/
def resolvePathRelative (v : Vfs) (base : ℕ) (path : List Char) : Option ℕ :=
  if IsAbsolute path then
    if path = ['/'] then some v.root
    else
      match v.phase path with
      | none => none
      | some n => if n ≠ 0 then some n else v.walk (path.length + 1) v.root path
  else v.walk (path.length + 1) (v.start base) path

end Vfs

/-- The permission that the flags ask of an unveiled path. -/
def neededPerms (flags : Word) : Word :=
  if flags &&& 0x40 ≠ 0 then 8 else if flags &&& 3 = 0 then 4 else 2

def neededPledge (flags : Word) : Word :=
  if flags &&& 0x40 ≠ 0 then 0x08 else if flags &&& 3 = 0 then 0x02 else 0x04

def atFdcwd : Int := -100

namespace OpenFiles

def sysOpen (v : Vfs) (s : OpenFiles) (path : String) (flags : Word) (desc : ℕ) : Option (OpenFiles × Int) :=
  if ¬ s.table.checkUnveil path (neededPerms flags) then some (s, -13)
  else if s.table.current.pledges &&& neededPledge flags = 0 then some (s, -1)
  else (v.resolvePathRelative v.root path.toList).map fun node => s.openNode node flags desc

def dirNode? (v : Vfs) (s : OpenFiles) (dirfd : Int) : Option ℕ :=
  if dirfd = atFdcwd then some v.root
  else
    match inTable? dirfd with
    | none => none
    | some i => if s.slot i = 0 then none else some (s.table.files (s.slot i)).node

def sysOpenat (v : Vfs) (s : OpenFiles) (dirfd : Int) (path : String) (flags : Word) (desc : ℕ) : Option (OpenFiles × Int) :=
  match s.dirNode? v dirfd with
  | none => some (s, -9)
  | some base => (v.resolvePathRelative base path.toList).map fun node => s.openNode node flags desc

end OpenFiles

inductive OpenCall where
  | sysOpen (path : String) (flags : Word)
  | sysOpenat (dirfd : Int) (path : String) (flags : Word)
  deriving DecidableEq

namespace OpenCall

def path : OpenCall → String
  | .sysOpen path _ => path
  | .sysOpenat _ path _ => path

def flags : OpenCall → Word
  | .sysOpen _ flags => flags
  | .sysOpenat _ _ flags => flags

def exec (v : Vfs) (s : OpenFiles) (desc : ℕ) : OpenCall → Option (OpenFiles × Int)
  | .sysOpen path flags => s.sysOpen v path flags desc
  | .sysOpenat dirfd path flags => s.sysOpenat v dirfd path flags desc

end OpenCall

structure OpenRights where
  unveils : List UnveilNode
  pledges : Word
  dirs : Fin maxProcessFiles → Option (List Name)

def OpenRights.Grants (r : OpenRights) (flags : Word) (object : List Name) : Prop :=
  (∃ u ∈ r.unveils, components '/' u.path.toList <+: object ∧ u.permissions &&& neededPerms flags = neededPerms flags) ∧
    r.pledges &&& neededPledge flags ≠ 0

namespace OpenFiles

def rights (v : Vfs) (s : OpenFiles) : OpenRights where
  unveils := s.table.current.unveils
  pledges := s.table.current.pledges
  dirs i := if s.slot i = 0 then none else some (v.path (v.start (s.table.files (s.slot i)).node))

def Lawful (v : Vfs) (s : OpenFiles) (c : OpenCall) : Prop :=
  ∀ desc t fd, c.exec v s desc = some (t, fd) → 0 ≤ fd → (s.rights v).Grants c.flags (v.path (t.table.files desc).node)

end OpenFiles

namespace OpenCall

/-- Where a call starts from, if its descriptor is a directory. -/
def base (r : OpenRights) : OpenCall → Option (List Name)
  | .sysOpen _ _ => some []
  | .sysOpenat dirfd path _ =>
    let dir := if dirfd = atFdcwd then some [] else (inTable? dirfd).bind r.dirs
    dir.map fun d => if Vfs.IsAbsolute path.toList then [] else d

def Checked (r : OpenRights) : OpenCall → Prop
  | .sysOpen path flags =>
    (r.unveils = [] ∨ ∃ u ∈ r.unveils, u.path.toList <+: path.toList ∧ u.permissions &&& neededPerms flags = neededPerms flags) ∧
      r.pledges &&& neededPledge flags ≠ 0
  | .sysOpenat _ _ _ => True

/-- A call that passes the checks, has a descriptor to give and a path to resolve is granted wherever
the path can lead. -/
def Confined (r : OpenRights) (c : OpenCall) : Prop :=
  c.Checked r → (∃ i, r.dirs i = none) → (∀ n ∈ components '/' c.path.toList, n.length < tokenSize) →
    ∀ b, c.base r = some b → ∀ p, Target dotName dotDotName b (components '/' c.path.toList) p → r.Grants c.flags p

end OpenCall
end RetroOs.Kernel
