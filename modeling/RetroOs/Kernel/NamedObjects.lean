import RetroOs.Kernel.Pmm
import RetroOs.Lib.CString

/-! The tables of named semaphores, message queues and shared memory objects. Their calls to open, close and unlink
differ only in what an entry holds. -/
namespace RetroOs.Kernel
open Lib List

def oCreat : Word := 0x40
def oExcl : Word := 0x80

/-- An entry of a table; it is not in use where the name is empty. -/
structure Named (α : Type) where
  name : CString
  refCount : Word
  unlinked : Bool
  object : α

abbrev NamedTable (n : ℕ) (α : Type) := Fin n → Named α

/-- What one of the tables does with an object when it is made and when its entry is given up, and whether it has a call
to close one. -/
structure NamedFamily (α : Type) where
  create : α → α
  release : α → α
  closes : Bool

namespace NamedTable
variable {n : ℕ} {α : Type}

def slash : CChar := ⟨47, by decide⟩

/-- The first entry in use that has the name. -/
def lookup (t : NamedTable n α) (name : CString) : Option (Fin n) :=
  (finRange n).find? fun i => (t i).name ≠ [] ∧ (t i).name = name

def freeSlot (t : NamedTable n α) : Option (Fin n) := (finRange n).find? fun i => (t i).name = []

def setEntry (t : NamedTable n α) (i : Fin n) (e : Named α) : NamedTable n α := Function.update t i e

/-- A name is stored up to its 63rd character. -/
def create (t : NamedTable n α) (f : NamedFamily α) (i : Fin n) (name : CString) : NamedTable n α :=
  t.setEntry i { name := name.take 63, refCount := 1, unlinked := false, object := f.create (t i).object }

def openObject (t : NamedTable n α) (f : NamedFamily α) (name : Option CString) (oflag : Word) : NamedTable n α × Option (Fin n) :=
  match name with
  | none => (t, none)
  | some name =>
    if name.head? ≠ some slash then (t, none)
    else
      match t.lookup name with
      | some i =>
        if oflag &&& oCreat ≠ 0 ∧ oflag &&& oExcl ≠ 0 then (t, none)
        else (t.setEntry i { t i with refCount := (t i).refCount + 1 }, some i)
      | none =>
        if oflag &&& oCreat = 0 then (t, none)
        else
          match t.freeSlot with
          | none => (t, none)
          | some i => (t.create f i name, some i)

def settle (t : NamedTable n α) (f : NamedFamily α) (i : Fin n) : NamedTable n α :=
  if (t i).refCount.toInt ≤ 0 ∧ (t i).unlinked then t.setEntry i { t i with name := [], object := f.release (t i).object } else t

def closeObject (t : NamedTable n α) (f : NamedFamily α) (i : Fin n) : NamedTable n α :=
  settle (t.setEntry i { t i with refCount := (t i).refCount - 1 }) f i

/-- The entry `sem_unlink`, `mq_unlink` and `shm_unlink` find is the first one with the name, in use or not. -/
def toUnlink (t : NamedTable n α) (name : CString) : Option (Fin n) := (finRange n).find? fun i => (t i).name = name

def unlinkObject (t : NamedTable n α) (f : NamedFamily α) (name : Option CString) : NamedTable n α × Int :=
  match name.bind t.toUnlink with
  | none => (t, -1)
  | some i => (settle (t.setEntry i { t i with unlinked := true }) f i, 0)

variable {t : NamedTable n α} {f : NamedFamily α} {e : Named α} {i j : Fin n} {name : CString}

@[simp] theorem setEntry_self : t.setEntry i e i = e := Function.update_self ..

theorem setEntry_other (h : j ≠ i) : t.setEntry i e j = t j := Function.update_of_ne h ..

theorem lookup_some (h : t.lookup name = some i) : (t i).name ≠ [] ∧ (t i).name = name := by
  simpa using find?_some h

theorem lookup_none (h : t.lookup name = none) (hi : (t i).name = name) : name = [] := by
  have := find?_eq_none.mp h i (mem_finRange i)
  simp only [ne_eq, decide_eq_true_eq, not_and] at this
  by_contra hne
  exact this (hi ▸ hne) hi

theorem freeSlot_some (h : t.freeSlot = some i) : (t i).name = [] := by simpa using find?_some h

theorem freeSlot_none (h : t.freeSlot = none) (i : Fin n) : (t i).name ≠ [] := by
  simpa using find?_eq_none.mp h i (mem_finRange i)

theorem toUnlink_some (h : t.toUnlink name = some i) : (t i).name = name := by simpa using find?_some h

theorem toUnlink_none (h : t.toUnlink name = none) (i : Fin n) : (t i).name ≠ name := by
  simpa using find?_eq_none.mp h i (mem_finRange i)

end NamedTable

/-- A POSIX semaphore. -/
structure Sem where
  value : Int
  waiters : Int
  deriving DecidableEq

/-- Descriptor, size and address of a shared memory object. -/
structure ShmObject where
  fd : Word
  size : Word
  addr : Word
  deriving DecidableEq

def maxNamedSems : ℕ := 32
def maxShmObjects : ℕ := 16

def semFamily : NamedFamily Sem where
  create _ := { value := 1, waiters := 0 }
  release s := s
  closes := true

/-- There is no call to close a shared memory object. -/
def shmFamily (fd : Word) : NamedFamily ShmObject where
  create _ := { fd, size := 0, addr := 0 }
  release o := o
  closes := false

abbrev NamedSems := NamedTable maxNamedSems Sem

/-- The pointer that it returns, or `SEM_FAILED`, by its entry. -/
def semOpen (t : NamedSems) (name : Option CString) (oflag : Word) : NamedSems × Option (Fin maxNamedSems) :=
  t.openObject semFamily name oflag

/-- A pointer to no semaphore of the table is refused. -/
def semClose (t : NamedSems) (sem : Option (Fin maxNamedSems)) : NamedSems × Int :=
  match sem with
  | none => (t, -1)
  | some i => (t.closeObject semFamily i, 0)

def semUnlink (t : NamedSems) (name : Option CString) : NamedSems × Int := t.unlinkObject semFamily name

structure ShmObjects where
  table : NamedTable maxShmObjects ShmObject
  nextShmFd : Word

namespace ShmObjects

/-- The result is a descriptor or -1. -/
def shmOpen (s : ShmObjects) (name : Option CString) (oflag : Word) : ShmObjects × Word :=
  let (table, slot) := s.table.openObject (shmFamily s.nextShmFd) name oflag
  match slot with
  | none => ({ s with table }, -1)
  | some i =>
    ({ table, nextShmFd := if (s.table i).name = [] then s.nextShmFd + 1 else s.nextShmFd }, (table i).object.fd)

def shmUnlink (s : ShmObjects) (name : Option CString) : ShmObjects × Int :=
  let (table, result) := s.table.unlinkObject (shmFamily s.nextShmFd) name
  ({ s with table }, result)

end ShmObjects
end RetroOs.Kernel
