import RetroOs.Kernel.OpenFiles
import RetroOs.Lib.CString

/-! The system calls that check a pointer of the program with `validate_user_pointer`, and the vectored
calls beside them. A node's operations are function pointers, so they are functions of the state here;
what they have behind them is one value. -/
namespace RetroOs.Kernel
open Lib

def kernelBase : ℕ := 0xC0000000

def pledgeInet : Word := 0x40

/-- The addresses that a pointer and a length stand for. -/
structure Range where
  base : ℕ
  length : ℕ
  deriving DecidableEq

/-- Below the kernel, and so without wrap. -/
def Range.InUser (r : Range) : Prop := r.base + r.length ≤ kernelBase

instance (r : Range) : Decidable r.InUser := inferInstanceAs (Decidable (_ ≤ _))

def validateUserPointer (ptr size : Word) : Bool :=
  if ptr < 0x20000000 then false
  else if ptr + size < ptr then false
  else true

/-- The memory from a pointer on, which goes on at 0 behind the last address. -/
def from32 (m : Memory) (a : Word) (k : ℕ) : UInt8 := m (a + BitVec.ofNat 32 k).toNat

def loadWord (m : Memory) (a : Word) : Word := BitVec.ofNat 32 (Memory.load32 (from32 m a) 0)

def iovBase (m : Memory) (iov : Word) (i : ℕ) : Word := loadWord m (iov + BitVec.ofNat 32 (8 * i))

def iovLen (m : Memory) (iov : Word) (i : ℕ) : Word := loadWord m (iov + BitVec.ofNat 32 (8 * i + 4))

def userString (m : Memory) (a : Word) : CString := Memory.cstr (from32 m a) 0 (2 ^ 32)

/-- What a `read` of a node returns and leaves, and the bytes of the buffer that it writes. -/
structure ReadResult (σ : Type) where
  ret : Word
  bytes : ℕ → Option UInt8
  device : σ

/-- What a `write` of a node returns and leaves, and the bytes of the buffer that it reads. -/
structure WriteResult (σ : Type) where
  ret : Word
  reads : ℕ → Bool
  device : σ

/-- The arguments are the offset and the size. -/
abbrev ReadOp (σ : Type) := σ → ℕ → Word → ReadResult σ

/-- The arguments are the offset, the size and the contents of the buffer. -/
abbrev WriteOp (σ : Type) := σ → ℕ → Word → (ℕ → UInt8) → WriteResult σ

/-- The function pointers of a node, and those of its file system. -/
structure VfsOps (σ : Type) where
  read : Option (ReadOp σ)
  write : Option (WriteOp σ)
  fsRead : Option (ReadOp σ)
  fsWrite : Option (WriteOp σ)

/-- `/dev/null`: the end of the file, and every byte taken unread. -/
def nullOps (σ : Type) : VfsOps σ where
  read := some fun device _ _ => { ret := 0, bytes := fun _ => none, device }
  write := some fun device _ size _ => { ret := size, reads := fun _ => false, device }
  fsRead := none
  fsWrite := none

def zeroOps (σ : Type) : VfsOps σ :=
  { nullOps σ with read := some fun device _ size => { ret := size, bytes := fun _ => some 0, device } }

/-- What the network answers: the address of a host, and what comes back for a URL if there is a connection. -/
structure Network where
  resolve : CString → Word
  get : CString → Option (List UInt8)

/-- `touched` lists the ranges of a program's arguments through which the kernel has read or written. -/
structure UserIo (σ : Type) where
  table : ProcessTable
  memory : Memory
  ops : ℕ → VfsOps σ
  device : σ
  net : Network
  touched : List Range

/-- The bytes that a read delivers to a buffer; no byte behind its end. -/
def deliver (m : Memory) (buf size : Word) (bytes : ℕ → Option UInt8) : Memory := fun x =>
  let k := (BitVec.ofNat 32 x - buf).toNat
  if x < 2 ^ 32 ∧ k < size.toNat then (bytes k).getD (m x) else m x

/-- A string argument, with its terminator. -/
def stringRange (m : Memory) (a : Word) : Range := ⟨a.toNat, (userString m a).length + 1⟩

/-- What `http_get` reads of a URL: up to the host name, which starts after seven or eight characters
whatever they are, and from there up to the terminator, or at most 255 characters from a slash on. -/
def urlRange (m : Memory) (url : Word) : Range :=
  let scheme := if (CString.ofString "https://").isPrefixOf (userString m url) then 8 else 7
  let host := userString m (url + BitVec.ofNat 32 scheme)
  match host.findIdx? fun c => c.val == 0x2F with
  | none => ⟨url.toNat, scheme + host.length + 1⟩
  | some i => ⟨url.toNat, scheme + i + min 255 (host.length - i + 1)⟩

namespace UserIo
variable {σ : Type}

def touch (s : UserIo σ) (r : Range) : UserIo σ := { s with touched := s.touched ++ [r] }

def readBy (s : UserIo σ) (op : ReadOp σ) (offset : ℕ) (buf size : Word) : UserIo σ × Word :=
  let r := op s.device offset size
  let s := { s with memory := deliver s.memory buf size r.bytes, device := r.device }
  (if (List.range size.toNat).any fun k => (r.bytes k).isSome then s.touch ⟨buf.toNat, size.toNat⟩ else s, r.ret)

def writeBy (s : UserIo σ) (op : WriteOp σ) (offset : ℕ) (buf size : Word) : UserIo σ × Word :=
  let r := op s.device offset size (from32 s.memory buf)
  let s := { s with device := r.device }
  (if (List.range size.toNat).any r.reads then s.touch ⟨buf.toNat, size.toNat⟩ else s, r.ret)

def vfsRead (s : UserIo σ) (node : ℕ) (offset : BitVec 64) (buf size : Word) : UserIo σ × Word :=
  if node = 0 then (s, 0)
  else
    match (s.ops node).read, (s.ops node).fsRead with
    | some op, _ => s.readBy op (offset.setWidth 32).toNat buf size
    | none, some op => s.readBy op offset.toNat buf size
    | none, none => (s, 0)

def vfsWrite (s : UserIo σ) (node : ℕ) (offset : BitVec 64) (buf size : Word) : UserIo σ × Word :=
  if node = 0 then (s, 0)
  else
    match (s.ops node).write, (s.ops node).fsWrite with
    | some op, _ => s.writeBy op (offset.setWidth 32).toNat buf size
    | none, some op => s.writeBy op offset.toNat buf size
    | none, none => (s, 0)

def fileOf (s : UserIo σ) (fd : Word) : Option ℕ :=
  match inTable? fd.toInt with
  | none => none
  | some i => if s.table.current.fdTable i = 0 then none else some (s.table.current.fdTable i)

def addOffset (s : UserIo σ) (desc : ℕ) (n : Word) : UserIo σ :=
  let f := s.table.files desc
  { s with table := s.table.setFile desc { f with offset := f.offset + n.setWidth 64 } }

def sysBuffer (call : UserIo σ → ℕ → BitVec 64 → Word → Word → UserIo σ × Word) (s : UserIo σ)
    (fd buf size : Word) : UserIo σ × Int :=
  match s.fileOf fd with
  | none => (s, -9)
  | some desc =>
    if validateUserPointer buf size then
      let f := s.table.files desc
      let r := call s f.node f.offset buf size
      (if 0 < r.2.toInt then r.1.addOffset desc r.2 else r.1, r.2.toInt)
    else (s, -9)

def sysRead (s : UserIo σ) (fd buf size : Word) : UserIo σ × Int := sysBuffer vfsRead s fd buf size

def sysWrite (s : UserIo σ) (fd buf size : Word) : UserIo σ × Int := sysBuffer vfsWrite s fd buf size

/-- One turn of a vectored call's loop, with the call for an element, up to the test of its end. -/
def transfer (call : UserIo σ → ℕ → BitVec 64 → Word → Word → UserIo σ × Word) (s : UserIo σ) (desc : ℕ)
    (iov : Word) (i : ℕ) : UserIo σ × Word :=
  let f := s.table.files desc
  let r := call s f.node f.offset (iovBase s.memory iov i) (iovLen s.memory iov i)
  (if r.2 ≠ 0 then r.1.addOffset desc r.2 else r.1, r.2)

/-- The loop of a vectored call over the elements that are left, from number `i` on. -/
def transferAll (call : UserIo σ → ℕ → BitVec 64 → Word → Word → UserIo σ × Word) (desc : ℕ) (iov : Word) :
    ℕ → ℕ → Word → UserIo σ → UserIo σ × Word
  | 0, _, total, s => (s, total)
  | left + 1, i, total, s =>
    let r := s.transfer call desc iov i
    if r.2 < iovLen r.1.memory iov i then (r.1, total + r.2)
    else transferAll call desc iov left (i + 1) (total + r.2) r.1

def sysVector (call : UserIo σ → ℕ → BitVec 64 → Word → Word → UserIo σ × Word) (s : UserIo σ)
    (fd iov iovcnt : Word) : UserIo σ × Int :=
  match s.fileOf fd with
  | none => (s, -9)
  | some desc =>
    if iov = 0 ∨ iovcnt.toInt ≤ 0 then (s, -22)
    else
      let r := transferAll call desc iov iovcnt.toNat 0 0 (s.touch ⟨iov.toNat, 8 * iovcnt.toNat⟩)
      (r.1, r.2.toInt)

def sysReadv (s : UserIo σ) (fd iov iovcnt : Word) : UserIo σ × Int := sysVector vfsRead s fd iov iovcnt

def sysWritev (s : UserIo σ) (fd iov iovcnt : Word) : UserIo σ × Int := sysVector vfsWrite s fd iov iovcnt

def sysDnsResolveCall (s : UserIo σ) (name : Word) : UserIo σ × Int :=
  if s.table.current.pledges &&& pledgeInet = 0 then (s, -1)
  else if ¬ validateUserPointer name 1 then (s, -14)
  else (s.touch (stringRange s.memory name), (s.net.resolve (userString s.memory name)).toInt)

/-- `http_get` without a response to fill in: what comes back goes to the buffer while there is room. -/
def httpGet (s : UserIo σ) (url buf maxLen : Word) : UserIo σ × Int :=
  let s := s.touch (urlRange s.memory url)
  match s.net.get (userString s.memory url) with
  | none => (s, -1)
  | some reply =>
    let received := reply.take maxLen.toInt.toNat
    if received = [] then (s, 0)
    else
      ({ s with memory := deliver s.memory buf maxLen fun k => received[k]? }.touch ⟨buf.toNat, maxLen.toNat⟩,
        received.length)

def sysHttpGetCall (s : UserIo σ) (url buf maxLen : Word) : UserIo σ × Int :=
  if s.table.current.pledges &&& pledgeInet = 0 then (s, -1)
  else if ¬ validateUserPointer url 1 then (s, -14)
  else if ¬ validateUserPointer buf maxLen then (s, -14)
  else s.httpGet url buf maxLen

end UserIo

inductive UserCall where
  | read (fd buf size : Word)
  | readv (fd iov iovcnt : Word)
  | write (fd buf size : Word)
  | writev (fd iov iovcnt : Word)
  | dnsResolve (name : Word)
  | httpGet (url buf maxLen : Word)
  deriving DecidableEq

namespace UserIo
variable {σ : Type}

def exec (s : UserIo σ) : UserCall → UserIo σ × Int
  | .read fd buf size => s.sysRead fd buf size
  | .readv fd iov iovcnt => s.sysReadv fd iov iovcnt
  | .write fd buf size => s.sysWrite fd buf size
  | .writev fd iov iovcnt => s.sysWritev fd iov iovcnt
  | .dnsResolve name => s.sysDnsResolveCall name
  | .httpGet url buf maxLen => s.sysHttpGetCall url buf maxLen

/-- Between the states every range through which the kernel has read or written lies in user space, and
the kernel's memory is as it was. -/
structure Kept (s t : UserIo σ) : Prop where
  touched : ∀ r ∈ t.touched, r ∈ s.touched ∨ r.InUser
  kernel : ∀ x, kernelBase ≤ x → t.memory x = s.memory x

def Confines (s : UserIo σ) (c : UserCall) : Prop := Kept s (s.exec c).1

end UserIo

end RetroOs.Kernel
