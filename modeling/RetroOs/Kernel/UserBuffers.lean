import RetroOs.Kernel.UserPointers

/-! When the calls of `UserPointers` keep to user space, whatever lies behind a descriptor. -/
namespace RetroOs.Kernel
open Lib List BitVec Nat

/-- An element of a vector. -/
def iovRange (m : Memory) (iov : Word) (i : ℕ) : Range := ⟨(iovBase m iov i).toNat, (iovLen m iov i).toNat⟩

/-- The elements that are left to read lie in user space, unless they are empty, and so they do whatever
the earlier ones receive. -/
def VectorInUser (iov : Word) : ℕ → ℕ → Memory → Prop
  | 0, _, _ => True
  | left + 1, i, m =>
    ((iovRange m iov i).length ≠ 0 → (iovRange m iov i).InUser) ∧
      ∀ m' : Memory, (∀ x, x < (iovRange m iov i).base ∨ (iovRange m iov i).base + (iovRange m iov i).length ≤ x → m' x = m x) →
        VectorInUser iov left (i + 1) m'

/-- What the arguments must meet, which the calls do not check. -/
def UserCall.Confined (m : Memory) : UserCall → Prop
  | .read fd buf size | .write fd buf size =>
    (inTable? fd.toInt).isSome → validateUserPointer buf size → size ≠ 0 → Range.InUser ⟨buf.toNat, size.toNat⟩
  | .readv fd iov iovcnt =>
    (inTable? fd.toInt).isSome → iov ≠ 0 → 0 < iovcnt.toInt →
      Range.InUser ⟨iov.toNat, 8 * iovcnt.toNat⟩ ∧ VectorInUser iov iovcnt.toNat 0 m
  | .writev fd iov iovcnt =>
    (inTable? fd.toInt).isSome → iov ≠ 0 → 0 < iovcnt.toInt →
      Range.InUser ⟨iov.toNat, 8 * iovcnt.toNat⟩ ∧
        ∀ i < iovcnt.toNat, (iovRange m iov i).length ≠ 0 → (iovRange m iov i).InUser
  | .dnsResolve name => validateUserPointer name 1 → (stringRange m name).InUser
  | .httpGet url buf maxLen =>
    validateUserPointer url 1 → validateUserPointer buf maxLen →
      (urlRange m url).InUser ∧ (0 < maxLen.toInt → Range.InUser ⟨buf.toNat, maxLen.toNat⟩)

namespace UserIo
variable {σ : Type} {s t : UserIo σ} {r : Range} {buf fd iov size total : Word} {bytes : ℕ → Option UInt8}
  {call : UserIo σ → ℕ → BitVec 64 → Word → Word → UserIo σ × Word} {desc i left x : ℕ} {m : Memory}

/-- A state in which nothing but what a transfer to or from a buffer changes has changed. -/
structure Moved (s t : UserIo σ) (buf size : Word) : Prop where
  table : t.table = s.table
  ops : t.ops = s.ops
  memory : t.memory = s.memory ∨ ∃ bytes, t.memory = deliver s.memory buf size bytes
  touched : t.touched = s.touched ∨ size ≠ 0 ∧ t.touched = s.touched ++ [⟨buf.toNat, size.toNat⟩]

private theorem any_range_zero {f : ℕ → Bool} (h : (range size.toNat).any f) : size ≠ 0 := by
  rintro rfl
  simp at h

private theorem readBy_moved (s : UserIo σ) (op : ReadOp σ) (offset : ℕ) (buf size : Word) :
    Moved s (s.readBy op offset buf size).1 buf size := by
  unfold readBy
  dsimp only
  split
  · next h => exact ⟨rfl, rfl, .inr ⟨_, rfl⟩, .inr ⟨any_range_zero h, rfl⟩⟩
  · exact ⟨rfl, rfl, .inr ⟨_, rfl⟩, .inl rfl⟩

private theorem writeBy_moved (s : UserIo σ) (op : WriteOp σ) (offset : ℕ) (buf size : Word) :
    Moved s (s.writeBy op offset buf size).1 buf size := by
  unfold writeBy
  dsimp only
  split
  · next h => exact ⟨rfl, rfl, .inl rfl, .inr ⟨any_range_zero h, rfl⟩⟩
  · exact ⟨rfl, rfl, .inl rfl, .inl rfl⟩

theorem Moved.refl (s : UserIo σ) (buf size : Word) : Moved s s buf size := ⟨rfl, rfl, .inl rfl, .inl rfl⟩

theorem vfsRead_moved (s : UserIo σ) (node : ℕ) (offset : BitVec 64) (buf size : Word) :
    Moved s (s.vfsRead node offset buf size).1 buf size := by
  unfold vfsRead
  split
  · exact .refl s buf size
  · split
    · exact readBy_moved ..
    · exact readBy_moved ..
    · exact .refl s buf size

theorem vfsWrite_moved (s : UserIo σ) (node : ℕ) (offset : BitVec 64) (buf size : Word) :
    Moved s (s.vfsWrite node offset buf size).1 buf size ∧ (s.vfsWrite node offset buf size).1.memory = s.memory := by
  unfold vfsWrite writeBy
  split
  · exact ⟨.refl s buf size, rfl⟩
  · split
    · refine ⟨writeBy_moved .., ?_⟩
      dsimp only
      split <;> rfl
    · refine ⟨writeBy_moved .., ?_⟩
      dsimp only
      split <;> rfl
    · exact ⟨.refl s buf size, rfl⟩

private theorem deliver_zero (m : Memory) (buf : Word) (bytes : ℕ → Option UInt8) : deliver m buf 0 bytes = m := by
  funext x
  rw [deliver, if_neg]
  exact fun h => not_lt_zero _ h.2

theorem sub_toNat (hx : x < 2 ^ 32) :
    (BitVec.ofNat 32 x - buf).toNat = if buf.toNat ≤ x then x - buf.toNat else 2 ^ 32 + x - buf.toNat := by
  rw [toNat_sub, toNat_ofNat, Nat.mod_eq_of_lt hx]
  split
  · rw [show 2 ^ 32 - buf.toNat + x = 2 ^ 32 + (x - buf.toNat) by omega, Nat.add_mod_left]
    exact Nat.mod_eq_of_lt (by omega)
  · rw [show 2 ^ 32 - buf.toNat + x = 2 ^ 32 + x - buf.toNat by omega]
    exact Nat.mod_eq_of_lt (by omega)

private theorem deliver_outside
    (hr : Range.InUser ⟨buf.toNat, size.toNat⟩) (hx : x < buf.toNat ∨ buf.toNat + size.toNat ≤ x) :
    deliver m buf size bytes x = m x := by
  change buf.toNat + size.toNat ≤ 0xC0000000 at hr
  rw [deliver, if_neg]
  rintro ⟨hlt, hk⟩
  rw [sub_toNat hlt] at hk
  split at hk <;> omega

/-- A turn of the loop only adds its own element, if that is not empty. -/
theorem transfer_touched
    (hcall : ∀ s node offset buf size, Moved s (call s node offset buf size).1 buf size) (s : UserIo σ) (desc : ℕ)
    (iov : Word) (i : ℕ) :
    (s.transfer call desc iov i).1.touched = s.touched ∨
      (iovRange s.memory iov i).length ≠ 0 ∧ (s.transfer call desc iov i).1.touched = s.touched ++ [iovRange s.memory iov i] := by
  have hm := (hcall s (s.table.files desc).node (s.table.files desc).offset (iovBase s.memory iov i) (iovLen s.memory iov i)).touched
  have hne (h : iovLen s.memory iov i ≠ 0) : (iovRange s.memory iov i).length ≠ 0 :=
    fun h0 => h (eq_of_toNat_eq h0)
  rw [transfer]
  split
  · exact hm.imp id (And.imp hne id)
  · exact hm.imp id (And.imp hne id)

private theorem transfer_memory (s : UserIo σ) (desc : ℕ)
    (iov : Word) (i : ℕ) :
    (s.transfer call desc iov i).1.memory = (call s (s.table.files desc).node (s.table.files desc).offset
      (iovBase s.memory iov i) (iovLen s.memory iov i)).1.memory := by
  rw [transfer]
  split <;> rfl

theorem Kept.refl (s : UserIo σ) : Kept s s := ⟨fun _ h => .inl h, fun _ _ => rfl⟩

theorem Kept.trans {u : UserIo σ} (h : Kept s t) (h' : Kept t u) : Kept s u :=
  ⟨fun r hr => (h'.touched r hr).elim (h.touched r) .inr, fun x hx => (h'.kernel x hx).trans (h.kernel x hx)⟩

theorem Kept.touch (h : r.InUser) : Kept s (s.touch r) := by
  refine ⟨fun r' hr' => ?_, fun _ _ => rfl⟩
  rw [UserIo.touch, mem_append, mem_singleton] at hr'
  exact hr'.imp id fun heq => by rw [heq]; exact h

private theorem deliver_kernel (hin : size ≠ 0 → Range.InUser ⟨buf.toNat, size.toNat⟩) (hx : kernelBase ≤ x) :
    deliver m buf size bytes x = m x := by
  by_cases h0 : size = 0
  · rw [h0, deliver_zero]
  · exact deliver_outside (hin h0) (.inr ((hin h0).trans hx))

theorem Kept.deliver (hin : size ≠ 0 → Range.InUser ⟨buf.toNat, size.toNat⟩) :
    Kept s { s with memory := deliver s.memory buf size bytes } :=
  ⟨fun _ h => .inl h, fun _ hx => deliver_kernel hin hx⟩

theorem Moved.kept (h : Moved s t buf size) (hin : size ≠ 0 → Range.InUser ⟨buf.toNat, size.toNat⟩) :
    Kept s t := by
  refine ⟨fun r hr => ?_, fun x hx => ?_⟩
  · rcases h.touched with he | ⟨hne, he⟩
    · exact .inl (he ▸ hr)
    · rw [he, mem_append, mem_singleton] at hr
      exact hr.imp id fun heq => by rw [heq]; exact hin hne
  · rcases h.memory with he | ⟨bytes, he⟩
    · rw [he]
    · rw [he, deliver_kernel hin hx]

private theorem kept_addOffset (desc : ℕ) (n : Word) (p : Prop) [Decidable p] : Kept t (if p then t.addOffset desc n else t) := by
  split
  · exact ⟨fun _ h => .inl h, fun _ _ => rfl⟩
  · exact .refl t

private theorem transfer_kept (hcall : ∀ s node offset buf size, Moved s (call s node offset buf size).1 buf size) (desc : ℕ)
    (hin : (iovRange s.memory iov i).length ≠ 0 → (iovRange s.memory iov i).InUser) :
    Kept s (s.transfer call desc iov i).1 :=
  ((hcall ..).kept fun h0 => hin fun hl => h0 (eq_of_toNat_eq hl)).trans (kept_addOffset ..)

private theorem readv_kept (hv : VectorInUser iov left i s.memory) :
    Kept s (transferAll vfsRead desc iov left i total s).1 := by
  induction left generalizing i total s with
  | zero => exact .refl s
  | succ left ih =>
    obtain ⟨hin, hrest⟩ := hv
    have hstep := transfer_kept vfsRead_moved desc hin
    rw [transferAll]
    split
    · exact hstep
    · refine hstep.trans (ih (hrest _ fun x hx => ?_))
      rw [transfer_memory]
      obtain ⟨-, -, hmem, -⟩ := vfsRead_moved s (s.table.files desc).node (s.table.files desc).offset
        (iovBase s.memory iov i) (iovLen s.memory iov i)
      rcases hmem with he | ⟨bytes, he⟩
      · rw [he]
      · rw [he]
        by_cases h0 : iovLen s.memory iov i = 0
        · rw [h0, deliver_zero]
        · exact deliver_outside (hin fun hl => h0 (eq_of_toNat_eq hl)) hx

private theorem writev_kept (hv : ∀ j < i + left, (iovRange s.memory iov j).length ≠ 0 → (iovRange s.memory iov j).InUser) :
    Kept s (transferAll vfsWrite desc iov left i total s).1 := by
  induction left generalizing i total s with
  | zero => exact .refl s
  | succ left ih =>
    have hstep := transfer_kept (fun s n o b z => (vfsWrite_moved s n o b z).1) desc (hv i (by omega))
    have hmem : (s.transfer vfsWrite desc iov i).1.memory = s.memory := by
      rw [transfer_memory]
      exact (vfsWrite_moved ..).2
    rw [transferAll]
    split
    · exact hstep
    · refine hstep.trans (ih fun j hj => ?_)
      rw [hmem]
      exact hv j (by omega)

private theorem inTable_of_fileOf (h : s.fileOf fd = some desc) : (inTable? fd.toInt).isSome := by
  rw [fileOf] at h
  split at h
  · cases h
  · next hfd => rw [hfd]; rfl

private theorem buffer_kept (hcall : ∀ s node offset buf size, Moved s (call s node offset buf size).1 buf size)
    (h : (inTable? fd.toInt).isSome → validateUserPointer buf size → size ≠ 0 → Range.InUser ⟨buf.toNat, size.toNat⟩) :
    Kept s (sysBuffer call s fd buf size).1 := by
  rw [sysBuffer]
  split
  · exact .refl s
  · next desc hfd =>
    split
    · next hval => exact ((hcall ..).kept (h (inTable_of_fileOf hfd) hval)).trans (kept_addOffset ..)
    · exact .refl s

private theorem vector_kept {iovcnt : Word}
    (h : (inTable? fd.toInt).isSome → iov ≠ 0 → 0 < iovcnt.toInt → Range.InUser ⟨iov.toNat, 8 * iovcnt.toNat⟩ ∧
      ∀ t : UserIo σ, t.memory = s.memory → ∀ desc, Kept t (transferAll call desc iov iovcnt.toNat 0 0 t).1) :
    Kept s (sysVector call s fd iov iovcnt).1 := by
  rw [sysVector]
  split
  · exact .refl s
  · next desc hfd =>
    split
    · exact .refl s
    · next hargs =>
      obtain ⟨hiov, hcnt⟩ := not_or.mp hargs
      obtain ⟨hin, hloop⟩ := h (inTable_of_fileOf hfd) hiov (Int.not_le.mp hcnt)
      exact (Kept.touch hin).trans (hloop (s.touch ⟨iov.toNat, 8 * iovcnt.toNat⟩) rfl desc)

private theorem httpGet_kept {url maxLen : Word} (hurl : (urlRange s.memory url).InUser)
    (hbuf : 0 < maxLen.toInt → Range.InUser ⟨buf.toNat, maxLen.toNat⟩) : Kept s (s.httpGet url buf maxLen).1 := by
  have htouch : Kept s (s.touch (urlRange s.memory url)) := .touch hurl
  rw [httpGet]
  dsimp only
  split
  · exact htouch
  · split
    · exact htouch
    · next hne =>
      -- something came back, so there was room
      have hroom : 0 < maxLen.toInt := by
        by_contra hle
        rw [Int.toNat_of_nonpos (Int.not_lt.mp hle)] at hne
        exact hne rfl
      exact (htouch.trans (.deliver fun _ => hbuf hroom)).trans (.touch (hbuf hroom))

private theorem confines_of_confined {c : UserCall} (h : c.Confined s.memory) : s.Confines c := by
  cases c with
  | read fd buf size => exact buffer_kept vfsRead_moved h
  | write fd buf size => exact buffer_kept (fun s n o b z => (vfsWrite_moved s n o b z).1) h
  | readv fd iov iovcnt =>
    refine vector_kept fun hfd hiov hcnt => ?_
    obtain ⟨hin, hv⟩ := h hfd hiov hcnt
    exact ⟨hin, fun t ht desc => readv_kept (ht ▸ hv)⟩
  | writev fd iov iovcnt =>
    refine vector_kept fun hfd hiov hcnt => ?_
    obtain ⟨hin, hv⟩ := h hfd hiov hcnt
    exact ⟨hin, fun t ht desc => writev_kept fun j hj => by rw [ht]; exact hv j (by omega)⟩
  | dnsResolve name =>
    rw [Confines, exec, sysDnsResolveCall]
    split_ifs with _ hval
    · exact .refl s
    · show Kept s (UserIo.touch _ _)
      exact .touch (h hval)
    · exact .refl s
  | httpGet url buf maxLen =>
    rw [Confines, exec, sysHttpGetCall]
    split_ifs with _ hurl hbuf
    · exact .refl s
    · obtain ⟨hin, hroom⟩ := h hurl hbuf
      exact httpGet_kept hin hroom
    · exact .refl s
    · exact .refl s

/-! A state behind whose descriptors anything can lie: every buffer is filled with what is wanted, or read
to its end, and `-1` is returned, which the loops take for a full transfer. -/

def scriptedRead : ReadOp (List (ℕ → UInt8)) := fun device _ _ =>
  { ret := -1, bytes := fun k => some (device.headI k), device := device.tail }

def drainingWrite : WriteOp σ := fun device _ _ _ => { ret := -1, reads := fun _ => true, device }

structure Scripted (s : UserIo (List (ℕ → UInt8))) (desc : ℕ) : Prop where
  node : (s.table.files desc).node ≠ 0
  read : (s.ops (s.table.files desc).node).read = some scriptedRead
  write : (s.ops (s.table.files desc).node).write = some drainingWrite

theorem Scripted.addOffset {s : UserIo (List (ℕ → UInt8))} (hs : s.Scripted desc) (n : Word) :
    (s.addOffset desc n).Scripted desc := by
  have hnode : ((s.addOffset desc n).table.files desc).node = (s.table.files desc).node := by
    simp [UserIo.addOffset, ProcessTable.setFile]
  refine ⟨?_, ?_, ?_⟩
  · exact hnode ▸ hs.node
  · rw [hnode]
    exact hs.read
  · rw [hnode]
    exact hs.write

def openEverywhere (m : Memory) (script : List (ℕ → UInt8)) : UserIo (List (ℕ → UInt8)) where
  table :=
    { procs := fun _ => { Process.zero with fdTable := fun _ => 1, pledges := pledgeAll }
      files := fun _ => { node := 1, offset := 0, flags := 0, refCount := 1 }
      currentProcess := 1
      readyQueue := 1
      nextPid := 1
      tick := 0 }
  memory := m
  ops := fun _ => { read := some scriptedRead, write := some drainingWrite, fsRead := none, fsWrite := none }
  device := script
  net := { resolve := fun _ => 0, get := fun _ => some [0] }
  touched := []

private theorem any_range_true (size : Word) : ((range size.toNat).any fun _ => true) = decide (size ≠ 0) := by
  rw [Bool.eq_iff_iff, any_eq_true, decide_eq_true_iff]
  constructor
  · rintro ⟨k, hk, -⟩ rfl
    exact not_lt_zero k (mem_range.mp hk)
  · intro h
    exact ⟨0, mem_range.mpr (pos_of_ne_zero fun h0 => h (eq_of_toNat_eq h0)), rfl⟩

/-- What a full transfer adds. -/
def whole (buf size : Word) : List Range := if size = 0 then [] else [⟨buf.toNat, size.toNat⟩]

private theorem scripted_read {s : UserIo (List (ℕ → UInt8))} (hs : s.Scripted desc) (offset : BitVec 64) (buf size : Word) :
    s.vfsRead (s.table.files desc).node offset buf size =
      ({ s with
          memory := deliver s.memory buf size fun k => some (s.device.headI k)
          device := s.device.tail
          touched := s.touched ++ whole buf size }, -1) := by
  rw [vfsRead, if_neg hs.node, hs.read]
  simp only [readBy, scriptedRead, Option.isSome_some, any_range_true, decide_eq_true_eq, whole, touch, ne_eq, ite_not]
  by_cases h0 : size = 0
  · simp only [if_pos h0, append_nil]
  · simp only [if_neg h0]

private theorem scripted_write {s : UserIo (List (ℕ → UInt8))} (hs : s.Scripted desc) (offset : BitVec 64) (buf size : Word) :
    s.vfsWrite (s.table.files desc).node offset buf size = ({ s with touched := s.touched ++ whole buf size }, -1) := by
  rw [vfsWrite, if_neg hs.node, hs.write]
  simp only [writeBy, drainingWrite, any_range_true, decide_eq_true_eq, whole, touch, ne_eq, ite_not]
  by_cases h0 : size = 0
  · simp only [if_pos h0, append_nil]
  · simp only [if_neg h0]

theorem scripted_openEverywhere (m : Memory) (script : List (ℕ → UInt8)) : (openEverywhere m script).Scripted 1 :=
  ⟨one_ne_zero, rfl, rfl⟩

theorem fileOf_openEverywhere {script : List (ℕ → UInt8)} (h : (inTable? fd.toInt).isSome) :
    (openEverywhere m script).fileOf fd = some 1 := by
  obtain ⟨i, hi⟩ := Option.isSome_iff_exists.mp h
  rw [fileOf, hi]
  exact if_neg one_ne_zero

theorem mem_whole (h : size ≠ 0) : (⟨buf.toNat, size.toNat⟩ : Range) ∈ whole buf size := by
  rw [whole, if_neg h]
  exact mem_singleton_self _

private theorem scripted_transfer {s : UserIo (List (ℕ → UInt8))} (hs : s.Scripted desc) (iov : Word) (i : ℕ)
    (g : ℕ → UInt8) (script : List (ℕ → UInt8)) :
    transfer vfsRead { s with device := g :: script } desc iov i =
      ({ s.addOffset desc (-1) with
          memory := deliver s.memory (iovBase s.memory iov i) (iovLen s.memory iov i) fun k => some (g k)
          device := script
          touched := s.touched ++ whole (iovBase s.memory iov i) (iovLen s.memory iov i) }, -1) := by
  have hs' : Scripted { s with device := g :: script } desc := ⟨hs.node, hs.read, hs.write⟩
  rw [transfer, scripted_read hs']
  rfl

private theorem deliver_self {m' : Memory} (hin : size.toNat ≠ 0 → Range.InUser ⟨buf.toNat, size.toNat⟩)
    (hout : ∀ x, x < buf.toNat ∨ buf.toNat + size.toNat ≤ x → m' x = m x) :
    deliver m buf size (fun k => some (m' (buf.toNat + k))) = m' := by
  have hend : buf.toNat + size.toNat ≤ 2 ^ 32 := by
    by_cases h0 : size.toNat = 0
    · omega
    · have := hin h0
      change buf.toNat + size.toNat ≤ 0xC0000000 at this
      omega
  funext x
  rw [deliver]
  split
  · next h =>
    obtain ⟨hx, hk⟩ := h
    rw [sub_toNat hx] at hk ⊢
    split at hk
    · next hle =>
      rw [if_pos hle, Option.getD_some]
      congr 1
      omega
    · omega
  · next h =>
    refine (hout x ?_).symm
    by_contra hmid
    obtain ⟨hl, hu⟩ := not_or.mp hmid
    apply h
    refine ⟨by omega, ?_⟩
    rw [sub_toNat (by omega), if_pos (by omega)]
    omega

theorem touched_subset
    (hcall : ∀ s node offset buf size, Moved s (call s node offset buf size).1 buf size) (hr : r ∈ s.touched) : r ∈ (transferAll call desc iov left i total s).1.touched := by
  induction left generalizing i total s with
  | zero => exact hr
  | succ left ih =>
    have hstep : r ∈ (s.transfer call desc iov i).1.touched := by
      rcases transfer_touched hcall s desc iov i with he | ⟨-, he⟩
      · rwa [he]
      · rw [he]
        exact mem_append_left _ hr
    rw [transferAll]
    split
    · exact hstep
    · exact ih hstep

/-- No length is above `-1`, so the loop takes it for a full transfer. -/
theorem not_neg_one_lt (n : Word) : ¬ (-1 : Word) < n := by
  rw [lt_def]
  exact not_lt.mpr (le_of_lt_succ n.isLt)

private theorem vectorInUser_of_readv {s : UserIo (List (ℕ → UInt8))} (total : Word) (hs : s.Scripted desc)
    (h : ∀ script, ∀ r ∈ (transferAll vfsRead desc iov left i total { s with device := script }).1.touched, r.InUser) :
    VectorInUser iov left i s.memory := by
  induction left generalizing i total s with
  | zero => trivial
  | succ left ih =>
    have hin (hne : (iovRange s.memory iov i).length ≠ 0) : (iovRange s.memory iov i).InUser := by
      have hlen : iovLen s.memory iov i ≠ 0 := fun h0 => hne (congrArg BitVec.toNat h0)
      apply h [fun _ => 0]
      rw [transferAll, scripted_transfer hs]
      rw [if_neg (not_neg_one_lt _)]
      exact touched_subset vfsRead_moved (mem_append_right _ (mem_whole hlen))
    refine ⟨hin, fun m' hm' => ?_⟩
    -- the device may deliver what turns the memory into that one
    have hself : deliver s.memory (iovBase s.memory iov i) (iovLen s.memory iov i)
        (fun k => some (m' ((iovBase s.memory iov i).toNat + k))) = m' := deliver_self hin hm'
    have hstep (script : List (ℕ → UInt8)) := scripted_transfer hs iov i (fun k => m' ((iovBase s.memory iov i).toNat + k)) script
    rw [hself] at hstep
    have hs' := hs.addOffset (-1)
    have hs'' : Scripted { s.addOffset desc (-1) with
        memory := m'
        touched := s.touched ++ whole (iovBase s.memory iov i) (iovLen s.memory iov i) } desc := ⟨hs'.node, hs'.read, hs'.write⟩
    refine ih (total + -1) hs'' fun script r hr => ?_
    apply h ((fun k => m' ((iovBase s.memory iov i).toNat + k)) :: script)
    rw [transferAll, hstep]
    dsimp only
    rw [if_neg (not_neg_one_lt _)]
    exact hr

private theorem inUser_of_writev {s : UserIo (List (ℕ → UInt8))} (hs : s.Scripted desc)
    (h : ∀ r ∈ (transferAll vfsWrite desc iov left i total s).1.touched, r.InUser) {j : ℕ} (hj : i ≤ j ∧ j < i + left)
    (hne : (iovRange s.memory iov j).length ≠ 0) : (iovRange s.memory iov j).InUser := by
  induction left generalizing i total s with
  | zero => omega
  | succ left ih =>
    have hlen : iovLen s.memory iov j ≠ 0 := fun h0 => hne (congrArg BitVec.toNat h0)
    have hstep : s.transfer vfsWrite desc iov i = ({ s.addOffset desc (-1) with
        touched := s.touched ++ whole (iovBase s.memory iov i) (iovLen s.memory iov i) }, -1) := by
      rw [transfer, scripted_write hs]
      rfl
    rw [transferAll, hstep] at h
    dsimp only at h
    rw [if_neg (not_neg_one_lt _)] at h
    rcases eq_or_lt_of_le hj.1 with rfl | hlt
    · exact h _ (touched_subset (fun s n o b z => (vfsWrite_moved s n o b z).1) (mem_append_right _ (mem_whole hlen)))
    · have hs' := hs.addOffset (-1)
      have hs'' : Scripted { s.addOffset desc (-1) with
          touched := s.touched ++ whole (iovBase s.memory iov i) (iovLen s.memory iov i) } desc := ⟨hs'.node, hs'.read, hs'.write⟩
      have hrest := ih hs'' h ⟨hlt, by omega⟩ hne
      exact hrest

private theorem confined_of_confines {c : UserCall}
    (h : ∀ s : UserIo (List (ℕ → UInt8)), s.memory = m → s.Confines c) : c.Confined m := by
  have hall (script : List (ℕ → UInt8)) {r : Range} (hr : r ∈ ((openEverywhere m script).exec c).1.touched) : r.InUser :=
    ((h _ rfl).touched r hr).resolve_left (not_mem_nil)
  have hpledge : ¬ (openEverywhere m []).table.current.pledges &&& pledgeInet = 0 := (by decide : ¬ pledgeAll &&& pledgeInet = 0)
  cases c with
  | read fd buf size =>
    intro hfd hval hne
    apply hall []
    have hs := scripted_read (scripted_openEverywhere m []) ((openEverywhere m []).table.files 1).offset buf size
    simp only [exec, sysRead, sysBuffer, fileOf_openEverywhere hfd, if_pos hval, hs]
    exact mem_whole hne
  | write fd buf size =>
    intro hfd hval hne
    apply hall []
    have hs := scripted_write (scripted_openEverywhere m []) ((openEverywhere m []).table.files 1).offset buf size
    simp only [exec, sysWrite, sysBuffer, fileOf_openEverywhere hfd, if_pos hval, hs]
    exact mem_whole hne
  | readv fd iov iovcnt =>
    intro hfd hiov hcnt
    have hargs : ¬ (iov = 0 ∨ iovcnt.toInt ≤ 0) := not_or.mpr ⟨hiov, Int.not_le.mpr hcnt⟩
    have hloop (script : List (ℕ → UInt8)) (r : Range) (hr : r ∈ (transferAll vfsRead 1 iov iovcnt.toNat 0 0
        ((openEverywhere m script).touch ⟨iov.toNat, 8 * iovcnt.toNat⟩)).1.touched) : r.InUser := by
      apply hall script
      simp only [exec, sysReadv, sysVector, fileOf_openEverywhere hfd, if_neg hargs]
      exact hr
    refine ⟨hloop [] _ (touched_subset vfsRead_moved (mem_append_right _ (mem_singleton_self _))), ?_⟩
    have hs := scripted_openEverywhere m []
    have hs' : ((openEverywhere m []).touch ⟨iov.toNat, 8 * iovcnt.toNat⟩).Scripted 1 := ⟨hs.node, hs.read, hs.write⟩
    exact vectorInUser_of_readv 0 hs' hloop
  | writev fd iov iovcnt =>
    intro hfd hiov hcnt
    have hargs : ¬ (iov = 0 ∨ iovcnt.toInt ≤ 0) := not_or.mpr ⟨hiov, Int.not_le.mpr hcnt⟩
    have hloop (r : Range) (hr : r ∈ (transferAll vfsWrite 1 iov iovcnt.toNat 0 0
        ((openEverywhere m []).touch ⟨iov.toNat, 8 * iovcnt.toNat⟩)).1.touched) : r.InUser := by
      apply hall []
      simp only [exec, sysWritev, sysVector, fileOf_openEverywhere hfd, if_neg hargs]
      exact hr
    refine ⟨hloop _ (touched_subset (fun s n o b z => (vfsWrite_moved s n o b z).1)
      (mem_append_right _ (mem_singleton_self _))), fun j hj => ?_⟩
    have hs := scripted_openEverywhere m []
    have hs' : ((openEverywhere m []).touch ⟨iov.toNat, 8 * iovcnt.toNat⟩).Scripted 1 := ⟨hs.node, hs.read, hs.write⟩
    exact inUser_of_writev hs' hloop ⟨zero_le j, by omega⟩
  | dnsResolve name =>
    intro hval
    apply hall []
    rw [exec, sysDnsResolveCall, if_neg hpledge, if_neg (not_not.mpr hval)]
    exact mem_append_right _ (mem_singleton_self _)
  | httpGet url buf maxLen =>
    intro hurl hbuf
    have hin {r : Range} (hr : r ∈ ((openEverywhere m []).httpGet url buf maxLen).1.touched) : r.InUser := by
      apply hall []
      rw [exec, sysHttpGetCall, if_neg hpledge, if_neg (not_not.mpr hurl), if_neg (not_not.mpr hbuf)]
      exact hr
    by_cases hroom : 0 < maxLen.toInt
    · have htake : ([0] : List UInt8).take maxLen.toInt.toNat = [0] := take_of_length_le (by
        rw [length_singleton]
        omega)
      have htouched : ((openEverywhere m []).httpGet url buf maxLen).1.touched = [urlRange m url, ⟨buf.toNat, maxLen.toNat⟩] := by
        simp only [httpGet, touch, openEverywhere, htake]
        rfl
      rw [htouched] at hin
      exact ⟨hin (.head _), fun _ => hin (.tail _ (mem_singleton_self _))⟩
    · have htake : ([0] : List UInt8).take maxLen.toInt.toNat = [] := by
        rw [Int.toNat_of_nonpos (Int.not_lt.mp hroom), take_zero]
      have htouched : ((openEverywhere m []).httpGet url buf maxLen).1.touched = [urlRange m url] := by
        simp only [httpGet, touch, openEverywhere, htake]
        rfl
      rw [htouched] at hin
      exact ⟨hin (mem_singleton_self _), fun h => (hroom h).elim⟩

/-- A call keeps to user space, whatever lies behind its descriptor, exactly if each range that it does
not check lies below the kernel. -/
theorem confines_iff (c : UserCall) (m : Memory) :
    (∀ (σ : Type) (s : UserIo σ), s.memory = m → s.Confines c) ↔ c.Confined m := by
  constructor
  · intro h
    exact confined_of_confines fun s hs => h _ s hs
  · rintro h σ s rfl
    exact confines_of_confined h

def withZero : UserIo Unit where
  table :=
    { procs := fun _ => { Process.zero with fdTable := fun _ => 1 }
      files := fun _ => { node := 1, offset := 0, flags := 0, refCount := 1 }
      currentProcess := 1
      readyQueue := 1
      nextPid := 2
      tick := 0 }
  memory := fun _ => 1
  ops := fun _ => zeroOps Unit
  device := ()
  net := { resolve := fun _ => 0, get := fun _ => none }
  touched := []

theorem zero_overwrites_kernel :
    withZero.memory 0xC0100000 = 1 ∧ (withZero.exec (.read 0 0xC0100000 16)).1.memory 0xC0100000 = 0 ∧
      (withZero.exec (.read 0 0xC0100000 16)).2 = 16 ∧ ¬ withZero.Confines (.read 0 0xC0100000 16) := by
  have hafter : (withZero.exec (.read 0 0xC0100000 16)).1.memory 0xC0100000 = 0 ∧
      (withZero.exec (.read 0 0xC0100000 16)).2 = 16 := by decide +kernel
  refine ⟨rfl, hafter.1, hafter.2, fun h => ?_⟩
  have hkept := h.kernel 0xC0100000 (by decide)
  cases hkept

end UserIo
end RetroOs.Kernel
