import RetroOs.Kernel.NamedObjects
import RetroOs.Lib.Ring
import RetroOs.Lib.Runs
import RetroOs.Lib.StableQueue

/-! POSIX message queues: a table of named queues, each a linked list of messages by descending priority with pointers
to its ends and a count. Messages are named by address, 0 for null. Where a loop does not end a call gives `none`. -/
namespace RetroOs.Kernel
open Lib

def maxMessageQueues : ℕ := 16
def maxMessages : Int := 64
def maxMsgSize : ℕ := 256

structure Message where
  data : Memory
  len : ℕ
  priority : Word
  next : ℕ

/-- What an entry of the table holds of its queue, `attr` in its first three fields. -/
structure MessageQueue where
  maxmsg : Int
  msgsize : ℕ
  curmsgs : Int
  head : ℕ
  tail : ℕ
  deriving DecidableEq

structure MessageQueues where
  table : NamedTable maxMessageQueues MessageQueue
  messages : ℕ → Option Message

def MessageQueue.empty : MessageQueue :=
  { maxmsg := maxMessages, msgsize := maxMsgSize, curmsgs := 0, head := 0, tail := 0 }

def mqFamily : NamedFamily MessageQueue where
  create _ := .empty
  release q := { q with head := 0, tail := 0 }
  closes := true

/-- Any list of messages is shorter than that. -/
def messageFuel : ℕ := 2 ^ 32

/-- What `kmalloc` gives for a message: an address, or 0, and bytes that are not cleared. -/
structure MessageMemory where
  addr : ℕ
  bytes : Memory

/-- What `mq_receive` delivers: the bytes for the buffer, the length it returns and the priority. -/
structure Mail where
  data : List UInt8
  len : ℕ
  priority : Word
  deriving DecidableEq

namespace MessageQueues

def queue (s : MessageQueues) (i : Fin maxMessageQueues) : MessageQueue := (s.table i).object

def setQueue (s : MessageQueues) (i : Fin maxMessageQueues) (q : MessageQueue) : MessageQueues :=
  { s with table := s.table.setEntry i { s.table i with object := q } }

def setMessage (s : MessageQueues) (a : ℕ) (msg : Message) : MessageQueues :=
  { s with messages := Function.update s.messages a (some msg) }

def next (s : MessageQueues) (a : ℕ) : ℕ := (s.messages a).elim 0 Message.next

def priority (s : MessageQueues) (a : ℕ) : Word := (s.messages a).elim 0 Message.priority

def setNext (s : MessageQueues) (a next : ℕ) : MessageQueues :=
  (s.messages a).elim s fun msg => s.setMessage a { msg with next }

def slot (mqdes : Int) : Option (Fin maxMessageQueues) :=
  if h : 0 ≤ mqdes ∧ mqdes < maxMessageQueues then some ⟨mqdes.toNat, by omega⟩ else none

def mqOpen (s : MessageQueues) (name : Option CString) (oflag : Word) : MessageQueues × Int :=
  let (table, i) := s.table.openObject mqFamily name oflag
  ({ s with table }, i.elim (-1) fun i => i.val)

/-- The loop that frees the messages of a queue, from one of them on. -/
def freeMessages : ℕ → (ℕ → Option Message) → ℕ → Option (ℕ → Option Message)
  | 0, _, _ => none
  | fuel + 1, messages, a =>
    if a = 0 then some messages else freeMessages fuel (Function.update messages a none) ((messages a).elim 0 Message.next)

/-- The messages go where an entry is given up. -/
def freed (s : MessageQueues) (table : NamedTable maxMessageQueues MessageQueue) (i : Fin maxMessageQueues) : Option MessageQueues :=
  if (table i).refCount.toInt ≤ 0 ∧ (table i).unlinked then
    (freeMessages messageFuel s.messages (s.queue i).head).map fun messages => { table, messages }
  else some { s with table }

def mqClose (s : MessageQueues) (mqdes : Int) : Option (MessageQueues × Int) :=
  match slot mqdes with
  | none => some (s, -1)
  | some i => (s.freed (s.table.closeObject mqFamily i) i).map (·, 0)

def mqUnlink (s : MessageQueues) (name : Option CString) : Option (MessageQueues × Int) :=
  let (table, result) := s.table.unlinkObject mqFamily name
  match name.bind s.table.toUnlink with
  | none => some (s, result)
  | some i => (s.freed table i).map (·, result)

def lastBefore (s : MessageQueues) (msgPrio : Word) (head : ℕ) : Option ℕ :=
  ringSeek s.next (fun cur => s.next cur == 0 || s.priority (s.next cur) < msgPrio) messageFuel head

def insert (s : MessageQueues) (i : Fin maxMessageQueues) (a : ℕ) (msgPrio : Word) : Option MessageQueues :=
  let q := s.queue i
  if q.head = 0 ∨ s.priority q.head < msgPrio then
    some ((s.setNext a q.head).setQueue i { q with head := a, tail := if q.tail = 0 then a else q.tail })
  else
    (s.lastBefore msgPrio q.head).map fun cur =>
      let after := s.next cur
      ((s.setNext a after).setNext cur a).setQueue i { q with tail := if after = 0 then a else q.tail }

def mqSend (s : MessageQueues) (mqdes : Int) (msg : Option (List UInt8)) (msgPrio : Word) (mem : MessageMemory) :
    Option (MessageQueues × Int) :=
  match slot mqdes with
  | none => some (s, -1)
  | some i =>
    match msg with
    | none => some (s, -1)
    | some payload =>
      if (s.table i).name = [] ∨ maxMsgSize < payload.length ∨ (s.queue i).maxmsg ≤ (s.queue i).curmsgs ∨ mem.addr = 0 then
        some (s, -1)
      else
        let s := s.setMessage mem.addr
          { data := mem.bytes.memcpy 0 payload, len := payload.length, priority := msgPrio, next := 0 }
        (s.insert i mem.addr msgPrio).map fun s =>
          (s.setQueue i { s.queue i with curmsgs := (s.queue i).curmsgs + 1 }, 0)

def mqReceive (s : MessageQueues) (mqdes : Int) (buffer : Option ℕ) : MessageQueues × Option Mail :=
  match slot mqdes with
  | none => (s, none)
  | some i =>
    match buffer with
    | none => (s, none)
    | some msgLen =>
      let q := s.queue i
      if (s.table i).name = [] ∨ q.head = 0 then (s, none)
      else
        match s.messages q.head with
        | none => (s, none)
        | some msg =>
          let s' := s.setQueue i
            { q with head := msg.next, tail := if msg.next = 0 then 0 else q.tail, curmsgs := q.curmsgs - 1 }
          ({ s' with messages := Function.update s'.messages q.head none },
            some { data := msg.data.bytes 0 (min msg.len msgLen), len := msg.len, priority := msg.priority })

variable {s : MessageQueues} {i j : Fin maxMessageQueues} {q : MessageQueue} {a b n : ℕ} {msg : Message}

@[simp] theorem setQueue_self : (s.setQueue i q).queue i = q := by simp [setQueue, queue]

private theorem setQueue_table : (s.setQueue i q).table = s.table.setEntry i { s.table i with object := q } := rfl

theorem setQueue_other (h : j ≠ i) : (s.setQueue i q).queue j = s.queue j := by
  rw [queue, setQueue_table, NamedTable.setEntry_other h, queue]

theorem setQueue_name : ((s.setQueue i q).table j).name = (s.table j).name := by
  by_cases h : j = i
  · subst h
    simp [setQueue]
  · rw [setQueue_table, NamedTable.setEntry_other h]

@[simp] theorem setMessage_self : (s.setMessage a msg).messages a = some msg := Function.update_self ..

theorem setMessage_other (h : b ≠ a) : (s.setMessage a msg).messages b = s.messages b := Function.update_of_ne h ..

private theorem setNext_of (h : s.messages a = some msg) : s.setNext a n = s.setMessage a { msg with next := n } := by
  rw [setNext, h]
  rfl

theorem slot_cast (i : Fin maxMessageQueues) : slot i.val = some i := by
  rw [slot, dif_pos ⟨Int.natCast_nonneg _, Int.ofNat_lt.mpr i.isLt⟩]
  rfl

end MessageQueues
end RetroOs.Kernel

/-! Runs of sends and receives on the message queues: each queue is a stable priority queue, whatever calls fail. -/
namespace RetroOs.Kernel
open Lib StableQueue

namespace MessageQueues
variable {s : MessageQueues} {i j : Fin maxMessageQueues} {a b h n : ℕ} {l xs ys : List ℕ} {msg : Message} {p : Word}

/-- The message at an address, as a call delivers it. -/
def mail (s : MessageQueues) (a : ℕ) : Mail :=
  (s.messages a).elim ⟨[], 0, 0⟩ fun msg => { data := msg.data.bytes 0 msg.len, len := msg.len, priority := msg.priority }

/-- The messages from `h` on, in order. -/
def Linked (s : MessageQueues) (h : ℕ) (l : List ℕ) : Prop := Chain (· = 0) s.next h l

theorem linked_nil : s.Linked h [] ↔ h = 0 := chain_nil

theorem linked_cons : s.Linked h (a :: l) ↔ h = a ∧ a ≠ 0 ∧ s.Linked (s.next a) l := chain_cons

private theorem mail_priority (s : MessageQueues) (a : ℕ) : (s.mail a).priority = s.priority a := by
  rw [mail, priority]
  cases s.messages a <;> rfl

section
variable {u : MessageQueues} (hb : u.messages b = s.messages b)
include hb

theorem next_congr : u.next b = s.next b := by rw [MessageQueues.next, hb, MessageQueues.next]

private theorem priority_congr : u.priority b = s.priority b := by rw [MessageQueues.priority, hb, MessageQueues.priority]

theorem mail_congr : u.mail b = s.mail b := by rw [MessageQueues.mail, hb, MessageQueues.mail]

end

/-- A pointer changes: that of `a` is now `n`. -/
structure Relinked (s t : MessageQueues) (a n : ℕ) : Prop where
  table : t.table = s.table
  next : t.next a = n
  other : ∀ b, b ≠ a → t.next b = s.next b
  mail : ∀ b, t.mail b = s.mail b
  alloc : ∀ b, (t.messages b).isSome = (s.messages b).isSome

theorem setNext_relinked (ha : s.messages a = some msg) (n : ℕ) : Relinked s (s.setNext a n) a n := by
  rw [setNext_of ha]
  refine ⟨rfl, ?_, fun b hb => ?_, fun b => ?_, fun b => ?_⟩
  · rw [MessageQueues.next, setMessage_self]
    rfl
  · exact next_congr (setMessage_other hb)
  · by_cases hb : b = a
    · rw [hb, MessageQueues.mail, setMessage_self, MessageQueues.mail, ha]
      rfl
    · exact mail_congr (setMessage_other hb)
  · by_cases hb : b = a
    · rw [hb, setMessage_self, ha]
      rfl
    · rw [setMessage_other hb]

/-- Where the loop of `mq_send` stops: all up to there is of the priority at least, what follows is not. -/
theorem lastBefore_spec {fuel : ℕ} (hc : s.Linked h l) (hne : l ≠ []) (hh : ¬ s.priority h < p) (hl : l.length ≤ fuel) :
    ∃ xs b ys, l = xs ++ b :: ys ∧ (∀ c ∈ xs ++ [b], ¬ s.priority c < p) ∧ (∀ c ∈ ys.head?, s.priority c < p) ∧
      ringSeek s.next (fun cur => s.next cur == 0 || s.priority (s.next cur) < p) fuel h = some b := by
  induction l generalizing h fuel with
  | nil => exact absurd rfl hne
  | cons a l ih =>
    obtain ⟨rfl, -, hrest⟩ := linked_cons.mp hc
    cases fuel with
    | zero => exact absurd hl (Nat.not_succ_le_zero _)
    | succ fuel =>
      rw [ringSeek]
      cases l with
      | nil =>
        have hnull : s.next h = 0 := linked_nil.mp hrest
        refine ⟨[], h, [], rfl, by simpa using hh, by simp, ?_⟩
        rw [if_pos (by simp [hnull])]
      | cons c l =>
        obtain ⟨hc', hcne, -⟩ := linked_cons.mp hrest
        by_cases hlow : s.priority c < p
        · refine ⟨[], h, c :: l, rfl, by simpa using hh, by simpa using hlow, ?_⟩
          rw [if_pos (by rw [hc', Bool.or_eq_true]; exact .inr (decide_eq_true hlow))]
        · obtain ⟨xs, b, ys, hsplit, hxs, hys, hseek⟩ :=
            ih hrest (List.cons_ne_nil c l) (by rwa [hc']) (Nat.le_of_succ_le_succ hl)
          refine ⟨h :: xs, b, ys, by rw [hsplit]; rfl, ?_, hys, ?_⟩
          · intro d hd
            rcases List.mem_cons.mp hd with rfl | hd
            · exact hh
            · exact hxs d hd
          · rw [if_neg (by simp [hc', hcne, hlow]), hseek]

/-- The last message of a queue, or null. -/
def lastOf (l : List ℕ) : ℕ := l.getLast?.getD 0

private theorem lastOf_ne (hc : s.Linked h l) (hne : l ≠ []) : lastOf l ≠ 0 := by
  rw [lastOf, List.getLast?_eq_some_getLast hne]
  exact hc.not_stop (List.getLast_mem hne)

variable (xs) in
theorem lastOf_append (hne : ys ≠ []) : lastOf (xs ++ ys) = lastOf ys := by
  rw [lastOf, List.getLast?_append_of_ne_nil _ hne, lastOf]

/-- What `insert` makes of a queue: the message is behind those of its priority and above, and before the others. -/
structure Inserted (s t : MessageQueues) (i : Fin maxMessageQueues) (a : ℕ) (p : Word) (l : List ℕ) : Prop where
  names : ∀ j, (t.table j).name = (s.table j).name
  queues : ∀ j, j ≠ i → t.queue j = s.queue j
  counts : (t.queue i).curmsgs = (s.queue i).curmsgs ∧ (t.queue i).maxmsg = (s.queue i).maxmsg
  split : ∃ xs ys, l = xs ++ ys ∧ (∀ c ∈ xs, ¬ s.priority c < p) ∧ (∀ c ∈ ys.head?, s.priority c < p) ∧
    t.Linked (t.queue i).head (xs ++ a :: ys) ∧ (t.queue i).tail = lastOf (xs ++ a :: ys)
  next : ∀ b ∉ l, b ≠ a → t.next b = s.next b
  mail : ∀ b, t.mail b = s.mail b
  alloc : ∀ b, (t.messages b).isSome = (s.messages b).isSome

variable (p) in
private theorem insert_spec (hc : s.Linked (s.queue i).head l) (ht : (s.queue i).tail = lastOf l) (hin : ∀ b ∈ l, (s.messages b).isSome)
    (hfuel : l.length ≤ messageFuel) (ha : s.messages a = some msg) (hnew : a ∉ l) (hne : a ≠ 0) :
    ∃ t, s.insert i a p = some t ∧ Inserted s t i a p l := by
  rw [insert]
  by_cases hfront : (s.queue i).head = 0 ∨ s.priority (s.queue i).head < p
  · rw [if_pos hfront]
    have hr := setNext_relinked ha (s.queue i).head
    refine ⟨_, rfl, fun j => ?_, fun j hj => ?_, ?_, ⟨[], l, rfl, by simp, ?_, ?_, ?_⟩, fun b hb hba => hr.other b hba,
      hr.mail, hr.alloc⟩
    · rw [setQueue_name, hr.table]
    · rw [setQueue_other hj, queue, hr.table, queue]
    · rw [setQueue_self]
      exact ⟨rfl, rfl⟩
    · intro c hcl
      cases l with
      | nil => cases hcl
      | cons d l =>
        obtain ⟨hd, hdne, -⟩ := linked_cons.mp hc
        obtain rfl := Option.some.inj hcl
        rw [hd] at hfront
        exact hfront.resolve_left hdne
    · rw [setQueue_self]
      refine linked_cons.mpr ⟨rfl, hne, ?_⟩
      change (s.setNext a (s.queue i).head).Linked ((s.setNext a (s.queue i).head).next a) l
      rw [hr.next]
      exact hc.congr fun b hb => hr.other b fun hba => hnew (hba ▸ hb)
    · rw [setQueue_self, List.nil_append]
      by_cases hl : l = []
      · subst hl
        rw [ht]
        rfl
      · have hlast := lastOf_ne hc hl
        have happ : lastOf (a :: l) = lastOf l := lastOf_append [a] hl
        simp only [ht, if_neg hlast, happ]
  · rw [if_neg hfront]
    rw [not_or] at hfront
    have hl : l ≠ [] := by
      rintro rfl
      exact hfront.1 (linked_nil.mp hc)
    obtain ⟨xs, cur, ys, rfl, hxs, hys, hseek⟩ := lastBefore_spec hc hl hfront.2 hfuel
    rw [lastBefore, hseek]
    obtain ⟨msg', hcur⟩ := Option.isSome_iff_exists.mp (hin cur (by simp))
    have hca : cur ≠ a := fun h => hnew (by simp [h])
    have hr := setNext_relinked ha (s.next cur)
    obtain ⟨msg'', hcur'⟩ := Option.isSome_iff_exists.mp ((hr.alloc cur).trans (hin cur (by simp)))
    have hr' := setNext_relinked hcur' a
    have hother : ∀ b, b ≠ a → b ≠ cur → ((s.setNext a (s.next cur)).setNext cur a).next b = s.next b := fun b hba hbc =>
      (hr'.other b hbc).trans (hr.other b hba)
    have hnodup := hc.nodup
    refine ⟨_, rfl, fun j => ?_, fun j hj => ?_, ?_, ⟨xs ++ [cur], ys, by simp, hxs, hys, ?_, ?_⟩, fun b hb hba => ?_,
      fun b => (hr'.mail b).trans (hr.mail b), fun b => (hr'.alloc b).trans (hr.alloc b)⟩
    · rw [setQueue_name, hr'.table, hr.table]
    · rw [setQueue_other hj, queue, hr'.table, hr.table, queue]
    · rw [setQueue_self]
      exact ⟨rfl, rfl⟩
    · rw [setQueue_self, List.append_assoc]
      refine Chain.insert hc hr'.next ?_ hne fun b hb => hother b ?_ ?_
      · exact (hr'.other a hca.symm).trans hr.next
      · rintro rfl
        exact hnew (by simp only [List.mem_append, List.mem_cons] at hb ⊢; tauto)
      · rintro rfl
        rw [List.nodup_append] at hnodup
        obtain ⟨-, hys', hdis⟩ := hnodup
        rcases List.mem_append.mp hb with hb | hb
        · exact hdis b hb b List.mem_cons_self rfl
        · exact (List.nodup_cons.mp hys').1 hb
    · obtain ⟨m, -, hm⟩ := chain_append.mp hc
      obtain ⟨rfl, -, hm⟩ := linked_cons.mp hm
      rw [setQueue_self, lastOf_append _ (List.cons_ne_nil a ys)]
      cases ys with
      | nil =>
        have hnull : s.next m = 0 := linked_nil.mp hm
        simp only [hnull, if_true]
        rfl
      | cons c ys =>
        obtain ⟨hc', hcne, -⟩ := linked_cons.mp hm
        have happ : lastOf (a :: c :: ys) = lastOf (c :: ys) := lastOf_append [a] (List.cons_ne_nil c ys)
        have happ' : lastOf (xs ++ m :: c :: ys) = lastOf (c :: ys) := by
          rw [List.append_cons, lastOf_append _ (List.cons_ne_nil c ys)]
        simp only [hc', if_neg hcne, ht, happ, happ']
    · refine hother b hba ?_
      rintro rfl
      exact hb (by simp)

/-- The queue `i` has room for what a call sends. -/
def Takes (s : MessageQueues) (mqdes : Int) (msg : Option (List UInt8)) (mem : MessageMemory) (i : Fin maxMessageQueues)
    (payload : List UInt8) : Prop :=
  slot mqdes = some i ∧ msg = some payload ∧ (s.table i).name ≠ [] ∧ payload.length ≤ maxMsgSize ∧
    (s.queue i).curmsgs < (s.queue i).maxmsg ∧ mem.addr ≠ 0

/-- The queue `i` has a message for a call that receives. -/
def Gives (s : MessageQueues) (mqdes : Int) (buffer : Option ℕ) (i : Fin maxMessageQueues) (msgLen : ℕ) (msg : Message) : Prop :=
  slot mqdes = some i ∧ buffer = some msgLen ∧ (s.table i).name ≠ [] ∧ (s.queue i).head ≠ 0 ∧ s.messages (s.queue i).head = some msg

private theorem mqSend_cases (s : MessageQueues) (mqdes : Int) (msg : Option (List UInt8)) (p : Word) (mem : MessageMemory) :
    (s.mqSend mqdes msg p mem = some (s, -1) ∧ ∀ i payload, ¬ s.Takes mqdes msg mem i payload) ∨
      ∃ i payload, s.Takes mqdes msg mem i payload ∧
        s.mqSend mqdes msg p mem = ((s.setMessage mem.addr
            { data := mem.bytes.memcpy 0 payload, len := payload.length, priority := p, next := 0 }).insert i mem.addr p).map
          fun t => (t.setQueue i { t.queue i with curmsgs := (t.queue i).curmsgs + 1 }, 0) := by
  simp only [mqSend, Takes]
  cases hslot : slot mqdes with
  | none => exact .inl (by simp)
  | some i =>
    cases msg with
    | none => exact .inl (by simp)
    | some payload =>
      dsimp only
      split_ifs with hno
      · refine .inl ⟨rfl, ?_⟩
        rintro j payload' ⟨hj, hpay, hname, hlen, hroom, hne⟩
        cases hj
        cases hpay
        exact hno.elim hname fun hno => hno.elim (not_lt.mpr hlen) fun hno => hno.elim (not_le.mpr hroom) hne
      · simp only [not_or, not_lt, not_le] at hno
        exact .inr ⟨i, payload, ⟨rfl, rfl, hno⟩, rfl⟩

/-- `mq_receive` refuses and leaves all as it was, or takes the first message of the queue. -/
theorem mqReceive_cases (s : MessageQueues) (mqdes : Int) (buffer : Option ℕ) :
    (s.mqReceive mqdes buffer = (s, none) ∧ ∀ i msgLen msg, ¬ s.Gives mqdes buffer i msgLen msg) ∨
      ∃ i msgLen msg, s.Gives mqdes buffer i msgLen msg ∧
        s.mqReceive mqdes buffer =
          ({ s.setQueue i { s.queue i with head := msg.next, tail := if msg.next = 0 then 0 else (s.queue i).tail, curmsgs := (s.queue i).curmsgs - 1 } with
              messages := Function.update s.messages (s.queue i).head none },
            some { data := msg.data.bytes 0 (min msg.len msgLen), len := msg.len, priority := msg.priority }) := by
  simp only [mqReceive, Gives]
  cases hslot : slot mqdes with
  | none => exact .inl (by simp)
  | some i =>
    cases buffer with
    | none => exact .inl (by simp)
    | some msgLen =>
      dsimp only
      split_ifs with hno
      · refine .inl ⟨rfl, ?_⟩
        rintro j _ _ ⟨hj, -, hname, hhead, -⟩
        cases hj
        exact hno.elim hname hhead
      · rw [not_or] at hno
        cases hmsg : s.messages (s.queue i).head with
        | none =>
          refine .inl ⟨rfl, ?_⟩
          rintro j _ _ ⟨hj, -, -, -, hmsg'⟩
          cases hj
          cases hmsg.symm.trans hmsg'
        | some msg => exact .inr ⟨i, msgLen, msg, ⟨rfl, rfl, hno.1, hno.2, hmsg⟩, rfl⟩

end MessageQueues

/-- The queues, with what each accepted and delivered so far, and the number of each message among those that its queue
accepted. -/
structure MailRun extends MessageQueues where
  log : Fin maxMessageQueues → List (Event Mail)
  serial : ℕ → ℕ

inductive MailEvent where
  | send (mqdes : Int) (msg : Option (List UInt8)) (msgPrio : Word) (mem : MessageMemory)
  | receive (mqdes : Int) (buffer : Option ℕ)

namespace MailRun
open MessageQueues

def accept (s : MailRun) (q : MessageQueues) (i : Fin maxMessageQueues) (a : ℕ) (m : Mail) : MailRun where
  toMessageQueues := q
  log := Function.update s.log i (s.log i ++ [.accepted m])
  serial := Function.update s.serial a (accepted (s.log i)).length

def deliver (s : MailRun) (q : MessageQueues) (i : Fin maxMessageQueues) (m : Mail) : MailRun where
  toMessageQueues := q
  log := Function.update s.log i (s.log i ++ [.given (s.serial (s.queue i).head) m])
  serial := s.serial

def exec (s : MailRun) : MailEvent → Option MailRun
  | .send mqdes msg p mem =>
    (s.mqSend mqdes msg p mem).map fun (q, result) =>
      if result = 0 then
        (slot mqdes).elim s fun i => msg.elim s fun payload =>
          s.accept q i mem.addr { data := payload, len := payload.length, priority := p }
      else { s with toMessageQueues := q }
  | .receive mqdes buffer =>
    let (q, mail) := s.mqReceive mqdes buffer
    match mail with
    | none => some { s with toMessageQueues := q }
    | some m => (slot mqdes).elim (some s) fun i => some (s.deliver q i m)

/-- The call returns -1. -/
def Fails (s : MailRun) : MailEvent → Prop
  | .send mqdes msg p mem => (s.mqSend mqdes msg p mem).map Prod.snd = some (-1)
  | .receive mqdes buffer => (s.mqReceive mqdes buffer).2 = none

/-- A send has a payload that fits, a queue with less than 64 messages and memory for one more; a receive has a buffer and
a queue in which a message waits. -/
def Serves (s : MailRun) : MailEvent → Prop
  | .send mqdes msg _ mem => ∃ i payload, slot mqdes = some i ∧ (s.table i).name ≠ [] ∧ msg = some payload ∧
      payload.length ≤ 256 ∧ (s.queue i).curmsgs < 64 ∧ mem.addr ≠ 0
  | .receive mqdes buffer => ∃ i k m, slot mqdes = some i ∧ (s.table i).name ≠ [] ∧ buffer.isSome ∧ Waits (s.log i) k m

/-- A send is accepted as it was given; a receive returns a message, which is the one that leaves the queue. -/
def Done (s t : MailRun) : MailEvent → Prop
  | .send mqdes msg p mem => (s.mqSend mqdes msg p mem).map Prod.snd = some 0 ∧ ∃ i payload, slot mqdes = some i ∧
      msg = some payload ∧ t.log = Function.update s.log i (s.log i ++ [.accepted ⟨payload, payload.length, p⟩])
  | .receive mqdes buffer => ∃ i k m, slot mqdes = some i ∧ (s.mqReceive mqdes buffer).2 = some m ∧
      t.log = Function.update s.log i (s.log i ++ [.given k m])

/-- A call fails exactly where it cannot be served, and then changes nothing. -/
structure Outcome (s : MailRun) (e : MailEvent) (t : MailRun) : Prop where
  fails_iff : s.Fails e ↔ ¬ s.Serves e
  unchanged : s.Fails e → t = s
  done : s.Serves e → s.Done t e

/-- `kmalloc` gives null or memory of no message, and a buffer has room for any message. -/
def Proper (s : MailRun) : MailEvent → Prop
  | .send _ _ _ mem => mem.addr = 0 ∨ s.messages mem.addr = none
  | .receive _ buffer => ∀ msgLen ∈ buffer, maxMsgSize ≤ msgLen

instance (s : MailRun) : ∀ e, Decidable (s.Proper e)
  | .send _ _ _ mem => decidable_of_iff (mem.addr = 0 ∨ (s.messages mem.addr).isNone) (by rw [Option.isNone_iff_eq_none]; rfl)
  | .receive _ none => isTrue (by simp [Proper])
  | .receive _ (some msgLen) => decidable_of_iff (maxMsgSize ≤ msgLen) (by simp [Proper])

/-- Any queues right after they were made. -/
structure Opened (s : MailRun) : Prop where
  queues : ∀ i, (s.table i).name ≠ [] → s.queue i = .empty
  log : ∀ i, s.log i = []

/-- A queue is the list of its messages, which are those that wait, in the order in which they are to be taken. -/
structure QueueOk (s : MailRun) (i : Fin maxMessageQueues) (l : List ℕ) : Prop where
  linked : s.Linked (s.queue i).head l
  inside : ∀ a ∈ l, (s.messages a).isSome ∧ (s.mail a).len ≤ maxMsgSize
  count : (s.queue i).curmsgs = l.length
  room : (l.length : Int) ≤ maxMessages
  maxmsg : (s.queue i).maxmsg = maxMessages
  tail : (s.queue i).tail = lastOf l
  holds : Holds (fun m : Mail => m.priority.toNat) (s.log i) (l.map fun a => (s.serial a, s.mail a))

structure Inv (s : MailRun) (lists : Fin maxMessageQueues → List ℕ) : Prop where
  queues : ∀ i, (s.table i).name ≠ [] → s.QueueOk i (lists i)
  unused : ∀ i, (s.table i).name = [] → lists i = []
  apart : ∀ i j, i ≠ j → ∀ a ∈ lists i, a ∉ lists j

variable {s t : MailRun} {i j : Fin maxMessageQueues} {l : List ℕ} {lists : Fin maxMessageQueues → List ℕ}
  {e : MailEvent} {es : List MailEvent}

theorem QueueOk.frame (h : s.QueueOk i l) (hq : t.queue i = s.queue i) (hlog : t.log i = s.log i)
    (hserial : ∀ a ∈ l, t.serial a = s.serial a) (hnext : ∀ a ∈ l, t.next a = s.next a) (hmail : ∀ a ∈ l, t.mail a = s.mail a)
    (halloc : ∀ a ∈ l, (t.messages a).isSome = (s.messages a).isSome) : t.QueueOk i l := by
  refine ⟨?_, fun a ha => ?_, ?_, h.room, ?_, ?_, ?_⟩
  · rw [hq]
    exact h.linked.congr hnext
  · rw [halloc a ha, hmail a ha]
    exact h.inside a ha
  · rw [hq, h.count]
  · rw [hq, h.maxmsg]
  · rw [hq, h.tail]
  · rw [hlog, List.map_congr_left fun a ha => by rw [hserial a ha, hmail a ha]]
    exact h.holds

theorem Opened.inv (h : s.Opened) : s.Inv fun _ => [] := by
  refine ⟨fun i hi => ?_, fun _ _ => rfl, (fun _ _ _ a ha => nomatch ha)⟩
  have hq := h.queues i hi
  refine ⟨?_, (fun a ha => nomatch ha), ?_, by decide, ?_, ?_, ?_⟩
  · rw [hq]
    exact linked_nil.mpr rfl
  · rw [hq]
    rfl
  · rw [hq]
    rfl
  · rw [hq]
    rfl
  · rw [h.log i]
    exact .empty _

theorem Inv.update (h : s.Inv lists) (hin : (s.table i).name ≠ []) (hok : t.QueueOk i l)
    (hnames : ∀ j, (t.table j).name = (s.table j).name) (hkeep : ∀ j, j ≠ i → s.QueueOk j (lists j) → t.QueueOk j (lists j))
    (hnew : ∀ a ∈ l, a ∈ lists i ∨ ∀ j, a ∉ lists j) : t.Inv (Function.update lists i l) := by
  refine ⟨fun j hj => ?_, fun j hj => ?_, fun j k hjk a ha hk => ?_⟩
  · rw [hnames] at hj
    by_cases hji : j = i
    · rw [hji, Function.update_self]
      exact hok
    · rw [Function.update_of_ne hji]
      exact hkeep j hji (h.queues j hj)
  · rw [hnames] at hj
    rw [Function.update_of_ne (by rintro rfl; exact hin hj)]
    exact h.unused j hj
  · have hcase : ∀ b c, b ≠ c → a ∈ Function.update lists i l b → c ≠ i → a ∉ lists c := by
      intro b c hbc hb hci hc
      by_cases hbi : b = i
      · rw [hbi, Function.update_self] at hb
        rcases hnew a hb with hold | hno
        · exact h.apart i c hci.symm a hold hc
        · exact hno c hc
      · rw [Function.update_of_ne hbi] at hb
        exact h.apart b c hbc a hb hc
    by_cases hki : k = i
    · have hji : j ≠ i := fun hji => hjk (hji.trans hki.symm)
      rw [Function.update_of_ne hji] at ha
      exact hcase k j hjk.symm hk hji ha
    · rw [Function.update_of_ne hki] at hk
      exact hcase j k hjk ha hki hk

theorem Inv.not_mem (h : s.Inv lists) {a : ℕ} (ha : s.messages a = none) (j : Fin maxMessageQueues) : a ∉ lists j := by
  intro hm
  by_cases hj : (s.table j).name = []
  · rw [h.unused j hj] at hm
    cases hm
  · obtain ⟨hsome, -⟩ := ((h.queues j hj).inside a hm)
    rw [ha] at hsome
    cases hsome

theorem QueueOk.accepted {u q : MessageQueues} {a : ℕ} {p : Word} {payload : List UInt8} {xs ys : List ℕ} (h : s.QueueOk i l)
    (hq : Inserted u q i a p l) (hsplit : l = xs ++ ys) (hxs : ∀ c ∈ xs, ¬ u.priority c < p)
    (hys : ∀ c ∈ ys.head?, u.priority c < p) (hchain : q.Linked (q.queue i).head (xs ++ a :: ys))
    (htail : (q.queue i).tail = lastOf (xs ++ a :: ys)) (hroom : (l.length : Int) + 1 ≤ maxMessages)
    (hqueue : u.queue i = s.queue i) (halloc : (u.messages a).isSome)
    (hmail : u.mail a = { data := payload, len := payload.length, priority := p }) (hlen : payload.length ≤ maxMsgSize)
    (hnew : a ∉ l) (hsame : ∀ b ∈ l, u.messages b = s.messages b) :
    (s.accept (q.setQueue i { q.queue i with curmsgs := (q.queue i).curmsgs + 1 }) i a
      { data := payload, len := payload.length, priority := p }).QueueOk i (xs ++ a :: ys) := by
  have hmem : ∀ b ∈ xs ++ a :: ys, b = a ∨ b ∈ l := fun b hb => by
    rw [hsplit]
    simp only [List.mem_append, List.mem_cons] at hb ⊢
    tauto
  have hprio : ∀ b ∈ l, (s.mail b).priority = u.priority b := fun b hb => by
    rw [mail_priority, priority_congr (hsame b hb)]
  have hlength : (xs ++ a :: ys).length = l.length + 1 := by
    rw [hsplit]
    simp only [List.length_append, List.length_cons]
    omega
  have hold : ∀ b ∈ l, b ≠ a := fun b hb hba => hnew (hba ▸ hb)
  have hitem : ∀ b ∈ l, (Function.update s.serial a (StableQueue.accepted (s.log i)).length b, q.mail b) = (s.serial b, s.mail b) :=
    fun b hb => by rw [Function.update_of_ne (hold b hb), hq.mail, mail_congr (hsame b hb)]
  refine ⟨?_, fun b hb => ?_, ?_, ?_, ?_, ?_, ?_⟩
  · rw [accept]
    simp only [setQueue_self]
    exact hchain
  · change (q.messages b).isSome ∧ (q.mail b).len ≤ maxMsgSize
    rw [hq.alloc, hq.mail]
    rcases hmem b hb with rfl | hb
    · rw [hmail]
      exact ⟨halloc, hlen⟩
    · rw [hsame b hb, mail_congr (hsame b hb)]
      exact h.inside b hb
  · rw [accept]
    simp only [setQueue_self]
    rw [hq.counts.1, hqueue, h.count, hlength]
    push_cast
    rfl
  · rw [hlength]
    push_cast
    exact hroom
  · rw [accept]
    simp only [setQueue_self]
    rw [hq.counts.2, hqueue, h.maxmsg]
  · rw [accept]
    simp only [setQueue_self]
    exact htail
  · have hholds := h.holds
    rw [hsplit, List.map_append] at hholds
    have := hholds.accept (x := { data := payload, len := payload.length, priority := p }) ?_ ?_
    · rw [accept]
      simp only [Function.update_self]
      change Holds _ _ (List.map (fun b => (Function.update s.serial a (StableQueue.accepted (s.log i)).length b, q.mail b)) _)
      rw [List.map_append, List.map_cons, Function.update_self, hq.mail, hmail,
        List.map_congr_left fun b hb => hitem b (by rw [hsplit]; exact List.mem_append_left _ hb),
        List.map_congr_left fun b hb => hitem b (by rw [hsplit]; exact List.mem_append_right _ hb)]
      exact this
    · intro x hx
      obtain ⟨b, hb, rfl⟩ := List.mem_map.mp hx
      have hle := hxs b hb
      rw [← hprio b (by rw [hsplit]; exact List.mem_append_left _ hb), BitVec.lt_def, not_lt] at hle
      exact hle.lt_or_eq
    · intro x hx
      rw [List.head?_map] at hx
      obtain ⟨b, hb, rfl⟩ := Option.map_eq_some_iff.mp hx
      have hlt := hys b hb
      rw [← hprio b (by rw [hsplit]; exact List.mem_append_right _ (List.mem_of_mem_head? hb)), BitVec.lt_def] at hlt
      exact hlt

private theorem Outcome.refused (hf : s.Fails e) (hno : ¬ s.Serves e) : s.Outcome e s :=
  ⟨iff_of_true hf hno, fun _ => rfl, fun hs => absurd hs hno⟩

private theorem Outcome.served (hs : s.Serves e) (hd : s.Done t e) : s.Outcome e t := by
  have hf : ¬ s.Fails e := by
    cases e with
    | send mqdes msg p mem =>
      rw [Fails, hd.1]
      decide
    | receive mqdes buffer =>
      obtain ⟨i, k, m, -, hm, -⟩ := hd
      rw [Fails, hm]
      exact Option.some_ne_none m
  exact ⟨iff_of_false hf (not_not_intro hs), fun h => absurd h hf, fun _ => hd⟩

theorem Inv.send (h : s.Inv lists) {msg : Option (List UInt8)} {p : Word} {mem : MessageMemory} {mqdes : Int}
    (hproper : s.Proper (.send mqdes msg p mem)) :
    ∃ t lists', s.exec (.send mqdes msg p mem) = some t ∧ t.Inv lists' ∧ s.Outcome (.send mqdes msg p mem) t := by
  rcases mqSend_cases s.toMessageQueues mqdes msg p mem with ⟨hno, hnot⟩ | ⟨i, payload, ⟨hslot, rfl, hin, hlen, hroom, hne⟩, hsend⟩
  · refine ⟨s, lists, ?_, h, .refused (by rw [Fails, hno]; rfl) ?_⟩
    · rw [exec, hno]
      rfl
    · rintro ⟨i, payload, hslot, hin, hmsg, hlen, hroom, hne⟩
      exact hnot i payload ⟨hslot, hmsg, hin, hlen, by rw [(h.queues i hin).maxmsg]; exact hroom, hne⟩
  · have hok := h.queues i hin
    have hfree : s.messages mem.addr = none := hproper.resolve_left hne
    have hnew := h.not_mem hfree
    let u := s.toMessageQueues.setMessage mem.addr
      { data := mem.bytes.memcpy 0 payload, len := payload.length, priority := p, next := 0 }
    have hmail : u.mail mem.addr = { data := payload, len := payload.length, priority := p } := by
      rw [MessageQueues.mail, setMessage_self, Option.elim_some, Memory.bytes_memcpy _ (Nat.le_refl _), List.take_length]
    have hsame : ∀ j, ∀ b ∈ lists j, u.messages b = s.messages b := fun j b hb =>
      setMessage_other fun hba => hnew j (hba ▸ hb)
    rw [hok.maxmsg] at hroom
    have hserves : s.Serves (.send mqdes (some payload) p mem) := ⟨i, payload, hslot, hin, rfl, hlen, hroom, hne⟩
    rw [hok.count] at hroom
    obtain ⟨q, hinsert, hq⟩ := insert_spec p (s := u) (hok.linked.congr fun b hb => next_congr (hsame i b hb)) hok.tail
      (fun b hb => by rw [hsame i b hb]; exact (hok.inside b hb).1)
      (by simp only [maxMessages, messageFuel] at *; omega) setMessage_self (hnew i) hne
    obtain ⟨xs, ys, hsplit, hxs, hys, hchain, htail⟩ := hq.split
    have hmem : ∀ b ∈ xs ++ mem.addr :: ys, b = mem.addr ∨ b ∈ lists i := fun b hb => by
      rw [hsplit]
      simp only [List.mem_append, List.mem_cons] at hb ⊢
      tauto
    refine ⟨s.accept (q.setQueue i { q.queue i with curmsgs := (q.queue i).curmsgs + 1 }) i mem.addr
      { data := payload, len := payload.length, priority := p }, _, ?_, h.update (l := xs ++ mem.addr :: ys) hin ?_ ?_ ?_ ?_,
      .served hserves ⟨?_, i, payload, hslot, rfl, rfl⟩⟩
    · rw [exec, hsend, hinsert, hslot]
      rfl
    · refine hok.accepted hq hsplit hxs hys hchain htail hroom rfl ?_ hmail hlen (hnew i) (hsame i)
      rw [setMessage_self]
      rfl
    · intro j
      exact setQueue_name.trans (hq.names j)
    · intro j hji hj
      refine hj.frame ?_ (Function.update_of_ne hji _ _) (fun b hb => Function.update_of_ne (by rintro rfl; exact hnew j hb) _ _)
        (fun b hb => ?_) (fun b hb => ?_) fun b hb => ?_
      · exact (setQueue_other hji).trans (hq.queues j hji)
      · exact (hq.next b (fun hi => h.apart j i hji b hb hi) (by rintro rfl; exact hnew j hb)).trans (next_congr (hsame j b hb))
      · exact (hq.mail b).trans (mail_congr (hsame j b hb))
      · exact (hq.alloc b).trans (by rw [hsame j b hb])
    · intro b hb
      exact (hmem b hb).elim (fun hba => .inr (hba ▸ hnew)) .inl
    · rw [hsend, hinsert]
      rfl

theorem QueueOk.delivered {a : ℕ} {msg : Message} (h : s.QueueOk i (a :: l)) (ha : s.messages a = some msg) :
    (s.deliver
      { s.setQueue i { s.queue i with head := msg.next, tail := if msg.next = 0 then 0 else (s.queue i).tail, curmsgs := (s.queue i).curmsgs - 1 } with
        messages := Function.update s.messages a none } i (s.mail a)).QueueOk i l := by
  obtain ⟨hhead, hane, hrest⟩ := linked_cons.mp h.linked
  have hnew : a ∉ l := (List.nodup_cons.mp h.linked.nodup).1
  have hnext : s.next a = msg.next := by
    rw [MessageQueues.next, ha]
    rfl
  rw [hnext] at hrest
  have hsame : ∀ b ∈ l, Function.update s.messages a none b = s.messages b := fun b hb =>
    Function.update_of_ne (by rintro rfl; exact hnew hb) _ _
  refine ⟨?_, fun b hb => ?_, ?_, ?_, ?_, ?_, ?_⟩
  · change Linked _ ((s.setQueue i _).queue i).head l
    rw [setQueue_self]
    exact hrest.congr fun b hb => next_congr (hsame b hb)
  · have hin := h.inside b (List.mem_cons_of_mem _ hb)
    refine ⟨?_, ?_⟩
    · change (Function.update s.messages a none b).isSome
      rw [hsame b hb]
      exact hin.1
    · rw [mail_congr (s := s.toMessageQueues) (hsame b hb)]
      exact hin.2
  · change ((s.setQueue i _).queue i).curmsgs = _
    rw [setQueue_self]
    simp only [h.count, List.length_cons]
    push_cast
    omega
  · have := h.room
    rw [List.length_cons] at this
    push_cast at this
    omega
  · change ((s.setQueue i _).queue i).maxmsg = _
    rw [setQueue_self]
    exact h.maxmsg
  · change ((s.setQueue i _).queue i).tail = _
    rw [setQueue_self]
    cases l with
    | nil =>
      simp only [linked_nil.mp hrest, if_true]
      rfl
    | cons c l =>
      obtain ⟨hc, hcne, -⟩ := linked_cons.mp hrest
      simp only [hc, if_neg hcne, h.tail]
      exact lastOf_append [a] (List.cons_ne_nil c l)
  · have hgive := h.holds.give
    have hitems : l.map (fun b => (s.serial b, s.mail b)) =
        l.map fun b => (s.serial b, MessageQueues.mail ⟨s.table, Function.update s.messages a none⟩ b) :=
      List.map_congr_left fun b hb => Prod.ext rfl (mail_congr (hsame b hb)).symm
    rw [hitems] at hgive
    rw [deliver]
    simp only [Function.update_self, hhead]
    exact hgive

theorem Inv.receive (h : s.Inv lists) {buffer : Option ℕ} {mqdes : Int} (hproper : s.Proper (.receive mqdes buffer)) :
    ∃ t lists', s.exec (.receive mqdes buffer) = some t ∧ t.Inv lists' ∧ s.Outcome (.receive mqdes buffer) t := by
  rcases mqReceive_cases s.toMessageQueues mqdes buffer with ⟨hno, hnot⟩ | ⟨i, msgLen, msg, ⟨hslot, rfl, hin, hne, hmsg⟩, hreceive⟩
  · refine ⟨s, lists, ?_, h, .refused (by rw [Fails, hno]) ?_⟩
    · rw [exec, hno]
    · rintro ⟨i, k, m, hslot, hin, hbuffer, hwaits⟩
      obtain ⟨msgLen, rfl⟩ := Option.isSome_iff_exists.mp hbuffer
      have hok := h.queues i hin
      obtain ⟨a, ha, -⟩ := List.mem_map.mp ((hok.holds.mem k m).mpr hwaits)
      obtain ⟨b, l, hl⟩ := List.exists_cons_of_ne_nil (List.ne_nil_of_mem ha)
      rw [hl] at hok
      obtain ⟨hhead, hbne, -⟩ := linked_cons.mp hok.linked
      obtain ⟨msg, hmsg⟩ := Option.isSome_iff_exists.mp (hok.inside b List.mem_cons_self).1
      exact hnot i msgLen msg ⟨hslot, rfl, hin, hhead ▸ hbne, hhead ▸ hmsg⟩
  · have hok := h.queues i hin
    obtain ⟨a, l, hl⟩ : ∃ a l, lists i = a :: l := by
      cases hlist : lists i with
      | nil =>
        have hlinked := hok.linked
        rw [hlist] at hlinked
        exact absurd (linked_nil.mp hlinked) hne
      | cons a l => exact ⟨a, l, rfl⟩
    rw [hl] at hok
    obtain ⟨hhead, -, -⟩ := linked_cons.mp hok.linked
    rw [hhead] at hmsg hreceive
    have hlen : msg.len ≤ msgLen := by
      have hin := (hok.inside a List.mem_cons_self).2
      rw [MessageQueues.mail, hmsg] at hin
      exact hin.trans (hproper msgLen rfl)
    have hmail : s.mail a = { data := msg.data.bytes 0 (min msg.len msgLen), len := msg.len, priority := msg.priority } := by
      rw [MessageQueues.mail, hmsg, Nat.min_eq_left hlen]
      rfl
    refine ⟨_, _, ?_, h.update hin (hok.delivered hmsg) (fun j => setQueue_name) (fun j hji hj => ?_) fun b hb => ?_,
      .served ⟨i, s.serial a, s.mail a, hslot, hin, rfl, ?_⟩ ⟨i, s.serial (s.queue i).head, s.mail a, hslot, ?_, rfl⟩⟩
    · rw [exec, hreceive, hslot, hmail]
      rfl
    · have hother : ∀ b ∈ lists j, Function.update s.messages a none b = s.messages b := fun b hb =>
        Function.update_of_ne (by rintro rfl; exact h.apart i j hji.symm b (hl ▸ List.mem_cons_self) hb) _ _
      refine hj.frame (setQueue_other hji) (Function.update_of_ne hji _ _) (fun _ _ => rfl) (fun b hb => ?_) (fun b hb => ?_)
        fun b hb => ?_
      · exact next_congr (hother b hb)
      · exact mail_congr (hother b hb)
      · exact congrArg Option.isSome (hother b hb)
    · exact .inl (hl ▸ List.mem_cons_of_mem _ hb)
    · exact (hok.holds.mem _ _).mp List.mem_cons_self
    · rw [hreceive, hmail]

theorem Inv.exec (h : s.Inv lists) (hproper : s.Proper e) :
    ∃ t lists', s.exec e = some t ∧ t.Inv lists' ∧ s.Outcome e t := by
  cases e with
  | send mqdes msg p mem => exact h.send hproper
  | receive mqdes buffer => exact h.receive hproper

/-- In every run from queues as they were made, calls return, fail exactly where they cannot be served and then change
nothing, and each queue has delivered in order of priority, first come first served, each message that it accepted at most once and as it was sent.
It has counted its messages, 64 at most, and points to the last of them. -/
theorem mail_runs {s₀ : MailRun} (h₀ : s₀.Opened)
    (hrun : Trace (fun s e t => s.Proper e ∧ s.exec e = some t) s₀ es s) :
    (∀ e, s.Proper e → ∃ t, s.exec e = some t ∧ s.Outcome e t) ∧
      ∀ i, (s.table i).name ≠ [] →
        Stable (fun m : Mail => m.priority.toNat) (s.log i) ∧ (given (s.log i)).Nodup ∧
          ∃ l : List ℕ, s.Linked (s.queue i).head l ∧ (s.queue i).curmsgs = l.length ∧ l.length ≤ 64 ∧
            (s.queue i).tail = lastOf l ∧ ((s.queue i).tail = 0 ↔ l = []) ∧
            ∀ k m, (∃ a ∈ l, s.serial a = k ∧ s.mail a = m) ↔ Waits (s.log i) k m := by
  have hinv : ∃ lists, s.Inv lists := by
    induction hrun with
    | nil => exact ⟨_, h₀.inv⟩
    | snoc _ hs ih =>
      obtain ⟨lists, h⟩ := ih
      obtain ⟨t, lists', ht, h', -⟩ := h.exec hs.1
      cases hs.2.symm.trans ht
      exact ⟨lists', h'⟩
  obtain ⟨lists, h⟩ := hinv
  refine ⟨fun e he => ?_, fun i hi => ?_⟩
  · obtain ⟨t, -, ht, -, hout⟩ := h.exec he
    exact ⟨t, ht, hout⟩
  · have hok := h.queues i hi
    have hroom := hok.room
    refine ⟨hok.holds.stable, hok.holds.stable.given_nodup.1, lists i, hok.linked, hok.count, ?_, hok.tail, ?_, fun k m => ?_⟩
    · simp only [maxMessages] at hroom
      omega
    · rw [hok.tail]
      refine ⟨fun hz => ?_, fun hl => by rw [hl]; rfl⟩
      by_contra hne
      exact lastOf_ne hok.linked hne hz
    · rw [← hok.holds.mem, List.mem_map]
      simp only [Prod.mk.injEq]

def oneQueue : MailRun where
  table := ((NamedTable.openObject (fun _ => ⟨[], 0, false, .empty⟩) mqFamily (some (.ofString "/q")) oCreat)).1
  messages _ := none
  log _ := []
  serial _ := 0

def twoMessages : List MailEvent :=
  [.send 0 (some [1]) 1 ⟨16, fun _ => 0⟩, .send 0 (some [2, 3]) 2 ⟨32, fun _ => 0⟩, .receive 0 (some 256)]

theorem oneQueue_runs : ∃ s, Trace (fun s e t => s.Proper e ∧ s.exec e = some t) oneQueue twoMessages s ∧
    ∀ i, (s.table i).name ≠ [] → Stable (fun m : Mail => m.priority.toNat) (s.log i) ∧ (given (s.log i)).Nodup := by
  have hrun : (twoMessages.foldlM (fun s e => if Proper s e then exec s e else none) oneQueue).isSome := by decide
  obtain ⟨s, hs⟩ := Option.isSome_iff_exists.mp hrun
  have htrace := trace_of_checked hs
  have hopened : oneQueue.Opened := ⟨by decide, fun _ => rfl⟩
  refine ⟨s, htrace, fun i hi => ?_⟩
  obtain ⟨hstable, hnodup, -⟩ := (mail_runs hopened htrace).2 i hi
  exact ⟨hstable, hnodup⟩

end MailRun
end RetroOs.Kernel
