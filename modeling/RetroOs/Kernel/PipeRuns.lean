import RetroOs.Kernel.Pipe
import RetroOs.Lib.Runs

/-! Runs of any number of processes that make pipes, connect sockets, and read and write them. A process runs until it
waits in `schedule`, and any process that waits may go on next. -/
namespace RetroOs.Kernel
open Lib Option Function Ipc

inductive IpcCall where
  | pipeRead (pipe size : ℕ)
  | pipeWrite (pipe : ℕ) (data : List UInt8)
  | socketRead (sock size : ℕ)
  | socketWrite (sock : ℕ) (data : List UInt8)

inductive IpcWait where
  | pipeRead (pipe size : ℕ)
  | pipeWrite (pipe : ℕ) (data : List UInt8)
  | socketRead (sock size : ℕ)
  | socketWrite (sock peer : ℕ) (data : List UInt8)

/-- The calls that processes wait in, and what the calls returned so far: for each pipe, and for each socket what was
written to it and what was read from it. -/
structure IpcRun extends Ipc where
  waits : ℕ → Option IpcWait
  piped : ℕ → RingBuffer.Transfers UInt8
  sent : ℕ → List (List UInt8 × ℕ)
  received : ℕ → List (List UInt8)

inductive IpcEvent where
  | sysPipe (pipe : ℕ) (slots : Fin pipeSize → UInt8)
  | sysSocket (sock : ℕ) (slots : Fin pipeSize → UInt8)
  | sysBind (sock : ℕ)
  | sysConnect (sock server : ℕ)
  | sysAccept (server conn : ℕ) (slots : Fin pipeSize → UInt8)
  | sysSocketpair (sock other : ℕ) (slots slots' : Fin pipeSize → UInt8)
  | call (proc : ℕ) (c : IpcCall)
  | resume (proc : ℕ)

variable {a b client conn size : ℕ} {c k sock sock' : Socket} {data : List UInt8} {p : Pipe} {ring : ByteRing}
  {s' : IpcRun}

private theorem readLoop_eq {closed : Bool} {x : List UInt8 × ByteRing} (h : readLoop closed size ring = some x) :
    x = ring.take size := by
  rw [readLoop] at h
  split_ifs at h
  exact (some.inj h).symm

private theorem writeLoop_eq {x : ℕ × ByteRing} (h : writeLoop data ring = some x) :
    x = ring.put data := by
  rw [writeLoop] at h
  split_ifs at h
  exact (some.inj h).symm

theorem Pipe.readOn_eq {x : List UInt8 × Pipe} (h : p.readOn size = some x) :
    x = ((p.ring.take size).1, { p with ring := (p.ring.take size).2 }) := by
  obtain ⟨y, hy, rfl⟩ := map_eq_some_iff.mp h
  rw [readLoop_eq hy]

theorem Pipe.writeOn_eq {x : ℕ × Pipe} (h : p.writeOn data = some x) :
    x = ((p.ring.put data).1, { p with ring := (p.ring.put data).2 }) := by
  obtain ⟨y, hy, rfl⟩ := map_eq_some_iff.mp h
  rw [writeLoop_eq hy]

theorem Socket.readOn_eq {x : List UInt8 × Socket} (h : sock.readOn size = some x) :
    x = ((sock.ring.take size).1, { sock with ring := (sock.ring.take size).2 }) := by
  obtain ⟨y, hy, rfl⟩ := map_eq_some_iff.mp h
  rw [readLoop_eq hy]

theorem Socket.writeOn_eq {peer : Socket} {x : ℕ × Socket} (h : peer.writeOn data = some x) :
    x = ((peer.ring.put data).1, { peer with ring := (peer.ring.put data).2 }) := by
  obtain ⟨y, hy, rfl⟩ := map_eq_some_iff.mp h
  rw [writeLoop_eq hy]

namespace IpcRun
open RingBuffer

def boot : IpcRun where
  pipes _ := none
  sockets _ := none
  waits _ := none
  piped _ := ⟨[], []⟩
  sent _ := []
  received _ := []

def setWait (s : IpcRun) (proc : ℕ) (w : Option IpcWait) : IpcRun := { s with waits := update s.waits proc w }

def pipeDone (s : IpcRun) (a : ℕ) (p : Pipe) (t : Transfers UInt8) : IpcRun :=
  { s with toIpc := s.setPipe a p, piped := update s.piped a t }

def readDone (s : IpcRun) (a : ℕ) (sock : Socket) (bytes : List UInt8) : IpcRun :=
  { s with toIpc := s.setSocket a sock, received := update s.received a (s.received a ++ [bytes]) }

def writeDone (s : IpcRun) (a peer : ℕ) (sock : Socket) (data : List UInt8) (count : ℕ) : IpcRun :=
  { s with toIpc := s.setSocket peer sock, sent := update s.sent a (s.sent a ++ [(data, count)]) }

/-- The end of a call, or its wait. -/
def pipeReads (s : IpcRun) (proc a size : ℕ) : Option (List UInt8 × Pipe) → IpcRun
  | none => s.setWait proc (some (.pipeRead a size))
  | some (bytes, p) => (s.pipeDone a p ((s.piped a).addTake bytes)).setWait proc none

def pipeWrites (s : IpcRun) (proc a : ℕ) (data : List UInt8) : Option (ℕ × Pipe) → IpcRun
  | none => s.setWait proc (some (.pipeWrite a data))
  | some (count, p) => (s.pipeDone a p ((s.piped a).addPut data count)).setWait proc none

def socketReads (s : IpcRun) (proc a size : ℕ) : Option (List UInt8 × Socket) → IpcRun
  | none => s.setWait proc (some (.socketRead a size))
  | some (bytes, sock) => (s.readDone a sock bytes).setWait proc none

def socketWrites (s : IpcRun) (proc a peer : ℕ) (data : List UInt8) : Option (ℕ × Socket) → IpcRun
  | none => s.setWait proc (some (.socketWrite a peer data))
  | some (count, sock) => (s.writeDone a peer sock data count).setWait proc none

/-- A process goes on in the call that it waits in. -/
def goOn (s : IpcRun) (proc : ℕ) : IpcWait → IpcRun
  | .pipeRead a size => (s.pipes a).elim s fun p => s.pipeReads proc a size (p.readOn size)
  | .pipeWrite a data => (s.pipes a).elim s fun p => s.pipeWrites proc a data (p.writeOn data)
  | .socketRead a size => (s.sockets a).elim s fun sock => s.socketReads proc a size (sock.readOn size)
  | .socketWrite a peer data => (s.sockets peer).elim s fun sock => s.socketWrites proc a peer data (sock.writeOn data)

def call (s : IpcRun) (proc : ℕ) : IpcCall → IpcRun
  | .pipeRead a size => (s.pipes a).elim s fun p => s.pipeReads proc a size (pipeRead p size)
  | .pipeWrite a data => (s.pipes a).elim s fun p => s.pipeWrites proc a data (pipeWrite p data)
  | .socketRead a size => (s.sockets a).elim s fun sock => s.socketReads proc a size (socketRead sock size)
  | .socketWrite a data => (s.sockets a).elim s fun sock =>
    if sock.Writable then s.goOn proc (.socketWrite a sock.peer data)
    else s.writeDone a a sock data 0

def exec (s : IpcRun) : IpcEvent → IpcRun
  | .sysPipe a slots => { s with toIpc := s.toIpc.sysPipe a slots }
  | .sysSocket a slots => { s with toIpc := s.toIpc.sysSocket a slots }
  | .sysBind a => { s with toIpc := s.toIpc.sysBind a }
  | .sysConnect a server => { s with toIpc := s.toIpc.sysConnect a server }
  | .sysAccept server conn slots => { s with toIpc := s.toIpc.sysAccept server conn slots }
  | .sysSocketpair a c slots slots' => { s with toIpc := s.toIpc.sysSocketpair a c slots slots' }
  | .call proc c => if s.waits proc = none then s.call proc c else s
  | .resume proc => (s.waits proc).elim s (s.goOn proc)

def Allowed (s : IpcRun) : IpcEvent → Prop
  | .sysPipe a _ => s.pipes a = none
  | .sysSocket a _ => a ≠ 0 ∧ s.sockets a = none
  | .sysAccept server conn _ => (conn ≠ 0 ∧ s.sockets conn = none) ∧
    ∀ v ∈ s.sockets server, ∀ client ∈ v.backlog.head?, ∀ c ∈ s.sockets client, c.peer = 0
  | .sysSocketpair a c _ _ => (a ≠ 0 ∧ s.sockets a = none) ∧ (c ≠ 0 ∧ s.sockets c = none) ∧ a ≠ c
  | .sysBind _ | .sysConnect .. | .call .. | .resume _ => True

instance (s : IpcRun) : ∀ e, Decidable (s.Allowed e)
  | .sysPipe _ _ => inferInstanceAs (Decidable (_ = none))
  | .sysSocket _ _ => inferInstanceAs (Decidable (_ ∧ _))
  | .sysAccept _ _ _ | .sysSocketpair _ _ _ _ => inferInstanceAs (Decidable ((_ ∧ _) ∧ _))
  | .sysBind _ | .sysConnect .. | .call .. | .resume _ => instDecidableTrue

variable {s : IpcRun}

/-- What passes through the ring of a socket: what its peer was given to write, and what was read from it. -/
def link (s : IpcRun) (a : ℕ) (sock : Socket) : Transfers UInt8 :=
  ⟨if sock.peer = 0 then [] else s.sent sock.peer, s.received a⟩

/-- Each pipe holds what is under way in it. -/
structure PipesInv (s : IpcRun) : Prop where
  fifo : ∀ a p, s.pipes a = some p → (s.piped a).Fifo p.ring
  unused : ∀ a, s.pipes a = none → s.piped a = ⟨[], []⟩

/-- Each socket holds what is under way to it, and sockets are connected in pairs. -/
structure SocketsInv (s : IpcRun) : Prop where
  fifo : ∀ a sock, s.sockets a = some sock → (s.link a sock).Fifo sock.ring
  null : s.sockets 0 = none
  peer : ∀ a sock, s.sockets a = some sock → sock.peer ≠ 0 → ∃ other, s.sockets sock.peer = some other ∧ other.peer = a
  single : ∀ a sock, s.sockets a = some sock → sock.peer = 0 → ∀ x ∈ s.sent a, x.2 = 0
  unused : ∀ a, s.sockets a = none → s.sent a = [] ∧ s.received a = []
  backlog : ∀ a sock, s.sockets a = some sock → ∀ client ∈ sock.backlog, ∃ c, s.sockets client = some c
  waits : ∀ proc a peer data, s.waits proc = some (.socketWrite a peer data) →
    peer ≠ 0 ∧ ∃ sock, s.sockets a = some sock ∧ sock.peer = peer

structure Inv (s : IpcRun) : Prop where
  pipes : s.PipesInv
  sockets : s.SocketsInv

theorem inv_boot : boot.Inv where
  pipes := ⟨(fun _ _ h => nomatch h), fun _ _ => rfl⟩
  sockets := ⟨(fun _ _ h => nomatch h), rfl, (fun _ _ h => nomatch h), (fun _ _ h => nomatch h), fun _ _ => ⟨rfl, rfl⟩,
    (fun _ _ h => nomatch h), (fun _ _ _ _ h => nomatch h)⟩

private theorem setWait_waits (s : IpcRun) (proc : ℕ) (w : Option IpcWait) :
    (s.setWait proc w).waits = update s.waits proc w := rfl

private theorem pipeDone_pipes (s : IpcRun) (a : ℕ) (p : Pipe) (t : Transfers UInt8) :
    (s.pipeDone a p t).pipes = update s.pipes a (some p) := rfl

private theorem pipeDone_piped (s : IpcRun) (a : ℕ) (p : Pipe) (t : Transfers UInt8) :
    (s.pipeDone a p t).piped = update s.piped a t := rfl

private theorem readDone_sockets (s : IpcRun) (a : ℕ) (sock : Socket) (bytes : List UInt8) :
    (s.readDone a sock bytes).sockets = update s.sockets a (some sock) := rfl

theorem readDone_received (s : IpcRun) (a : ℕ) (sock : Socket) (bytes : List UInt8) :
    (s.readDone a sock bytes).received = update s.received a (s.received a ++ [bytes]) := rfl

private theorem writeDone_sockets (s : IpcRun) (a peer : ℕ) (sock : Socket) (data : List UInt8) (count : ℕ) :
    (s.writeDone a peer sock data count).sockets = update s.sockets peer (some sock) := rfl

theorem writeDone_sent (s : IpcRun) (a peer : ℕ) (sock : Socket) (data : List UInt8) (count : ℕ) :
    (s.writeDone a peer sock data count).sent = update s.sent a (s.sent a ++ [(data, count)]) := rfl

theorem Inv.setWait (h : s.Inv) (proc : ℕ) {w : Option IpcWait}
    (hw : ∀ a peer data, w = some (.socketWrite a peer data) → peer ≠ 0 ∧ ∃ sock, s.sockets a = some sock ∧ sock.peer = peer) :
    (s.setWait proc w).Inv := by
  refine ⟨⟨h.pipes.fifo, h.pipes.unused⟩, ⟨h.sockets.fifo, h.sockets.null, h.sockets.peer, h.sockets.single, h.sockets.unused,
    h.sockets.backlog, fun q a peer data hq => ?_⟩⟩
  rw [setWait_waits, update_apply] at hq
  split_ifs at hq
  · exact hw a peer data hq
  · exact h.sockets.waits q a peer data hq

theorem PipesInv.pipeDone (h : s.PipesInv) {t : Transfers UInt8} (ht : t.Fifo p.ring) :
    (s.pipeDone a p t).PipesInv := by
  constructor
  · intro b q hb
    rw [pipeDone_pipes, update_apply] at hb
    rw [pipeDone_piped, update_apply]
    split_ifs at hb ⊢ with hab
    · cases hb
      exact ht
    · exact h.fifo b q hb
  · intro b hb
    rw [pipeDone_pipes, update_apply] at hb
    rw [pipeDone_piped, update_apply]
    split_ifs at hb ⊢ with hab
    exact h.unused b hb

theorem Inv.pipeDone (h : s.Inv) {t : Transfers UInt8} (ht : t.Fifo p.ring) : (s.pipeDone a p t).Inv :=
  ⟨h.pipes.pipeDone ht, ⟨h.sockets.fifo, h.sockets.null, h.sockets.peer, h.sockets.single, h.sockets.unused, h.sockets.backlog,
    h.sockets.waits⟩⟩

/-- The record of a socket changes, but not what it is connected to. -/
structure Kept (s : IpcRun) (a : ℕ) (sock sock' : Socket) : Prop where
  found : s.sockets a = some sock
  peer : sock'.peer = sock.peer
  backlog : ∀ client ∈ sock'.backlog, ∃ c, s.sockets client = some c

theorem SocketsInv.update (h : s.SocketsInv) (hk : s.Kept a sock sock')
    (hsockets : s'.sockets = update s.sockets a (some sock')) (hwaits : s'.waits = s.waits)
    (hfifo : (s'.link a sock').Fifo sock'.ring) (hlink : ∀ b other, b ≠ a → s.sockets b = some other → s'.link b other = s.link b other)
    (hsingle : ∀ b other, s.sockets b = some other → other.peer = 0 → ∀ x ∈ s'.sent b, x.2 = 0)
    (hunused : ∀ b, s.sockets b = none → s'.sent b = s.sent b ∧ s'.received b = s.received b) : s'.SocketsInv := by
  -- every record is still there, with its peer
  have hthere : ∀ b c, s.sockets b = some c → ∃ c', s'.sockets b = some c' ∧ c'.peer = c.peer := by
    intro b c hc
    rw [hsockets, update_apply]
    split_ifs with hb
    · subst hb
      cases hk.found.symm.trans hc
      exact ⟨sock', rfl, hk.peer⟩
    · exact ⟨c, hc, rfl⟩
  have hback : ∀ b c', s'.sockets b = some c' → ∃ c, s.sockets b = some c ∧ c'.peer = c.peer ∧
      (b ≠ a → c' = c) ∧ ∀ client ∈ c'.backlog, ∃ d, s.sockets client = some d := by
    intro b c' hc'
    rw [hsockets, update_apply] at hc'
    split_ifs at hc' with hb
    · subst hb
      cases hc'
      exact ⟨sock, hk.found, hk.peer, fun hne => absurd rfl hne, hk.backlog⟩
    · exact ⟨c', hc', rfl, fun _ => rfl, h.backlog b c' hc'⟩
  refine ⟨fun b c' hc' => ?_, ?_, fun b c' hc' hne => ?_, fun b c' hc' hzero => ?_, fun b hb => ?_, fun b c' hc' client hcl => ?_,
    fun proc b peer data hw => ?_⟩
  · by_cases hb : b = a
    · subst hb
      rw [hsockets, update_self] at hc'
      cases hc'
      exact hfifo
    · obtain ⟨c, hc, -, heq, -⟩ := hback b c' hc'
      obtain rfl := heq hb
      rw [hlink b c' hb hc]
      exact h.fifo b c' hc
  · rw [hsockets, update_of_ne]
    · exact h.null
    · rintro rfl
      cases h.null.symm.trans hk.found
  · obtain ⟨c, hc, hp, -⟩ := hback b c' hc'
    rw [hp] at hne ⊢
    obtain ⟨d, hd, hdp⟩ := h.peer b c hc hne
    obtain ⟨d', hd', hdp'⟩ := hthere c.peer d hd
    exact ⟨d', hd', hdp'.trans hdp⟩
  · obtain ⟨c, hc, hp, -⟩ := hback b c' hc'
    exact hsingle b c hc (hp.symm.trans hzero)
  · have hnone : s.sockets b = none := by
      by_contra hsome
      obtain ⟨c, hc⟩ := ne_none_iff_exists'.mp hsome
      obtain ⟨c', hc', -⟩ := hthere b c hc
      cases hb.symm.trans hc'
    rw [(hunused b hnone).1, (hunused b hnone).2]
    exact h.unused b hnone
  · obtain ⟨-, -, -, -, hbl⟩ := hback b c' hc'
    obtain ⟨d, hd⟩ := hbl client hcl
    obtain ⟨d', hd', -⟩ := hthere client d hd
    exact ⟨d', hd'⟩
  · rw [hwaits] at hw
    obtain ⟨hne, c, hc, hp⟩ := h.waits proc b peer data hw
    obtain ⟨c', hc', hp'⟩ := hthere b c hc
    exact ⟨hne, c', hc', hp'.trans hp⟩

theorem link_congr (hp : sock'.peer = sock.peer) (hsent : s'.sent = s.sent)
    (hrec : s'.received a = s.received a) : s'.link a sock' = s.link a sock := by
  rw [link, link, hp, hsent, hrec]

theorem SocketsInv.readDone (h : s.SocketsInv) {bytes : List UInt8} (hk : s.Kept a sock sock')
    (hf : ((s.link a sock).addTake bytes).Fifo sock'.ring) : (s.readDone a sock' bytes).SocketsInv := by
  refine h.update hk (readDone_sockets ..) rfl ?_ ?_ ?_ ?_
  · have hlink : (s.readDone a sock' bytes).link a sock' = (s.link a sock).addTake bytes := by
      rw [link, link, hk.peer, readDone_received, update_self]
      rfl
    rwa [hlink]
  · intro b other hb _
    refine link_congr rfl rfl ?_
    rw [readDone_received, update_of_ne hb]
  · exact fun b other hb hp => h.single b other hb hp
  · intro b hb
    refine ⟨rfl, ?_⟩
    rw [readDone_received, update_of_ne]
    rintro rfl
    cases hb.symm.trans hk.found

theorem SocketsInv.writeDone (h : s.SocketsInv) {peer : Socket} {count : ℕ}
    (ha : s.sockets a = some sock) (hne : sock.peer ≠ 0) (hpeer : s.sockets sock.peer = some peer)
    (hf : ((s.link sock.peer peer).addPut data count).Fifo ring) :
    (s.writeDone a sock.peer { peer with ring } data count).SocketsInv := by
  have hback : peer.peer = a := by
    obtain ⟨other, hother, hp⟩ := h.peer a sock ha hne
    cases hpeer.symm.trans hother
    exact hp
  have hane : a ≠ 0 := by
    rintro rfl
    cases h.null.symm.trans ha
  have hkept : s.Kept sock.peer peer { peer with ring } := ⟨hpeer, rfl, h.backlog sock.peer peer hpeer⟩
  refine h.update hkept (writeDone_sockets ..) rfl ?_ ?_ ?_ ?_
  · have hlink : (s.writeDone a sock.peer { peer with ring } data count).link sock.peer { peer with ring } =
        (s.link sock.peer peer).addPut data count := by
      rw [link, link, writeDone_sent, hback, if_neg hane, if_neg hane, update_self]
      rfl
    rwa [hlink]
  · -- the writer is the peer of no other socket
    intro b other hb hother
    have hno : other.peer = 0 ∨ other.peer ≠ a := by
      by_contra hc
      obtain ⟨hzero, hpa⟩ := not_or.mp hc
      obtain ⟨d, hd, hdp⟩ := h.peer b other hother hzero
      rw [not_not.mp hpa] at hd
      cases ha.symm.trans hd
      exact hb hdp.symm
    rw [link, link, writeDone_sent]
    obtain hzero | hpa := hno
    · rw [if_pos hzero, if_pos hzero]
      rfl
    · rw [update_of_ne hpa]
      rfl
  · intro b other hother hzero
    rw [writeDone_sent, update_of_ne]
    · exact h.single b other hother hzero
    · rintro rfl
      cases ha.symm.trans hother
      exact hne hzero
  · intro b hb
    refine ⟨?_, rfl⟩
    rw [writeDone_sent, update_of_ne]
    rintro rfl
    cases hb.symm.trans ha

private theorem writeDone_same {other : Socket} (ha : s.sockets a = some sock) (hb : s.sockets b = some other)
    (w : ℕ) (data : List UInt8) : s.writeDone w a sock data 0 = s.writeDone w b other data 0 := by
  rw [writeDone, writeDone, Ipc.setSocket, Ipc.setSocket, ← ha, ← hb, update_eq_self, update_eq_self]

theorem SocketsInv.writeNone (h : s.SocketsInv) (ha : s.sockets a = some sock) (data : List UInt8) :
    (s.writeDone a a sock data 0).SocketsInv := by
  by_cases hzero : sock.peer = 0
  · refine h.update ⟨ha, rfl, h.backlog a sock ha⟩ (writeDone_sockets ..) rfl ?_ ?_ ?_ ?_
    · have hlink : (s.writeDone a a sock data 0).link a sock = s.link a sock := by
        rw [link, link, if_pos hzero, if_pos hzero]
        rfl
      rw [hlink]
      exact h.fifo a sock ha
    · intro b other hb hother
      have hno : other.peer ≠ a := by
        intro hp
        have hne : a ≠ 0 := by
          rintro rfl
          cases h.null.symm.trans ha
        obtain ⟨d, hd, hdp⟩ := h.peer b other hother (hp ▸ hne)
        rw [hp] at hd
        cases ha.symm.trans hd
        rw [← hdp, hzero, h.null] at hother
        cases hother
      rw [link, link, writeDone_sent, update_of_ne hno]
      rfl
    · intro b other hother hp
      rw [writeDone_sent, update_apply]
      split_ifs with hb
      · intro x hx
        obtain hx | hx := List.mem_append.mp hx
        · exact h.single b other hother hp x (hb ▸ hx)
        · rw [List.mem_singleton.mp hx]
      · exact h.single b other hother hp
    · intro b hb
      refine ⟨?_, rfl⟩
      rw [writeDone_sent, update_of_ne]
      rintro rfl
      cases hb.symm.trans ha
  · obtain ⟨peer, hpeer, -⟩ := h.peer a sock ha hzero
    rw [writeDone_same ha hpeer]
    exact h.writeDone ha hzero hpeer ((h.fifo sock.peer peer hpeer).put_none data)

theorem Inv.returns (h : s.Inv) (proc : ℕ) : (s.setWait proc none).Inv := h.setWait proc fun _ _ _ hw => nomatch hw

theorem Inv.pipeReads (h : s.Inv) (proc : ℕ) {r : Option (List UInt8 × Pipe)}
    (hr : ∀ x, r = some x → ((s.piped a).addTake x.1).Fifo x.2.ring) : (s.pipeReads proc a size r).Inv := by
  cases r with
  | none => exact h.setWait proc fun _ _ _ hw => nomatch hw
  | some x => exact (h.pipeDone (hr x rfl)).returns proc

theorem Inv.pipeWrites (h : s.Inv) (proc : ℕ) {r : Option (ℕ × Pipe)}
    (hr : ∀ x, r = some x → ((s.piped a).addPut data x.1).Fifo x.2.ring) : (s.pipeWrites proc a data r).Inv := by
  cases r with
  | none => exact h.setWait proc fun _ _ _ hw => nomatch hw
  | some x => exact (h.pipeDone (hr x rfl)).returns proc

theorem Inv.ofSockets (h : s.Inv) (hs : s'.SocketsInv) (hpipes : s'.pipes = s.pipes)
    (hpiped : s'.piped = s.piped) : s'.Inv := by
  refine ⟨⟨fun a p hp => ?_, fun a hp => ?_⟩, hs⟩
  · rw [hpipes] at hp
    rw [hpiped]
    exact h.pipes.fifo a p hp
  · rw [hpipes] at hp
    rw [hpiped]
    exact h.pipes.unused a hp

theorem Inv.socketReads (h : s.Inv) (proc : ℕ) (sock : Socket) {r : Option (List UInt8 × Socket)}
    (hr : ∀ x, r = some x → s.Kept a sock x.2 ∧ ((s.link a sock).addTake x.1).Fifo x.2.ring) :
    (s.socketReads proc a size r).Inv := by
  cases r with
  | none => exact h.setWait proc fun _ _ _ hw => nomatch hw
  | some x => exact (h.ofSockets (h.sockets.readDone (hr x rfl).1 (hr x rfl).2) rfl rfl).returns proc

theorem Inv.goOn (h : s.Inv) (proc : ℕ) {w : IpcWait}
    (hw : ∀ a peer data, w = .socketWrite a peer data → peer ≠ 0 ∧ ∃ sock, s.sockets a = some sock ∧ sock.peer = peer) :
    (s.goOn proc w).Inv := by
  cases w with
  | pipeRead a size =>
    dsimp only [IpcRun.goOn]
    cases hp : s.pipes a with
    | none => exact h
    | some p =>
      refine h.pipeReads proc fun x hx => ?_
      rw [Pipe.readOn_eq hx]
      exact (h.pipes.fifo a p hp).take size
  | pipeWrite a data =>
    dsimp only [IpcRun.goOn]
    cases hp : s.pipes a with
    | none => exact h
    | some p =>
      refine h.pipeWrites proc fun x hx => ?_
      rw [Pipe.writeOn_eq hx]
      exact (h.pipes.fifo a p hp).put data
  | socketRead a size =>
    dsimp only [IpcRun.goOn]
    cases hs : s.sockets a with
    | none => exact h
    | some sock =>
      refine h.socketReads proc sock fun x hx => ?_
      rw [Socket.readOn_eq hx]
      exact ⟨⟨hs, rfl, h.sockets.backlog a sock hs⟩, (h.sockets.fifo a sock hs).take size⟩
  | socketWrite a peer data =>
    obtain ⟨hne, sock, hs, rfl⟩ := hw a peer data rfl
    dsimp only [IpcRun.goOn]
    cases hp : s.sockets sock.peer with
    | none => exact h
    | some peer =>
      dsimp only [Option.elim]
      cases hx : peer.writeOn data with
      | none =>
        refine h.setWait proc fun b q d hq => ?_
        obtain ⟨rfl, rfl, rfl⟩ := IpcWait.socketWrite.inj (Option.some.inj hq)
        exact ⟨hne, sock, hs, rfl⟩
      | some x =>
        rw [Socket.writeOn_eq hx]
        exact (h.ofSockets (h.sockets.writeDone hs hne hp ((h.sockets.fifo sock.peer peer hp).put data)) rfl rfl).returns proc

theorem Inv.call (h : s.Inv) (proc : ℕ) (c : IpcCall) : (s.call proc c).Inv := by
  cases c with
  | pipeRead a size =>
    cases hp : s.pipes a with
    | none =>
      rw [IpcRun.call, hp]
      exact h
    | some p =>
      rw [IpcRun.call, hp]
      dsimp only [Option.elim]
      rw [pipeRead]
      split_ifs with hclosed
      · refine h.pipeReads proc fun x hx => ?_
        cases hx
        exact (h.pipes.fifo a p hp).take_none
      · have hgo := h.goOn proc (w := .pipeRead a size) fun _ _ _ hw => nomatch hw
        rwa [IpcRun.goOn, hp] at hgo
  | pipeWrite a data =>
    cases hp : s.pipes a with
    | none =>
      rw [IpcRun.call, hp]
      exact h
    | some p =>
      rw [IpcRun.call, hp]
      dsimp only [Option.elim]
      rw [pipeWrite]
      split_ifs with hclosed
      · refine h.pipeWrites proc fun x hx => ?_
        cases hx
        exact (h.pipes.fifo a p hp).put_none data
      · have hgo := h.goOn proc (w := .pipeWrite a data) fun _ _ _ hw => nomatch hw
        rwa [IpcRun.goOn, hp] at hgo
  | socketRead a size =>
    cases hs : s.sockets a with
    | none =>
      rw [IpcRun.call, hs]
      exact h
    | some sock =>
      rw [IpcRun.call, hs]
      dsimp only [Option.elim]
      rw [socketRead]
      split_ifs with hstate
      · refine h.socketReads proc sock fun x hx => ?_
        cases hx
        exact ⟨⟨hs, rfl, h.sockets.backlog a sock hs⟩, (h.sockets.fifo a sock hs).take_none⟩
      · have hgo := h.goOn proc (w := .socketRead a size) fun _ _ _ hw => nomatch hw
        rwa [IpcRun.goOn, hs] at hgo
  | socketWrite a data =>
    cases hs : s.sockets a with
    | none =>
      rw [IpcRun.call, hs]
      exact h
    | some sock =>
      rw [IpcRun.call, hs]
      dsimp only [Option.elim]
      split_ifs with hwritable
      · refine h.goOn proc fun b q d hq => ?_
        obtain ⟨rfl, rfl, rfl⟩ := IpcWait.socketWrite.inj hq
        exact ⟨hwritable.2, sock, hs, rfl⟩
      · exact h.ofSockets (h.sockets.writeNone hs data) rfl rfl

theorem SocketsInv.setSocket (h : s.SocketsInv) (hk : s.Kept a sock sock')
    (hr : sock'.ring = sock.ring) : ({ s with toIpc := s.toIpc.setSocket a sock' } : IpcRun).SocketsInv := by
  refine h.update hk rfl rfl ?_ (fun b other _ _ => rfl) h.single fun _ _ => ⟨rfl, rfl⟩
  rw [link_congr hk.peer rfl rfl, hr]
  exact h.fifo a sock hk.found

theorem SocketsInv.setState (h : s.SocketsInv) (a : ℕ) (state : SocketState) :
    ({ s with toIpc := s.toIpc.setState a state } : IpcRun).SocketsInv := by
  rw [Ipc.setState]
  cases hs : s.sockets a with
  | none => exact h
  | some sock => exact h.setSocket ⟨hs, rfl, h.backlog a sock hs⟩ rfl

theorem SocketsInv.sysSocket (h : s.SocketsInv) (hne : a ≠ 0) (hnew : s.sockets a = none) (slots : Fin pipeSize → UInt8) :
    ({ s with toIpc := s.toIpc.sysSocket a slots } : IpcRun).SocketsInv := by
  have hsockets : ({ s with toIpc := s.toIpc.sysSocket a slots } : IpcRun).sockets =
      Function.update s.sockets a (some { state := .free, peer := 0, backlog := [], ring := Ipc.emptyRing slots }) := rfl
  have hthere : ∀ b c, s.sockets b = some c → ({ s with toIpc := s.toIpc.sysSocket a slots } : IpcRun).sockets b = some c := by
    intro b c hc
    rw [hsockets, Function.update_of_ne]
    · exact hc
    · rintro rfl
      cases hnew.symm.trans hc
  refine ⟨fun b c hc => ?_, ?_, fun b c hc hp => ?_, fun b c hc hp => ?_, fun b hb => ?_, fun b c hc client hcl => ?_,
    fun proc b peer data hw => ?_⟩
  · rw [hsockets, Function.update_apply] at hc
    split_ifs at hc with hb
    · obtain rfl := Option.some.inj hc
      subst hb
      exact .idle (fun _ hx => nomatch hx) (congrArg List.flatten (h.unused b hnew).2) (contents_empty rfl)
    · exact h.fifo b c hc
  · rw [hsockets, Function.update_of_ne hne.symm]
    exact h.null
  · rw [hsockets, Function.update_apply] at hc
    split_ifs at hc with hb
    · obtain rfl := Option.some.inj hc
      exact absurd rfl hp
    · obtain ⟨other, hother, hback⟩ := h.peer b c hc hp
      exact ⟨other, hthere _ _ hother, hback⟩
  · rw [hsockets, Function.update_apply] at hc
    split_ifs at hc with hb
    · subst hb
      intro x hx
      rw [show ({ s with toIpc := s.toIpc.sysSocket b slots } : IpcRun).sent b = [] from (h.unused b hnew).1] at hx
      cases hx
    · exact h.single b c hc hp
  · rw [hsockets, Function.update_apply] at hb
    split_ifs at hb
    exact h.unused b hb
  · rw [hsockets, Function.update_apply] at hc
    split_ifs at hc with hb
    · obtain rfl := Option.some.inj hc
      cases hcl
    · obtain ⟨d, hd⟩ := h.backlog b c hc client hcl
      exact ⟨d, hthere _ _ hd⟩
  · obtain ⟨hpeer, c, hc, hp⟩ := h.waits proc b peer data hw
    exact ⟨hpeer, c, hthere _ _ hc, hp⟩

theorem SocketsInv.sysConnect (h : s.SocketsInv) (a server : ℕ) :
    ({ s with toIpc := s.toIpc.sysConnect a server } : IpcRun).SocketsInv := by
  rw [Ipc.sysConnect]
  cases ha : s.sockets a with
  | none => exact h
  | some sock =>
    cases hv : s.sockets server with
    | none => exact h
    | some v =>
      dsimp only
      split_ifs
      · have hbacklog : ∀ client ∈ v.backlog ++ [a], ∃ c, s.sockets client = some c := by
          intro client hcl
          obtain hcl | hcl := List.mem_append.mp hcl
          · exact h.backlog server v hv client hcl
          · exact ⟨sock, List.mem_singleton.mp hcl ▸ ha⟩
        have hk : s.Kept server v { v with backlog := v.backlog ++ [a] } := ⟨hv, rfl, hbacklog⟩
        exact (h.setSocket hk rfl).setState a .connecting
      · exact h

structure Joined (s s' : IpcRun) (client conn : ℕ) (c k : Socket) : Prop where
  atClient : s'.sockets client = some { c with peer := conn }
  atConn : s'.sockets conn = some k
  others : ∀ b, b ≠ client → b ≠ conn → s'.sockets b = s.sockets b
  sent : s'.sent = s.sent
  received : s'.received = s.received
  waits : s'.waits = s.waits

private theorem joined_setPeer (hc : s.sockets client = some c) (hcc : client ≠ conn) :
    s.Joined { s with toIpc := (s.toIpc.setSocket conn k).setPeer client conn } client conn c k := by
  have hset : (s.toIpc.setSocket conn k).setPeer client conn =
      (s.toIpc.setSocket conn k).setSocket client { c with peer := conn } := by
    have hfound : (s.toIpc.setSocket conn k).sockets client = some c := (update_of_ne hcc ..).trans hc
    rw [setPeer, hfound]
    rfl
  rw [hset]
  refine ⟨update_self .., ?_, fun b hb hb' => ?_, rfl, rfl, rfl⟩
  · exact (update_of_ne hcc.symm ..).trans (update_self ..)
  · exact (update_of_ne hb ..).trans (update_of_ne hb' ..)

theorem Joined.there (h : s.Joined s' client conn c k)
    (hnew : s.sockets conn = none) (hc : s.sockets client = some c) (hp : c.peer = 0) {d : Socket}
    (hd : s.sockets b = some d) : ∃ d', s'.sockets b = some d' ∧ (d.peer ≠ 0 → d' = d) := by
  by_cases hb : b = client
  · subst hb
    cases hc.symm.trans hd
    exact ⟨_, h.atClient, fun hno => absurd hp hno⟩
  · refine ⟨d, (h.others b hb ?_).trans hd, fun _ => rfl⟩
    rintro rfl
    cases hnew.symm.trans hd

theorem Joined.cases (h : s.Joined s' client conn c k) {d : Socket}
    (hd : s'.sockets b = some d) :
    b = client ∧ d = { c with peer := conn } ∨ b = conn ∧ d = k ∨ b ≠ client ∧ b ≠ conn ∧ s.sockets b = some d := by
  by_cases hb : b = client
  · subst hb
    exact Or.inl ⟨rfl, some.inj (hd.symm.trans h.atClient)⟩
  by_cases hb' : b = conn
  · subst hb'
    exact Or.inr (Or.inl ⟨rfl, some.inj (hd.symm.trans h.atConn)⟩)
  · exact Or.inr (Or.inr ⟨hb, hb', (h.others b hb hb').symm.trans hd⟩)

theorem SocketsInv.connect (h : s.SocketsInv) (hne : conn ≠ 0) (hnew : s.sockets conn = none)
    (hc : s.sockets client = some c) (hp : c.peer = 0) (hk : k.peer = client) (hbacklog : k.backlog = [])
    (hring : k.ring.contents = []) :
    ({ s with toIpc := (s.toIpc.setSocket conn k).setPeer client conn } : IpcRun).SocketsInv := by
  have hcc : client ≠ conn := by
    rintro rfl
    cases hnew.symm.trans hc
  have hclient : client ≠ 0 := by
    rintro rfl
    cases h.null.symm.trans hc
  have hj : s.Joined { s with toIpc := (s.toIpc.setSocket conn k).setPeer client conn } client conn c k :=
    joined_setPeer hc hcc
  generalize ({ s with toIpc := (s.toIpc.setSocket conn k).setPeer client conn } : IpcRun) = s' at hj ⊢
  refine ⟨fun b d hd => ?_, ?_, fun b d hd hno => ?_, fun b d hd hzero x hx => ?_, fun b hb => ?_, fun b d hd cl hcl => ?_,
    fun proc b peer data hw => ?_⟩
  · obtain ⟨rfl, rfl⟩ | ⟨rfl, rfl⟩ | ⟨-, -, hd⟩ := hj.cases hd
    · -- nothing was sent by the new socket yet
      have hlink : s'.link b { c with peer := conn } = s.link b c := by
        rw [link, link, if_neg hne, if_pos hp, hj.sent, hj.received, (h.unused conn hnew).1]
      rw [hlink]
      exact h.fifo b c hc
    · refine .idle (fun x hx => ?_) ?_ hring
      · rw [link, hk, if_neg hclient, hj.sent] at hx
        exact h.single client c hc hp x hx
      · rw [link, hj.received, (h.unused b hnew).2]
        rfl
    · rw [link_congr rfl hj.sent (congrFun hj.received b)]
      exact h.fifo b d hd
  · rw [hj.others 0 hclient.symm hne.symm]
    exact h.null
  · obtain ⟨rfl, rfl⟩ | ⟨rfl, rfl⟩ | ⟨-, -, hd⟩ := hj.cases hd
    · exact ⟨k, hj.atConn, hk⟩
    · exact ⟨_, hk ▸ hj.atClient, rfl⟩
    · obtain ⟨e, he, heb⟩ := h.peer b d hd hno
      have hepeer : e.peer ≠ 0 := by
        rw [heb]
        rintro rfl
        cases h.null.symm.trans hd
      obtain ⟨e', he', heq⟩ := hj.there hnew hc hp he
      exact ⟨e', he', heq hepeer ▸ heb⟩
  · obtain ⟨rfl, rfl⟩ | ⟨rfl, rfl⟩ | ⟨-, -, hd⟩ := hj.cases hd
    · exact absurd hzero hne
    · exact absurd (hk.symm.trans hzero) hclient
    · exact h.single b d hd hzero x (hj.sent ▸ hx)
  · have hnone : s.sockets b = none := by
      by_contra hsome
      obtain ⟨d, hd⟩ := ne_none_iff_exists'.mp hsome
      obtain ⟨d', hd', -⟩ := hj.there hnew hc hp hd
      cases hb.symm.trans hd'
    rw [hj.sent, hj.received]
    exact h.unused b hnone
  · obtain ⟨rfl, rfl⟩ | ⟨rfl, rfl⟩ | ⟨-, -, hd⟩ := hj.cases hd
    · obtain ⟨e, he⟩ := h.backlog b c hc cl hcl
      obtain ⟨e', he', -⟩ := hj.there hnew hc hp he
      exact ⟨e', he'⟩
    · rw [hbacklog] at hcl
      cases hcl
    · obtain ⟨e, he⟩ := h.backlog b d hd cl hcl
      obtain ⟨e', he', -⟩ := hj.there hnew hc hp he
      exact ⟨e', he'⟩
  · rw [hj.waits] at hw
    obtain ⟨hpeer, d, hd, hdp⟩ := h.waits proc b peer data hw
    obtain ⟨d', hd', heq⟩ := hj.there hnew hc hp hd
    exact ⟨hpeer, d', hd', heq (hdp ▸ hpeer) ▸ hdp⟩

theorem SocketsInv.sysAccept (h : s.SocketsInv) {server : ℕ} {slots : Fin pipeSize → UInt8}
    (hal : s.Allowed (.sysAccept server conn slots)) :
    ({ s with toIpc := s.toIpc.sysAccept server conn slots } : IpcRun).SocketsInv := by
  obtain ⟨⟨hne, hnew⟩, hfirst⟩ := hal
  rw [Ipc.sysAccept]
  cases hv : s.sockets server with
  | none => exact h
  | some v =>
    dsimp only
    cases hb : v.backlog with
    | nil => exact h
    | cons client backlog =>
      obtain ⟨c, hc⟩ := h.backlog server v hv client (hb ▸ (.head _))
      have hp : c.peer = 0 := hfirst v hv client (by rw [hb]; rfl) c hc
      have hk : s.Kept server v { v with backlog } :=
        ⟨hv, rfl, fun d hd => h.backlog server v hv d (hb ▸ .tail _ hd)⟩
      have hpop := h.setSocket hk rfl
      have hnew' : (s.toIpc.setSocket server { v with backlog }).sockets conn = none := by
        refine (update_of_ne ?_ ..).trans hnew
        rintro rfl
        cases hnew.symm.trans hv
      -- the client may be the server itself
      obtain ⟨c', hc', hp'⟩ : ∃ c', (s.toIpc.setSocket server { v with backlog }).sockets client = some c' ∧ c'.peer = 0 := by
        by_cases hself : client = server
        · subst hself
          cases hv.symm.trans hc
          exact ⟨_, update_self .., hp⟩
        · exact ⟨c, (update_of_ne hself ..).trans hc, hp⟩
      exact (hpop.connect (k := { state := .connected, peer := client, backlog := [], ring := emptyRing slots }) hne hnew' hc' hp'
        rfl rfl (contents_empty rfl)).setState client .connected

theorem SocketsInv.sysSocketpair (h : s.SocketsInv) {c : ℕ} {slots slots' : Fin pipeSize → UInt8}
    (hal : s.Allowed (.sysSocketpair a c slots slots')) :
    ({ s with toIpc := s.toIpc.sysSocketpair a c slots slots' } : IpcRun).SocketsInv := by
  obtain ⟨⟨ha, hnew⟩, ⟨hc, hnew'⟩, hac⟩ := hal
  -- the second one alone, then the first as the peer that it accepts
  have hsingle := h.sysSocket hc hnew' slots'
  have hpair := (hsingle.connect (k := { state := .connected, peer := c, backlog := [], ring := emptyRing slots }) ha
    ((update_of_ne hac ..).trans hnew) (update_self ..) rfl rfl rfl (contents_empty rfl)).setState c .connected
  have heq : ((((s.toIpc.sysSocket c slots').setSocket a
      { state := .connected, peer := c, backlog := [], ring := emptyRing slots }).setPeer c a).setState c .connected) =
      s.toIpc.sysSocketpair a c slots slots' := by
    rw [setPeer, show ((s.toIpc.sysSocket c slots').setSocket a _).sockets c = _ from
      (Function.update_of_ne hac.symm ..).trans (Function.update_self ..)]
    dsimp only [Option.elim]
    rw [Ipc.setState, show (((s.toIpc.sysSocket c slots').setSocket a _).setSocket c _).sockets c = _ from Function.update_self ..]
    dsimp only [Option.elim]
    rw [Ipc.sysSocketpair, ← Ipc.setSocket_again s.toIpc hac { state := .free, peer := 0, backlog := [], ring := Ipc.emptyRing slots' }]
    dsimp only [Ipc.setSocket, Ipc.sysSocket]
    rw [update_idem]
  rw [← heq]
  exact hpair

theorem Inv.exec (h : s.Inv) {e : IpcEvent} (hal : s.Allowed e) : (s.exec e).Inv := by
  cases e with
  | sysPipe a slots =>
    have heq : s.exec (.sysPipe a slots) =
        s.pipeDone a { ring := emptyRing slots, readClosed := false, writeClosed := false } (s.piped a) := by
      rw [IpcRun.pipeDone, update_eq_self]
      rfl
    rw [heq]
    refine h.pipeDone ?_
    rw [h.pipes.unused a hal]
    exact .idle (fun _ hx => nomatch hx) rfl (contents_empty rfl)
  | sysSocket a slots => exact h.ofSockets (h.sockets.sysSocket hal.1 hal.2 slots) rfl rfl
  | sysBind a => exact h.ofSockets (h.sockets.setState a .bound) (setState_pipes ..) rfl
  | sysConnect a server => exact h.ofSockets (h.sockets.sysConnect a server) (sysConnect_pipes ..) rfl
  | sysAccept server conn slots => exact h.ofSockets (h.sockets.sysAccept hal) (sysAccept_pipes ..) rfl
  | sysSocketpair a c slots slots' => exact h.ofSockets (h.sockets.sysSocketpair hal) rfl rfl
  | call proc c =>
    rw [IpcRun.exec]
    split_ifs
    · exact h.call proc c
    · exact h
  | resume proc =>
    dsimp only [IpcRun.exec]
    cases hw : s.waits proc with
    | none => exact h
    | some w => exact h.goOn proc fun a peer data heq => h.sockets.waits proc a peer data (heq ▸ hw)

private theorem inv_run {es : List IpcEvent} (hr : Along exec Allowed boot es) : (es.foldl exec boot).Inv :=
  hr.relates (R := fun s t => s.Inv → t.Inv) (fun _ h => h) (fun hst htu h => htu (hst h)) (fun _ _ hal h => h.exec hal) inv_boot

/-- In every run that connects no socket twice, each pipe and each direction of each pair of sockets hands on what was
written to it, in order, and holds less than its size. -/
theorem fifo_runs {es : List IpcEvent} (hr : Along exec Allowed boot es) :
    let s := es.foldl exec boot
    (∀ a p, s.pipes a = some p → (s.piped a).Fifo p.ring ∧ p.ring.contents.length ≤ pipeSize - 1) ∧
      ∀ a b sock peer, s.sockets a = some sock → s.sockets b = some peer → sock.peer = b →
        peer.peer = a ∧ (⟨s.sent a, s.received b⟩ : Transfers UInt8).Fifo peer.ring ∧ peer.ring.contents.length ≤ 4095 := by
  intro s
  have h : s.Inv := inv_run hr
  constructor
  · intro a p hp
    exact ⟨h.pipes.fifo a p hp, Nat.le_sub_one_of_lt (length_contents_lt p.ring)⟩
  · rintro a b sock peer ha hb rfl
    have hne : sock.peer ≠ 0 := by
      intro hzero
      rw [hzero, h.sockets.null] at hb
      cases hb
    have hane : a ≠ 0 := by
      rintro rfl
      cases h.sockets.null.symm.trans ha
    obtain ⟨other, hother, hback⟩ := h.sockets.peer a sock ha hne
    cases hb.symm.trans hother
    have hfifo := h.sockets.fifo sock.peer peer hb
    rw [link, hback, if_neg hane] at hfifo
    exact ⟨hback, hfifo, Nat.le_sub_one_of_lt (length_contents_lt peer.ring)⟩

theorem waited_read :
    let zero : Fin pipeSize → UInt8 := fun _ => 0
    let es := [.sysPipe 1 zero, .call 10 (.pipeRead 1 2), .call 11 (.pipeWrite 1 [1, 2, 3]), .resume 10, .sysSocket 2 zero,
      .sysBind 2, .sysSocket 3 zero, .sysConnect 3 2, .sysAccept 2 4 zero, .call 10 (.socketWrite 3 [7]),
      .call 11 (.socketRead 4 5), .sysSocketpair 5 6 zero zero, .call 10 (.socketWrite 5 [8, 9]), .call 11 (.socketRead 6 1)]
    let s := es.foldl exec boot
    (∀ a p, s.pipes a = some p → (s.piped a).Fifo p.ring) ∧ (s.piped 1).takes = [[1, 2]] ∧ s.received 4 = [[7]] ∧
      s.received 6 = [[8]] := by
  intro zero es s
  have hr : Along exec Allowed boot es := by decide +kernel
  exact ⟨fun a p hp => ((fifo_runs hr).1 a p hp).1, by decide +kernel, by decide +kernel, by decide +kernel⟩

end IpcRun
end RetroOs.Kernel
