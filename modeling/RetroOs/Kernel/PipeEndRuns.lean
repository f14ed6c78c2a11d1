import RetroOs.Kernel.PipeEnds

/-! Runs with closing and shutting down: when no call uses what was freed, a closed end is seen by the other one, and
a call that sleeps behind it comes back. -/
namespace RetroOs.Kernel
open Lib RingBuffer Option Function IpcSystem

def IpcSleep.pipe : IpcSleep → Option ℕ
  | .pipeRead a _ | .pipeWrite a _ => some a
  | .socketRead .. | .socketWrite .. | .connect _ | .accept _ => none

def IpcSleep.socket : IpcSleep → Option ℕ
  | .socketRead a _ | .socketWrite a _ | .connect a | .accept a => some a
  | .pipeRead .. | .pipeWrite .. => none

/-- A reader takes what is buffered, and gets nothing when nothing is left. -/
def Pipe.Drains (p : Pipe) : Prop :=
  ∀ size, ∃ q, p.readOn size = some (p.ring.contents.take size, q) ∧ q.ring.contents = p.ring.contents.drop size

def Socket.EndOfStream (sock : Socket) : Prop := ∀ size, socketRead sock size ≠ none

theorem Pipe.readOn_some {p : Pipe} {size : ℕ} {x : List UInt8 × Pipe} (h : p.readOn size = some x) :
    x = ((p.ring.take size).1, { p with ring := (p.ring.take size).2 }) := by
  obtain ⟨y, hy, rfl⟩ := map_eq_some_iff.mp h
  rw [readLoop] at hy
  split_ifs at hy
  rw [← some.inj hy]

theorem Pipe.readOn_none {p : Pipe} {size : ℕ} (h : p.readOn size = none) : p.writeClosed = false := by
  rw [readOn, map_eq_none_iff, readLoop] at h
  split_ifs at h with hwait
  exact hwait.2.2

theorem Pipe.drains {p : Pipe} (h : p.writeClosed = true) : p.Drains := by
  intro size
  have hno : ¬ (size ≠ 0 ∧ p.ring.head = p.ring.tail ∧ p.writeClosed = false) := fun hwait => absurd (h.symm.trans hwait.2.2) (by decide)
  refine ⟨{ p with ring := (p.ring.take size).2 }, ?_, (take_eq size p.ring).2⟩
  rw [readOn, readLoop, if_neg hno, ← (take_eq size p.ring).1]
  rfl

theorem Pipe.writeOn_some {p : Pipe} {data : List UInt8} {x : ℕ × Pipe} (h : p.writeOn data = some x) :
    x = ((p.ring.put data).1, { p with ring := (p.ring.put data).2 }) := by
  obtain ⟨y, hy, rfl⟩ := map_eq_some_iff.mp h
  rw [writeLoop] at hy
  split_ifs at hy
  rw [← some.inj hy]

theorem Pipe.writeOn_none_iff {p : Pipe} {data : List UInt8} :
    p.writeOn data = none ↔ data ≠ [] ∧ pipeSize ≤ p.ring.contents.length + 1 := by
  rw [writeOn, map_eq_none_iff, writeLoop, ← full_iff]
  split_ifs with h
  · exact ⟨fun _ => h, fun _ => rfl⟩
  · exact ⟨(fun hno => by cases hno), fun hfull => absurd hfull h⟩

namespace IpcSystem
variable {s t : IpcSystem} {a proc size : ℕ} {p : Pipe} {sock : Socket} {data : List UInt8} {new : NewSocket} {e : IpcAction}
  {how : ShutdownHow} {side : PipeEnd}

/-- Every pointer leads to something that is there. -/
structure Held (s : IpcSystem) : Prop where
  peer : ∀ a sock, s.sockets a = some sock → sock.peer ≠ 0 → ∃ other, s.sockets sock.peer = some other
  backlog : ∀ a sock, s.sockets a = some sock → ∀ client ∈ sock.backlog, ∃ c, s.sockets client = some c
  pipe : ∀ proc w, s.sleeps proc = some w → ∀ a, w.pipe = some a → ∃ p, s.pipes a = some p
  socket : ∀ proc w, s.sleeps proc = some w → ∀ a, w.socket = some a → ∃ sock, s.sockets a = some sock

/-- No call uses freed memory, nor is a pointer to it left; where one end is closed, the calls at the other one
return, those that sleep have been made ready, and a reader gets what is buffered first. -/
structure Kept (s : IpcSystem) : Prop where
  held : s.Held
  safe : ∀ e, s.Allowed e → s.exec e ≠ none
  readers : ∀ a p, s.pipes a = some p → p.writeClosed = true →
    p.Drains ∧ ∀ proc size, s.sleeps proc = some (.pipeRead a size) → s.awake proc = true
  writers : ∀ a p, s.pipes a = some p → p.readClosed = true →
    (∀ data, pipeWrite p data ≠ none) ∧
      ∀ proc data, s.sleeps proc = some (.pipeWrite a data) → s.awake proc = true ∧ p.writeOn data ≠ none
  sockets : ∀ a sock, s.sockets a = some sock → sock.peer ≠ 0 → s.sockets sock.peer = none →
    (sock.EndOfStream ∧ ¬ sock.Writable) ∧
      ∀ proc size, s.sleeps proc = some (.socketRead a size) → s.awake proc = true ∧ sock.readOn size ≠ none

def StopsWrites (s t : IpcSystem) : IpcAction → Prop
  | .sysShutdown a how => how ≠ .rd → ∀ sock, s.sockets a = some sock → sock.peer ≠ 0 →
    (∀ sock', t.sockets a = some sock' → ¬ sock'.Writable) ∧
      ∀ other other', s.sockets sock.peer = some other → t.sockets sock.peer = some other' →
        (other.Writable → other'.Writable) ∧ other'.EndOfStream
  | _ => True

def Referenced (s : IpcSystem) (a : ℕ) : Prop :=
  (∃ c sock, c ≠ a ∧ s.sockets c = some sock ∧ (sock.peer = a ∨ a ∈ sock.backlog)) ∨
    ∃ proc w, s.sleeps proc = some w ∧ w.socket = some a

/-- A pipe is freed only when no call sleeps in it, and its read end is closed only when no writer sleeps before a
full buffer; no writer that goes on behind it leaves the buffer full for another. A socket is closed only when
nothing points to it, and a socket is shut down for writing only when neither it nor its peer is connected. -/
def Harmless (s : IpcSystem) : IpcAction → Prop
  | .pipeClose a side => ∀ p, s.pipes a = some p →
    ((p.close side).readClosed = true ∧ (p.close side).writeClosed = true →
      ∀ proc w, s.sleeps proc = some w → w.pipe ≠ some a) ∧
    (side = .read → pipeSize ≤ p.ring.contents.length + 1 →
      ∀ proc data, s.sleeps proc = some (.pipeWrite a data) → data = [])
  | .socketClose a => ¬ s.Referenced a
  | .sysShutdown a how => how = .rd ∨ ∀ sock, s.sockets a = some sock → sock.peer = 0 ∨
    sock.state ≠ .connected ∧ ∀ other, s.sockets sock.peer = some other → other.state ≠ .connected
  | .resume proc _ => ∀ a data p, s.sleeps proc = some (.pipeWrite a data) → s.pipes a = some p → p.readClosed = true →
    (∃ q data', q ≠ proc ∧ data' ≠ [] ∧ s.sleeps q = some (.pipeWrite a data')) →
      data.length + p.ring.contents.length + 1 < pipeSize
  | .sysPipe .. | .sysSocket .. | .sysSocketpair .. | .sysBind _ | .sysListen _ | .sysGetpeername _ | .call .. | .wake _ => True

/-- What every step keeps, where each meets the condition. -/
structure Inv (s : IpcSystem) : Prop where
  held : s.Held
  readers : ∀ a p, s.pipes a = some p → p.writeClosed = true →
    ∀ proc size, s.sleeps proc = some (.pipeRead a size) → s.awake proc = true
  writers : ∀ a p, s.pipes a = some p → p.readClosed = true →
    ∀ proc data, s.sleeps proc = some (.pipeWrite a data) → s.awake proc = true ∧ p.writeOn data ≠ none
  null : s.sockets 0 = none
  connected : ∀ a sock, s.sockets a = some sock → sock.state = .connected → sock.peer ≠ 0

theorem inv_boot : boot.Inv where
  held := ⟨(fun _ _ h => nomatch h), (fun _ _ h => nomatch h), (fun _ _ h => nomatch h), (fun _ _ h => nomatch h)⟩
  readers _ _ h := nomatch h
  writers _ _ h := nomatch h
  null := rfl
  connected _ _ h := nomatch h

/-! ### Records and sleeping calls that change -/

theorem Inv.returns (h : s.Inv) (proc : ℕ) : (s.returns proc).Inv := by
  have hback : ∀ q w, (s.returns proc).sleeps q = some w → s.sleeps q = some w := by
    intro q w hq
    rw [show (s.returns proc).sleeps = update s.sleeps proc none from rfl, update_apply] at hq
    split_ifs at hq
    exact hq
  refine ⟨⟨h.held.peer, h.held.backlog, ?_, ?_⟩, ?_, ?_, h.null, h.connected⟩
  · exact fun q w hq => h.held.pipe q w (hback q w hq)
  · exact fun q w hq => h.held.socket q w (hback q w hq)
  · exact fun a p hp hc q size hq => h.readers a p hp hc q size (hback q _ hq)
  · exact fun a p hp hc q data hq => h.writers a p hp hc q data (hback q _ hq)

theorem Inv.sleep (h : s.Inv) (proc : ℕ) {w : IpcSleep} (hpipe : ∀ a, w.pipe = some a → ∃ p, s.pipes a = some p)
    (hsocket : ∀ a, w.socket = some a → ∃ sock, s.sockets a = some sock)
    (hread : ∀ a p size, w = .pipeRead a size → s.pipes a = some p → p.writeClosed = false)
    (hwrite : ∀ a p data, w = .pipeWrite a data → s.pipes a = some p → p.readClosed = false) : (s.sleep proc w).Inv := by
  have hcases : ∀ q v, (s.sleep proc w).sleeps q = some v →
      v = w ∨ s.sleeps q = some v ∧ (s.sleep proc w).awake q = s.awake q := by
    intro q v hq
    rw [show (s.sleep proc w).sleeps = update s.sleeps proc (some w) from rfl, update_apply] at hq
    rw [show (s.sleep proc w).awake = update s.awake proc false from rfl, update_apply]
    split_ifs at hq ⊢ with hqp
    · exact Or.inl (some.inj hq).symm
    · exact Or.inr ⟨hq, rfl⟩
  refine ⟨⟨h.held.peer, h.held.backlog, fun q v hq => ?_, fun q v hq => ?_⟩, fun a p hp hc q size hq => ?_,
    fun a p hp hc q data hq => ?_, h.null, h.connected⟩
  · obtain rfl | ⟨hq, -⟩ := hcases q v hq
    · exact hpipe
    · exact h.held.pipe q v hq
  · obtain rfl | ⟨hq, -⟩ := hcases q v hq
    · exact hsocket
    · exact h.held.socket q v hq
  · obtain hw | ⟨hq, hawake⟩ := hcases q _ hq
    · cases hc.symm.trans (hread a p size hw.symm hp)
    · rw [hawake]
      exact h.readers a p hp hc q size hq
  · obtain hw | ⟨hq, hawake⟩ := hcases q _ hq
    · cases hc.symm.trans (hwrite a p data hw.symm hp)
    · rw [hawake]
      exact h.writers a p hp hc q data hq

theorem Inv.awake (h : s.Inv) {ready : ℕ → Bool} (hready : ∀ q, s.awake q = true → ready q = true) :
    ({ s with awake := ready } : IpcSystem).Inv := by
  refine ⟨⟨h.held.peer, h.held.backlog, h.held.pipe, h.held.socket⟩, ?_, ?_, h.null, h.connected⟩
  · exact fun a p hp hc q size hq => hready q (h.readers a p hp hc q size hq)
  · intro a p hp hc q data hq
    obtain ⟨hawake, hroom⟩ := h.writers a p hp hc q data hq
    exact ⟨hready q hawake, hroom⟩

theorem Inv.wakeAll (h : s.Inv) : s.wakeAll.Inv := h.awake fun _ _ => rfl

theorem setPipe_pipes (s : IpcSystem) (a : ℕ) (p : Pipe) :
    (s.setIpc (s.setPipe a p)).pipes = update s.pipes a (some p) := rfl

theorem Inv.setPipe (h : s.Inv) {a : ℕ} {p : Pipe}
    (hread : p.writeClosed = true → ∀ q size, s.sleeps q = some (.pipeRead a size) → s.awake q = true)
    (hwrite : p.readClosed = true → ∀ q data, s.sleeps q = some (.pipeWrite a data) → s.awake q = true ∧ p.writeOn data ≠ none) :
    (s.setIpc (s.setPipe a p)).Inv := by
  refine ⟨⟨h.held.peer, h.held.backlog, fun q w hq c hw => ?_, h.held.socket⟩, fun c p' hp hc => ?_, fun c p' hp hc => ?_,
    h.null, h.connected⟩
  · obtain ⟨p', hp'⟩ := h.held.pipe q w hq c hw
    rw [setPipe_pipes, update_apply]
    split_ifs
    · exact ⟨p, rfl⟩
    · exact ⟨p', hp'⟩
  · rw [setPipe_pipes, update_apply] at hp
    split_ifs at hp with hca
    · cases hp
      exact hca ▸ hread hc
    · exact h.readers c p' hp hc
  · rw [setPipe_pipes, update_apply] at hp
    split_ifs at hp with hca
    · cases hp
      exact hca ▸ hwrite hc
    · exact h.writers c p' hp hc

theorem Inv.freePipe (h : s.Inv) {a : ℕ} (hnobody : ∀ q w, s.sleeps q = some w → w.pipe ≠ some a) :
    (s.setIpc (s.freePipe a)).Inv := by
  have hpipes : (s.setIpc (s.freePipe a)).pipes = update s.pipes a none := rfl
  have hback : ∀ c p, (s.setIpc (s.freePipe a)).pipes c = some p → s.pipes c = some p := by
    intro c p hp
    rw [hpipes, update_apply] at hp
    split_ifs at hp
    exact hp
  refine ⟨⟨h.held.peer, h.held.backlog, fun q w hq c hw => ?_, h.held.socket⟩, ?_, ?_, h.null, h.connected⟩
  · rw [hpipes, update_of_ne]
    · exact h.held.pipe q w hq c hw
    · rintro rfl
      exact hnobody q w hq hw
  · exact fun c p hp => h.readers c p (hback c p hp)
  · exact fun c p hp => h.writers c p (hback c p hp)

theorem setSocket_sockets (s : IpcSystem) (a : ℕ) (sock : Socket) :
    (s.setIpc (s.setSocket a sock)).sockets = update s.sockets a (some sock) := rfl

/-- A record whose pointers lead to sockets that are there, or to itself. -/
structure Fits (s : IpcSystem) (a : ℕ) (sock : Socket) : Prop where
  address : a ≠ 0
  peer : sock.peer ≠ 0 → sock.peer = a ∨ ∃ other, s.sockets sock.peer = some other
  backlog : ∀ client ∈ sock.backlog, client = a ∨ ∃ c, s.sockets client = some c
  connected : sock.state = .connected → sock.peer ≠ 0

theorem Inv.setSocket (h : s.Inv) (hf : s.Fits a sock) : (s.setIpc (s.setSocket a sock)).Inv := by
  have hthere : ∀ c, (c = a ∨ ∃ other, s.sockets c = some other) →
      ∃ other, (s.setIpc (s.setSocket a sock)).sockets c = some other := by
    intro c hc
    rw [setSocket_sockets, update_apply]
    split_ifs with hca
    · exact ⟨sock, rfl⟩
    · exact hc.resolve_left hca
  have hcases : ∀ c other, (s.setIpc (s.setSocket a sock)).sockets c = some other →
      c = a ∧ other = sock ∨ s.sockets c = some other := by
    intro c other hc
    rw [setSocket_sockets, update_apply] at hc
    split_ifs at hc with hca
    · exact Or.inl ⟨hca, (some.inj hc).symm⟩
    · exact Or.inr hc
  refine ⟨⟨fun c other hc hne => ?_, fun c other hc client hcl => ?_, h.held.pipe, fun q w hq c hw => ?_⟩, h.readers, h.writers,
    ?_, fun c other hc hstate => ?_⟩
  · obtain ⟨rfl, rfl⟩ | hc := hcases c other hc
    · exact hthere _ (hf.peer hne)
    · exact hthere _ (Or.inr (h.held.peer c other hc hne))
  · obtain ⟨rfl, rfl⟩ | hc := hcases c other hc
    · exact hthere _ (hf.backlog client hcl)
    · exact hthere _ (Or.inr (h.held.backlog c other hc client hcl))
  · exact hthere _ (Or.inr (h.held.socket q w hq c hw))
  · rw [setSocket_sockets, update_of_ne hf.address.symm]
    exact h.null
  · obtain ⟨rfl, rfl⟩ | hc := hcases c other hc
    · exact hf.connected hstate
    · exact h.connected c other hc hstate

theorem Inv.freeSocket (h : s.Inv) (hno : ¬ s.Referenced a) : (s.setIpc (s.freeSocket a)).Inv := by
  have hsockets : (s.setIpc (s.freeSocket a)).sockets = update s.sockets a none := rfl
  have hback : ∀ c sock, (s.setIpc (s.freeSocket a)).sockets c = some sock → c ≠ a ∧ s.sockets c = some sock := by
    intro c sock hc
    rw [hsockets, update_apply] at hc
    split_ifs at hc with hca
    exact ⟨hca, hc⟩
  obtain ⟨hrecords, hsleeps⟩ := not_or.mp hno
  refine ⟨⟨fun c sock hc hne => ?_, fun c sock hc client hcl => ?_, h.held.pipe, fun q w hq c hw => ?_⟩, h.readers, h.writers,
    ?_, fun c sock hc => h.connected c sock (hback c sock hc).2⟩
  · obtain ⟨hca, hc⟩ := hback c sock hc
    rw [hsockets, update_of_ne fun hp => hrecords ⟨c, sock, hca, hc, Or.inl hp⟩]
    exact h.held.peer c sock hc hne
  · obtain ⟨hca, hs⟩ := hback c sock hc
    rw [hsockets, update_of_ne]
    · exact h.held.backlog c sock hs client hcl
    · rintro rfl
      exact hrecords ⟨c, sock, hca, hs, Or.inr hcl⟩
  · rw [hsockets, update_of_ne]
    · exact h.held.socket q w hq c hw
    · rintro rfl
      exact hsleeps ⟨q, w, hq, hw⟩
  · rw [hsockets, update_apply]
    split_ifs
    · rfl
    · exact h.null

theorem Inv.address (h : s.Inv) (ha : s.sockets a = some sock) : a ≠ 0 := by
  rintro rfl
  cases h.null.symm.trans ha

theorem Inv.fits (h : s.Inv) (ha : s.sockets a = some sock) {sock' : Socket} (hpeer : sock'.peer = sock.peer)
    (hbacklog : ∀ client ∈ sock'.backlog, ∃ c, s.sockets client = some c) (hstate : sock'.state = .connected → sock.peer ≠ 0) :
    s.Fits a sock' where
  address := h.address ha
  peer hne := Or.inr (hpeer ▸ h.held.peer a sock ha (hpeer ▸ hne))
  backlog client hcl := Or.inr (hbacklog client hcl)
  connected hs := hpeer ▸ hstate hs

theorem fits_new (state : SocketState) (peer : ℕ) (slots : Fin pipeSize → UInt8) (ha : a ≠ 0)
    (hpeer : peer ≠ 0 → ∃ other, s.sockets peer = some other) (hstate : state = .connected → peer ≠ 0) :
    s.Fits a { state, peer, backlog := [], ring := Ipc.emptyRing slots } where
  address := ha
  peer hne := Or.inr (hpeer hne)
  backlog _ hcl := absurd hcl List.not_mem_nil
  connected := hstate

theorem Inv.setRing (h : s.Inv) (ha : s.sockets a = some sock) (ring : ByteRing) :
    (s.setIpc (s.setSocket a { sock with ring })).Inv :=
  h.setSocket (h.fits ha rfl (h.held.backlog a sock ha) (h.connected a sock ha))

theorem Inv.setState (h : s.Inv) (a : ℕ) (state : SocketState)
    (hstate : ∀ sock, s.sockets a = some sock → state = .connected → sock.peer ≠ 0) :
    (s.setIpc (s.toIpc.setState a state)).Inv := by
  rw [Ipc.setState]
  cases hs : s.sockets a with
  | none => exact h
  | some sock => exact h.setSocket (h.fits hs rfl (h.held.backlog a sock hs) (hstate sock hs))

theorem Inv.setPeer (h : s.Inv) (a : ℕ) {peer : ℕ} (hpeer : peer ≠ 0 → ∃ other, s.sockets peer = some other)
    (hstate : ∀ sock, s.sockets a = some sock → sock.state = .connected → peer ≠ 0) :
    (s.setIpc (s.toIpc.setPeer a peer)).Inv := by
  rw [Ipc.setPeer]
  cases hs : s.sockets a with
  | none => exact h
  | some sock =>
    exact h.setSocket ⟨h.address hs, fun hne => Or.inr (hpeer hne), fun c hc => Or.inr (h.held.backlog a sock hs c hc), hstate sock hs⟩

/-! ### What each call leaves -/

theorem Pipe.room_of_take (size : ℕ) (hroom : p.writeOn data ≠ none) :
    ({ p with ring := (p.ring.take size).2 } : Pipe).writeOn data ≠ none := by
  intro hnone
  obtain ⟨hdata, hfull⟩ := Pipe.writeOn_none_iff.mp hnone
  rw [(take_eq size p.ring).2, List.length_drop] at hfull
  exact hroom (Pipe.writeOn_none_iff.mpr ⟨hdata, by omega⟩)

theorem Inv.pipeReadOn (h : s.Inv) (proc : ℕ) (size : ℕ) (hp : s.pipes a = some p) :
    ∃ t, s.pipeReadOn proc a size = some t ∧ t.Inv := by
  rw [IpcSystem.pipeReadOn, hp]
  simp only [bind_eq_bind, bind_some]
  cases hr : p.readOn size with
  | none =>
    refine ⟨_, rfl, h.sleep proc (fun c hc => ?_) (fun _ hc => nomatch hc) (fun c p' _ hw hp' => ?_) (fun _ _ _ hw => nomatch hw)⟩
    · cases hc
      exact ⟨p, hp⟩
    · obtain ⟨rfl, -⟩ := IpcSleep.pipeRead.inj hw
      cases hp.symm.trans hp'
      exact Pipe.readOn_none hr
  | some x =>
    refine ⟨_, rfl, ((h.returns proc).wakeAll).setPipe (fun _ _ _ _ => rfl) fun hc q data hq => ⟨rfl, ?_⟩⟩
    rw [Pipe.readOn_some hr] at hc ⊢
    exact Pipe.room_of_take size ((h.returns proc).writers a p hp hc q data hq).2

theorem Inv.pipeWriteOn (h : s.Inv) (proc : ℕ) (data : List UInt8) (hp : s.pipes a = some p)
    (hwait : p.readClosed = true → p.writeOn data ≠ none) :
    ∃ t, s.pipeWriteOn proc a data = some t ∧
      ((p.readClosed = true → (∃ q data', q ≠ proc ∧ data' ≠ [] ∧ s.sleeps q = some (.pipeWrite a data')) →
        data.length + p.ring.contents.length + 1 < pipeSize) → t.Inv) := by
  rw [IpcSystem.pipeWriteOn, hp]
  simp only [bind_eq_bind, bind_some]
  cases hr : p.writeOn data with
  | none =>
    refine ⟨_, rfl, fun _ => h.sleep proc (fun c hc => ?_) (fun _ hc => by cases hc) (fun _ _ _ hw => by cases hw) fun c p' _ hw hp' => ?_⟩
    · cases hc
      exact ⟨p, hp⟩
    · obtain ⟨rfl, -⟩ := IpcSleep.pipeWrite.inj hw
      cases hp.symm.trans hp'
      exact Bool.eq_false_iff.mpr fun hc => hwait hc hr
  | some x =>
    refine ⟨_, rfl, fun hroom => ((h.returns proc).wakeAll).setPipe (fun _ _ _ _ => rfl) fun hc q data' hq => ⟨rfl, ?_⟩⟩
    rw [Pipe.writeOn_some hr] at hc ⊢
    intro hnone
    obtain ⟨hdata', hfull⟩ := Pipe.writeOn_none_iff.mp hnone
    have hqp : q ≠ proc ∧ s.sleeps q = some (.pipeWrite a data') := by
      rw [show (s.returns proc).wakeAll.sleeps = update s.sleeps proc none from rfl, update_apply] at hq
      split_ifs at hq with hqp
      exact ⟨hqp, hq⟩
    have hlt := hroom hc ⟨q, data', hqp.1, hdata', hqp.2⟩
    have hle := put_le_length data p.ring
    dsimp only at hfull
    rw [length_put] at hfull
    omega

theorem Inv.socketReadOn (h : s.Inv) (proc : ℕ) (size : ℕ) (ha : s.sockets a = some sock) :
    ∃ t, s.socketReadOn proc a size = some t ∧ t.Inv := by
  rw [IpcSystem.socketReadOn, ha]
  simp only [bind_eq_bind, bind_some]
  cases hr : sock.readOn size with
  | none =>
    refine ⟨_, rfl, h.sleep proc (fun _ hc => nomatch hc) (fun c hc => ?_) (fun _ _ _ hw => nomatch hw) (fun _ _ _ hw => nomatch hw)⟩
    cases hc
    exact ⟨sock, ha⟩
  | some x =>
    obtain ⟨y, -, rfl⟩ := map_eq_some_iff.mp hr
    exact ⟨_, rfl, ((h.returns proc).wakeAll).setRing ha y.2⟩

theorem Inv.socketWriteOn (h : s.Inv) (proc : ℕ) (data : List UInt8) (ha : s.sockets a = some sock) :
    ∃ t, s.socketWriteOn proc a data = some t ∧ t.Inv := by
  rw [IpcSystem.socketWriteOn, ha]
  simp only [bind_eq_bind, bind_some]
  cases hr : sock.writeOn data with
  | none =>
    refine ⟨_, rfl, h.sleep proc (fun _ hc => nomatch hc) (fun c hc => ?_) (fun _ _ _ hw => nomatch hw) (fun _ _ _ hw => nomatch hw)⟩
    cases hc
    exact ⟨sock, ha⟩
  | some x =>
    obtain ⟨y, -, rfl⟩ := map_eq_some_iff.mp hr
    exact ⟨_, rfl, ((h.returns proc).wakeAll).setRing ha y.2⟩

theorem Inv.connectOn (h : s.Inv) (proc : ℕ) (ha : s.sockets a = some sock) : ∃ t, s.connectOn proc a = some t ∧ t.Inv := by
  rw [IpcSystem.connectOn, ha]
  simp only [bind_eq_bind, bind_some]
  split_ifs
  · refine ⟨_, rfl, h.sleep proc (fun _ hc => nomatch hc) (fun c hc => ?_) (fun _ _ _ hw => nomatch hw) (fun _ _ _ hw => nomatch hw)⟩
    cases hc
    exact ⟨sock, ha⟩
  · exact ⟨_, rfl, h.returns proc⟩

theorem Inv.sysAccept (h : s.Inv) {server client : ℕ} {v c : Socket} {backlog : List ℕ} (hnew : s.Unused new.sock)
    (hv : s.sockets server = some v) (hb : v.backlog = client :: backlog) (hc : s.sockets client = some c) :
    (s.setIpc (s.toIpc.sysAccept server new.sock new.slots)).Inv := by
  rw [Ipc.sysAccept, hv]
  dsimp only
  rw [hb]
  have hthere := h.held.backlog server v hv
  have hrest : ∀ d ∈ backlog, ∃ other, s.sockets d = some other := fun d hd => hthere d (hb ▸ .tail _ hd)
  have hpop : (s.setIpc (s.setSocket server { v with backlog })).Inv :=
    h.setSocket (h.fits hv rfl hrest (h.connected server v hv))
  obtain ⟨c₁, hc₁⟩ := Ipc.setSocket_there hc server { v with backlog }
  have hconn := hpop.setSocket (fits_new .connected client new.slots hnew.1 (fun _ => ⟨c₁, hc₁⟩) fun _ => h.address hc)
  have hpeer := hconn.setPeer client (fun _ => ⟨_, update_self ..⟩) fun _ _ _ => hnew.1
  exact hpeer.setState client .connected fun sock hs _ => Ipc.setPeer_self hs ▸ hnew.1

theorem Inv.acceptOn (h : s.Inv) (proc : ℕ) {server : ℕ} {v : Socket} (hnew : s.Unused new.sock) (hv : s.sockets server = some v) :
    ∃ t, s.acceptOn proc server new = some t ∧ t.Inv := by
  rw [IpcSystem.acceptOn, hv]
  simp only [bind_eq_bind, bind_some]
  cases hb : v.backlog with
  | nil =>
    refine ⟨_, rfl, h.sleep proc (fun _ hc => nomatch hc) (fun c hc => ?_) (fun _ _ _ hw => nomatch hw) (fun _ _ _ hw => nomatch hw)⟩
    cases hc
    exact ⟨v, hv⟩
  | cons client backlog =>
    obtain ⟨c, hc⟩ := h.held.backlog server v hv client (hb ▸ (.head _))
    have haccept := h.sysAccept hnew hv hb hc
    dsimp only
    rw [hc]
    refine ⟨_, rfl, Inv.returns ?_ proc⟩
    split_ifs
    · exact haccept.wakeAll
    · exact haccept

theorem Inv.connect (h : s.Inv) (proc : ℕ) (server : ℕ) (ha : s.sockets a = some sock) :
    ∃ t, s.connect proc a server = some t ∧ t.Inv := by
  rw [IpcSystem.connect, ha]
  simp only [bind_eq_bind, bind_some]
  cases hv : s.sockets server with
  | none => exact ⟨s, rfl, h⟩
  | some v =>
    dsimp only
    split_ifs with hroom
    · have hbacklog : ∀ client ∈ v.backlog ++ [a], ∃ c, s.sockets client = some c := by
        intro client hcl
        obtain hcl | hcl := List.mem_append.mp hcl
        · exact h.held.backlog server v hv client hcl
        · exact ⟨sock, List.mem_singleton.mp hcl ▸ ha⟩
      have hfits : s.Fits server { v with backlog := v.backlog ++ [a] } := h.fits hv rfl hbacklog (h.connected server v hv)
      have hconnecting := (h.setSocket hfits).setState a .connecting fun _ _ hs => nomatch hs
      have hipc : s.toIpc.sysConnect a server =
          (s.setSocket server { v with backlog := v.backlog ++ [a] }).setState a .connecting := by
        rw [Ipc.sysConnect, ha, hv]
        exact if_pos hroom
      rw [hipc]
      -- the socket is still there
      obtain ⟨sock₁, hs₁⟩ := Ipc.setSocket_there ha server { v with backlog := v.backlog ++ [a] }
      obtain ⟨sock₂, hs₂⟩ := Ipc.setState_there hs₁ a .connecting
      exact hconnecting.wakeAll.connectOn proc hs₂
    · exact ⟨s, rfl, h⟩

theorem EndOpen.found (h : s.EndOpen a side) : ∃ p, s.pipes a = some p ∧ p.isOpen side = true :=
  (any_eq_true _ _).mp h

theorem SocketOpen.found (h : s.SocketOpen a) : ∃ sock, s.sockets a = some sock := isSome_iff_exists.mp h

theorem Inv.request (h : s.Inv) (proc : ℕ) {r : IpcRequest} (hopen : s.RequestOpen r) (hnew : s.Unused new.sock) :
    ∃ t, s.request proc new r = some t ∧ t.Inv := by
  cases r with
  | pipeRead a size =>
    obtain ⟨p, hp, -⟩ := EndOpen.found hopen
    rw [IpcSystem.request, hp]
    simp only [bind_eq_bind, bind_some]
    split_ifs
    · exact ⟨s, rfl, h⟩
    · exact h.pipeReadOn proc size hp
  | pipeWrite a data =>
    obtain ⟨p, hp, -⟩ := EndOpen.found hopen
    rw [IpcSystem.request, hp]
    simp only [bind_eq_bind, bind_some]
    split_ifs with hclosed
    · exact ⟨s, rfl, h⟩
    · have hread : p.readClosed ≠ true := (not_or.mp hclosed).2
      obtain ⟨t, ht, hinv⟩ := h.pipeWriteOn proc data hp fun hc => absurd hc hread
      exact ⟨t, ht, hinv fun hc => absurd hc hread⟩
  | socketRead a size =>
    obtain ⟨sock, ha⟩ := SocketOpen.found hopen
    rw [IpcSystem.request, ha]
    simp only [bind_eq_bind, bind_some]
    split_ifs
    · exact ⟨s, rfl, h⟩
    · exact h.socketReadOn proc size ha
  | socketWrite a data =>
    obtain ⟨sock, ha⟩ := SocketOpen.found hopen
    rw [IpcSystem.request, ha]
    simp only [bind_eq_bind, bind_some]
    split_ifs with hwritable
    · obtain ⟨peer, hpeer⟩ := h.held.peer a sock ha hwritable.2
      exact h.socketWriteOn proc data hpeer
    · exact ⟨s, rfl, h⟩
  | sysConnect a server =>
    obtain ⟨sock, ha⟩ := SocketOpen.found hopen
    exact h.connect proc server ha
  | sysAccept server =>
    obtain ⟨v, hv⟩ := SocketOpen.found hopen
    exact h.acceptOn proc hnew hv

theorem Inv.goOn (h : s.Inv) {w : IpcSleep} (hw : s.sleeps proc = some w) (hnew : s.Unused new.sock) :
    ∃ t, s.goOn proc new w = some t ∧ (s.Harmless (.resume proc new) → t.Inv) := by
  cases w with
  | pipeRead a size =>
    obtain ⟨p, hp⟩ := h.held.pipe proc _ hw a rfl
    obtain ⟨t, ht, hinv⟩ := h.pipeReadOn proc size hp
    exact ⟨t, ht, fun _ => hinv⟩
  | pipeWrite a data =>
    obtain ⟨p, hp⟩ := h.held.pipe proc _ hw a rfl
    obtain ⟨t, ht, hinv⟩ := h.pipeWriteOn proc data hp fun hc => (h.writers a p hp hc proc data hw).2
    exact ⟨t, ht, fun hh => hinv (hh a data p hw hp)⟩
  | socketRead a size =>
    obtain ⟨sock, ha⟩ := h.held.socket proc _ hw a rfl
    obtain ⟨t, ht, hinv⟩ := h.socketReadOn proc size ha
    exact ⟨t, ht, fun _ => hinv⟩
  | socketWrite peer data =>
    obtain ⟨sock, ha⟩ := h.held.socket proc _ hw peer rfl
    obtain ⟨t, ht, hinv⟩ := h.socketWriteOn proc data ha
    exact ⟨t, ht, fun _ => hinv⟩
  | connect a =>
    obtain ⟨sock, ha⟩ := h.held.socket proc _ hw a rfl
    obtain ⟨t, ht, hinv⟩ := h.connectOn proc ha
    exact ⟨t, ht, fun _ => hinv⟩
  | accept server =>
    obtain ⟨v, hv⟩ := h.held.socket proc _ hw server rfl
    obtain ⟨t, ht, hinv⟩ := h.acceptOn proc hnew hv
    exact ⟨t, ht, fun _ => hinv⟩

theorem Pipe.close_ring (p : Pipe) (side : PipeEnd) : (p.close side).ring = p.ring := by cases side <;> rfl

private theorem pipeClose_of (side : PipeEnd) (hp : s.pipes a = some p) :
    s.pipeClose a side = some (if (p.close side).readClosed ∧ (p.close side).writeClosed then (s.setIpc (s.freePipe a)).wakeAll
      else (s.setIpc (s.setPipe a (p.close side))).wakeAll) := by
  rw [pipeClose, hp]
  simp only [bind_eq_bind, bind_some]
  split_ifs <;> rfl

theorem Inv.pipeClose (h : s.Inv) (hp : s.pipes a = some p) (hh : s.Harmless (.pipeClose a side)) :
    (if (p.close side).readClosed ∧ (p.close side).writeClosed then (s.setIpc (s.freePipe a)).wakeAll
      else (s.setIpc (s.setPipe a (p.close side))).wakeAll).Inv := by
  obtain ⟨hnobody, hroom⟩ := hh p hp
  split_ifs with hboth
  · exact (h.freePipe (hnobody hboth)).wakeAll
  · refine h.wakeAll.setPipe (fun _ _ _ _ => rfl) fun hc q data hq => ⟨rfl, fun hnone => ?_⟩
    obtain ⟨hdata, hfull⟩ := Pipe.writeOn_none_iff.mp hnone
    cases side with
    | read => exact hdata (hroom rfl hfull q data hq)
    | write => exact hboth ⟨hc, rfl⟩

private theorem clearPeer_of {other : Socket} (hne : sock.peer ≠ 0) (hother : s.sockets sock.peer = some other) :
    s.clearPeer sock = some (s.setIpc (s.setSocket sock.peer { other with peer := 0 })) := by
  rw [clearPeer, if_neg hne, Ipc.setPeer, hother]
  rfl

private theorem dropBytes_of (ha : s.sockets a = some sock) :
    s.dropBytes a = s.setSocket a { sock with ring := { sock.ring with head := sock.ring.tail } } := by
  rw [Ipc.dropBytes, ha]
  rfl

structure Cleared (s t : IpcSystem) (sock : Socket) : Prop where
  sockets : ∀ c x, s.sockets c = some x →
    ∃ y, t.sockets c = some y ∧ y.state = x.state ∧ y.peer = if c = sock.peer then 0 else x.peer
  inv : (∀ other, s.sockets sock.peer = some other → other.state ≠ .connected) → t.Inv

theorem Inv.clearPeer (h : s.Inv) (hne : sock.peer ≠ 0) (hthere : ∃ other, s.sockets sock.peer = some other) :
    ∃ t, s.clearPeer sock = some t ∧ s.Cleared t sock := by
  obtain ⟨other, hother⟩ := hthere
  refine ⟨_, clearPeer_of hne hother, fun c x hx => ?_, fun hstate => h.setSocket ⟨hne, fun hno => absurd rfl hno, ?_, ?_⟩⟩
  · rw [setSocket_sockets, update_apply]
    split_ifs with hc
    · cases (hc ▸ hother).symm.trans hx
      exact ⟨_, rfl, rfl, rfl⟩
    · exact ⟨x, hx, rfl, rfl⟩
  · exact fun client hcl => Or.inr (h.held.backlog _ other hother client hcl)
  · exact fun hs => absurd hs (hstate other hother)

theorem Inv.shutdownWrite (h : s.Inv) (ha : s.sockets a = some sock) (hhow : how ≠ .rd) (hne : sock.peer ≠ 0) :
    ∃ t, s.sysShutdown a how = some t ∧ s.Cleared t sock := by
  rw [sysShutdown, ha]
  simp only [bind_eq_bind, bind_some]
  cases how with
  | rd => exact absurd rfl hhow
  | wr => exact h.clearPeer hne (h.held.peer a sock ha hne)
  | rdwr =>
    rw [dropBytes_of ha]
    have hdrop := h.setRing ha { sock.ring with head := sock.ring.tail }
    generalize hs₁ : s.setIpc (s.setSocket a { sock with ring := { sock.ring with head := sock.ring.tail } }) = s₁ at hdrop ⊢
    -- only the ring has changed
    have hkept : ∀ c x, s.sockets c = some x → ∃ y, s₁.sockets c = some y ∧ y.state = x.state ∧ y.peer = x.peer := by
      intro c x hx
      rw [← hs₁, setSocket_sockets, update_apply]
      split_ifs with hc
      · cases (hc ▸ ha).symm.trans hx
        exact ⟨_, rfl, rfl, rfl⟩
      · exact ⟨x, hx, rfl, rfl⟩
    obtain ⟨other, hother⟩ := h.held.peer a sock ha hne
    obtain ⟨other₁, hother₁, hstate₁, -⟩ := hkept _ other hother
    obtain ⟨t, ht, hcleared⟩ := hdrop.clearPeer hne ⟨other₁, hother₁⟩
    refine ⟨t, ht, fun c x hx => ?_, fun hstate => hcleared.inv fun y hy => ?_⟩
    · obtain ⟨y, hy, hys, hyp⟩ := hkept c x hx
      obtain ⟨z, hz, hzs, hzp⟩ := hcleared.sockets c y hy
      exact ⟨z, hz, hzs.trans hys, hyp ▸ hzp⟩
    · cases hother₁.symm.trans hy
      exact hstate₁ ▸ hstate other hother

theorem Inv.shutdownRead (h : s.Inv) (ha : s.sockets a = some sock) (hhow : how = .rd ∨ sock.peer = 0) :
    ∃ t, s.sysShutdown a how = some t ∧ t.Inv := by
  have hdrop := h.setRing ha { sock.ring with head := sock.ring.tail }
  rw [← dropBytes_of ha] at hdrop
  rw [sysShutdown, ha]
  simp only [bind_eq_bind, bind_some]
  cases how with
  | rd => exact ⟨_, rfl, hdrop⟩
  | wr => exact ⟨s, if_pos (hhow.resolve_left (by decide)), h⟩
  | rdwr => exact ⟨_, if_pos (hhow.resolve_left (by decide)), hdrop⟩

theorem Inv.sysShutdown (h : s.Inv) (ha : s.sockets a = some sock) (how : ShutdownHow) :
    ∃ t, s.sysShutdown a how = some t ∧ (s.Harmless (.sysShutdown a how) → t.Inv) := by
  by_cases hwrite : how = .rd ∨ sock.peer = 0
  · obtain ⟨t, ht, hinv⟩ := h.shutdownRead ha hwrite
    exact ⟨t, ht, fun _ => hinv⟩
  · obtain ⟨hhow, hne⟩ := not_or.mp hwrite
    obtain ⟨t, ht, hcleared⟩ := h.shutdownWrite ha hhow hne
    refine ⟨t, ht, fun hh => hcleared.inv ?_⟩
    exact (((hh.resolve_left hhow) sock ha).resolve_left hne).2

theorem Inv.exec (h : s.Inv) (hal : s.Allowed e) : ∃ t, s.exec e = some t ∧ (s.Harmless e → t.Inv) := by
  cases e with
  | sysPipe a slots =>
    refine ⟨_, rfl, fun _ => h.setPipe (fun hc => nomatch hc) fun hc => nomatch hc⟩
  | sysSocket a slots =>
    exact ⟨_, rfl, fun _ => h.setSocket (fits_new .free 0 slots hal.1 (fun hne => absurd rfl hne) fun hs => nomatch hs)⟩
  | sysSocketpair a c slots slots' =>
    obtain ⟨⟨⟨ha, -⟩, ⟨hc, -⟩⟩, hac⟩ := hal
    -- the second one is made first, without a peer
    refine ⟨_, rfl, fun _ => ?_⟩
    rw [Ipc.sysSocketpair, ← Ipc.setSocket_again s.toIpc hac { state := .free, peer := 0, backlog := [], ring := Ipc.emptyRing slots' }]
    have hfirst := h.setSocket (fits_new .free 0 slots' hc (fun hne => absurd rfl hne) fun hs => nomatch hs)
    have hsecond := hfirst.setSocket (fits_new .connected c slots ha (fun _ => ⟨_, update_self ..⟩) fun _ => hc)
    exact hsecond.setSocket (fits_new .connected a slots' hc (fun _ => ⟨_, update_self ..⟩) fun _ => ha)
  | sysBind a =>
    obtain ⟨sock, ha⟩ := SocketOpen.found hal
    rw [exec, ha]
    exact ⟨_, rfl, fun _ => h.setState a _ fun _ _ hs => nomatch hs⟩
  | sysListen a =>
    obtain ⟨sock, ha⟩ := SocketOpen.found hal
    rw [IpcSystem.exec, ha]
    refine ⟨_, rfl, fun _ => ?_⟩
    rw [Ipc.sysListen, ha]
    dsimp only [Option.elim]
    split_ifs
    · exact h.setState a _ fun _ _ hs => nomatch hs
    · exact h
  | sysGetpeername a =>
    obtain ⟨sock, ha⟩ := SocketOpen.found hal
    rw [exec, sysGetpeername, ha]
    simp only [bind_eq_bind, bind_some]
    split_ifs with hwritable
    · obtain ⟨peer, hpeer⟩ := h.held.peer a sock ha hwritable.2
      rw [hpeer]
      exact ⟨s, rfl, fun _ => h⟩
    · exact ⟨s, rfl, fun _ => h⟩
  | sysShutdown a how =>
    obtain ⟨sock, ha⟩ := SocketOpen.found hal
    exact h.sysShutdown ha how
  | pipeClose a side =>
    obtain ⟨p, hp, -⟩ := EndOpen.found hal
    exact ⟨_, pipeClose_of side hp, fun hh => h.pipeClose hp hh⟩
  | socketClose a =>
    obtain ⟨sock, ha⟩ := SocketOpen.found hal
    rw [exec, socketClose, ha]
    exact ⟨_, rfl, fun hh => h.freeSocket hh⟩
  | call proc r new =>
    obtain ⟨t, ht, hinv⟩ := h.request proc hal.2.1 hal.2.2
    exact ⟨t, ht, fun _ => hinv⟩
  | resume proc new =>
    obtain ⟨w, hw⟩ := isSome_iff_exists.mp hal.1.1
    rw [exec, hw]
    exact h.goOn hw hal.2
  | wake proc =>
    refine ⟨_, rfl, fun _ => h.awake fun q hq => ?_⟩
    rw [update_apply]
    split_ifs
    · rfl
    · exact hq

/-! ### What the invariant means, and when a step keeps it -/

theorem Inv.kept (h : s.Inv) : s.Kept where
  held := h.held
  safe e hal hnone := by
    obtain ⟨t, ht, -⟩ := h.exec hal
    cases hnone.symm.trans ht
  readers a p hp hc := ⟨Pipe.drains hc, h.readers a p hp hc⟩
  writers a p hp hc := by
    refine ⟨fun data hnone => ?_, h.writers a p hp hc⟩
    rw [pipeWrite, if_pos (Or.inr hc)] at hnone
    cases hnone
  sockets a sock ha hne hgone := by
    obtain ⟨other, hother⟩ := h.held.peer a sock ha hne
    cases hgone.symm.trans hother

private theorem endOfStream_of_state (hs : sock.state ≠ .connected) : sock.EndOfStream := by
  intro size hnone
  rw [socketRead, if_pos hs] at hnone
  cases hnone

theorem Inv.stopsWrites (h : s.Inv) (hal : s.Allowed e) (hh : s.Harmless e) : s.StopsWrites (s.after e) e := by
  cases e with
  | sysShutdown a how =>
    intro hhow sock ha hne
    obtain ⟨t, ht, hcleared⟩ := h.shutdownWrite ha hhow hne
    obtain ⟨hown, hpeer⟩ := ((hh.resolve_left hhow) sock ha).resolve_left hne
    rw [after, show s.exec (.sysShutdown a how) = some t from ht]
    refine ⟨fun sock' hsock' hw => ?_, fun other other' hother hother' => ?_⟩
    · obtain ⟨y, hy, hys, -⟩ := hcleared.sockets a sock ha
      cases hy.symm.trans hsock'
      exact hown (hys.symm.trans hw.1)
    · obtain ⟨y, hy, hys, -⟩ := hcleared.sockets _ other hother
      cases hy.symm.trans hother'
      exact ⟨fun hw => absurd hw.1 (hpeer other hother), endOfStream_of_state (hys ▸ hpeer other hother)⟩
  | _ => exact trivial

private theorem harmless_pipeClose (hp : s.pipes a = some p)
    (hk : (if (p.close side).readClosed ∧ (p.close side).writeClosed then (s.setIpc (s.freePipe a)).wakeAll
      else (s.setIpc (s.setPipe a (p.close side))).wakeAll).Kept) : s.Harmless (.pipeClose a side) := by
  intro p' hp'
  cases hp.symm.trans hp'
  split_ifs at hk with hboth
  · have hnobody : ∀ q w, s.sleeps q = some w → w.pipe ≠ some a := by
      intro q w hq hw
      obtain ⟨p', hp'⟩ := hk.held.pipe q w hq a hw
      rw [show (s.setIpc (s.freePipe a)).wakeAll.pipes = update s.pipes a none from rfl, update_self] at hp'
      cases hp'
    exact ⟨fun _ => hnobody, fun _ _ q data hq => absurd rfl (hnobody q _ hq)⟩
  · refine ⟨fun hyes => absurd hyes hboth, fun hside hfull q data hq => ?_⟩
    subst hside
    by_contra hdata
    have hroom := ((hk.writers a (p.close .read) (update_self ..) rfl).2 q data hq).2
    exact hroom (Pipe.writeOn_none_iff.mpr ⟨hdata, hfull⟩)

theorem Inv.harmless_socketClose (h : s.Inv) (ha : s.sockets a = some sock) (hk : (s.setIpc (s.freeSocket a)).Kept) :
    s.Harmless (.socketClose a) := by
  have hgone : (s.setIpc (s.freeSocket a)).sockets a = none := update_self ..
  rintro (⟨c, other, hca, hc, hpoints⟩ | ⟨q, w, hq, hw⟩)
  · have hc' : (s.setIpc (s.freeSocket a)).sockets c = some other := (update_of_ne hca ..).trans hc
    obtain hp | hb := hpoints
    · obtain ⟨x, hx⟩ := hk.held.peer c other hc' (hp ▸ h.address ha)
      rw [hp, hgone] at hx
      cases hx
    · obtain ⟨x, hx⟩ := hk.held.backlog c other hc' a hb
      cases hgone.symm.trans hx
  · obtain ⟨x, hx⟩ := hk.held.socket q w hq a hw
    cases hgone.symm.trans hx

theorem Inv.harmless_shutdown (h : s.Inv) (ht : s.sysShutdown a how = some t)
    (hs : s.StopsWrites t (.sysShutdown a how)) : s.Harmless (.sysShutdown a how) := by
  refine or_iff_not_imp_left.mpr fun hhow sock ha => or_iff_not_imp_left.mpr fun hne => ?_
  obtain ⟨t', ht', hcleared⟩ := h.shutdownWrite ha hhow hne
  cases ht.symm.trans ht'
  obtain ⟨hown, hpeer⟩ := hs hhow sock ha hne
  have hothers : ∀ other, s.sockets sock.peer = some other → other.state ≠ .connected := by
    intro other hother hstate
    obtain ⟨y, hy, -, hyp⟩ := hcleared.sockets _ other hother
    have hw := (hpeer other y hother hy).1 ⟨hstate, h.connected _ other hother hstate⟩
    exact hw.2 (hyp.trans (if_pos rfl))
  refine ⟨fun hstate => ?_, hothers⟩
  obtain ⟨y, hy, hys, hyp⟩ := hcleared.sockets a sock ha
  have hself : a ≠ sock.peer := fun heq => hothers sock (heq ▸ ha) hstate
  rw [if_neg hself] at hyp
  exact hown y hy ⟨hys.trans hstate, hyp ▸ hne⟩

theorem Inv.harmless_resume (h : s.Inv) (ht : s.exec (.resume proc new) = some t) (hk : t.Kept) : s.Harmless (.resume proc new) := by
  intro a data p hw hp hc hwait
  obtain ⟨q, data', hqp, hdata', hq⟩ := hwait
  obtain ⟨x, hx⟩ := Option.ne_none_iff_exists'.mp (h.writers a p hp hc proc data hw).2
  have hgo : s.exec (.resume proc new) = some (s.ends proc (s.setPipe a x.2)) := by
    rw [IpcSystem.exec, hw]
    dsimp only [Option.elim, IpcSystem.goOn]
    rw [IpcSystem.pipeWriteOn, hp]
    simp only [bind_eq_bind, bind_some]
    rw [hx]
  cases ht.symm.trans hgo
  have hput : x.2 = { p with ring := (p.ring.put data).2 } := congrArg Prod.snd (Pipe.writeOn_some hx)
  have hpipe : (s.ends proc (s.setPipe a x.2)).pipes a = some { p with ring := (p.ring.put data).2 } := hput ▸ update_self ..
  have hsleeps : (s.ends proc (s.setPipe a x.2)).sleeps q = some (.pipeWrite a data') := (update_of_ne hqp ..).trans hq
  have hroom := ((hk.writers a _ hpipe hc).2 q data' hsleeps).2
  by_contra hlt
  refine hroom (Pipe.writeOn_none_iff.mpr ⟨hdata', ?_⟩)
  rw [length_put, put_eq_min]
  omega

theorem Inv.harmless (h : s.Inv) (hal : s.Allowed e) (hk : (s.after e).Kept) (hs : s.StopsWrites (s.after e) e) : s.Harmless e := by
  obtain ⟨t, ht, -⟩ := h.exec hal
  rw [after, ht, getD_some] at hk hs
  cases e with
  | pipeClose a side =>
    obtain ⟨p, hp, -⟩ := EndOpen.found hal
    cases ht.symm.trans (pipeClose_of side hp)
    exact harmless_pipeClose hp hk
  | socketClose a =>
    obtain ⟨sock, ha⟩ := SocketOpen.found hal
    rw [IpcSystem.exec, socketClose, ha] at ht
    cases ht
    exact h.harmless_socketClose ha hk
  | sysShutdown a how => exact h.harmless_shutdown ht hs
  | resume proc new => exact h.harmless_resume ht hk
  | _ => exact trivial

theorem Inv.after (h : s.Inv) (hal : s.Allowed e) (hh : s.Harmless e) : (s.after e).Inv := by
  obtain ⟨t, ht, hinv⟩ := h.exec hal
  rw [IpcSystem.after, ht]
  exact hinv hh

/-- In a run where each call has an open descriptor, every state and every shutdown has the property just if each step
meets the condition. -/
theorem ends_runs {es : List IpcAction} (hr : Along after Allowed boot es) :
    Along after (fun s e => (s.after e).Kept ∧ s.StopsWrites (s.after e) e) boot es ↔ Along after Harmless boot es := by
  refine Along.iff_under (fun s e h hal => ⟨fun hgood => ?_, fun hh => ?_⟩) (fun s e h hal hh => ?_) inv_boot hr
  · exact Inv.harmless h hal hgood.1 hgood.2
  · exact ⟨(Inv.after h hal hh).kept, Inv.stopsWrites h hal hh⟩
  · exact Inv.after h hal hh

theorem reader_sees_end :
    let new : NewSocket := { sock := 9, slots := fun _ => 0, fdFree := true }
    let es := [.sysPipe 1 fun _ => 0, .call 10 (.pipeRead 1 2) new, .pipeClose 1 .write, .resume 10 new, .pipeClose 1 .read]
    Along after (fun s e => (s.after e).Kept ∧ s.StopsWrites (s.after e) e) boot es := by
  intro new es
  have hr : Along after Allowed boot es := by decide +kernel
  refine (ends_runs hr).mpr ⟨trivial, trivial, ?_, ?_, ?_, trivial⟩
  · intro p hp
    cases hp
    exact ⟨fun hboth => (nomatch hboth.1), fun hside => nomatch hside⟩
  · intro a data p hw
    cases hw
  · intro p hp
    cases hp
    refine ⟨fun _ q w hq => ?_, fun _ hfull => absurd hfull (by decide +kernel)⟩
    -- the reader has returned
    replace hq : update (update (fun _ => none) 10 (some (.pipeRead 1 2))) 10 none q = some w := hq
    rw [update_idem, update_apply, ite_self] at hq
    cases hq

theorem closed_peer_used :
    let new : NewSocket := { sock := 9, slots := fun _ => 0, fdFree := true }
    let es := [.sysSocketpair 1 2 (fun _ => 0) fun _ => 0, .socketClose 1]
    let s := es.foldl after boot
    Along after Allowed boot es ∧ s.Allowed (.call 10 (.socketWrite 2 [7]) new) ∧ s.exec (.call 10 (.socketWrite 2 [7]) new) = none := by
  intro new es s
  exact ⟨by decide +kernel, by decide +kernel, by decide +kernel⟩

end IpcSystem
end RetroOs.Kernel
