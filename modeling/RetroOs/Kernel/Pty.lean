import RetroOs.Kernel.Tty
import RetroOs.Lib.CountedRing

/-! The pseudo terminal: the ring that takes the shell's output and the echo to the master, and the ring in which the
terminal keeps raw input for the shell. A call runs until it returns or sleeps, and any call may come next. -/
namespace RetroOs.Kernel
open Lib List Option

def ptyBufferSize : ℕ := 4096

abbrev PtyFifo := CountedRing UInt8

/-- The turns of a loop up to an `int` that is made of a `uint32_t`. -/
def intTurns (size : UInt32) : ℕ := size.toInt32.toInt.toNat

def PtyFifo.write (fifo : PtyFifo) (buf : List UInt8) (len : UInt32) : ℕ × PtyFifo :=
  CountedRing.write ptyBufferSize fifo (buf.take (intTurns len))

/-- `pty_fifo_read`; nothing where it fails at once or sleeps. -/
def PtyFifo.read (fifo : PtyFifo) (woken : Bool) (len : UInt32) : Option (List UInt8 × PtyFifo) :=
  if fifo.count = 0 ∧ woken = false then none else some (fifo.drain ptyBufferSize (intTurns len))

structure Pty where
  slaveToMaster : PtyFifo
  slaveTty : Tty

/-- What `sys_pty_create` makes; the memory is cleared. -/
def ptyCreate : Pty := ⟨⟨fun _ => 0, 0, 0, 0⟩, { ttyInit with fgPgid := 0 }⟩

inductive PtyCall where
  | masterRead (woken : Bool) (size : UInt32)
  | masterWrite (buffer : List UInt8)
  | slaveRead (woken : Bool) (size : ℕ)
  | slaveWrite (buffer : List UInt8)
  | setFlags (flags : UInt32)

/-- A pseudo terminal, with what each ring took in and what was read from it. -/
structure PtyRun extends Pty where
  output : List UInt8
  received : List UInt8
  input : List UInt8
  delivered : List UInt8

/-- The terminal's own ring. -/
def Tty.raw (t : Tty) : CountedRing UInt8 := ⟨t.inputBuffer, t.inputHead, t.inputTail, t.inputCount⟩

/-- Raw input is a character that is not Ctrl+C and that the ring has room for. -/
def Tty.TakesRaw (t : Tty) (c : UInt8) : Prop := ¬ t.Interrupts c ∧ ¬ t.Canonical ∧ t.inputCount < ttyBufferSize

instance decidableTakesRaw (t : Tty) (c : UInt8) : Decidable (t.TakesRaw c) := inferInstanceAs (Decidable (_ ∧ _ ∧ _))

namespace PtyRun

/-- `pty_slave_tty_write` -/
def ttyWrite (s : PtyRun) (buf : List UInt8) : PtyRun :=
  let x := PtyFifo.write s.slaveToMaster buf (.ofNat buf.length)
  { s with slaveToMaster := x.2, output := s.output ++ buf.take x.1 }

/-- `tty_input_char`; what it hands to the write callback goes to the master. No result where Enter writes behind the
line buffer. -/
def inputChar (s : PtyRun) (c : UInt8) : Option PtyRun :=
  let tty := s.slaveTty.inputChar c
  if tty.written.all (· < ttyBufferSize) then
    some { s.ttyWrite (tty.echoed.drop s.slaveTty.echoed.length) with
      slaveTty := tty, input := s.input ++ if s.slaveTty.TakesRaw c then [c] else [] }
  else none

def masterRead (s : PtyRun) (woken : Bool) (size : UInt32) : PtyRun :=
  (PtyFifo.read s.slaveToMaster woken size).elim s fun x => { s with slaveToMaster := x.2, received := s.received ++ x.1 }

def slaveRead (s : PtyRun) (woken : Bool) (size : ℕ) : PtyRun :=
  (s.slaveTty.read woken size).elim s fun x =>
    { s with slaveTty := x.2, delivered := s.delivered ++ if s.slaveTty.Canonical then [] else x.1 }

def exec (s : PtyRun) : PtyCall → Option PtyRun
  | .masterRead woken size => some (s.masterRead woken size)
  | .masterWrite buffer => buffer.foldlM inputChar s
  | .slaveRead woken size => some (s.slaveRead woken size)
  | .slaveWrite buffer => some (s.ttyWrite buffer)
  | .setFlags flags => some { s with slaveTty := s.slaveTty.setFlags flags }

/-- A new pseudo terminal. -/
def start : PtyRun := ⟨ptyCreate, [], [], [], []⟩

/-- Nothing is lost, doubled or moved in either of the rings. -/
structure InOrder (s : PtyRun) : Prop where
  out : s.slaveToMaster.Valid ptyBufferSize
  received : s.received ++ s.slaveToMaster.contents ptyBufferSize = s.output
  raw : s.slaveTty.raw.Valid ttyBufferSize
  delivered : s.delivered ++ s.slaveTty.raw.contents ttyBufferSize = s.input

end PtyRun

variable {s t : PtyRun} {c : UInt8} {calls : List PtyCall}

private theorem raw_inputRaw (t : Tty) (c : UInt8) :
    (t.inputRaw c).raw = if t.inputCount < ttyBufferSize then t.raw.push ttyBufferSize c else t.raw := by
  have hstore : t.inputBuffer.store8 t.inputHead c = Function.update t.inputBuffer t.inputHead c := by
    funext a
    exact (Function.update_apply ..).symm
  rw [Tty.inputRaw]
  split
  · rw [Tty.raw, hstore]
    rfl
  · rfl

private theorem raw_echo (t : Tty) (c : UInt8) : (t.echo c).raw = t.raw ∧ (t.echo c).flags = t.flags := by
  rw [Tty.echo]
  split <;> exact ⟨rfl, rfl⟩

private theorem raw_edit (t : Tty) (c : UInt8) : (t.edit c).raw = t.raw := by
  rw [Tty.edit]
  split_ifs <;> rfl

private theorem raw_inputChar (t : Tty) (c : UInt8) :
    (t.inputChar c).raw = if t.TakesRaw c then t.raw.push ttyBufferSize c else t.raw := by
  obtain ⟨hecho, hflags⟩ := raw_echo t c
  have hcanon : (t.echo c).Canonical ↔ t.Canonical := by rw [Tty.Canonical, Tty.Canonical, hflags]
  have hcount : (t.echo c).inputCount = t.inputCount := congrArg CountedRing.count hecho
  rw [Tty.inputChar]
  split
  · next hint => exact (if_neg fun h => h.1 hint).symm
  · next hint =>
    dsimp only
    split
    · next hc =>
      rw [raw_edit, hecho]
      exact (if_neg fun h => h.2.1 (hcanon.mp hc)).symm
    · next hc =>
      rw [raw_inputRaw, hcount, hecho]
      exact if_congr ⟨fun h => ⟨hint, mt hcanon.mpr hc, h⟩, fun h => h.2.2⟩ rfl rfl

private theorem raw_drain (t : Tty) (len : ℕ) :
    (t.drain len).1 = (t.raw.drain ttyBufferSize len).1 ∧ (t.drain len).2.raw = (t.raw.drain ttyBufferSize len).2 := by
  induction len generalizing t with
  | zero => exact ⟨rfl, rfl⟩
  | succ len ih =>
    rw [Tty.drain, CountedRing.drain]
    split
    · next h =>
      rw [if_pos (show t.raw.count = 0 from h)]
      exact ⟨rfl, rfl⟩
    · next h =>
      rw [if_neg (show t.raw.count ≠ 0 from h)]
      obtain ⟨hbytes, hraw⟩ := ih { t with inputTail := (t.inputTail + 1) % ttyBufferSize, inputCount := t.inputCount - 1 }
      exact ⟨congrArg _ hbytes, hraw⟩

namespace PtyRun
open CountedRing

theorem InOrder.ttyWrite (h : s.InOrder) (buf : List UInt8) : (s.ttyWrite buf).InOrder := by
  obtain ⟨hv, hn, hc⟩ := write_spec (buf.take (intTurns (.ofNat buf.length))) h.out
  refine ⟨hv, ?_, h.raw, h.delivered⟩
  rw [length_take] at hn
  simp only [PtyRun.ttyWrite, PtyFifo.write]
  rw [hc, ← append_assoc, h.received, take_take, Nat.min_eq_left (by omega)]

theorem InOrder.inputChar (h : s.InOrder) (e : s.inputChar c = some t) : t.InOrder := by
  have hout := h.ttyWrite ((s.slaveTty.inputChar c).echoed.drop s.slaveTty.echoed.length)
  rw [PtyRun.inputChar] at e
  split at e
  · cases e
    refine ⟨hout.out, hout.received, ?_, ?_⟩
    all_goals
      rw [raw_inputChar]
      split
    · next hc => exact h.raw.push hc.2.2 c
    · exact h.raw
    · next hc =>
      rw [contents_push h.raw hc.2.2, ← append_assoc]
      exact congrArg (· ++ [c]) h.delivered
    · rw [append_nil]
      exact h.delivered
  · cases e

theorem InOrder.masterRead (h : s.InOrder) (woken : Bool) (size : UInt32) : (s.masterRead woken size).InOrder := by
  rw [PtyRun.masterRead, PtyFifo.read]
  split
  · exact h
  · obtain ⟨hv, ht, hd⟩ := drain_spec (intTurns size) h.out
    refine ⟨hv, ?_, h.raw, h.delivered⟩
    simp only [elim_some]
    rw [ht, hd, append_assoc, take_append_drop, h.received]

theorem InOrder.slaveRead (h : s.InOrder) (woken : Bool) (size : ℕ) : (s.slaveRead woken size).InOrder := by
  simp only [PtyRun.slaveRead, Tty.read]
  split
  · next hc =>
    split
    · simp only [elim_some, append_nil]
      exact ⟨h.out, h.received, h.raw, h.delivered⟩
    · exact h
  · next hc =>
    split
    · exact h
    · obtain ⟨hbytes, hraw⟩ := raw_drain s.slaveTty size
      obtain ⟨hv, ht, hd⟩ := drain_spec size h.raw
      simp only [elim_some]
      refine ⟨h.out, h.received, hraw ▸ hv, ?_⟩
      rw [hbytes, hraw, ht, hd, append_assoc, take_append_drop, h.delivered]

theorem InOrder.exec {call : PtyCall} (h : s.InOrder) (e : s.exec call = some t) : t.InOrder := by
  cases call with
  | masterRead woken size => exact some.inj e ▸ h.masterRead woken size
  | masterWrite buffer =>
    induction buffer generalizing s with
    | nil => exact some.inj e ▸ h
    | cons c buffer ih =>
      obtain ⟨u, hu, ht⟩ := bind_eq_some_iff.mp e
      exact ih (h.inputChar hu) ht
  | slaveRead woken size => exact some.inj e ▸ h.slaveRead woken size
  | slaveWrite buffer => exact some.inj e ▸ h.ttyWrite buffer
  | setFlags flags => exact some.inj e ▸ ⟨h.out, h.received, h.raw, h.delivered⟩

/-- Over every run, what the master and the shell were given is what the rings took in, in its order and up to what they
still hold; and a write is cut short only where the ring is full. -/
theorem terminal_in_order (hrun : Trace (fun s call t => s.exec call = some t) start calls s) :
    s.received ++ s.slaveToMaster.contents ptyBufferSize = s.output ∧
    s.delivered ++ s.slaveTty.raw.contents ttyBufferSize = s.input ∧
    ∀ buf len, (PtyFifo.write s.slaveToMaster buf len).1 =
      min (buf.take (intTurns len)).length (ptyBufferSize - (s.slaveToMaster.contents ptyBufferSize).length) := by
  have h : s.InOrder := by
    induction hrun with
    | nil => exact ⟨⟨rfl, by decide, by decide⟩, rfl, ⟨rfl, by decide, by decide⟩, rfl⟩
    | snoc _ e ih => exact ih.exec e
  exact ⟨h.received, h.delivered, fun buf len => (write_spec (buf.take (intTurns len)) h.out).2.1⟩

/-- A line is typed and echoed, the shell answers, the master reads, the shell reads the line; then two characters
are typed raw, and the shell reads one. -/
def session : List PtyCall :=
  [.masterWrite [104, 105, 10], .slaveWrite [79, 75], .masterRead true 4, .slaveRead true 8, .setFlags ttyEcho,
    .masterWrite [120, 121], .slaveRead true 1]

theorem terminal_in_order_session : ∃ s, Trace (fun s call t => s.exec call = some t) start session s ∧
    s.received ++ s.slaveToMaster.contents ptyBufferSize = s.output ∧ s.received = [104, 105, 10, 79] ∧
    s.output = [104, 105, 10, 79, 75, 120, 121] ∧ s.delivered ++ s.slaveTty.raw.contents ttyBufferSize = s.input ∧
    s.delivered = [120] ∧ s.input = [120, 121] := by
  have hev : ∃ s ∈ session.foldlM exec start, s.received = [104, 105, 10, 79] ∧ s.output = [104, 105, 10, 79, 75, 120, 121] ∧
      s.delivered = [120] ∧ s.input = [120, 121] := by decide
  obtain ⟨s, hs, hreceived, houtput, hdelivered, hinput⟩ := hev
  obtain ⟨hout, hin, -⟩ := terminal_in_order (trace_of_foldlM hs)
  exact ⟨s, trace_of_foldlM hs, hout, hreceived, houtput, hin, hdelivered, hinput⟩

end PtyRun
end RetroOs.Kernel
