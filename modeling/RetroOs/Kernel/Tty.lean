import Mathlib.Data.List.DropRight
import Mathlib.Data.PNat.Basic
import RetroOs.Lib.CString
import RetroOs.Lib.Runs

/-! The terminal: one buffer for the line that is edited and for the complete line that waits for a reader; and beside it
what a terminal is for. -/
namespace RetroOs.Kernel
open Lib

def ttyBufferSize : ℕ := 256

def ttyEcho : UInt32 := 1

def ttyCanon : UInt32 := 2

def ttyIsig : UInt32 := 4

structure Tty where
  inputBuffer : Memory
  inputHead : ℕ
  inputTail : ℕ
  inputCount : ℕ
  lineBuffer : Memory
  lineLen : ℕ
  lineReady : Bool
  flags : UInt32
  fgPgid : Int
  /-- The places of the line buffer that were written, also behind its end. -/
  written : List ℕ
  /-- What was handed to the write callback. -/
  echoed : List UInt8
  /-- The groups that Ctrl+C has signalled. -/
  interrupted : List Int

def ttyInit : Tty where
  inputBuffer _ := 0
  inputHead := 0
  inputTail := 0
  inputCount := 0
  lineBuffer _ := 0
  lineLen := 0
  lineReady := false
  flags := ttyEcho ||| ttyCanon ||| ttyIsig
  fgPgid := 1
  written := []
  echoed := []
  interrupted := []

/-- Ctrl+C. -/
def etx : UInt8 := 3

def newline : UInt8 := 10

def IsBackspace (c : UInt8) : Prop := c = 8 ∨ c = 127

def IsEnter (c : UInt8) : Prop := c = 13 ∨ c = newline

instance (c : UInt8) : Decidable (IsBackspace c) := inferInstanceAs (Decidable (_ ∨ _))

instance (c : UInt8) : Decidable (IsEnter c) := inferInstanceAs (Decidable (_ ∨ _))

namespace Tty

def setFlags (t : Tty) (flags : UInt32) : Tty := { t with flags }

def Canonical (t : Tty) : Prop := t.flags &&& ttyCanon ≠ 0

/-- The character is Ctrl+C, and not for the line. -/
def Interrupts (t : Tty) (c : UInt8) : Prop := t.flags &&& ttyIsig ≠ 0 ∧ c = etx

instance (t : Tty) : Decidable t.Canonical := inferInstanceAs (Decidable (_ ≠ _))

instance (t : Tty) (c : UInt8) : Decidable (t.Interrupts c) := inferInstanceAs (Decidable (_ ∧ _))

def store (t : Tty) (b : UInt8) : Tty :=
  { t with lineBuffer := t.lineBuffer.store8 t.lineLen b, written := t.written ++ [t.lineLen] }

def append (t : Tty) (b : UInt8) : Tty := { t.store b with lineLen := t.lineLen + 1 }

def line (t : Tty) : List UInt8 := t.lineBuffer.bytes 0 t.lineLen

def echo (t : Tty) (c : UInt8) : Tty :=
  if t.flags &&& ttyEcho ≠ 0 then { t with echoed := t.echoed ++ [if c = 13 then newline else c] } else t

def edit (t : Tty) (c : UInt8) : Tty :=
  if IsBackspace c then { t with lineLen := t.lineLen - 1 }
  else if IsEnter c then { (t.append newline).store 0 with lineReady := true }
  else if t.lineLen < ttyBufferSize - 1 then t.append c
  else t

def inputRaw (t : Tty) (c : UInt8) : Tty :=
  if t.inputCount < ttyBufferSize then
    { t with
      inputBuffer := t.inputBuffer.store8 t.inputHead c
      inputHead := (t.inputHead + 1) % ttyBufferSize
      inputCount := t.inputCount + 1 }
  else t

def inputChar (t : Tty) (c : UInt8) : Tty :=
  if t.Interrupts c then { t with interrupted := t.interrupted ++ [t.fgPgid] }
  else
    let t := t.echo c
    if t.Canonical then t.edit c else t.inputRaw c

/-- The loop of a read in raw mode. -/
def drain : ℕ → Tty → List UInt8 × Tty
  | 0, t => ([], t)
  | len + 1, t =>
    if t.inputCount = 0 then ([], t)
    else
      let x := drain len { t with inputTail := (t.inputTail + 1) % ttyBufferSize, inputCount := t.inputCount - 1 }
      (t.inputBuffer t.inputTail :: x.1, x.2)

/-- `tty_read`; nothing where it sleeps. Woken up, it looks again in canonical mode only. -/
def read (t : Tty) (woken : Bool) (len : ℕ) : Option (List UInt8 × Tty) :=
  if t.Canonical then
    if t.lineReady then some (t.lineBuffer.bytes 0 (min len t.lineLen), { t with lineLen := 0, lineReady := false })
    else none
  else if t.inputCount = 0 ∧ woken = false then none
  else some (drain len t)

end Tty

/-- What a terminal is for: a line that is edited, and those that are complete and not read to their end. -/
structure LineEditor where
  edited : List UInt8
  unread : List (List UInt8)
  lines : List (List UInt8)

namespace LineEditor

def start : LineEditor := ⟨[], [], []⟩

def type (e : LineEditor) (c : UInt8) : LineEditor :=
  if IsBackspace c then { e with edited := e.edited.dropLast }
  else if IsEnter c then
    let line := e.edited ++ [newline]
    { edited := [], unread := e.unread ++ [line], lines := e.lines ++ [line] }
  else if e.edited.length < ttyBufferSize - 1 then { e with edited := e.edited ++ [c] }
  else e

def read (e : LineEditor) (len : ℕ) : Option (List UInt8 × LineEditor) :=
  match e.unread with
  | [] => none
  | line :: rest => some (line.take len, { e with unread := if line.length ≤ len then rest else line.drop len :: rest })

end LineEditor

/-- A terminal, what its reads have returned so far, and the editor that has the same input. -/
structure Terminal where
  tty : Tty
  editor : LineEditor
  returned : List UInt8

inductive TtyEvent where
  | input (c : UInt8)
  | read (woken : Bool) (len : ℕ+)

namespace Terminal

def boot (flags : UInt32) : Terminal := ⟨ttyInit.setFlags flags, .start, []⟩

def exec (s : Terminal) : TtyEvent → Terminal
  | .input c =>
    { s with
      tty := s.tty.inputChar c
      editor := if s.tty.Interrupts c then s.editor else s.editor.type c }
  | .read woken len =>
    match s.tty.read woken len with
    | some (bytes, tty) =>
      { tty
        editor := ((s.editor.read len).map Prod.snd).getD s.editor
        returned := s.returned ++ bytes }
    | none => s

structure Sound (s : Terminal) : Prop where
  inside : ∀ i ∈ s.tty.written, i < ttyBufferSize
  returned : s.returned ++ s.editor.unread.flatten = s.editor.lines.flatten
  next : ∀ (woken : Bool) (len : ℕ+), (s.tty.read woken len).map Prod.fst = (s.editor.read len).map Prod.fst

/-- No line is typed while another one waits, and each has a place to spare; a read has room for the line. -/
def Orderly (s : Terminal) : TtyEvent → Prop
  | .input c => s.tty.Interrupts c ∨ s.tty.lineReady = false ∧ (IsEnter c → s.tty.lineLen < ttyBufferSize - 1)
  | .read _ len => s.tty.lineReady = true → s.tty.lineLen ≤ len

instance (s : Terminal) : (e : TtyEvent) → Decidable (s.Orderly e)
  | .input _ => inferInstanceAs (Decidable (_ ∨ _))
  | .read _ _ => inferInstanceAs (Decidable (_ → _))

end Terminal
end RetroOs.Kernel

/-! Any typing and reading at a terminal in canonical mode. -/
namespace RetroOs.Kernel
open Lib

namespace Tty
variable {t : Tty} {c : UInt8} {len : ℕ} {woken : Bool}

private theorem line_append (t : Tty) (b : UInt8) : (t.append b).line = t.line ++ [b] := by
  have hkept : Memory.AgreeOn t.lineBuffer (t.append b).lineBuffer 0 t.lineLen :=
    Memory.store8_agreeOn _ _ (.inr (Nat.le_of_eq (Nat.zero_add _)))
  have hlast : (t.append b).lineBuffer.bytes t.lineLen 1 = [b] := by
    rw [Memory.bytes_succ]
    exact congrArg (· :: []) (if_pos rfl)
  rw [line, show (t.append b).lineLen = t.lineLen + 1 from rfl, Memory.bytes_add, hkept.bytes, Nat.zero_add, hlast, line]

private theorem line_terminated (t : Tty) (b : UInt8) : (t.store b).line = t.line := by
  have hkept : Memory.AgreeOn t.lineBuffer (t.store b).lineBuffer 0 t.lineLen :=
    Memory.store8_agreeOn _ _ (.inr (Nat.le_of_eq (Nat.zero_add _)))
  exact hkept.bytes

private theorem line_take (t : Tty) (len : ℕ) : t.lineBuffer.bytes 0 (min len t.lineLen) = t.line.take len := by
  rw [line, Memory.bytes, Memory.bytes, ← List.map_take, List.take_range]

theorem length_line (t : Tty) : t.line.length = t.lineLen := Memory.length_bytes _ _ _

private theorem line_shorter (t : Tty) : ({ t with lineLen := t.lineLen - 1 } : Tty).line = t.line.dropLast := by
  rw [List.dropLast_eq_take, length_line, ← line_take, Nat.min_eq_left (Nat.sub_le _ _)]
  rfl

private theorem inputChar_interrupt (h : t.Interrupts c) : t.inputChar c = { t with interrupted := t.interrupted ++ [t.fgPgid] } :=
  if_pos h

private theorem inputChar_edit (hc : t.Canonical) (h : ¬ t.Interrupts c) : ∃ u : Tty, t.inputChar c = u.edit c ∧ u.line = t.line ∧
    u.lineLen = t.lineLen ∧ u.lineReady = t.lineReady ∧ u.written = t.written ∧ u.flags = t.flags := by
  have hecho : (t.echo c).flags = t.flags := by
    rw [echo]
    split <;> rfl
  refine ⟨t.echo c, ?_, ?_⟩
  · rw [inputChar, if_neg h]
    exact if_pos (by rw [Canonical, hecho]; exact hc)
  · rw [echo]
    split <;> exact ⟨rfl, rfl, rfl, rfl, rfl⟩

private theorem read_ready (hc : t.Canonical) (h : t.lineReady = true) :
    t.read woken len = some (t.line.take len, { t with lineLen := 0, lineReady := false }) := by
  rw [read, if_pos hc, if_pos h, line_take]

private theorem read_sleeps (hc : t.Canonical) (h : t.lineReady = false) : t.read woken len = none := by
  rw [read, if_pos hc, if_neg (by rw [h]; exact Bool.false_ne_true)]

end Tty

namespace Terminal
variable {s : Terminal} {e : TtyEvent} {c : UInt8} {flags : UInt32}

structure Inv (s : Terminal) : Prop where
  canonical : s.tty.Canonical
  inside : ∀ i ∈ s.tty.written, i < ttyBufferSize
  returned : s.returned ++ s.editor.unread.flatten = s.editor.lines.flatten
  editing : s.tty.lineReady = false → s.editor.unread = [] ∧ s.tty.line = s.editor.edited ∧ s.tty.lineLen < ttyBufferSize
  waiting : s.tty.lineReady = true → s.editor.unread = [s.tty.line] ∧ s.editor.edited = []

theorem Inv.sound (h : s.Inv) : s.Sound := by
  refine ⟨h.inside, h.returned, fun woken len => ?_⟩
  cases hready : s.tty.lineReady with
  | false => rw [Tty.read_sleeps h.canonical hready, LineEditor.read, (h.editing hready).1]; rfl
  | true => rw [Tty.read_ready h.canonical hready, LineEditor.read, (h.waiting hready).1]; rfl

theorem Inv.boot (h : flags &&& ttyCanon ≠ 0) : (boot flags).Inv :=
  ⟨h, nofun, rfl, fun _ => ⟨rfl, rfl, Nat.two_pow_pos 8⟩, nofun⟩

theorem Inv.input (h : s.Inv) (hint : ¬ s.tty.Interrupts c) (hready : s.tty.lineReady = false)
    (hroom : IsEnter c → s.tty.lineLen < ttyBufferSize - 1) : (s.exec (.input c)).Inv := by
  obtain ⟨hunread, hline, hlen⟩ := h.editing hready
  obtain ⟨u, hu, huline, hulen, huready, huwritten, huflags⟩ := Tty.inputChar_edit h.canonical hint
  have hcanon : u.Canonical := by
    rw [Tty.Canonical, huflags]
    exact h.canonical
  have hinside : ∀ i ∈ u.written, i < ttyBufferSize := by
    rw [huwritten]
    exact h.inside
  have hcount : s.editor.edited.length = u.lineLen := by rw [← hline, Tty.length_line, hulen]
  have hsame : s.exec (.input c) = { s with tty := u.edit c, editor := s.editor.type c } := by
    rw [exec, hu, if_neg hint]
  rw [hsame, Tty.edit, LineEditor.type]
  by_cases hback : IsBackspace c
  · rw [if_pos hback, if_pos hback]
    refine ⟨hcanon, hinside, h.returned, fun _ => ⟨hunread, ?_, ?_⟩, fun hwait => ?_⟩
    · rw [Tty.line_shorter, huline, hline]
    · dsimp only
      omega
    · cases (huready.trans hready).symm.trans hwait
  · rw [if_neg hback, if_neg hback]
    by_cases henter : IsEnter c
    · rw [if_pos henter, if_pos henter]
      have hshort := hroom henter
      have hfull : ((u.append newline).store 0).line = s.editor.edited ++ [newline] := by
        rw [Tty.line_terminated, Tty.line_append, huline, hline]
      refine ⟨hcanon, ?_, ?_, nofun, fun _ => ⟨?_, rfl⟩⟩
      · intro i hi
        rcases List.mem_append.mp hi with hi | hi
        · rcases List.mem_append.mp hi with hi | hi
          · exact hinside i hi
          · obtain rfl := List.mem_singleton.mp hi
            omega
        · obtain rfl := List.mem_singleton.mp hi
          have hnext : (u.append newline).lineLen = u.lineLen + 1 := rfl
          omega
      · dsimp only
        rw [List.flatten_append, List.flatten_append, ← List.append_assoc, h.returned]
      · dsimp only
        rw [hunread]
        exact congrArg (· :: []) hfull.symm
    · rw [if_neg henter, if_neg henter, hcount]
      split
      · next hspace =>
        refine ⟨hcanon, ?_, h.returned, fun _ => ⟨hunread, ?_, ?_⟩, fun hwait => ?_⟩
        · intro i hi
          rcases List.mem_append.mp hi with hi | hi
          · exact hinside i hi
          · obtain rfl := List.mem_singleton.mp hi
            omega
        · rw [Tty.line_append, huline, hline]
        · have hnext : (u.append c).lineLen = u.lineLen + 1 := rfl
          dsimp only
          omega
        · cases (huready.trans hready).symm.trans hwait
      · refine ⟨hcanon, hinside, h.returned, fun _ => ⟨hunread, huline.trans hline, ?_⟩, fun hwait => ?_⟩
        · dsimp only
          omega
        · cases (huready.trans hready).symm.trans hwait

theorem Inv.read (h : s.Inv) (woken : Bool) (len : ℕ+) (hroom : s.tty.lineReady = true → s.tty.lineLen ≤ len) :
    (s.exec (.read woken len)).Inv := by
  cases hready : s.tty.lineReady with
  | false =>
    rw [exec, Tty.read_sleeps h.canonical hready]
    exact h
  | true =>
    obtain ⟨hunread, hedited⟩ := h.waiting hready
    have hlen : s.tty.line.length ≤ len := (s.tty.length_line).trans_le (hroom hready)
    have hreturned : s.returned ++ s.tty.line = s.editor.lines.flatten := by
      rw [← h.returned, hunread, List.flatten_singleton]
    have hboth : s.editor.read len = some (s.tty.line, { s.editor with unread := [] }) := by
      rw [LineEditor.read, hunread]
      dsimp only
      rw [List.take_of_length_le hlen, if_pos hlen]
    rw [exec, Tty.read_ready h.canonical hready, hboth, List.take_of_length_le hlen]
    refine ⟨h.canonical, h.inside, ?_, fun _ => ⟨rfl, hedited.symm, Nat.two_pow_pos 8⟩, nofun⟩
    exact (List.append_nil _).trans hreturned

theorem Inv.exec (h : s.Inv) (he : s.Orderly e) : (s.exec e).Inv := by
  cases e with
  | input c =>
    by_cases hint : s.tty.Interrupts c
    · rw [Terminal.exec, Tty.inputChar_interrupt hint, if_pos hint]
      exact ⟨h.canonical, h.inside, h.returned, h.editing, h.waiting⟩
    · obtain ⟨hready, hroom⟩ := he.resolve_left hint
      exact h.input hint hready hroom
  | read woken len => exact h.read woken len he

end Terminal

/-- In canonical mode, where no line is typed while another one waits, none is too long for its newline and terminator, and
no read is too short, all writes are in the line buffer and the reads return the lines. -/
theorem terminal_runs (flags : UInt32) (hc : flags &&& ttyCanon ≠ 0) (es : List TtyEvent)
    (h : Along Terminal.exec Terminal.Orderly (.boot flags) es) :
    Along Terminal.exec (fun s e => (s.exec e).Sound) (.boot flags) es := by
  have hkeep : ∀ s e, Terminal.Inv s → s.Orderly e → (s.exec e).Inv := fun _ _ hs he => hs.exec he
  exact Along.of_invariant hkeep (fun s e hs he => (hkeep s e hs he).sound) (.boot hc) h

theorem greeting_read : Along Terminal.exec (fun s e => (s.exec e).Sound) (.boot ttyInit.flags)
    [.input 104, .input 106, .input 8, .input 105, .input 13, .read false 80] :=
  terminal_runs _ (by decide) _ (by decide)

/-- A line and the start of the next are read as one. -/
theorem typed_ahead_merges : ¬ ∀ es : List TtyEvent,
    Along Terminal.exec (fun s e => (s.exec e).Sound) (.boot ttyInit.flags) es := by
  intro h
  have hrun := h [.input 97, .input 13, .input 98, .read false 80]
  have hbad := hrun.2.2.2.1.returned
  revert hbad
  decide

end RetroOs.Kernel
