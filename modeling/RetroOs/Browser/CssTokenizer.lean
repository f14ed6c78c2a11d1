import RetroOs.Browser.Tokenizer
import RetroOs.Lib.Loop

/-! The CSS tokenizer: what it hands out, and what it leaves of its input. The state is `input +
position`, the characters that are left. Of a number the text is kept that `numeric_value` is computed
from. -/
namespace RetroOs.Browser
open Lib List Nat

inductive CSSTokenType where
  | ident | function | atKeyword | hash | string | url | delim
  | number | percentage | dimension | whitespace | cdo | cdc
  | colon | semicolon | comma | leftSquare | rightSquare | leftParen | rightParen
  | leftCurly | rightCurly | comment | eofToken
  deriving DecidableEq

structure CSSToken where
  type : CSSTokenType
  value : CString
  numericValue : CString
  unit : CString
  isId : Bool
  deriving DecidableEq

def CSSToken.new (type : CSSTokenType) : CSSToken := { type, value := [], numericValue := [], unit := [], isId := false }

def star : UInt8 := 0x2A
def plus : UInt8 := 0x2B
def dot : UInt8 := 0x2E
def percent : UInt8 := 0x25
def atSign : UInt8 := 0x40
def backslash : UInt8 := 0x5C
def tilde : UInt8 := 0x7E

namespace CSSTokenizer

def currentChar (s : CString) : UInt8 := s.head?.elim 0 (·.val)

/-- `input[position + n]` -/
def peek (s : CString) (n : Nat) : UInt8 := currentChar (s.drop n)

def isDigit (c : UInt8) : Bool := 0x30 ≤ c && c ≤ 0x39

def isIdentStart (c : UInt8) : Bool := isAsciiAlpha c || c == 0x5F || 0x80 ≤ c

def isIdent (c : UInt8) : Bool := isIdentStart c || isDigit c || c == dash

/-- `while (p(current_char()) && i < n)`, which no terminator passes: what is read, and what is left. -/
def consumeWhile (p : UInt8 → Bool) : Nat → CString → CString × CString
  | 0, s => ([], s)
  | _ + 1, [] => ([], [])
  | n + 1, c :: s =>
    if p c then
      let (read, s) := consumeWhile p n s
      (c :: read, s)
    else ([], c :: s)

/-- Behind the opening of a comment. -/
def consumeComment : CString → CString
  | [] => []
  | c :: s => if c = star ∧ currentChar s = slash then s.tail else consumeComment s

/-- The characters of a string, of which `i` goes from `255 - n` to 255. -/
def stringBody (quote : UInt8) : Nat → CString → CString × CString
  | 0, s => ([], s)
  | _ + 1, [] => ([], [])
  | n + 1, c :: s =>
    if c = quote then ([], c :: s)
    else if c = backslash then
      match s with
      | [] => ([], [])
      | d :: s =>
        let (read, s) := stringBody quote n s
        (d :: read, s)
    else
      let (read, s) := stringBody quote n s
      (c :: read, s)

def consumeString (quote : UInt8) (s : CString) : CSSToken × CString :=
  let (value, s) := stringBody quote 255 s.tail
  ({ CSSToken.new .string with value }, if currentChar s = quote then s.tail else s)

def consumeFraction (text s : CString) : CString × CString :=
  if currentChar s = dot ∧ isDigit (peek s 1) ∧ text.length < 63 then
    let (fraction, t) := consumeWhile isDigit (62 - text.length) s.tail
    (text ++ s.take 1 ++ fraction, t)
  else (text, s)

/-- The text of a number, which goes to `buf`. -/
def numericText (s : CString) : CString × CString :=
  let (sign, s) := if currentChar s = dash ∨ currentChar s = plus then (s.take 1, s.tail) else ([], s)
  let (digits, s) := consumeWhile isDigit (63 - sign.length) s
  consumeFraction (sign ++ digits) s

/-- Behind a number. -/
def consumeUnit (token : CSSToken) (s : CString) : CSSToken × CString :=
  if currentChar s = percent then ({ token with type := .percentage }, s.tail)
  else if isIdentStart (currentChar s) ∨ (currentChar s = dash ∧ isIdentStart (peek s 1)) then
    let (unit, s) := consumeWhile isIdent 15 s
    ({ token with type := .dimension, unit }, s)
  else (token, s)

def consumeNumeric (s : CString) : CSSToken × CString :=
  let (numericValue, s) := numericText s
  consumeUnit { CSSToken.new .number with numericValue } s

def consumeIdentLike (s : CString) : CSSToken × CString :=
  let (value, s) := consumeWhile isIdent 255 s
  if currentChar s = 0x28 then ({ CSSToken.new .function with value }, s.tail)
  else ({ CSSToken.new .ident with value }, s)

/-- `switch (c)` -/
def single (c : UInt8) : CSSTokenType :=
  if c = 0x3A then .colon
  else if c = 0x3B then .semicolon
  else if c = 0x2C then .comma
  else if c = 0x5B then .leftSquare
  else if c = 0x5D then .rightSquare
  else if c = 0x28 then .leftParen
  else if c = 0x29 then .rightParen
  else if c = 0x7B then .leftCurly
  else if c = 0x7D then .rightCurly
  else .delim

def turn : CString → Option (Turn CString (CSSToken × CString))
  | [] => some (.done (.new .eofToken, []))
  | c :: s =>
    if isSpace c then some (.done (.new .whitespace, s.dropWhile fun d => isSpace d))
    else if c = slash ∧ currentChar s = star then some (.again (consumeComment s.tail))
    else if c = doubleQuote ∨ c = singleQuote then some (.done (consumeString c (c :: s)))
    else if c = hash then
      let (value, s) := consumeWhile isIdent 255 s
      some (.done ({ CSSToken.new .hash with value, isId := true }, s))
    else if c = atSign then
      let (value, s) := consumeWhile isIdent 255 s
      some (.done ({ CSSToken.new .atKeyword with value }, s))
    else if isDigit c ∨ (c = dot ∧ isDigit (currentChar s)) ∨
        (c = dash ∧ (isDigit (currentChar s) ∨ (currentChar s = dot ∧ isDigit (peek s 1)))) then
      some (.done (consumeNumeric (c :: s)))
    else if isIdentStart c ∨ (c = dash ∧ isIdentStart (currentChar s)) then some (.done (consumeIdentLike (c :: s)))
    else some (.done ({ CSSToken.new (single c) with value := [c] }, s))

def nextToken (s : CString) : Option (CSSToken × CString) := loop turn (s.length + 1) s

variable {p : UInt8 → Bool} {n : Nat} {s : CString} {c : CChar} {q : UInt8}

theorem consumeWhile_append (p : UInt8 → Bool) (n : Nat) (s : CString) : (consumeWhile p n s).1 ++ (consumeWhile p n s).2 = s := by
  induction n generalizing s with
  | zero => rfl
  | succ n ih =>
    cases s with
    | nil => rfl
    | cons c s =>
      rw [consumeWhile]
      split
      · exact congrArg (c :: ·) (ih s)
      · rfl

private theorem consumeWhile_read (p : UInt8 → Bool) (n : Nat) (s : CString) : (consumeWhile p n s).1.length ≤ n := by
  induction n generalizing s with
  | zero => exact le_refl _
  | succ n ih =>
    cases s with
    | nil => exact zero_le _
    | cons c s =>
      rw [consumeWhile]
      split
      · exact succ_le_succ (ih s)
      · exact zero_le _

theorem consumeWhile_le (p : UInt8 → Bool) (n : Nat) (s : CString) : (consumeWhile p n s).2.length ≤ s.length := by
  have happ := congrArg length (consumeWhile_append p n s)
  rw [length_append] at happ
  omega

private theorem consumeWhile_lt (h : p c = true) : (consumeWhile p (n + 1) (c :: s)).2.length < (c :: s).length := by
  rw [consumeWhile, if_pos h]
  exact lt_succ_of_le (consumeWhile_le p n s)

private theorem consumeComment_le (s : CString) : (consumeComment s).length ≤ s.length := by
  induction s with
  | nil => exact le_refl _
  | cons c s ih =>
    rw [consumeComment]
    split
    · rw [length_tail]
      exact le_succ_of_le (sub_le _ _)
    · exact le_succ_of_le ih

private theorem stringBody_le (q : UInt8) (n : Nat) (s : CString) : (stringBody q n s).2.length ≤ s.length := by
  induction n generalizing s with
  | zero => exact le_refl _
  | succ n ih =>
    cases s with
    | nil => exact le_refl _
    | cons c s =>
      rw [stringBody.eq_def]
      dsimp only
      split
      · exact le_refl _
      · split
        · cases s with
          | nil => exact zero_le _
          | cons d s => exact (ih s).trans (le_add_right _ 2)
        · exact le_succ_of_le (ih s)

private theorem consumeString_lt (q : UInt8) (c : CChar) (s : CString) : (consumeString q (c :: s)).2.length < (c :: s).length := by
  have hbody := stringBody_le q 255 s
  rw [consumeString]
  dsimp only [tail_cons]
  split
  · rw [length_tail, length_cons]
    omega
  · exact lt_succ_of_le hbody

private theorem consumeFraction_le (text s : CString) : (consumeFraction text s).2.length ≤ s.length := by
  rw [consumeFraction]
  split
  · exact (consumeWhile_le _ _ _).trans (by rw [length_tail]; exact sub_le _ _)
  · exact le_refl _

def StartsNumber (c : CChar) (s : CString) : Prop :=
  isDigit c ∨ (c = dot ∧ isDigit (currentChar s)) ∨
    (c = dash ∧ (isDigit (currentChar s) ∨ (currentChar s = dot ∧ isDigit (peek s 1))))

private theorem numericText_lt (h : StartsNumber c s) : (numericText (c :: s)).2.length < (c :: s).length := by
  have hcur : currentChar (c :: s) = c := rfl
  rw [numericText, hcur]
  by_cases hsign : c.val = dash ∨ c.val = plus
  · rw [if_pos hsign]
    exact lt_succ_of_le ((consumeFraction_le _ _).trans (consumeWhile_le _ _ _))
  · rw [if_neg hsign]
    rcases h with hd | ⟨hdot, hd⟩ | ⟨hdash, -⟩
    · exact lt_of_le_of_lt (consumeFraction_le _ _) (consumeWhile_lt hd)
    · have hnone : consumeWhile isDigit 63 (c :: s) = ([], c :: s) := by rw [consumeWhile, hdot, if_neg (by decide)]
      dsimp only [length_nil]
      rw [hnone]
      rw [consumeFraction, if_pos ⟨hdot, hd, succ_pos _⟩]
      exact lt_succ_of_le (consumeWhile_le _ _ _)
    · exact absurd (.inl hdash) hsign

private theorem consumeUnit_spec {token : CSSToken} (ht : token.unit = []) :
    (consumeUnit token s).1.unit.length < 16 ∧ (consumeUnit token s).2.length ≤ s.length := by
  rw [consumeUnit]
  split
  · exact ⟨by rw [ht]; decide, by rw [length_tail]; exact sub_le _ _⟩
  · split
    · exact ⟨lt_succ_of_le (consumeWhile_read _ _ _), consumeWhile_le _ _ _⟩
    · exact ⟨by rw [ht]; decide, le_refl _⟩

private theorem consumeIdentLike_lt (h : isIdent c = true) : (consumeIdentLike (c :: s)).2.length < (c :: s).length := by
  have hlt := consumeWhile_lt (n := 254) (s := s) h
  rw [length_cons] at hlt ⊢
  rw [consumeIdentLike]
  dsimp only
  split
  · rw [length_tail]
    exact lt_of_le_of_lt (sub_le _ _) hlt
  · exact hlt

private theorem turn_spec (s : CString) :
    ∃ r ∈ turn s, r.Meets (fun t => t.length < s.length)
      fun r => (r.1.type ≠ .eofToken → r.2.length < s.length) ∧ r.1.unit.length < 16 := by
  cases s with
  | nil => exact ⟨_, rfl, fun h => absurd rfl h, by decide⟩
  | cons c s =>
    have hshort : ∀ m, m ≤ s.length → m < (c :: s).length := fun m hm => lt_succ_of_le hm
    rw [turn]
    split
    · exact ⟨_, rfl, fun _ => hshort _ (dropWhile_suffix _).length_le, succ_pos 15⟩
    split
    · refine ⟨_, rfl, hshort _ ((consumeComment_le _).trans ?_)⟩
      rw [length_tail]
      exact sub_le _ _
    split
    · exact ⟨_, rfl, fun _ => consumeString_lt _ _ _, succ_pos 15⟩
    split
    · exact ⟨_, rfl, fun _ => hshort _ (consumeWhile_le _ _ _), succ_pos 15⟩
    split
    · exact ⟨_, rfl, fun _ => hshort _ (consumeWhile_le _ _ _), succ_pos 15⟩
    split
    · next hnum =>
      have hend := @consumeUnit_spec (numericText (c :: s)).2 { CSSToken.new .number with numericValue := (numericText (c :: s)).1 } rfl
      exact ⟨_, rfl, fun _ => lt_of_le_of_lt hend.2 (numericText_lt hnum), hend.1⟩
    split
    · next hident =>
      have hc : isIdent c = true := by
        rcases hident with hstart | ⟨hdash, -⟩
        · rw [isIdent, hstart, Bool.true_or, Bool.true_or]
        · rw [isIdent, hdash]
          decide
      refine ⟨_, rfl, fun _ => consumeIdentLike_lt hc, ?_⟩
      rw [consumeIdentLike]
      dsimp only
      split <;> exact succ_pos 15
    · exact ⟨_, rfl, fun _ => hshort _ (le_refl _), succ_pos 15⟩

theorem nextToken_spec (s : CString) :
    ∃ r ∈ nextToken s, (r.1.type ≠ .eofToken → r.2.length < s.length) ∧ r.1.unit.length < 16 := by
  refine loop_spec (fun t => t.length ≤ s.length) length (fun t ht => ?_) (le_refl _) (lt_succ_self _)
  obtain ⟨r, hr, hm⟩ := turn_spec t
  refine ⟨r, hr, ?_⟩
  cases r with
  | again u => exact ⟨(le_of_lt hm).trans ht, hm⟩
  | done r => exact ⟨fun h => lt_of_lt_of_le (hm.1 h) ht, hm.2⟩

end CSSTokenizer
end RetroOs.Browser
