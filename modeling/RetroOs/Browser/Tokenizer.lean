import RetroOs.Lib.CString
import RetroOs.Lib.Scanner

/-! The HTML tokenizer, one turn of the loop in `next_token` a step. A null `current_token` that a
state reads or writes leaves the step without a successor. `new` is taken to succeed, and no input in
memory is taken to be too long for the `int position`. -/
namespace RetroOs.Browser
open Lib

inductive TokenType where
  | doctype | startTag | endTag | comment | character | eof
  deriving DecidableEq

structure Attr where
  name : List UInt8
  value : List UInt8
  deriving DecidableEq

/-- `attrs` holds the first `attr_count` entries of the source's sixteen. -/
structure Token where
  type : TokenType
  name : List UInt8
  data : List UInt8
  selfClosing : Bool
  attrs : List Attr
  deriving DecidableEq

def Token.new (type : TokenType) : Token :=
  { type, name := [], data := [], selfClosing := false, attrs := [] }

inductive TokenizerState where
  | data | tagOpen | endTagOpen | tagName
  | beforeAttributeName | attributeName | afterAttributeName
  | beforeAttributeValue | attributeValueDoubleQuoted | attributeValueSingleQuoted
  | attributeValueUnquoted | afterAttributeValueQuoted | selfClosingStartTag
  | bogusComment | commentStart | commentStartDash | comment
  | commentEndDash | commentEnd | commentEndBang
  | doctype | beforeDoctypeName | doctypeName | afterDoctypeName
  | rcdata | rawtext | scriptData | plaintext
  | characterReference | namedCharacterReference | numericCharacterReference
  | hexadecimalCharacterReferenceStart | decimalCharacterReferenceStart
  | hexadecimalCharacterReference | decimalCharacterReference | numericCharacterReferenceEnd
  deriving DecidableEq

structure Tokenizer where
  input : CString
  position : Nat
  state : TokenizerState
  returnState : TokenizerState
  currentToken : Option Token
  deriving DecidableEq

def less : UInt8 := 0x3C
def greater : UInt8 := 0x3E
def amp : UInt8 := 0x26
def bang : UInt8 := 0x21
def slash : UInt8 := 0x2F
def dash : UInt8 := 0x2D
def equals : UInt8 := 0x3D
def hash : UInt8 := 0x23
def doubleQuote : UInt8 := 0x22
def singleQuote : UInt8 := 0x27

def isAsciiAlpha (c : UInt8) : Bool :=
  (0x61 ≤ c && c ≤ 0x7A) || (0x41 ≤ c && c ≤ 0x5A)

def isSpace (c : UInt8) : Bool :=
  c == 0x20 || c == 0x09 || c == 0x0A || c == 0x0D || c == 0x0C

def toLower (c : UInt8) : UInt8 :=
  if 0x41 ≤ c ∧ c ≤ 0x5A then c + 32 else c

/-- A character written behind a string, while the string stays below `limit`. -/
def putChar (limit : Nat) (s : List UInt8) (c : UInt8) : List UInt8 :=
  if s.length < limit then s ++ [c] else s

namespace Token

def ofCharacter (c : UInt8) : Token := { Token.new .character with data := [c] }

def putName (c : UInt8) (t : Token) : Token := { t with name := putChar 63 t.name (toLower c) }

def putData (c : UInt8) (t : Token) : Token := { t with data := putChar 255 t.data c }

/-- The dash that did not end the comment, and the character behind it. -/
def putDash (c : UInt8) (t : Token) : Token :=
  { t with data := if t.data.length < 254 then t.data ++ [dash, c] else t.data }

def newAttr (t : Token) : Token :=
  { t with attrs := if t.attrs.length < 16 then t.attrs ++ [⟨[], []⟩] else t.attrs }

def putAttrName (c : UInt8) (t : Token) : Token :=
  { t with attrs := t.attrs.modify (t.attrs.length - 1) fun a => { a with name := putChar 63 a.name (toLower c) } }

def putAttrValue (c : UInt8) (t : Token) : Token :=
  { t with attrs := t.attrs.modify (t.attrs.length - 1) fun a => { a with value := putChar 255 a.value c } }

def closeSelf (t : Token) : Token := { t with selfClosing := true }

end Token

namespace Tokenizer

def new (input : CString) : Tokenizer :=
  { input, position := 0, state := .data, returnState := .data, currentToken := none }

def setState (t : Tokenizer) (s : TokenizerState) : Tokenizer := { t with state := s }

/-- The character at the position, or the terminator. -/
def currentChar (t : Tokenizer) : UInt8 := (t.input[t.position]?).elim 0 (·.val)

def advance (t : Tokenizer) : Tokenizer :=
  if t.currentChar ≠ 0 then { t with position := t.position + 1 } else t

def advanceBy (t : Tokenizer) : Nat → Tokenizer
  | 0 => t
  | n + 1 => (t.advanceBy n).advance

def looksAt (t : Tokenizer) (s : String) : Bool := (CString.ofString s).isPrefixOf (t.input.drop t.position)

def newToken (t : Tokenizer) (type : TokenType) : Tokenizer := { t with currentToken := some (Token.new type) }

def amend (t : Tokenizer) (f : Token → Token) : Scan Tokenizer Token :=
  match t.currentToken with
  | some tok => .again { t with currentToken := some (f tok) }
  | none => .stuck

def emitCurrent (t : Tokenizer) (f : Token → Token) : Scan Tokenizer Token :=
  match t.currentToken with
  | some tok => .emit (f tok) { t with currentToken := none }
  | none => .stuck

def emitChar (t : Tokenizer) (c : UInt8) : Scan Tokenizer Token := .emit (.ofCharacter c) t

/-- `&` was read in a text or an attribute value. -/
def openReference (t : Tokenizer) : Tokenizer :=
  { t with returnState := t.state, state := .characterReference }.advance

/-- The named references the tokenizer knows. -/
def references : List (String × Nat × UInt8) :=
  [("lt;", 3, less), ("gt;", 3, greater), ("amp;", 4, amp), ("quot;", 5, doubleQuote)]

/-- The cases of `switch (state)`. -/
def dispatch (t : Tokenizer) (c : UInt8) : Scan Tokenizer Token :=
  match t.state with
  | .data | .rcdata =>
    if c = less then .again (t.setState .tagOpen).advance
    else if c = amp then .again t.openReference
    else t.advance.emitChar c
  | .rawtext =>
    if c = less then .again (t.setState .tagOpen).advance
    else t.advance.emitChar c
  | .tagOpen =>
    if c = bang then .again (t.setState .commentStart).advance
    else if c = slash then .again (t.setState .endTagOpen).advance
    else if isAsciiAlpha c then .again ((t.newToken .startTag).setState .tagName)
    else (t.setState .data).emitChar less
  | .endTagOpen =>
    if isAsciiAlpha c then .again ((t.newToken .endTag).setState .tagName)
    else if c = greater then .again (t.setState .data).advance
    else .again (t.setState .data)
  | .tagName =>
    if isSpace c then .again (t.setState .beforeAttributeName).advance
    else if c = slash then .again (t.setState .selfClosingStartTag).advance
    else if c = greater then (t.setState .data).advance.emitCurrent id
    else t.advance.amend (.putName c)
  | .beforeAttributeName =>
    if isSpace c then .again t.advance
    else if c = slash ∨ c = greater ∨ c = 0 then .again (t.setState .afterAttributeName)
    else (t.setState .attributeName).amend .newAttr
  | .attributeName =>
    if isSpace c ∨ c = slash ∨ c = greater ∨ c = 0 then .again (t.setState .afterAttributeName)
    else if c = equals then .again (t.setState .beforeAttributeValue).advance
    else t.advance.amend (.putAttrName c)
  | .afterAttributeName =>
    if isSpace c then .again t.advance
    else if c = slash then .again (t.setState .selfClosingStartTag).advance
    else if c = equals then .again (t.setState .beforeAttributeValue).advance
    else if c = greater then (t.setState .data).advance.emitCurrent id
    else (t.setState .attributeName).amend .newAttr
  | .beforeAttributeValue =>
    if isSpace c then .again t.advance
    else if c = doubleQuote then .again (t.setState .attributeValueDoubleQuoted).advance
    else if c = singleQuote then .again (t.setState .attributeValueSingleQuoted).advance
    else if c = greater then (t.setState .data).advance.emitCurrent id
    else .again (t.setState .attributeValueUnquoted)
  | .attributeValueDoubleQuoted =>
    if c = doubleQuote then .again (t.setState .afterAttributeValueQuoted).advance
    else if c = amp then .again t.openReference
    else t.advance.amend (.putAttrValue c)
  | .attributeValueSingleQuoted =>
    if c = singleQuote then .again (t.setState .afterAttributeValueQuoted).advance
    else if c = amp then .again t.openReference
    else t.advance.amend (.putAttrValue c)
  | .attributeValueUnquoted =>
    if isSpace c then .again (t.setState .beforeAttributeName).advance
    else if c = amp then .again t.openReference
    else if c = greater then (t.setState .data).advance.emitCurrent id
    else t.advance.amend (.putAttrValue c)
  | .afterAttributeValueQuoted =>
    if isSpace c then .again (t.setState .beforeAttributeName).advance
    else if c = slash then .again (t.setState .selfClosingStartTag).advance
    else if c = greater then (t.setState .data).advance.emitCurrent id
    else .again (t.setState .beforeAttributeName)
  | .selfClosingStartTag =>
    if c = greater then (t.setState .data).advance.emitCurrent .closeSelf
    else .again (t.setState .beforeAttributeName)
  | .commentStart =>
    if c = dash then .again (t.setState .commentStartDash).advance
    else if t.looksAt "DOCTYPE" then .again ((t.setState .doctype).advanceBy 7)
    else .again ((t.newToken .comment).setState .comment)
  | .commentStartDash =>
    if c = dash then .again ((t.newToken .comment).setState .comment).advance
    else .again (t.setState .data).advance
  | .comment =>
    if c = dash then .again (t.setState .commentEndDash).advance
    else if c = 0 then .again (t.setState .data)
    else t.advance.amend (.putData c)
  | .commentEndDash =>
    if c = dash then .again (t.setState .commentEnd).advance
    else (t.setState .comment).advance.amend (.putDash c)
  | .commentEnd =>
    if c = greater then (t.setState .data).advance.emitCurrent id
    else .again (t.setState .comment).advance
  | .characterReference =>
    if isAsciiAlpha c then .again (t.setState .namedCharacterReference)
    else if c = hash then .again (t.setState .numericCharacterReference).advance
    else (t.setState t.returnState).emitChar amp
  | .namedCharacterReference =>
    match references.find? fun r => t.looksAt r.1 with
    | some (_, len, ch) => ((t.advanceBy len).setState t.returnState).emitChar ch
    | none => (t.setState t.returnState).emitChar amp
  | .doctype =>
    if isSpace c then .again t.advance
    else .again ((t.newToken .doctype).setState .doctypeName)
  | .doctypeName =>
    if isSpace c then .again (t.setState .afterDoctypeName).advance
    else if c = greater then (t.setState .data).advance.emitCurrent id
    else t.advance.amend (.putName c)
  | .afterDoctypeName =>
    if isSpace c then .again t.advance
    else if c = greater then (t.setState .data).advance.emitCurrent id
    else .again t.advance
  | _ => .again t.advance

/-- One turn of `while (true)`: at the end of the input the open token goes out first, except in a text. -/
def step (t : Tokenizer) : Scan Tokenizer Token :=
  let c := t.currentChar
  if c = 0 ∧ t.state ≠ .data ∧ t.state ≠ .rcdata ∧ t.state ≠ .rawtext then
    match t.currentToken with
    | some tok => .emit tok { t with currentToken := none }
    | none => .emit (Token.new .eof) t
  else if c = 0 then .emit (Token.new .eof) t
  else t.dispatch c

/-- Five steps a character: one that reads it, and at most four that leave it to another state. -/
def nextToken (t : Tokenizer) : Option (Token × Tokenizer) := scan step (5 * t.input.length + 5) t

end Tokenizer
end RetroOs.Browser
