import RetroOs.Browser.CssTokenizer

/-! The CSS parser. Nothing but `advance` asks the tokenizer for a token, so its state is the tokens to
come: the first is `current_token`, and when there is none it is the end token. A node holds the whole of a
string that is copied to it, and `intact` tells whether all strings so far were shorter than their fields. As
long as they were, the pointers behind the fields are those that the parser set, and `delete rule` and `delete
decl` free what hangs on them and no more; a longer string lies on these pointers.
A list without an entry is a null pointer. `new` is taken to succeed. -/
namespace RetroOs.Browser
open Lib

inductive CSSValueType where
  | keyword | number | percentage | dimension | color | string | url | function | list
  deriving DecidableEq

structure CSSValue where
  type : CSSValueType
  data : CString
  numericValue : CString
  unit : CString
  deriving DecidableEq

def CSSValue.new (type : CSSValueType) : CSSValue := { type, data := [], numericValue := [], unit := [] }

structure CSSDeclaration where
  property : CString
  value : List CSSValue
  important : Bool
  deriving DecidableEq

inductive SelectorType where
  | universal | type | cssClass | id | attribute | pseudoClass | pseudoElement
  deriving DecidableEq

structure CSSSelector where
  type : SelectorType
  value : CString
  deriving DecidableEq

/-- The selectors chained by `next_in_compound`, and the `combinator` of the first of them, which stands
between it and `next_in_complex`. -/
structure CompoundSelector where
  simple : List CSSSelector
  combinator : UInt8
  deriving DecidableEq

abbrev ComplexSelector := List CompoundSelector

/-- The `selectors` are chained by `next_alternative`. -/
structure CSSStyleRule where
  selectors : List ComplexSelector
  declarations : List CSSDeclaration
  deriving DecidableEq

abbrev SheetToken := { t : CSSToken // t.type ≠ .eofToken }

structure CSSParser where
  upcoming : List SheetToken
  intact : Bool
  deriving DecidableEq

def CSSToken.isDelim (t : CSSToken) (c : UInt8) : Bool := t.type == .delim && CSSTokenizer.currentChar t.value == c

def CSSToken.isCombinator (t : CSSToken) : Bool := t.isDelim greater || t.isDelim plus || t.isDelim tilde

namespace CSSParser

def currentToken (p : CSSParser) : CSSToken := p.upcoming.head?.elim (.new .eofToken) (·.val)

def advance (p : CSSParser) : CSSParser := { p with upcoming := p.upcoming.tail }

/-- `while (current_token.type != EOF_TOKEN && q(current_token)) advance();` -/
def skipWhile (q : CSSToken → Bool) (p : CSSParser) : CSSParser := { p with upcoming := p.upcoming.dropWhile fun t => q t }

def skipWhitespace (p : CSSParser) : CSSParser := p.skipWhile fun t => t.type == .whitespace

def strcpy (p : CSSParser) (field : Nat) (s : CString) : CSSParser := { p with intact := p.intact && decide (s.length < field) }

def addSelector (p : CSSParser) (t : SelectorType) : CSSSelector × CSSParser :=
  ({ type := t, value := p.currentToken.value }, (p.strcpy 64 p.currentToken.value).advance)

/-- A dot or a colon, and the name behind it. -/
def markTurn (mark : SelectorType) (p : CSSParser) (head : List CSSSelector) :
    Turn (CSSParser × List CSSSelector) (List CSSSelector × CSSParser) :=
  let p := p.advance
  if p.currentToken.type = .ident then
    let (s, p) := p.addSelector mark
    .again (p, head ++ [s])
  else .again (p, head)

def compoundTurn : CSSParser × List CSSSelector →
    Option (Turn (CSSParser × List CSSSelector) (List CSSSelector × CSSParser))
  | (p, head) =>
    match p.currentToken.type with
    | .whitespace | .comma | .leftCurly | .eofToken => some (.done (head, p))
    | .ident =>
      let (s, p) := p.addSelector .type
      some (.again (p, head ++ [s]))
    | .hash =>
      let (s, p) := p.addSelector .id
      some (.again (p, head ++ [s]))
    | .delim =>
      if p.currentToken.isDelim dot then some (p.markTurn .cssClass head)
      else if p.currentToken.isDelim star then some (.again (p.advance, head ++ [⟨.universal, []⟩]))
      else some (.done (head, p))
    | .colon => some (p.markTurn .pseudoClass head)
    | _ => some (.done (head, p))

def parseCompoundSelector (p : CSSParser) : Option (List CSSSelector × CSSParser) :=
  loop compoundTurn (p.upcoming.length + 1) (p, [])

/-- What may follow where no combinator is written. -/
def startsCompound (t : CSSToken) : Bool := t.type == .ident || t.type == .hash || t.isDelim dot || t.isDelim star

def compound (simple : List CSSSelector) : ComplexSelector := if simple = [] then [] else [⟨simple, 0⟩]

/-- Set the combinator of `current` and link the next compound to it. What follows a null `head` is linked to
none. -/
def linkCompound (chain : ComplexSelector) (combinator : UInt8) (next : List CSSSelector) : ComplexSelector :=
  if chain = [] then [] else chain.modify (chain.length - 1) (fun c => { c with combinator }) ++ compound next

def complexTurn : CSSParser × ComplexSelector → Option (Turn (CSSParser × ComplexSelector) (ComplexSelector × CSSParser))
  | (p, chain) =>
    let p := p.skipWhitespace
    let combinator : UInt8 := if p.currentToken.isCombinator then CSSTokenizer.currentChar p.currentToken.value else 0x20
    let written := p.currentToken.isCombinator
    let p := if written then p.advance.skipWhitespace else p
    if written ∨ startsCompound p.currentToken then do
      let (next, p) ← p.parseCompoundSelector
      let chain := linkCompound chain combinator next
      if next = [] then some (.done (chain, p)) else some (.again (p, chain))
    else some (.done (chain, p))

def parseComplexSelector (p : CSSParser) : Option (ComplexSelector × CSSParser) := do
  let (head, p) ← p.parseCompoundSelector
  loop complexTurn (p.upcoming.length + 1) (p, compound head)

def listTurn : CSSParser × List ComplexSelector × Bool →
    Option (Turn (CSSParser × List ComplexSelector × Bool) (List ComplexSelector × CSSParser))
  | (p, alternatives, linked) =>
    if p.currentToken.type = .comma then do
      let (next, p) ← p.advance.skipWhitespace.parseComplexSelector
      let linked := linked && next ≠ []
      some (.again (p, if linked then alternatives ++ [next] else alternatives, linked))
    else some (.done (alternatives, p))

def parseSelectorList (p : CSSParser) : Option (List ComplexSelector × CSSParser) := do
  let (head, p) ← p.parseComplexSelector
  loop listTurn (p.upcoming.length + 1) (p, if head = [] then [] else [head], head ≠ [])

def endsValue (t : CSSToken) : Bool := t.type == .semicolon || t.type == .rightCurly || t.type == .eofToken

def valueTurn : CSSParser × List CSSValue → Option (Turn (CSSParser × List CSSValue) (List CSSValue × CSSParser))
  | (p, head) =>
    if endsValue p.currentToken then some (.done (head, p))
    else
      let p := p.skipWhitespace
      let t := p.currentToken
      if endsValue t then some (.done (head, p))
      else if t.isDelim bang then some (.done (head, p))
      else
        match t.type with
        | .hash => some (.again ((p.strcpy 128 t.value).advance, head ++ [{ CSSValue.new .color with data := t.value }]))
        | .dimension =>
          some (.again ((p.strcpy 16 t.unit).advance,
            head ++ [{ CSSValue.new .dimension with numericValue := t.numericValue, unit := t.unit }]))
        | .number => some (.again (p.advance, head ++ [{ CSSValue.new .number with numericValue := t.numericValue }]))
        | .percentage => some (.again (p.advance, head ++ [{ CSSValue.new .percentage with numericValue := t.numericValue }]))
        | .ident => some (.again ((p.strcpy 128 t.value).advance, head ++ [{ CSSValue.new .keyword with data := t.value }]))
        | .string => some (.again ((p.strcpy 128 t.value).advance, head ++ [{ CSSValue.new .string with data := t.value }]))
        | _ => some (.again (p.advance, head))

def parseValue (p : CSSParser) : Option (List CSSValue × CSSParser) := loop valueTurn (p.upcoming.length + 1) (p, [])

def parseDeclaration (p : CSSParser) : Option (Option CSSDeclaration × CSSParser) :=
  let t := p.currentToken
  if t.type ≠ .ident then some (none, p)
  else
    let p := (p.strcpy 64 t.value).advance.skipWhitespace
    if p.currentToken.type ≠ .colon then some (none, p)
    else do
      let (value, p) ← p.advance.skipWhitespace.parseValue
      let p := p.skipWhitespace
      if p.currentToken.isDelim bang then
        let p := p.advance
        if p.currentToken.type = .ident ∧ p.currentToken.value = CString.ofString "important" then
          some (some ⟨t.value, value, true⟩, p.advance)
        else some (some ⟨t.value, value, false⟩, p)
      else some (some ⟨t.value, value, false⟩, p)

def declarationTurn : CSSParser × List CSSDeclaration →
    Option (Turn (CSSParser × List CSSDeclaration) (List CSSDeclaration × CSSParser))
  | (p, head) =>
    if p.currentToken.type = .rightCurly ∨ p.currentToken.type = .eofToken then some (.done (head, p))
    else
      let p := p.skipWhitespace
      if p.currentToken.type = .rightCurly then some (.done (head, p))
      else do
        let (decl, p) ← p.parseDeclaration
        let p := p.skipWhitespace
        if p.currentToken.type = .semicolon then some (.again (p.advance, head ++ decl.toList))
        else some (.done (head ++ decl.toList, p))

def parseDeclarationList (p : CSSParser) : Option (List CSSDeclaration × CSSParser) :=
  loop declarationTurn (p.upcoming.length + 1) (p, [])

def parseStyleRule (p : CSSParser) : Option (Option CSSStyleRule × CSSParser) := do
  let (selectors, p) ← p.parseSelectorList
  let p := p.skipWhitespace
  if p.currentToken.type = .leftCurly then
    let (declarations, p) ← p.advance.parseDeclarationList
    some (some ⟨selectors, declarations⟩, if p.currentToken.type = .rightCurly then p.advance else p)
  else some (none, p)

/-- The rest of the blocks of an at-rule that are open. -/
def skipBlock : Nat → List SheetToken → List SheetToken
  | 0, ts => ts
  | _ + 1, [] => []
  | level + 1, t :: ts =>
    skipBlock (if t.val.type = .leftCurly then level + 2 else if t.val.type = .rightCurly then level else level + 1) ts

def skipAtRule (p : CSSParser) : CSSParser :=
  let p := p.skipWhile fun t => t.type != .semicolon && t.type != .leftCurly
  if p.currentToken.type = .leftCurly then { p with upcoming := skipBlock 1 p.advance.upcoming }
  else if p.currentToken.type = .semicolon then p.advance
  else p

def parseRule (p : CSSParser) : Option (Option CSSStyleRule × CSSParser) :=
  if p.currentToken.type = .atKeyword then some (none, p.skipAtRule) else p.parseStyleRule

/-- Error recovery. -/
def recover (p : CSSParser) : CSSParser :=
  let p := p.skipWhile fun t => t.type != .leftCurly && t.type != .rightCurly
  if p.currentToken.type = .rightCurly then p.advance else p

def ruleTurn : CSSParser × List CSSStyleRule → Option (Turn (CSSParser × List CSSStyleRule) (List CSSStyleRule × CSSParser))
  | (p, rules) =>
    let p := p.skipWhitespace
    if p.currentToken.type = .eofToken then some (.done (rules, p))
    else do
      let (rule, p) ← p.parseRule
      match rule with
      | some rule => some (.again (p, rules ++ [rule]))
      | none => some (.again (p.recover, rules))

def parseRules (p : CSSParser) : Option (List CSSStyleRule × CSSParser) := loop ruleTurn (p.upcoming.length + 1) (p, [])

end CSSParser

/-- The next token is put to those before, until the end token comes. -/
def tokenTurn : CString × List SheetToken → Option (Turn (CString × List SheetToken) (List SheetToken))
  | (s, tokens) => do
    let (t, s) ← CSSTokenizer.nextToken s
    if h : t.type = .eofToken then some (.done tokens) else some (.again (s, tokens ++ [⟨t, h⟩]))

def tokens (css : CString) : Option (List SheetToken) := loop tokenTurn (css.length + 1) (css, [])

def CSSParser.parse (css : CString) : Option (List CSSStyleRule × CSSParser) := do
  let upcoming ← tokens css
  CSSParser.parseRules { upcoming, intact := true }

end RetroOs.Browser
