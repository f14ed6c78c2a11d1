import RetroOs.Browser.CssParser

/-! The places of a style sheet: what the parser makes of a token depends on the tokens before it through
one of these only, and so does the field that its text is copied to. -/
namespace RetroOs.Browser
open Lib

inductive Place where
  | start
  | atRule
  | block (level : Nat)
  /-- Behind what was no rule. -/
  | recovery
  | compound (bare : Bool)
  | marked (bare : Bool)
  /-- Behind a compound selector, behind a combinator, and behind a complex selector. -/
  | between
  | combined
  | alternative
  | comma
  | close
  /-- Before a declaration, and in it behind its name, behind the colon, behind the `!`, and behind the whole. -/
  | declarations
  | property
  | value
  | bang
  | declared
  deriving DecidableEq

namespace Place

def recoveryStep (t : CSSToken) : Place × Bool :=
  match t.type with
  | .leftCurly => (.declarations, true)
  | .rightCurly => (.start, true)
  | _ => (.recovery, true)

def closeStep (t : CSSToken) : Place × Bool :=
  match t.type with
  | .whitespace => (.close, true)
  | .leftCurly => (.declarations, true)
  | _ => recoveryStep t

def alternativeStep (t : CSSToken) : Place × Bool :=
  match t.type with
  | .comma => (.comma, true)
  | _ => closeStep t

def compoundStep (behind : CSSToken → Place × Bool) (bare : Bool) (t : CSSToken) : Place × Bool :=
  match t.type with
  | .ident | .hash => (.compound false, t.value.length < 64)
  | .colon => (.marked bare, true)
  | .delim => if t.isDelim dot then (.marked bare, true) else if t.isDelim star then (.compound false, true) else behind t
  | _ => behind t

def bareStep (t : CSSToken) : Place × Bool := compoundStep alternativeStep true t

def betweenStep (t : CSSToken) : Place × Bool :=
  if t.type = .whitespace then (.between, true)
  else if t.isCombinator then (.combined, true)
  else if CSSParser.startsCompound t then bareStep t
  else alternativeStep t

def selectorStep (bare : Bool) (t : CSSToken) : Place × Bool :=
  if bare then bareStep t else compoundStep betweenStep false t

def startStep (t : CSSToken) : Place × Bool :=
  match t.type with
  | .whitespace => (.start, true)
  | .atKeyword => (.atRule, true)
  | _ => selectorStep false t

def declaredStep (t : CSSToken) : Place × Bool :=
  match t.type with
  | .whitespace => (.declared, true)
  | .semicolon => (.declarations, true)
  | .rightCurly => (.start, true)
  | _ => startStep t

/-- The place behind the token, and whether the token's text is shorter than the field that it is copied to here. -/
def step (a : Place) (t : CSSToken) : Place × Bool :=
  match a with
  | .start => startStep t
  | .atRule =>
    match t.type with
    | .semicolon => (.recovery, true)
    | .leftCurly => (.block 0, true)
    | _ => (.atRule, true)
  | .block level =>
    match t.type with
    | .leftCurly => (.block (level + 1), true)
    | .rightCurly => (if level = 0 then .recovery else .block (level - 1), true)
    | _ => (.block level, true)
  | .recovery => recoveryStep t
  | .compound bare => selectorStep bare t
  | .marked bare => if t.type = .ident then (.compound false, t.value.length < 64) else selectorStep bare t
  | .between => betweenStep t
  | .combined => if t.type = .whitespace then (.combined, true) else bareStep t
  | .alternative => alternativeStep t
  | .comma => if t.type = .whitespace then (.comma, true) else selectorStep false t
  | .close => closeStep t
  | .declarations =>
    match t.type with
    | .whitespace => (.declarations, true)
    | .ident => (.property, t.value.length < 64)
    | _ => declaredStep t
  | .property =>
    match t.type with
    | .whitespace => (.property, true)
    | .colon => (.value, true)
    | _ => declaredStep t
  | .value =>
    match t.type with
    | .semicolon | .rightCurly => declaredStep t
    | .hash | .ident | .string => (.value, t.value.length < 128)
    | .dimension => (.value, t.unit.length < 16)
    | _ => if t.isDelim RetroOs.Browser.bang then (.bang, true) else (.value, true)
  | .bang => if t.type = .ident ∧ t.value = CString.ofString "important" then (.declared, true) else declaredStep t
  | .declared => declaredStep t

/-- From this place on, every text that is copied is shorter than its field. -/
def fits (a : Place) : List SheetToken → Bool
  | [] => true
  | t :: ts => (a.step t).2 && fits (a.step t).1 ts

end Place

def CSSParser.sound (p : CSSParser) (a : Place) : Bool := p.intact && a.fits p.upcoming

end RetroOs.Browser
