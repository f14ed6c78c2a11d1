import RetroOs.Browser.Tokenizer

/-! The HTML tree builder. The nodes of the document lie in a list, and a pointer is a place in it; a
null `current_node()` that is followed leaves a call without a result. -/
namespace RetroOs.Browser
open Lib

inductive NodeType where
  | element (tagName : List UInt8) (attributes : List Attr)
  | text (text : List UInt8)
  | document
  | documentType (name : List UInt8)
  deriving DecidableEq

structure Node where
  type : NodeType
  parent : Option Nat
  prevSibling : Option Nat
  nextSibling : Option Nat
  firstChild : Option Nat
  lastChild : Option Nat
  deriving DecidableEq

def Node.new (type : NodeType) : Node :=
  { type, parent := none, prevSibling := none, nextSibling := none, firstChild := none, lastChild := none }

def bytes (s : String) : List UInt8 := (CString.ofString s).map (·.val)

def setAttribute : List Attr → Attr → List Attr
  | [], a => [⟨a.name.take 63, a.value.take 255⟩]
  | b :: l, a => if b.name = a.name then { b with value := a.value.take 255 } :: l else b :: setAttribute l a

inductive InsertionMode where
  | initial | beforeHtml | beforeHead | inHead | afterHead | inBody | text | afterBody | afterAfterBody
  deriving DecidableEq

structure HTML5Parser where
  nodes : List Node
  openElements : List Nat
  mode : InsertionMode
  deriving DecidableEq

namespace HTML5Parser

def start : HTML5Parser :=
  { nodes := [Node.new .document], openElements := [0], mode := .initial }

def currentNode (p : HTML5Parser) : Option Nat := p.openElements.head?

def node (p : HTML5Parser) (i : Nat) : Node := p.nodes.getD i (Node.new .document)

def setNode (p : HTML5Parser) (i : Nat) (f : Node → Node) : HTML5Parser := { p with nodes := p.nodes.modify i f }

def setMode (p : HTML5Parser) (m : InsertionMode) : HTML5Parser := { p with mode := m }

def pushElement (p : HTML5Parser) (i : Nat) : HTML5Parser :=
  if p.openElements.length < 64 then { p with openElements := i :: p.openElements } else p

def popElement (p : HTML5Parser) : HTML5Parser := { p with openElements := p.openElements.tail }

def appendChild (p : HTML5Parser) (parent : Nat) (type : NodeType) : HTML5Parser :=
  let child := p.nodes.length
  let p' := { p with nodes := p.nodes ++ [{ Node.new type with parent := some parent }] }
  match (p.node parent).lastChild with
  | none => p'.setNode parent fun n => { n with firstChild := some child, lastChild := some child }
  | some last =>
    ((p'.setNode last fun n => { n with nextSibling := some child }).setNode child
      fun n => { n with prevSibling := some last }).setNode parent fun n => { n with lastChild := some child }

def insertElement (p : HTML5Parser) (t : Token) : Option HTML5Parser := do
  let parent ← p.currentNode
  let child := p.nodes.length
  some ((p.appendChild parent (.element (t.name.take 63) (t.attrs.foldl setAttribute []))).pushElement child)

def insertCharacter (p : HTML5Parser) (t : Token) : Option HTML5Parser := do
  let parent ← p.currentNode
  match (p.node parent).lastChild with
  | none => some (p.appendChild parent (.text t.data))
  | some last =>
    match (p.node last).type with
    | .text s => some (p.setNode last fun n => { n with type := .text (s ++ t.data.take 1) })
    | _ => some (p.appendChild parent (.text t.data))

def insertDoctype (p : HTML5Parser) (t : Token) : HTML5Parser := p.appendChild 0 (.documentType (t.name.take 63))

def tagName (p : HTML5Parser) (i : Nat) : Option (List UInt8) :=
  match (p.node i).type with
  | .element tag _ => some tag
  | _ => none

/-- `while (open_elements_count > 1)`: pop up to the element of the name. -/
def popThrough (p : HTML5Parser) (name : List UInt8) : List Nat → List Nat
  | i :: j :: l => if p.tagName i = some name then j :: l else popThrough p name (j :: l)
  | l => l

def headOpen (p : HTML5Parser) : Bool := p.openElements.any fun i => p.tagName i == some (bytes "head")

end HTML5Parser

def Token.isSpace (t : Token) : Bool :=
  t.type == .character && (t.data.head? == some 0x20 || t.data.head? == some 0x0A)

def Token.isStart (t : Token) (name : String) : Bool := t.type == .startTag && t.name == bytes name

def Token.isEnd (t : Token) (name : String) : Bool := t.type == .endTag && t.name == bytes name

def Token.implied (name : String) : Token := { Token.new .startTag with name := bytes name }

def voidElements : List (List UInt8) := ["br", "img", "input", "link", "meta", "hr"].map bytes

namespace HTML5Parser

def processToken (t : Token) : Nat → HTML5Parser → Tokenizer → Option (HTML5Parser × Tokenizer)
  | 0, _, _ => none
  | n + 1, p, tz =>
    match p.mode with
    | .initial =>
      if t.isSpace then some (p, tz)
      else if t.type = .doctype then some ((p.insertDoctype t).setMode .beforeHtml, tz)
      else processToken t n (p.setMode .beforeHtml) tz
    | .beforeHtml =>
      if t.isSpace then some (p, tz)
      else if t.isStart "html" then do
        some ((← p.insertElement t).setMode .beforeHead, tz)
      else do
        processToken t n ((← p.insertElement (.implied "html")).setMode .beforeHead) tz
    | .beforeHead =>
      if t.isSpace then some (p, tz)
      else if t.isStart "head" then do
        some ((← p.insertElement t).setMode .inHead, tz)
      else do
        processToken t n ((← p.insertElement (.implied "head")).setMode .inHead) tz
    | .inHead =>
      if t.isSpace then do
        some (← p.insertCharacter t, tz)
      else if t.isEnd "head" then some (p.popElement.setMode .afterHead, tz)
      else if t.isStart "title" then do
        some ((← p.insertElement t).setMode .text, tz.setState .rcdata)
      else if t.isStart "style" ∨ t.isStart "script" then do
        some ((← p.insertElement t).setMode .text, tz.setState .rawtext)
      else if t.isStart "meta" then do
        some ((← p.insertElement t).popElement, tz)
      else processToken t n (p.popElement.setMode .afterHead) tz
    | .afterHead =>
      if t.isSpace then do
        some (← p.insertCharacter t, tz)
      else if t.isStart "body" then do
        some ((← p.insertElement t).setMode .inBody, tz)
      else do
        processToken t n ((← p.insertElement (.implied "body")).setMode .inBody) tz
    | .inBody =>
      match t.type with
      | .character => do
        some (← p.insertCharacter t, tz)
      | .startTag => do
        let p ← p.insertElement t
        if t.isStart "script" ∨ t.isStart "style" then some (p.setMode .text, tz.setState .rawtext)
        else if t.name ∈ voidElements then some (p.popElement, tz)
        else some (p, tz)
      | .endTag =>
        if t.isEnd "body" then some (p.setMode .afterBody, tz)
        else some ({ p with openElements := p.popThrough t.name p.openElements }, tz)
      | _ => some (p, tz)
    | .text =>
      match t.type with
      | .character => do
        some (← p.insertCharacter t, tz)
      | .endTag =>
        let p := p.popElement
        some (p.setMode (if p.headOpen then .inHead else .inBody), tz.setState .data)
      | _ => some (p, tz)
    | .afterBody =>
      if t.isEnd "html" then some (p.setMode .afterAfterBody, tz)
      else some (p, tz)
    | .afterAfterBody => some (p, tz)

/-- `process_token` calls itself in the next mode only, from `initial` to `inBody`. -/
def process (p : HTML5Parser) (t : Token) (tz : Tokenizer) : Option (HTML5Parser × Tokenizer) := processToken t 6 p tz

/-- The loop of `parse`, in at most `n` turns, with the tokens it takes before the end. -/
def loop : Nat → HTML5Parser → Tokenizer → Option (HTML5Parser × List Token)
  | 0, _, _ => none
  | n + 1, p, tz => do
    let (t, tz) ← tz.nextToken
    if t.type = .eof then some (p, [])
    else
      let (p, tz) ← p.process t tz
      let (p, ts) ← loop n p tz
      some (p, t :: ts)

def parse (html : CString) : Option (HTML5Parser × List Token) := loop (html.length + 1) start (Tokenizer.new html)

end HTML5Parser
end RetroOs.Browser
