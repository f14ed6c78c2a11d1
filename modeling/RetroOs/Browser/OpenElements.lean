import RetroOs.Browser.DomTree
import RetroOs.Lib.Runs
import Mathlib.Data.List.Chain

/-! The stack of open elements over any sequence of tokens: its shape, and what a tag does to it. -/
namespace RetroOs.Browser
open Lib List Option Nat
/-- The modes that pass tags over. -/
def InsertionMode.Ignores : InsertionMode → Prop
  | .text | .afterBody | .afterAfterBody => True
  | _ => False

instance : DecidablePred InsertionMode.Ignores
  | .text | .afterBody | .afterAfterBody => instDecidableTrue
  | .initial | .beforeHtml | .beforeHead | .inHead | .afterHead | .inBody => instDecidableFalse

namespace HTML5Parser

def IsElement (p : HTML5Parser) (i : Nat) : Prop := ∃ tag attrs, (p.node i).type = .element tag attrs

def ElementChild (p : HTML5Parser) (i k : Nat) : Prop := p.IsElement i ∧ p.Child i k

structure Nested (p : HTML5Parser) : Prop where
  document : (p.nodes[0]?).map Node.type = some .document
  bottom : p.openElements.getLast? = some 0
  chain : p.openElements.IsChain p.ElementChild

/-- One call of `process_token` that leaves the token to the next mode: the tags that are implied before it. -/
def defer (t : Token) (p : HTML5Parser) : Option HTML5Parser :=
  match p.mode with
  | .initial => if t.isSpace ∨ t.type = .doctype then none else some (p.setMode .beforeHtml)
  | .beforeHtml =>
    if t.isSpace ∨ t.isStart "html" then none else (p.insertElement (.implied "html")).map fun q => q.setMode .beforeHead
  | .beforeHead =>
    if t.isSpace ∨ t.isStart "head" then none else (p.insertElement (.implied "head")).map fun q => q.setMode .inHead
  | .inHead =>
    if t.isSpace ∨ t.isEnd "head" ∨ t.isStart "title" ∨ (t.isStart "style" ∨ t.isStart "script") ∨ t.isStart "meta" then none
    else some (p.popElement.setMode .afterHead)
  | .afterHead =>
    if t.isSpace ∨ t.isStart "body" then none else (p.insertElement (.implied "body")).map fun q => q.setMode .inBody
  | _ => none

/-- The builder in which a token is handled, after at most `n` such calls. -/
def handled (t : Token) : Nat → HTML5Parser → HTML5Parser
  | 0, p => p
  | n + 1, p => (p.defer t).elim p (handled t n)

def IsOpen (p : HTML5Parser) (name : List UInt8) : Prop := ∃ i ∈ p.openElements, p.tagName i = some name

instance (p : HTML5Parser) (name : List UInt8) : Decidable (p.IsOpen name) := inferInstanceAs (Decidable (∃ i ∈ p.openElements, _))

/-- The stack without the nearest open element of the name and those above it. -/
def closed (p : HTML5Parser) (name : List UInt8) : List Nat :=
  if p.IsOpen name then (p.openElements.dropWhile fun i => p.tagName i ≠ some name).tail else p.openElements

section
local instance lawfulBytes : LawfulBEq (List UInt8) := instLawfulBEq

/-- What a tag has to do, from the builder that handles it to the next one. -/
def TagLaw (p : HTML5Parser) (t : Token) (q : HTML5Parser) : Prop :=
  match t.type with
  | .startTag =>
    if t.name ∈ voidElements then q.openElements = p.openElements
    else ∃ i k, p.currentNode = some k ∧ p.nodes.length ≤ i ∧ q.openElements = i :: p.openElements ∧ q.ElementChild i k ∧
      q.tagName i = some (t.name.take 63)
  | .endTag => q.openElements = p.closed t.name
  | _ => True

def Regular (p : HTML5Parser) (t : Token) : Prop :=
  match t.type with
  | .startTag =>
    if t.name ∈ voidElements then p.mode.Ignores ∨ p.openElements.length < 64
    else ¬ p.mode.Ignores ∧ p.openElements.length < 64
  | .endTag =>
    match p.mode with
    | .inHead | .text => p.currentNode.bind p.tagName = some t.name
    | .inBody => if t.name = bytes "body" then ¬ p.IsOpen t.name else p.IsOpen t.name ∨ p.openElements.length = 1
    | _ => ¬ p.IsOpen t.name
  | _ => True
end

/-- A token from anywhere; the tokenizer is told its next state only. -/
def take (s : HTML5Parser × Tokenizer) (t : Token) : HTML5Parser × Tokenizer := (s.1.process t s.2).getD s

/-- After the tags that are implied a tag does what it has to, and the stack keeps its shape. -/
def Lawful (s : HTML5Parser × Tokenizer) (t : Token) : Prop :=
  (take s t).1.Nested ∧ TagLaw (handled t 5 s.1) t (take s t).1

section
variable {p q : HTML5Parser} {t : Token} {tz : Tokenizer} {i k : Nat} {name : List UInt8} {l : List Nat}
  {m : InsertionMode}

theorem sameLinks_of_nodes (h : q.nodes = p.nodes) : SameLinks p q := by
  have hnode : ∀ i, q.node i = p.node i := fun i => by rw [node, node, h]
  exact ⟨congrArg length h, fun i => congrArg _ (hnode i), fun i => congrArg _ (hnode i), fun i => congrArg _ (hnode i),
    fun i => congrArg _ (hnode i)⟩

structure Keeps (p q : HTML5Parser) : Prop where
  linked : q.Linked
  child : ∀ i k, p.ElementChild i k → q.ElementChild i k

theorem Keeps.of_nodes (hl : p.Linked) (h : q.nodes = p.nodes) : Keeps p q := by
  have hs := sameLinks_of_nodes h
  refine ⟨hs.linked hl, fun i k hc => ⟨?_, hs.child hc.2⟩⟩
  rw [IsElement, node, h]
  exact hc.1

theorem Keeps.trans {r : HTML5Parser} (h : Keeps p q) (h' : Keeps q r) : Keeps p r :=
  ⟨h'.linked, fun i k hc => h'.child i k (h.child i k hc)⟩

theorem Appended.keeps {ty : NodeType} (h : Appended p k ty q) (hl : p.Linked) (hk : k < p.nodes.length) : Keeps p q := by
  refine ⟨h.linked hl hk, fun i k hc => ⟨?_, h.child hl hc.2⟩⟩
  rw [IsElement, h.type, if_neg (Nat.ne_of_lt hc.2.lt)]
  exact hc.1

/-- What holds of the builder between any two tokens. -/
structure Built (p : HTML5Parser) : Prop where
  steady : p.Steady
  linked : p.Linked
  chain : p.openElements.IsChain p.ElementChild

theorem Built.nested (h : p.Built) : p.Nested := ⟨h.steady.document, h.steady.bottom, h.chain⟩

theorem start_built : start.Built := ⟨start_steady, start_linked, List.IsChain.singleton 0⟩

theorem Keeps.chain (h : Keeps p q) (hc : p.openElements.IsChain p.ElementChild) (hl : l <:+ p.openElements) :
    l.IsChain q.ElementChild := (hc.suffix hl).imp fun i k => h.child i k

theorem Built.current (h : p.Built) : ∃ k, p.currentNode = some k ∧ k < p.nodes.length := by
  have hb := h.steady.bottom
  have hdoc : 0 < p.nodes.length := by
    obtain ⟨n, hn, -⟩ := map_eq_some_iff.mp h.steady.document
    exact (List.getElem?_eq_some_iff.mp hn).1
  have hchain := h.chain
  rw [currentNode]
  cases hopen : p.openElements with
  | nil =>
    rw [hopen] at hb
    cases hb
  | cons i l =>
    refine ⟨i, rfl, ?_⟩
    rw [hopen] at hb hchain
    cases l with
    | nil =>
      cases hb
      exact hdoc
    | cons j l => exact (isChain_cons_cons.mp hchain).1.2.lt

theorem insertElement_built (h : p.Built) (t : Token) : ∃ q, p.insertElement t = some q ∧ (∀ m, (q.setMode m).Built) ∧ q.mode = p.mode ∧
    min 64 (p.openElements.length + 1) ≤ q.openElements.length ∧
      q.openElements = (if p.openElements.length < 64 then p.nodes.length :: p.openElements else p.openElements) ∧
      ∃ k, p.currentNode = some k ∧ q.ElementChild p.nodes.length k ∧ q.tagName p.nodes.length = some (t.name.take 63) := by
  obtain ⟨k, hk, hlt⟩ := h.current
  have happ := appendChild_appended h.linked hlt (.element (t.name.take 63) (t.attrs.foldl setAttribute []))
  have hkeeps := happ.keeps h.linked hlt
  obtain ⟨q, hq, hdoc, hb, hmin, hmode⟩ := insertElement_grown h.steady t
  have hset : q = (p.appendChild k (.element (t.name.take 63) (t.attrs.foldl setAttribute []))).pushElement p.nodes.length := by
    have hinsert : p.insertElement t =
        some ((p.appendChild k (.element (t.name.take 63) (t.attrs.foldl setAttribute []))).pushElement p.nodes.length) := by
      rw [insertElement, hk]
      rfl
    exact some.inj (hq.symm.trans hinsert)
  have hnodes : q.nodes = (p.appendChild k (.element (t.name.take 63) (t.attrs.foldl setAttribute []))).nodes := by
    rw [hset, pushElement]
    split <;> rfl
  have hopen : q.openElements = if p.openElements.length < 64 then p.nodes.length :: p.openElements else p.openElements := by
    rw [hset, pushElement, happ.openElements]
    split <;> simp only [happ.openElements]
  have hkept : Keeps p q := hkeeps.trans (.of_nodes hkeeps.linked hnodes)
  have htype : (q.node p.nodes.length).type = .element (t.name.take 63) (t.attrs.foldl setAttribute []) := by
    rw [node, hnodes]
    exact (happ.type _).trans (if_pos rfl)
  have hnew : q.ElementChild p.nodes.length k :=
    ⟨⟨_, _, htype⟩, (sameLinks_of_nodes hnodes).child (happ.newChild h.linked hlt)⟩
  have hpos := h.steady.pos
  have hchain : q.openElements.IsChain q.ElementChild := by
    have hold : p.openElements.IsChain q.ElementChild := hkept.chain h.chain suffix_rfl
    rw [hopen]
    split
    · refine isChain_cons.mpr ⟨fun j hj => ?_, hold⟩
      rw [currentNode] at hk
      cases hk.symm.trans hj
      exact hnew
    · exact hold
  refine ⟨q, hq, fun m => ⟨⟨hdoc, hb, fun _ => by simp only [setMode]; omega⟩, ?_, ?_⟩, hmode, hmin, hopen, k, hk, hnew, ?_⟩
  · exact (sameLinks_of_nodes (p := q) (q := q.setMode m) rfl).linked hkept.linked
  · exact hchain.imp fun i j hij => (Keeps.of_nodes (q := q.setMode m) hkept.linked rfl).child i j hij
  · rw [tagName, htype]

theorem Built.popped (h : p.Built) (hl : l <:+ p.openElements) (hb : l.getLast? = some 0)
    (hm : m = .inHead ∨ m = .text → 2 ≤ l.length) : Built { p with openElements := l, mode := m } :=
  ⟨⟨h.steady.document, hb, hm⟩,
    (sameLinks_of_nodes (p := p) (q := { p with openElements := l, mode := m }) rfl).linked h.linked,
    (Keeps.of_nodes (p := p) (q := { p with openElements := l, mode := m }) h.linked rfl).chain h.chain hl⟩

theorem Built.setMode (h : p.Built) (hm : m ≠ .inHead ∧ m ≠ .text) : (p.setMode m).Built :=
  h.popped suffix_rfl h.steady.bottom fun hm' => (hm'.elim hm.1 hm.2).elim

theorem Built.grown (h : p.Built) (hg : Grown p q) (hk : Keeps p q) : q.Built := by
  refine ⟨hg.steady h.steady, hk.linked, ?_⟩
  rw [hg.openElements]
  exact hk.chain h.chain suffix_rfl

theorem Built.zero_lt (h : p.Built) : 0 < p.nodes.length := by
  obtain ⟨n, hn, -⟩ := map_eq_some_iff.mp h.steady.document
  exact (List.getElem?_eq_some_iff.mp hn).1

theorem Built.insertDoctype (h : p.Built) (t : Token) : (p.insertDoctype t).Built :=
  h.grown (appendChild_grown h.steady.document 0 _) ((appendChild_appended h.linked h.zero_lt _).keeps h.linked h.zero_lt)

theorem Built.insertCharacter (h : p.Built) (t : Token) : ∃ q, p.insertCharacter t = some q ∧ q.Built ∧
    q.openElements = p.openElements ∧ q.mode = p.mode := by
  obtain ⟨q, hq, hg⟩ := insertCharacter_grown h.steady (t := t)
  refine ⟨q, hq, h.grown hg ?_, hg.openElements, hg.mode⟩
  obtain ⟨k, hk, hlt⟩ := h.current
  rw [HTML5Parser.insertCharacter, hk, bind_eq_bind, bind_some] at hq
  have happend : Keeps p (p.appendChild k (.text t.data)) := (appendChild_appended h.linked hlt _).keeps h.linked hlt
  split at hq
  · cases hq
    exact happend
  · next last _ =>
    split at hq
    · next s hs =>
      cases hq
      have hsame : SameLinks p (p.setNode last fun n => { n with type := .text (s ++ t.data.take 1) }) :=
        sameLinks_setNode (fun _ => .text (s ++ t.data.take 1)) last
      refine ⟨hsame.linked h.linked, fun i j hij => ⟨?_, hsame.child hij.2⟩⟩
      -- a text is no element
      obtain ⟨⟨tag, attrs, htype⟩, -⟩ := hij
      refine ⟨tag, attrs, ?_⟩
      by_cases hlast : last < p.nodes.length
      · rw [node_setNode hlast, if_neg]
        · exact htype
        · rintro rfl
          cases hs.symm.trans htype
      · rw [HTML5Parser.setNode, modify_eq_self (Nat.le_of_not_lt hlast)]
        exact htype
    · cases hq
      exact happend

private theorem defer_built (h : p.Built) (hd : p.defer t = some q) :
    q.Built ∧ depth q.mode < depth p.mode ∧ ∀ n, processToken t (n + 1) p tz = processToken t n q tz := by
  have himplied : ∀ name : String, ∀ m : InsertionMode,
      (p.insertElement (.implied name)).map (fun q => q.setMode m) = some q → q.Built ∧ q.mode = m := by
    intro name m hm
    obtain ⟨r, hr, hset, -⟩ := insertElement_built h (.implied name)
    rw [hr] at hm
    cases hm
    exact ⟨hset m, rfl⟩
  rw [defer] at hd
  cases hmode : p.mode with
  | initial =>
    rw [hmode] at hd
    dsimp only at hd
    split at hd
    · cases hd
    · next hnot =>
      cases hd
      obtain ⟨hspace, hdoc⟩ := not_or.mp hnot
      refine ⟨h.setMode (by decide), lt_succ_self 5, fun n => ?_⟩
      rw [processToken, hmode]
      dsimp only
      rw [if_neg hspace, if_neg hdoc]
  | beforeHtml =>
    rw [hmode] at hd
    dsimp only at hd
    split at hd
    · cases hd
    · next hnot =>
      obtain ⟨hspace, hstart⟩ := not_or.mp hnot
      obtain ⟨hq, hqm⟩ := himplied _ _ hd
      refine ⟨hq, by rw [hqm]; exact lt_succ_self 4, fun n => ?_⟩
      obtain ⟨r, hr, rfl⟩ := map_eq_some_iff.mp hd
      rw [processToken, hmode]
      dsimp only
      rw [if_neg hspace, if_neg hstart, hr]
      rfl
  | beforeHead =>
    rw [hmode] at hd
    dsimp only at hd
    split at hd
    · cases hd
    · next hnot =>
      obtain ⟨hspace, hstart⟩ := not_or.mp hnot
      obtain ⟨hq, hqm⟩ := himplied _ _ hd
      refine ⟨hq, by rw [hqm]; exact lt_succ_self 3, fun n => ?_⟩
      obtain ⟨r, hr, rfl⟩ := map_eq_some_iff.mp hd
      rw [processToken, hmode]
      dsimp only
      rw [if_neg hspace, if_neg hstart, hr]
      rfl
  | inHead =>
    rw [hmode] at hd
    dsimp only at hd
    split at hd
    · cases hd
    · next hnot =>
      cases hd
      obtain ⟨hspace, hend, htitle, hraw, hmeta⟩ : _ ∧ _ ∧ _ ∧ _ ∧ _ := by simpa only [not_or] using hnot
      have h2 := h.steady.above (.inl hmode)
      refine ⟨h.popped (tail_suffix _) (popElement_bottom h.steady.bottom h2) fun hm => absurd hm (by decide), lt_succ_self 2, fun n => ?_⟩
      rw [processToken, hmode]
      dsimp only
      rw [if_neg hspace, if_neg hend, if_neg htitle, if_neg (not_or.mpr hraw), if_neg hmeta]
  | afterHead =>
    rw [hmode] at hd
    dsimp only at hd
    split at hd
    · cases hd
    · next hnot =>
      obtain ⟨hspace, hstart⟩ := not_or.mp hnot
      obtain ⟨hq, hqm⟩ := himplied _ _ hd
      refine ⟨hq, by rw [hqm]; exact lt_succ_self 1, fun n => ?_⟩
      obtain ⟨r, hr, rfl⟩ := map_eq_some_iff.mp hd
      rw [processToken, hmode]
      dsimp only
      rw [if_neg hspace, if_neg hstart, hr]
      rfl
  | inBody => rw [hmode] at hd; cases hd
  | text => rw [hmode] at hd; cases hd
  | afterBody => rw [hmode] at hd; cases hd
  | afterAfterBody => rw [hmode] at hd; cases hd

private theorem depth_pos (m : InsertionMode) : 0 < depth m := by cases m <;> decide

theorem processToken_handled {n : Nat} (h : p.Built) (hn : depth p.mode ≤ n + 1) :
    (handled t n p).Built ∧ (handled t n p).defer t = none ∧
      ∃ m, processToken t (n + 1) p tz = processToken t (m + 1) (handled t n p) tz := by
  induction n generalizing p with
  | zero =>
    refine ⟨h, ?_, 0, rfl⟩
    rw [handled]
    cases hd : p.defer t with
    | none => rfl
    | some q =>
      obtain ⟨-, hdepth, -⟩ := @defer_built p q t tz h hd
      have hpos := depth_pos q.mode
      omega
  | succ n ih =>
    rw [handled]
    cases hd : p.defer t with
    | none => exact ⟨h, hd, n + 1, rfl⟩
    | some q =>
      obtain ⟨hq, hdepth, hsame⟩ := defer_built h hd
      rw [elim_some, hsame]
      exact ih hq (by omega)

theorem isStart_iff {name : String} : t.isStart name = true ↔ t.type = .startTag ∧ t.name = bytes name := by
  rw [Token.isStart, Bool.and_eq_true, beq_iff_eq, beq_iff_eq]

theorem isEnd_iff {name : String} : t.isEnd name = true ↔ t.type = .endTag ∧ t.name = bytes name := by
  rw [Token.isEnd, Bool.and_eq_true, beq_iff_eq, beq_iff_eq]

theorem isSpace_type (h : t.isSpace = true) : t.type = .character := by
  rw [Token.isSpace, Bool.and_eq_true, beq_iff_eq] at h
  exact h.1

private theorem length_tail_dropWhile {f : Nat → Bool} (h : ∃ x ∈ l, f x = false) : (l.dropWhile f).tail.length < l.length := by
  induction l with
  | nil =>
    obtain ⟨x, hx, -⟩ := h
    cases hx
  | cons y l ih =>
    rw [dropWhile_cons]
    split
    · next hy =>
      have hrest : ∃ x ∈ l, f x = false := by
        obtain ⟨x, hx, hfx⟩ := h
        rcases mem_cons.mp hx with rfl | hx
        · cases hy.symm.trans hfx
        · exact ⟨x, hx, hfx⟩
      exact lt_succ_of_lt (ih hrest)
    · exact lt_succ_self _

private theorem closed_length (h : p.IsOpen name) : (p.closed name).length < p.openElements.length := by
  rw [closed, if_pos h]
  obtain ⟨i, hi, htag⟩ := h
  exact length_tail_dropWhile ⟨i, hi, decide_eq_false (not_not.mpr htag)⟩

private theorem eq_closed_iff : p.openElements = p.closed name ↔ ¬ p.IsOpen name := by
  constructor
  · intro h ho
    have hlt := closed_length ho
    rw [← h] at hlt
    exact lt_irrefl _ hlt
  · intro h
    rw [closed, if_neg h]

private theorem tail_eq_closed_iff (h : p.openElements = i :: l) : l = p.closed name ↔ p.tagName i = some name := by
  constructor
  · intro heq
    by_contra htag
    by_cases ho : p.IsOpen name
    · rw [closed, if_pos ho, h, dropWhile_cons, if_pos (decide_eq_true htag)] at heq
      have hrest : ∃ x ∈ l, decide (p.tagName x ≠ some name) = false := by
        obtain ⟨j, hj, hname⟩ := ho
        rw [h] at hj
        rcases mem_cons.mp hj with rfl | hj
        · exact absurd hname htag
        · exact ⟨j, hj, decide_eq_false (not_not.mpr hname)⟩
      have hshort := length_tail_dropWhile hrest
      rw [← heq] at hshort
      exact lt_irrefl _ hshort
    · rw [closed, if_neg ho, h] at heq
      have hlen := congrArg length heq
      rw [length_cons] at hlen
      omega
  · intro htag
    rw [closed, if_pos ⟨i, h ▸ mem_cons_self, htag⟩, h, dropWhile_cons, if_neg (by simpa using htag), tail_cons]

private theorem popThrough_eq (p : HTML5Parser) (name : List UInt8) (hb : l.getLast? = some i) (hi : p.tagName i ≠ some name) :
    p.popThrough name l =
      if ∃ j ∈ l, p.tagName j = some name then (l.dropWhile fun j => p.tagName j ≠ some name).tail else [i] := by
  induction l with
  | nil => cases hb
  | cons j l ih =>
    cases l with
    | nil =>
      cases hb
      rw [if_neg (by simpa using hi)]
      rfl
    | cons k l =>
      rw [popThrough]
      split
      · next htag =>
        rw [if_pos ⟨j, mem_cons_self, htag⟩, dropWhile_cons, if_neg (by simpa using htag), tail_cons]
      · next htag =>
        rw [ih hb]
        refine if_congr ?_ (by rw [dropWhile_cons (x := j), if_pos (decide_eq_true htag)]) rfl
        simp only [mem_cons, exists_eq_or_imp, htag, false_or]

private theorem tagName_zero (h : p.Built) : p.tagName 0 = none := by
  obtain ⟨d, hd, htype⟩ := map_eq_some_iff.mp h.steady.document
  rw [tagName, node, getD_eq_getElem?_getD, hd, getD_some, htype]

private theorem popThrough_eq_closed_iff (h : p.Built) :
    p.popThrough name p.openElements = p.closed name ↔ p.IsOpen name ∨ p.openElements.length = 1 := by
  rw [popThrough_eq p name h.steady.bottom (by rw [tagName_zero h]; exact not_mem_none _), closed]
  by_cases ho : p.IsOpen name
  · rw [if_pos (show ∃ j ∈ p.openElements, p.tagName j = some name from ho), if_pos ho]
    exact iff_of_true rfl (.inl ho)
  · rw [if_neg (show ¬ ∃ j ∈ p.openElements, p.tagName j = some name from ho), if_neg ho]
    constructor
    · intro heq
      exact .inr (by rw [← heq]; rfl)
    · intro hor
      obtain ⟨j, hj⟩ := length_eq_one_iff.mp (hor.resolve_left ho)
      have hb := h.steady.bottom
      rw [hj] at hb ⊢
      cases hb
      rfl

private theorem insert_law (h : p.Built) (htype : t.type = .startTag) (hv : t.name ∉ voidElements)
    (hq : p.insertElement t = some q) : TagLaw p t (q.setMode m) ↔ p.openElements.length < 64 := by
  obtain ⟨r, hr, hset, -, -, hopen, k, hk, hchild, htag⟩ := insertElement_built h t
  obtain rfl := Option.some.inj (hr.symm.trans hq)
  simp only [TagLaw, htype, hv, if_false]
  have hsame : (r.setMode m).openElements = r.openElements := rfl
  rw [hsame, hopen]
  constructor
  · rintro ⟨i, -, -, -, hcons, -⟩
    by_contra hfull
    rw [if_neg hfull] at hcons
    exact List.cons_ne_self i _ hcons.symm
  · intro hfree
    have hlinked : r.Linked := (sameLinks_of_nodes (p := r.setMode m) (q := r) rfl).linked (hset m).linked
    rw [if_pos hfree]
    exact ⟨_, k, hk, Nat.le_refl _, rfl, (Keeps.of_nodes (q := r.setMode m) hlinked rfl).child _ _ hchild, htag⟩

private theorem void_law (h : p.Built) (htype : t.type = .startTag) (hv : t.name ∈ voidElements) (hq : p.insertElement t = some q) :
    TagLaw p t q.popElement ↔ p.openElements.length < 64 := by
  obtain ⟨r, hr, -, -, -, hopen, -⟩ := insertElement_built h t
  cases hr.symm.trans hq
  simp only [TagLaw, htype, hv, if_true, popElement]
  rw [hopen]
  split
  · next hfree => exact iff_of_true rfl hfree
  · next hfull =>
    refine iff_of_false (fun heq => ?_) hfull
    have hlen := congrArg length heq
    rw [length_tail] at hlen
    omega

private theorem currentNode_bind (h : p.Built) : ∃ i l, p.openElements = i :: l ∧ p.currentNode.bind p.tagName = p.tagName i := by
  cases hopen : p.openElements with
  | nil =>
    have hb := h.steady.bottom
    rw [hopen] at hb
    cases hb
  | cons i l => exact ⟨i, l, rfl, by rw [currentNode, hopen]; rfl⟩

private theorem pop_law (h : p.Built) (htype : t.type = .endTag) (hopen : q.openElements = p.openElements.tail) :
    TagLaw p t q ↔ p.currentNode.bind p.tagName = some t.name := by
  obtain ⟨i, l, hil, hbind⟩ := currentNode_bind h
  simp only [TagLaw, htype]
  rw [hopen, hbind, ← tail_eq_closed_iff hil, hil, tail_cons]

theorem ignored_law (hm : p.mode = .afterBody ∨ p.mode = .afterAfterBody) (hopen : q.openElements = p.openElements) :
    TagLaw p t q ↔ p.Regular t := by
  have hig : p.mode.Ignores := by rcases hm with hm | hm <;> rw [hm] <;> trivial
  rw [TagLaw, Regular]
  cases t.type with
  | startTag =>
    by_cases hv : t.name ∈ voidElements
    · rw [if_pos hv, if_pos hv]
      exact iff_of_true hopen (.inl hig)
    · rw [if_neg hv, if_neg hv]
      refine iff_of_false ?_ fun hr => hr.1 hig
      rintro ⟨i, -, -, -, hcons, -⟩
      exact cons_ne_self i _ (hcons.symm.trans hopen)
  | endTag =>
    rw [hopen, eq_closed_iff]
    rcases hm with hm | hm <;> rw [hm]
  | _ => exact Iff.rfl

/-- A token is taken: the builder is sound again, and the law holds just where the condition does. -/
def Handles (p : HTML5Parser) (t : Token) (r : Option (HTML5Parser × Tokenizer)) : Prop :=
  ∃ q tz', r = some (q, tz') ∧ q.Built ∧ (TagLaw p t q ↔ p.Regular t)

theorem handles_character (h : p.Built) (hc : t.type = .character) : Handles p t ((p.insertCharacter t).bind fun q => some (q, tz)) := by
  obtain ⟨q, hq, hb, -, -⟩ := h.insertCharacter t
  rw [hq]
  refine ⟨q, tz, rfl, hb, ?_⟩
  rw [TagLaw, Regular, hc]

theorem handles_space (h : p.Built) (hs : t.isSpace = true) : Handles p t (some (p, tz)) := by
  refine ⟨p, tz, rfl, h, ?_⟩
  rw [TagLaw, Regular, isSpace_type hs]

theorem handles_insert (h : p.Built) (htype : t.type = .startTag) (hv : t.name ∉ voidElements) (hm : ¬ p.mode.Ignores)
    (m : InsertionMode) (tz' : Tokenizer) : Handles p t ((p.insertElement t).bind fun q => some (q.setMode m, tz')) := by
  obtain ⟨q, hq, hset, -⟩ := insertElement_built h t
  rw [hq]
  refine ⟨_, tz', rfl, hset m, (insert_law h htype hv hq).trans ?_⟩
  simp only [Regular, htype, hv, if_false]
  exact (and_iff_right hm).symm

private theorem handles_void (h : p.Built) (htype : t.type = .startTag) (hv : t.name ∈ voidElements) (hm : ¬ p.mode.Ignores)
    (hone : p.mode = .inHead → 2 ≤ p.openElements.length) : Handles p t ((p.insertElement t).bind fun q => some (q.popElement, tz)) := by
  obtain ⟨q, hq, hset, hmode, hmin, -⟩ := insertElement_built h t
  have hpos := h.steady.pos
  have hq' : q.Built := hset q.mode
  have htail : q.popElement.openElements.length = q.openElements.length - 1 := length_tail
  rw [hq]
  refine ⟨q.popElement, tz, rfl, ?_, (void_law h htype hv hq).trans ?_⟩
  · refine hq'.popped (m := q.mode) (tail_suffix _) (popElement_bottom hq'.steady.bottom (by omega)) fun hmode' => ?_
    rw [hmode] at hmode'
    rcases hmode' with hhead | htext
    · have htwo := hone hhead
      rw [length_tail]
      omega
    · rw [htext] at hm
      exact absurd trivial hm
  · simp only [Regular, htype, hv, if_true]
    exact (or_iff_right hm).symm

theorem not_void {name : String} (hs : t.isStart name = true) (hn : bytes name ∉ voidElements) : t.type = .startTag ∧ t.name ∉ voidElements :=
  ⟨(isStart_iff.mp hs).1, (isStart_iff.mp hs).2 ▸ hn⟩

private theorem handled_inHead (h : p.Built) (hmode : p.mode = .inHead) (hd : p.defer t = none) (n : Nat) :
    Handles p t (processToken t (n + 1) p tz) := by
  have h2 := h.steady.above (.inl hmode)
  have hig : ¬ p.mode.Ignores := by rw [hmode]; exact id
  rw [defer, hmode] at hd
  rw [processToken, hmode]
  dsimp only at hd ⊢
  split
  · next hs => exact handles_character h (isSpace_type hs)
  · split
    · next hend =>
      refine ⟨_, tz, rfl, ?_, (pop_law h (isEnd_iff.mp hend).1 rfl).trans ?_⟩
      · exact h.popped (tail_suffix _) (popElement_bottom h.steady.bottom h2) fun hm => absurd hm (by decide)
      · simp only [Regular, (isEnd_iff.mp hend).1, hmode]
    · split
      · next hs =>
        obtain ⟨htype, hv⟩ := not_void hs (by decide +kernel)
        exact handles_insert h htype hv hig _ _
      · split
        · next hs =>
          obtain ⟨htype, hv⟩ : t.type = .startTag ∧ t.name ∉ voidElements := by
            rcases hs with hs | hs
            · exact not_void hs (by decide +kernel)
            · exact not_void hs (by decide +kernel)
          exact handles_insert h htype hv hig _ _
        · split
          · next hs =>
            have hv : t.name ∈ voidElements := (isStart_iff.mp hs).2 ▸ (by decide +kernel)
            exact handles_void h (isStart_iff.mp hs).1 hv hig fun _ => h2
          · -- the other tokens are left to the next mode
            next hspace hend htitle hraw hmeta =>
            rw [if_neg (by simp only [not_or]; exact ⟨hspace, hend, htitle, not_or.mp hraw, hmeta⟩)] at hd
            cases hd

private theorem handled_inBody (h : p.Built) (hmode : p.mode = .inBody) (n : Nat) : Handles p t (processToken t (n + 1) p tz) := by
  have hig : ¬ p.mode.Ignores := by rw [hmode]; exact id
  rw [processToken, hmode]
  cases htype : t.type with
  | character => exact handles_character h htype
  | startTag =>
    by_cases hraw : t.isStart "script" = true ∨ t.isStart "style" = true
    · have hv : t.name ∉ voidElements := by
        rcases hraw with hs | hs
        · exact (not_void hs (by decide +kernel)).2
        · exact (not_void hs (by decide +kernel)).2
      simp only [if_pos hraw]
      exact handles_insert h htype hv hig _ _
    · simp only [if_neg hraw]
      by_cases hv : t.name ∈ voidElements
      · simp only [if_pos hv]
        exact handles_void h htype hv hig fun hhead => by rw [hmode] at hhead; cases hhead
      · simp only [if_neg hv]
        obtain ⟨q, hq, hset, hqm, -⟩ := insertElement_built h t
        have hi := handles_insert h htype hv hig p.mode tz
        rw [hq] at hi ⊢
        have hsame : q.setMode p.mode = q := by rw [← hqm]; rfl
        rw [bind_some, hsame] at hi
        exact hi
  | endTag =>
    by_cases hbody : t.name = bytes "body"
    · rw [if_pos (isEnd_iff.mpr ⟨htype, hbody⟩)]
      refine ⟨_, tz, rfl, h.setMode (by decide), ?_⟩
      simp only [TagLaw, Regular, htype, hmode, if_pos hbody]
      exact eq_closed_iff
    · rw [if_neg fun hend => hbody (isEnd_iff.mp hend).2]
      refine ⟨_, tz, rfl, ?_, ?_⟩
      · have hsuffix : p.popThrough t.name p.openElements <:+ p.openElements := by
          rw [popThrough_eq p t.name h.steady.bottom (by rw [tagName_zero h]; exact not_mem_none _)]
          split
          · exact (tail_suffix _).trans (dropWhile_suffix _)
          · obtain ⟨l, hl⟩ := getLast?_eq_some_iff.mp h.steady.bottom
            exact ⟨l, hl.symm⟩
        exact h.popped (m := .inBody) hsuffix (p.popThrough_bottom t.name h.steady.bottom) fun hm => absurd hm (by decide)
      · simp only [TagLaw, Regular, htype, hmode, if_neg hbody]
        exact popThrough_eq_closed_iff h
  | doctype => exact ⟨p, tz, rfl, h, by rw [TagLaw, Regular, htype]⟩
  | comment => exact ⟨p, tz, rfl, h, by rw [TagLaw, Regular, htype]⟩
  | eof => exact ⟨p, tz, rfl, h, by rw [TagLaw, Regular, htype]⟩

private theorem handled_text (h : p.Built) (hmode : p.mode = .text) (n : Nat) : Handles p t (processToken t (n + 1) p tz) := by
  have hig : p.mode.Ignores := by rw [hmode]; trivial
  have hb := popElement_bottom h.steady.bottom (h.steady.above (.inr hmode))
  rw [processToken, hmode]
  cases htype : t.type with
  | character => exact handles_character h htype
  | endTag =>
    refine ⟨_, _, rfl, h.popped (tail_suffix _) hb fun hm => ?_, (pop_law h htype rfl).trans ?_⟩
    · apply two_le_of_headOpen (p := p.popElement) h.steady.document hb
      by_contra hhead
      rw [Bool.not_eq_true] at hhead
      rw [hhead] at hm
      exact absurd hm (by decide)
    · simp only [Regular, htype, hmode]
  | startTag =>
    refine ⟨p, tz, rfl, h, ?_⟩
    simp only [TagLaw, Regular, htype]
    by_cases hv : t.name ∈ voidElements
    · rw [if_pos hv, if_pos hv]
      exact iff_of_true trivial (.inl hig)
    · rw [if_neg hv, if_neg hv]
      refine iff_of_false ?_ fun hr => hr.1 hig
      rintro ⟨i, -, -, -, hcons, -⟩
      exact cons_ne_self i _ hcons.symm
  | doctype => exact ⟨p, tz, rfl, h, by rw [TagLaw, Regular, htype]⟩
  | comment => exact ⟨p, tz, rfl, h, by rw [TagLaw, Regular, htype]⟩
  | eof => exact ⟨p, tz, rfl, h, by rw [TagLaw, Regular, htype]⟩

private theorem handled_spec (h : p.Built) (hd : p.defer t = none) (n : Nat) : Handles p t (processToken t (n + 1) p tz) := by
  cases hmode : p.mode with
  | inHead => exact handled_inHead h hmode hd n
  | inBody => exact handled_inBody h hmode n
  | text => exact handled_text h hmode n
  | initial =>
    rw [defer, hmode] at hd
    rw [processToken, hmode]
    dsimp only at hd ⊢
    split
    · next hs => exact handles_space h hs
    · next hs =>
      split
      · next hdoc =>
        refine ⟨_, tz, rfl, (h.insertDoctype t).setMode (by decide), ?_⟩
        rw [TagLaw, Regular, hdoc]
      · next hdoc =>
        rw [if_neg (not_or.mpr ⟨hs, hdoc⟩)] at hd
        cases hd
  | beforeHtml =>
    have hig : ¬ p.mode.Ignores := by rw [hmode]; exact id
    rw [defer, hmode] at hd
    rw [processToken, hmode]
    dsimp only at hd ⊢
    split
    · next hs => exact handles_space h hs
    · next hs =>
      split
      · next hstart =>
        obtain ⟨htype, hv⟩ := not_void hstart (by decide +kernel)
        exact handles_insert h htype hv hig _ _
      · next hstart =>
        rw [if_neg (not_or.mpr ⟨hs, hstart⟩)] at hd
        obtain ⟨q, hq, -⟩ := insertElement_built h (.implied "html")
        rw [hq] at hd
        cases hd
  | beforeHead =>
    have hig : ¬ p.mode.Ignores := by rw [hmode]; exact id
    rw [defer, hmode] at hd
    rw [processToken, hmode]
    dsimp only at hd ⊢
    split
    · next hs => exact handles_space h hs
    · next hs =>
      split
      · next hstart =>
        obtain ⟨htype, hv⟩ := not_void hstart (by decide +kernel)
        exact handles_insert h htype hv hig _ _
      · next hstart =>
        rw [if_neg (not_or.mpr ⟨hs, hstart⟩)] at hd
        obtain ⟨q, hq, -⟩ := insertElement_built h (.implied "head")
        rw [hq] at hd
        cases hd
  | afterHead =>
    have hig : ¬ p.mode.Ignores := by rw [hmode]; exact id
    rw [defer, hmode] at hd
    rw [processToken, hmode]
    dsimp only at hd ⊢
    split
    · next hs => exact handles_character h (isSpace_type hs)
    · next hs =>
      split
      · next hstart =>
        obtain ⟨htype, hv⟩ := not_void hstart (by decide +kernel)
        exact handles_insert h htype hv hig _ _
      · next hstart =>
        rw [if_neg (not_or.mpr ⟨hs, hstart⟩)] at hd
        obtain ⟨q, hq, -⟩ := insertElement_built h (.implied "body")
        rw [hq] at hd
        cases hd
  | afterBody =>
    rw [processToken, hmode]
    dsimp only
    split
    · exact ⟨_, tz, rfl, h.setMode (by decide), ignored_law (.inl hmode) rfl⟩
    · exact ⟨p, tz, rfl, h, ignored_law (.inl hmode) rfl⟩
  | afterAfterBody =>
    rw [processToken, hmode]
    exact ⟨p, tz, rfl, h, ignored_law (.inr hmode) rfl⟩

theorem take_spec {s : HTML5Parser × Tokenizer} (h : s.1.Built) :
    (take s t).1.Built ∧ (TagLaw (handled t 5 s.1) t (take s t).1 ↔ (handled t 5 s.1).Regular t) := by
  have hdepth : depth s.1.mode ≤ 6 := by cases s.1.mode <;> decide
  obtain ⟨hb, hd, m, hsame⟩ := processToken_handled (n := 5) h hdepth
  obtain ⟨q, tz', hq, hbuilt, hlaw⟩ := handled_spec hb hd m
  have htake : take s t = (q, tz') := by
    rw [take, process, hsame, hq]
    rfl
  rw [htake]
  exact ⟨hbuilt, hlaw⟩

end

/-- For any sequence of tokens the stack keeps its shape; and tags do what they have to just as long as there is a place for
each start tag, and an open element for each end tag. -/
theorem open_elements_iff (tz : Tokenizer) (ts : List Token) :
    Along take Lawful (start, tz) ts ↔ Along take (fun s t => (handled t 5 s.1).Regular t) (start, tz) ts :=
  Along.iff
    (fun _ _ h => (and_iff_right (take_spec h).1.nested).trans (take_spec h).2) (fun _ _ h _ => (take_spec h).1) start_built

theorem stray_end_tag : ¬ ∀ (tz : Tokenizer) (ts : List Token), Along take Lawful (start, tz) ts := by
  intro h
  let p : Token := { Token.new .startTag with name := bytes "p" }
  let b : Token := { Token.new .endTag with name := bytes "b" }
  have hlaw : (take (take (start, .new []) p) b).1.openElements = (handled b 5 (take (start, .new []) p).1).closed (bytes "b") :=
    (h (.new []) [p, b]).2.1.2
  revert hlaw
  decide +kernel

end HTML5Parser
end RetroOs.Browser
