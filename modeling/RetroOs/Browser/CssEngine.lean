import RetroOs.Browser.CssParser
import RetroOs.Browser.DomTree

/-! Which elements a selector list matches: what the engine finds, and what the combinators mean. -/
namespace RetroOs.Browser
open Lib Nat

namespace CSSEngine

/-- The characters of a C string as they stand in the document. -/
def chars (s : CString) : List UInt8 := s.map (·.val)

def getAttribute (attributes : List Attr) (name : String) : Option (List UInt8) :=
  (attributes.find? fun a => a.name = bytes name).map (·.value)

def hasClass (attributes : List Attr) (cls : List UInt8) : Bool :=
  match getAttribute attributes "class" with
  | some value => (value.splitOnP (· == 0x20)).any fun word => word ≠ [] && word == cls
  | none => false

def matchesSimple (s : CSSSelector) (n : Node) : Bool :=
  match n.type with
  | .element tag attributes =>
    match s.type with
    | .universal => true
    | .type => tag == chars s.value
    | .cssClass => hasClass attributes (chars s.value)
    | .id => getAttribute attributes "id" == some (chars s.value)
    | .pseudoClass => chars s.value == bytes "first-child" && n.prevSibling.isNone
    | _ => false
  | _ => false

/-- The selectors chained by `next_in_compound`. -/
def matchesCompound (c : CompoundSelector) (n : Node) : Bool := c.simple.all fun s => matchesSimple s n

def matchesFirst (alternative : ComplexSelector) (n : Node) : Bool := alternative.head?.any fun c => matchesCompound c n

def matchesSelectors (selectors : List ComplexSelector) (n : Node) : Bool :=
  selectors.any fun alternative => matchesFirst alternative n

end CSSEngine

inductive Document : HTML5Parser → Prop where
  | start : Document HTML5Parser.start
  | append {p : HTML5Parser} {k : Nat} (hp : Document p) (hk : k < p.nodes.length) (ty : NodeType) : Document (p.appendChild k ty)

def Node.IsElement (n : Node) : Prop := ∃ tag attributes, n.type = .element tag attributes

namespace HTML5Parser

def IsParent (p : HTML5Parser) (i j : Nat) : Prop := (p.node i).parent = some j

def IsPrevious (p : HTML5Parser) (i j : Nat) : Prop := (p.node i).prevSibling = some j

/-- The last element among the siblings before. -/
inductive PreviousElement (p : HTML5Parser) : Nat → Nat → Prop where
  | here {i j : Nat} (h : p.IsPrevious i j) (he : (p.node j).IsElement) : PreviousElement p i j
  | skip {i j k : Nat} (h : p.IsPrevious i k) (he : ¬ (p.node k).IsElement) (hr : PreviousElement p k j) : PreviousElement p i j

def Related (p : HTML5Parser) (combinator : UInt8) : Nat → Nat → Prop :=
  if combinator = greater then p.IsParent
  else if combinator = plus then p.PreviousElement
  else if combinator = tilde then Relation.TransGen p.IsPrevious
  else Relation.TransGen p.IsParent

def MatchesAt (p : HTML5Parser) (c : CompoundSelector) (i : Nat) : Prop :=
  (p.node i).IsElement ∧ CSSEngine.matchesCompound c (p.node i) = true

/-- The compounds from the right to the left. -/
def MatchesChain (p : HTML5Parser) : ComplexSelector → Nat → Prop
  | [], _ => False
  | [c], i => p.MatchesAt c i
  | c :: d :: l, i => p.MatchesAt c i ∧ ∃ j, p.Related d.combinator i j ∧ MatchesChain p (d :: l) j

def Selected (p : HTML5Parser) (selectors : List ComplexSelector) (i : Nat) : Prop :=
  ∃ alternative ∈ selectors, p.MatchesChain alternative.reverse i

/-- A document in which the element is alone, but for a text before it. -/
def lone (ty : NodeType) (behindText : Bool) : HTML5Parser :=
  if behindText then (start.appendChild 0 (.text [])).appendChild 0 ty else start.appendChild 0 ty

variable {p : HTML5Parser} {ty : NodeType} {b : Bool} {i j : Nat} {c : CompoundSelector} {l : ComplexSelector} {k : UInt8}

private theorem lone_document (ty : NodeType) (b : Bool) : Document (lone ty b) := by
  have hroot : 0 < start.nodes.length := one_pos
  cases b
  · exact .append .start hroot ty
  · exact .append (.append .start hroot (.text [])) (succ_pos 1) ty

private theorem lone_node (ty : NodeType) (b : Bool) :
    ∃ e < (lone ty b).nodes.length, ((lone ty b).node e).type = ty ∧ ((lone ty b).node e).prevSibling.isNone = !b ∧
      (∀ j, ((lone ty b).node j).IsElement → j = e) ∧
      ∀ i j, (lone ty b).IsParent i j ∨ (lone ty b).IsPrevious i j → j ≠ e := by
  cases b
  · refine ⟨1, lt_succ_self 1, rfl, rfl, fun j hj => ?_, fun i j hij => ?_⟩
    · match j with
      | 0 => obtain ⟨_, _, h⟩ := hj; cases h
      | 1 => rfl
      | j + 2 => obtain ⟨_, _, h⟩ := hj; cases h
    · match i with
      | 0 => rcases hij with h | h <;> cases h
      | 1 => rcases hij with h | h <;> cases h; exact zero_ne_one
      | i + 2 => rcases hij with h | h <;> cases h
  · refine ⟨2, lt_succ_self 2, rfl, rfl, fun j hj => ?_, fun i j hij => ?_⟩
    · match j with
      | 0 => obtain ⟨_, _, h⟩ := hj; cases h
      | 1 => obtain ⟨_, _, h⟩ := hj; cases h
      | 2 => rfl
      | j + 3 => obtain ⟨_, _, h⟩ := hj; cases h
    · match i with
      | 0 => rcases hij with h | h <;> cases h
      | 1 => rcases hij with h | h <;> cases h; decide
      | 2 => rcases hij with h | h <;> cases h <;> decide
      | i + 3 => rcases hij with h | h <;> cases h

theorem MatchesChain.element (h : p.MatchesChain l i) : (p.node i).IsElement := by
  match l, h with
  | [_], h => exact h.1
  | _ :: _ :: _, h => exact h.1.1

theorem Related.last (h : p.Related k i j) : ∃ m, p.IsParent m j ∨ p.IsPrevious m j := by
  rw [Related] at h
  split_ifs at h
  · exact ⟨i, .inl h⟩
  · induction h with
    | @here i j h _ => exact ⟨i, .inr h⟩
    | skip _ _ _ ih => exact ih
  · cases h with
    | single h => exact ⟨_, .inr h⟩
    | tail _ h => exact ⟨_, .inr h⟩
  · cases h with
    | single h => exact ⟨_, .inl h⟩
    | tail _ h => exact ⟨_, .inl h⟩

end HTML5Parser

namespace CSSEngine
open HTML5Parser
variable {selectors : List ComplexSelector} {alternative : ComplexSelector} {p : HTML5Parser} {i : Nat} {n m : Node}

/-- Some compound of the alternative stands before another one. -/
def Chained (alternative : ComplexSelector) : Prop := 2 ≤ alternative.length

def Plain (selectors : List ComplexSelector) (n : Node) : Prop :=
  ∃ alternative ∈ selectors, ¬ Chained alternative ∧ matchesFirst alternative n = true

private theorem matchesSimple_congr (ht : n.type = m.type) (hp : n.prevSibling.isNone = m.prevSibling.isNone) (s : CSSSelector) :
    matchesSimple s n = matchesSimple s m := by
  unfold matchesSimple
  rw [ht, hp]

private theorem matchesFirst_congr (ht : n.type = m.type) (hp : n.prevSibling.isNone = m.prevSibling.isNone) (alternative : ComplexSelector) :
    matchesFirst alternative n = matchesFirst alternative m := by
  unfold matchesFirst matchesCompound
  simp only [matchesSimple_congr ht hp]

theorem matchesChain_plain (h : ¬ Chained alternative) (he : (p.node i).IsElement) :
    p.MatchesChain alternative.reverse i ↔ matchesFirst alternative (p.node i) = true := by
  match alternative, h with
  | [], _ => exact iff_of_false id Bool.false_ne_true
  | [c], _ => exact and_iff_right he
  | _ :: _ :: _, h => exact absurd (le_add_left 2 _) h

private theorem lone_plain {ty : NodeType} {b : Bool} {e : Nat} (hother : ∀ j, ((lone ty b).node j).IsElement → j = e)
    (hlink : ∀ i j, (lone ty b).IsParent i j ∨ (lone ty b).IsPrevious i j → j ≠ e)
    (h : (lone ty b).MatchesChain alternative.reverse e) : ¬ Chained alternative := by
  intro hc
  obtain ⟨c, d, l, hl⟩ : ∃ c d l, alternative.reverse = c :: d :: l := by
    have hlen : 2 ≤ alternative.reverse.length := by rwa [List.length_reverse]
    match alternative.reverse, hlen with
    | c :: d :: l, _ => exact ⟨c, d, l, rfl⟩
  rw [hl] at h
  obtain ⟨-, j, hrel, hj⟩ := h
  obtain ⟨m, hm⟩ := hrel.last
  exact hlink m j hm (hother j hj.element)

theorem matchesSelectors_iff : matchesSelectors selectors n = true ↔ ∃ alternative ∈ selectors, matchesFirst alternative n = true :=
  List.any_eq_true

/-- Selector lists for which the engine is right in every document are those whose chains add nothing to the other
alternatives: neither by their first compound, nor as a whole. The names in them are taken to fit their fields
(`Place.start.fits`). -/
theorem matches_iff (selectors : List ComplexSelector) :
    (∀ p, Document p → ∀ i < p.nodes.length, (p.node i).IsElement →
      (matchesSelectors selectors (p.node i) = true ↔ p.Selected selectors i)) ↔
    ∀ p, Document p → ∀ i < p.nodes.length, (p.node i).IsElement →
      ∀ alternative ∈ selectors, Chained alternative →
        matchesFirst alternative (p.node i) = true ∨ p.MatchesChain alternative.reverse i → Plain selectors (p.node i) := by
  constructor
  · intro h p hp i hi he alternative hmem hchain hmatch
    -- a chain whose first compound matches is put to the element alone
    have hfirst : ∀ other ∈ selectors, matchesFirst other (p.node i) = true → Plain selectors (p.node i) := by
      intro other hother hm
      obtain ⟨tag, attributes, htype⟩ := he
      obtain ⟨e, hlt, hty, hprev, honly, hlink⟩ := lone_node (p.node i).type (!(p.node i).prevSibling.isNone)
      rw [Bool.not_not] at hprev
      have hsame := matchesFirst_congr hty hprev
      have helem : ((lone (p.node i).type (!(p.node i).prevSibling.isNone)).node e).IsElement := ⟨tag, attributes, hty.trans htype⟩
      obtain ⟨plain, hplain, hsel⟩ := (h _ (lone_document _ _) e hlt helem).mp
        (matchesSelectors_iff.mpr ⟨other, hother, (hsame other).trans hm⟩)
      have hnot := lone_plain honly hlink hsel
      exact ⟨plain, hplain, hnot, (hsame plain).symm.trans ((matchesChain_plain hnot helem).mp hsel)⟩
    rcases hmatch with hm | hm
    · exact hfirst alternative hmem hm
    · obtain ⟨other, hother, ho⟩ := matchesSelectors_iff.mp ((h p hp i hi he).mpr ⟨alternative, hmem, hm⟩)
      exact hfirst other hother ho
  · intro h p hp i hi he
    have hplain : Plain selectors (p.node i) → matchesSelectors selectors (p.node i) = true ∧ p.Selected selectors i := by
      rintro ⟨alternative, hmem, hnot, hm⟩
      exact ⟨matchesSelectors_iff.mpr ⟨alternative, hmem, hm⟩, alternative, hmem, (matchesChain_plain hnot he).mpr hm⟩
    constructor
    · intro hm
      obtain ⟨alternative, hmem, hfirst⟩ := matchesSelectors_iff.mp hm
      by_cases hc : Chained alternative
      · exact (hplain (h p hp i hi he alternative hmem hc (.inl hfirst))).2
      · exact (hplain ⟨alternative, hmem, hc, hfirst⟩).2
    · rintro ⟨alternative, hmem, hsel⟩
      by_cases hc : Chained alternative
      · exact (hplain (h p hp i hi he alternative hmem hc (.inr hsel))).1
      · exact (hplain ⟨alternative, hmem, hc, (matchesChain_plain hc he).mp hsel⟩).1

def selectorsOf (css : CString) : Option (List ComplexSelector) := do
  let upcoming ← tokens css
  let (selectors, _) ← CSSParser.parseSelectorList { upcoming, intact := true }
  some selectors

/-- A `div` is taken for a `p` within one. -/
theorem descendant_ignored : ¬ ∀ css selectors, selectorsOf css = some selectors → ∀ p, Document p → ∀ i < p.nodes.length,
    (p.node i).IsElement → (matchesSelectors selectors (p.node i) = true ↔ p.Selected selectors i) := by
  intro h
  let div : CompoundSelector := ⟨[⟨.type, CString.ofString "div"⟩], 0x20⟩
  let par : CompoundSelector := ⟨[⟨.type, CString.ofString "p"⟩], 0⟩
  have hparsed : selectorsOf (CString.ofString "div p") = some [[div, par]] := by decide +kernel
  let ty : NodeType := .element (bytes "div") []
  have helem : ((lone ty false).node 1).IsElement := ⟨bytes "div", [], rfl⟩
  have hfound : matchesSelectors [[div, par]] ((lone ty false).node 1) = true := by decide +kernel
  obtain ⟨e, -, -, -, honly, hlink⟩ := lone_node ty false
  obtain rfl := honly 1 helem
  obtain ⟨alternative, hmem, hsel⟩ := (h _ _ hparsed _ (lone_document ty false) 1 (lt_succ_self 1) helem).mp hfound
  obtain rfl := List.mem_singleton.mp hmem
  exact lone_plain honly hlink hsel (le_refl 2)

end CSSEngine
end RetroOs.Browser
