import RetroOs.Browser.CssEngine
import RetroOs.Browser.CssParserRuns

/-! How the rules of a style sheet are applied to an element, and when neither the parser nor the application
leaves its bounds. -/
namespace RetroOs.Browser
open Lib CString List

/-- Of `font_size` the text of the number is kept that it is set from. -/
structure Style where
  color : UInt32
  backgroundColor : UInt32
  fontSize : CString
  isBlock : Bool

def hexToInt (c : UInt8) : UInt32 :=
  if 0x30 ≤ c ∧ c ≤ 0x39 then (c - 0x30).toUInt32
  else if 0x61 ≤ c ∧ c ≤ 0x66 then (c - 0x61 + 10).toUInt32
  else if 0x41 ≤ c ∧ c ≤ 0x46 then (c - 0x41 + 10).toUInt32
  else 0

/-- The colours that have a name. -/
def namedColors : List (String × UInt32) :=
  [("red", 0xFF0000), ("green", 0x00FF00), ("blue", 0x0000FF), ("black", 0x000000), ("white", 0xFFFFFF), ("gray", 0x808080),
    ("transparent", 0x00000000), ("yellow", 0xFFFF00), ("orange", 0xFFA500)]

def parseCssColor (data : CString) : UInt32 :=
  if CSSTokenizer.currentChar data = hash ∧ data.length = 7 then
    let digit k := hexToInt (CSSTokenizer.peek data k)
    let byte k := (digit k <<< 4) ||| digit (k + 1)
    (byte 1 <<< 16) ||| (byte 3 <<< 8) ||| byte 5
  else ((namedColors.find? fun color => data = ofString color.1).map (·.2)).getD 0

/-- One declaration of a rule that matches; a null `value` that is followed leaves it without a result. -/
def applyDeclaration (s : Style) (d : CSSDeclaration) : Option Style :=
  if d.property = ofString "color" then do
    let value ← d.value.head?
    if value.type = .color ∨ value.type = .keyword then some { s with color := parseCssColor value.data } else some s
  else if d.property = ofString "background-color" then do
    let value ← d.value.head?
    if value.type = .color ∨ value.type = .keyword then some { s with backgroundColor := parseCssColor value.data } else some s
  else if d.property = ofString "font-size" then do
    let value ← d.value.head?
    if value.type = .dimension then some { s with fontSize := value.numericValue } else some s
  else if d.property = ofString "display" then do
    let value ← d.value.head?
    if value.type = .keyword ∧ value.data = ofString "block" then some { s with isBlock := true }
    else if value.type = .keyword ∧ value.data = ofString "inline" then some { s with isBlock := false }
    else some s
  else some s

def applyRule (n : Node) (s : Style) (r : CSSStyleRule) : Option Style :=
  if CSSEngine.matchesSelectors r.selectors n then r.declarations.foldlM applyDeclaration s else some s

def applyCssToStyle (rules : List CSSStyleRule) (n : Node) (s : Style) : Option Style := rules.foldlM (applyRule n) s

/-- The declarations that are looked at. -/
def styledProperties : List CString := ["color", "background-color", "font-size", "display"].map ofString

def CSSDeclaration.Valued (d : CSSDeclaration) : Prop := d.property ∈ styledProperties → d.value ≠ []

def CSSStyleRule.Valued (n : Node) (r : CSSStyleRule) : Prop :=
  CSSEngine.matchesSelectors r.selectors n = true → ∀ d ∈ r.declarations, d.Valued

/-- The parser keeps to the fields of its nodes, and the application to an element follows no null pointer. -/
def StaysInBounds (css : CString) (n : Node) : Prop :=
  ∃ rules p, CSSParser.parse css = some (rules, p) ∧ p.intact = true ∧ ∀ s, (applyCssToStyle rules n s).isSome

variable {s : Style} {n : Node} {css : CString}

private theorem applyDeclaration_isSome (s : Style) (d : CSSDeclaration) : (applyDeclaration s d).isSome ↔ d.Valued := by
  have hvalue : ∀ f : CSSValue → Option Style, (∀ v, (f v).isSome) → ((d.value.head? >>= f).isSome ↔ d.value ≠ []) := by
    intro f hf
    cases d.value with
    | nil => exact iff_of_false Bool.false_ne_true fun h => h rfl
    | cons v l => exact iff_of_true (hf v) (cons_ne_nil v l)
  have hlooked : d.property ∈ styledProperties → (d.Valued ↔ d.value ≠ []) := fun h => ⟨fun hv => hv h, fun hv _ => hv⟩
  rw [applyDeclaration]
  split
  · next h => exact (hvalue _ fun v => by split <;> rfl).trans (hlooked (by rw [h]; decide +kernel)).symm
  split
  · next h => exact (hvalue _ fun v => by split <;> rfl).trans (hlooked (by rw [h]; decide +kernel)).symm
  split
  · next h => exact (hvalue _ fun v => by split <;> rfl).trans (hlooked (by rw [h]; decide +kernel)).symm
  split
  · next h => exact (hvalue _ fun v => by split <;> [rfl; (split <;> rfl)]).trans (hlooked (by rw [h]; decide +kernel)).symm
  · next h1 h2 h3 h4 =>
    refine iff_of_true rfl fun hmem => ?_
    simp only [styledProperties, map_cons, map_nil, mem_cons, not_mem_nil, or_false] at hmem
    rcases hmem with h | h | h | h
    · exact absurd h h1
    · exact absurd h h2
    · exact absurd h h3
    · exact absurd h h4

private theorem foldlM_isSome {α σ : Type} {f : σ → α → Option σ} {P : α → Prop} (hf : ∀ s a, (f s a).isSome ↔ P a) (l : List α) (s : σ) :
    (l.foldlM f s).isSome ↔ ∀ a ∈ l, P a := by
  induction l generalizing s with
  | nil => exact iff_of_true rfl (fun _ h => absurd h not_mem_nil)
  | cons a l ih =>
    rw [foldlM_cons, forall_mem_cons]
    cases hs : f s a with
    | none =>
      have hP : ¬ P a := fun h => by simpa [hs] using (hf s a).mpr h
      exact iff_of_false Bool.false_ne_true fun h => hP h.1
    | some t =>
      have hP : P a := (hf s a).mp (by rw [hs]; rfl)
      exact (ih t).trans (and_iff_right hP).symm

private theorem applyRule_isSome (s : Style) (r : CSSStyleRule) : (applyRule n s r).isSome ↔ r.Valued n := by
  rw [applyRule, CSSStyleRule.Valued]
  split
  · next h => exact (foldlM_isSome applyDeclaration_isSome _ s).trans ⟨fun hall _ => hall, fun hall => hall h⟩
  · next h => exact iff_of_true rfl fun hm => absurd hm h

private theorem applyCssToStyle_isSome (rules : List CSSStyleRule) (s : Style) :
    (applyCssToStyle rules n s).isSome ↔ ∀ r ∈ rules, r.Valued n :=
  foldlM_isSome applyRule_isSome rules s

/-- Parser and application stay in their bounds just if every text that is copied is shorter than the field at its
place, and every rule that matches has a value wherever one is looked for. -/
theorem stays_in_bounds_iff (css : CString) (n : Node) :
    StaysInBounds css n ↔ (∀ ts, tokens css = some ts → Place.start.fits ts = true) ∧
      ∀ rules p, CSSParser.parse css = some (rules, p) → ∀ r ∈ rules, r.Valued n := by
  obtain ⟨ts, hts, rules, p, hp, hintact⟩ := parse_spec css
  constructor
  · rintro ⟨rules', p', hp', hfits, happly⟩
    cases hp.symm.trans hp'
    refine ⟨fun ts' hts' => ?_, fun rules' p' hp' => ?_⟩
    · cases hts.symm.trans hts'
      exact hintact.symm.trans hfits
    · cases hp.symm.trans hp'
      exact (applyCssToStyle_isSome rules ⟨0, 0, [], false⟩).mp (happly _)
  · rintro ⟨hfits, hvalued⟩
    exact ⟨rules, p, hp, hintact.trans (hfits ts hts), fun s => (applyCssToStyle_isSome rules s).mpr (hvalued rules p hp)⟩

theorem value_left_out : ¬ ∀ css n, StaysInBounds css n := by
  intro h
  obtain ⟨rules, p, hp, -, happly⟩ := h (ofString "p{color:}") (Node.new (.element (bytes "p") []))
  have hnull : (CSSParser.parse (ofString "p{color:}")).map (fun r =>
      (applyCssToStyle r.1 (Node.new (.element (bytes "p") [])) ⟨0, 0, [], false⟩).isSome) = some false := by
    decide +kernel
  rw [hp] at hnull
  cases (happly _).symm.trans (Option.some.inj hnull)

end RetroOs.Browser
