import RetroOs.Browser.RawText

/-! Contents of which a character is lost: what a step of the tokenizer can do with its position and its tokens, and why the
text of the element is then another one for good. -/
namespace RetroOs.Browser
open Lib List Option Nat Tokenizer CString Relation.ReflTransGen
namespace Tokenizer

def Clean (t : Tokenizer) : Prop := ∀ tok ∈ t.currentToken, tok.type ≠ .character

instance : DecidablePred Imposed := fun s => inferInstanceAs (Decidable (s = .data ∨ s = .rcdata ∨ s = .rawtext))

/-- What a step without a token can do. -/
structure Goes (t u : Tokenizer) : Prop where
  le : t.position ≤ u.position
  clean : u.Clean
  how : (Imposed t.state ∧ t.currentChar = less ∧ u.state = .tagOpen ∧ u.position = t.position + 1) ∨
    (t.state.TakesReference ∧ t.currentChar = amp ∧ u.state = .characterReference ∧ u.position = t.position + 1) ∨
    (t.state = .characterReference ∧ u.state = .namedCharacterReference ∧ u.position = t.position) ∨
    (¬ Imposed t.state ∧ u.state ≠ .tagOpen ∧ ¬ u.state.IsReference)

/-- What a step with a token can do. -/
structure Gives (t : Tokenizer) (tok : Token) (u : Tokenizer) : Prop where
  le : t.position ≤ u.position
  clean : u.Clean
  how : (Imposed t.state ∧ (∃ c, tok = .ofCharacter c) ∧ u.state = t.state ∧ u.position = t.position + 1) ∨
    (t.state = .tagOpen ∧ (∃ c, tok = .ofCharacter c) ∧ u.state = .data ∧ u.position = t.position) ∨
    (t.state.IsReference ∧ (∃ c, tok = .ofCharacter c) ∧ u.state = t.returnState) ∨
    (¬ Imposed t.state ∧ tok.type ≠ .character ∧ u.state = .data)

variable {t u : Tokenizer} {s : TokenizerState} {f : Token → Token} {c : UInt8} {tok : Token}

private theorem advance_state (t : Tokenizer) : t.advance.state = t.state := by
  rw [advance]
  split <;> rfl

private theorem advance_token (t : Tokenizer) : t.advance.currentToken = t.currentToken := by
  rw [advance]
  split <;> rfl

private theorem le_advance (t : Tokenizer) : t.position ≤ t.advance.position := by
  rw [advance]
  split
  · exact le_succ _
  · exact le_refl _

/-- The result, where there is one. -/
def Allows (t : Tokenizer) : Scan Tokenizer Token → Prop
  | .again u => t.Goes u
  | .emit tok u => t.Gives tok u
  | .stuck => True

/-- Neither in a text nor at the beginning of what may be something else. -/
structure InMarkup (s : TokenizerState) : Prop where
  text : ¬ Imposed s
  begun : s ≠ .tagOpen ∧ ¬ s.IsReference

/-- From markup to markup, or out of it. -/
structure Inside (t u : Tokenizer) : Prop where
  le : t.position ≤ u.position
  clean : u.Clean
  state : u.state ≠ .tagOpen ∧ ¬ u.state.IsReference

theorem Inside.goes (h : t.Inside u) (hm : ¬ Imposed t.state) : t.Allows (.again u) := ⟨h.le, h.clean, .inr (.inr (.inr ⟨hm, h.state⟩))⟩

theorem Inside.advance (h : t.Inside u) : t.Inside u.advance :=
  ⟨h.le.trans (le_advance u), by rw [Clean, advance_token]; exact h.clean, by rw [advance_state]; exact h.state⟩

theorem Inside.amend (h : t.Inside u) (hm : ¬ Imposed t.state) (hf : ∀ tok, (f tok).type = tok.type) : t.Allows (u.amend f) := by
  rw [Tokenizer.amend]
  cases htok : u.currentToken with
  | none => trivial
  | some tok =>
    refine Inside.goes ⟨h.le, fun tok' htok' => ?_, h.state⟩ hm
    cases htok'
    rw [hf]
    exact h.clean tok htok

theorem Inside.emitCurrent (h : t.Inside u) (hm : InMarkup t.state) (hu : u.state = .data) (hf : ∀ tok, (f tok).type = tok.type) :
    t.Allows (u.emitCurrent f) := by
  rw [Tokenizer.emitCurrent]
  cases htok : u.currentToken with
  | none => trivial
  | some tok =>
    refine ⟨h.le, (by rintro _ ⟨⟩), .inr (.inr (.inr ⟨hm.text, ?_, hu⟩))⟩
    rw [hf]
    exact h.clean tok htok

theorem Clean.inside (h : t.Clean) (s : TokenizerState) (hs : s ≠ .tagOpen ∧ ¬ s.IsReference) : t.Inside (t.setState s) := ⟨le_refl _, h, hs⟩

theorem Clean.same (h : t.Clean) (hm : InMarkup t.state) : t.Inside t := ⟨le_refl _, h, hm.begun⟩

theorem inside_newToken (t : Tokenizer) (type : TokenType) (s : TokenizerState) (ht : type ≠ .character)
    (hs : s ≠ .tagOpen ∧ ¬ s.IsReference) : t.Inside ((t.newToken type).setState s) := by
  refine ⟨le_refl _, fun tok htok => ?_, hs⟩
  cases htok
  exact ht

theorem Clean.closes (h : t.Clean) (hm : InMarkup t.state) (hf : ∀ tok, (f tok).type = tok.type) :
    t.Allows ((t.setState .data).advance.emitCurrent f) :=
  (h.inside .data ⟨nofun, id⟩).advance.emitCurrent hm (advance_state _) hf

theorem allows_reference (hclean : t.Clean) (hc : t.currentChar ≠ 0) (hr : t.state.TakesReference) (hamp : t.currentChar = amp) :
    t.Allows (.again t.openReference) := by
  have hopen : t.openReference = { t with returnState := t.state, state := .characterReference, position := t.position + 1 } := by
    rw [openReference, advance_of (by exact hc)]
  rw [hopen]
  exact ⟨le_succ _, hclean, .inr (.inl ⟨hr, hamp, rfl, rfl⟩)⟩

private theorem text_allows (hclean : t.Clean) (hc : t.currentChar ≠ 0) (hs : Imposed t.state) : t.Allows (t.dispatch t.currentChar) := by
  have hadv : ∀ s, (t.setState s).advance = { t with state := s, position := t.position + 1 } := fun s => by
    rw [advance_of (by exact hc)]
    rfl
  have hless : t.currentChar = less → t.Allows (.again (t.setState .tagOpen).advance) := by
    intro hlt
    rw [hadv]
    exact ⟨le_succ _, hclean, .inl ⟨hs, hlt, rfl, rfl⟩⟩
  have hchar : t.Allows (t.advance.emitChar t.currentChar) := by
    rw [advance_of hc]
    exact ⟨le_succ _, hclean, .inl ⟨hs, ⟨_, rfl⟩, rfl, rfl⟩⟩
  rcases hs with hs | hs | hs
  · simp only [dispatch, hs]
    split_ifs with hlt hamp
    · exact hless hlt
    · exact allows_reference hclean hc (by rw [hs]; trivial) hamp
    · exact hchar
  · simp only [dispatch, hs]
    split_ifs with hlt hamp
    · exact hless hlt
    · exact allows_reference hclean hc (by rw [hs]; trivial) hamp
    · exact hchar
  · simp only [dispatch, hs]
    split_ifs with hlt
    · exact hless hlt
    · exact hchar

private theorem reference_allows (hclean : t.Clean) (hs : t.state.IsReference) : t.Allows (t.dispatch t.currentChar) := by
  have hm : ¬ Imposed t.state := by
    rintro (h | h | h) <;> rw [h] at hs <;> exact hs
  have hanswer : ∀ p c, t.position ≤ p → t.Allows (.emit (.ofCharacter c) { t with position := p, state := t.returnState }) :=
    fun p c hp => ⟨hp, hclean, .inr (.inr (.inl ⟨hs, ⟨c, rfl⟩, rfl⟩))⟩
  cases hstate : t.state <;> rw [hstate] at hs <;> try exact hs.elim
  · simp only [dispatch, hstate]
    split_ifs
    · exact ⟨le_refl _, hclean, .inr (.inr (.inl ⟨hstate, rfl, rfl⟩))⟩
    · exact (hclean.inside .numericCharacterReference ⟨by decide, id⟩).advance.goes hm
    · exact hanswer _ _ (le_refl _)
  · simp only [dispatch, hstate]
    cases references.find? fun r => t.looksAt r.1 with
    | none => exact hanswer _ _ (le_refl _)
    | some r =>
      obtain ⟨p, hp, hn⟩ := advanceBy_of t r.2.1
      simp only [hn]
      exact hanswer _ _ hp

private theorem tagOpen_allows (hclean : t.Clean) (hs : t.state = .tagOpen) : t.Allows (t.dispatch t.currentChar) := by
  have hm : ¬ Imposed t.state := by rw [hs]; decide
  simp only [dispatch, hs]
  split_ifs
  · exact (hclean.inside .commentStart ⟨by decide, id⟩).advance.goes hm
  · exact (hclean.inside .endTagOpen ⟨by decide, id⟩).advance.goes hm
  · exact (inside_newToken t .startTag .tagName (by decide) ⟨by decide, id⟩).goes hm
  · exact ⟨le_refl _, hclean, .inr (.inl ⟨hs, ⟨_, rfl⟩, rfl, rfl⟩)⟩

theorem Inside.advanceBy (h : t.Inside u) (n : Nat) : t.Inside (u.advanceBy n) := by
  induction n with
  | zero => exact h
  | succ n ih => exact ih.advance

private theorem tag_allows (hclean : t.Clean) (hm : InMarkup t.state)
    (hs : t.state = .tagName ∨ t.state = .beforeAttributeName ∨ t.state = .attributeName ∨ t.state = .afterAttributeName ∨
      t.state = .afterAttributeValueQuoted ∨ t.state = .selfClosingStartTag) : t.Allows (t.dispatch t.currentChar) := by
  have hgo : ∀ s : TokenizerState, s ≠ .tagOpen ∧ ¬ s.IsReference → t.Allows (.again (t.setState s)) := fun s h =>
    (hclean.inside s h).goes hm.text
  have hread : ∀ s : TokenizerState, s ≠ .tagOpen ∧ ¬ s.IsReference → t.Allows (.again (t.setState s).advance) := fun s h =>
    (hclean.inside s h).advance.goes hm.text
  have hput : ∀ f : Token → Token, (∀ tok, (f tok).type = tok.type) → t.Allows (t.advance.amend f) := fun f h =>
    (hclean.same hm).advance.amend hm.text h
  have hnew : t.Allows ((t.setState .attributeName).amend .newAttr) := (hclean.inside .attributeName ⟨by decide, id⟩).amend hm.text fun _ => rfl
  have hend := hclean.closes hm (f := id) fun _ => rfl
  rcases hs with hs | hs | hs | hs | hs | hs
  · simp only [dispatch, hs]
    split_ifs
    · exact hread .beforeAttributeName ⟨by decide, id⟩
    · exact hread .selfClosingStartTag ⟨by decide, id⟩
    · exact hend
    · exact hput _ fun _ => rfl
  · simp only [dispatch, hs]
    split_ifs
    · exact (hclean.same hm).advance.goes hm.text
    · exact hgo .afterAttributeName ⟨by decide, id⟩
    · exact hnew
  · simp only [dispatch, hs]
    split_ifs
    · exact hgo .afterAttributeName ⟨by decide, id⟩
    · exact hread .beforeAttributeValue ⟨by decide, id⟩
    · exact hput _ fun _ => rfl
  · simp only [dispatch, hs]
    split_ifs
    · exact (hclean.same hm).advance.goes hm.text
    · exact hread .selfClosingStartTag ⟨by decide, id⟩
    · exact hread .beforeAttributeValue ⟨by decide, id⟩
    · exact hend
    · exact hnew
  · simp only [dispatch, hs]
    split_ifs
    · exact hread .beforeAttributeName ⟨by decide, id⟩
    · exact hread .selfClosingStartTag ⟨by decide, id⟩
    · exact hend
    · exact hgo .beforeAttributeName ⟨by decide, id⟩
  · simp only [dispatch, hs]
    split_ifs
    · exact hclean.closes hm fun _ => rfl
    · exact hgo .beforeAttributeName ⟨by decide, id⟩

private theorem value_allows (hclean : t.Clean) (hc : t.currentChar ≠ 0) (hm : InMarkup t.state)
    (hs : t.state = .beforeAttributeValue ∨ t.state = .attributeValueDoubleQuoted ∨ t.state = .attributeValueSingleQuoted ∨
      t.state = .attributeValueUnquoted) : t.Allows (t.dispatch t.currentChar) := by
  have hread : ∀ s : TokenizerState, s ≠ .tagOpen ∧ ¬ s.IsReference → t.Allows (.again (t.setState s).advance) := fun s h =>
    (hclean.inside s h).advance.goes hm.text
  have hput : t.Allows (t.advance.amend (.putAttrValue t.currentChar)) := (hclean.same hm).advance.amend hm.text fun _ => rfl
  rcases hs with hs | hs | hs | hs
  · simp only [dispatch, hs]
    split_ifs
    · exact (hclean.same hm).advance.goes hm.text
    · exact hread .attributeValueDoubleQuoted ⟨by decide, id⟩
    · exact hread .attributeValueSingleQuoted ⟨by decide, id⟩
    · exact hclean.closes hm fun _ => rfl
    · exact (hclean.inside .attributeValueUnquoted ⟨by decide, id⟩).goes hm.text
  · simp only [dispatch, hs]
    split_ifs with _ hamp
    · exact hread .afterAttributeValueQuoted ⟨by decide, id⟩
    · exact allows_reference hclean hc (by rw [hs]; trivial) hamp
    · exact hput
  · simp only [dispatch, hs]
    split_ifs with _ hamp
    · exact hread .afterAttributeValueQuoted ⟨by decide, id⟩
    · exact allows_reference hclean hc (by rw [hs]; trivial) hamp
    · exact hput
  · simp only [dispatch, hs]
    split_ifs with _ hamp
    · exact hread .beforeAttributeName ⟨by decide, id⟩
    · exact allows_reference hclean hc (by rw [hs]; trivial) hamp
    · exact hclean.closes hm fun _ => rfl
    · exact hput

private theorem comment_allows (hclean : t.Clean) (hm : InMarkup t.state)
    (hs : t.state = .endTagOpen ∨ t.state = .commentStart ∨ t.state = .commentStartDash ∨ t.state = .comment ∨
      t.state = .commentEndDash ∨ t.state = .commentEnd ∨ t.state = .doctype ∨ t.state = .doctypeName ∨ t.state = .afterDoctypeName) :
    t.Allows (t.dispatch t.currentChar) := by
  have hread : ∀ s : TokenizerState, s ≠ .tagOpen ∧ ¬ s.IsReference → t.Allows (.again (t.setState s).advance) := fun s h =>
    (hclean.inside s h).advance.goes hm.text
  have hstay : t.Allows (.again t.advance) := (hclean.same hm).advance.goes hm.text
  have hput : ∀ f : Token → Token, (∀ tok, (f tok).type = tok.type) → t.Allows (t.advance.amend f) := fun f h =>
    (hclean.same hm).advance.amend hm.text h
  have hend := hclean.closes hm (f := id) fun _ => rfl
  rcases hs with hs | hs | hs | hs | hs | hs | hs | hs | hs
  · simp only [dispatch, hs]
    split_ifs
    · exact (inside_newToken t .endTag .tagName (by decide) ⟨by decide, id⟩).goes hm.text
    · exact hread .data ⟨by decide, id⟩
    · exact (hclean.inside .data ⟨by decide, id⟩).goes hm.text
  · simp only [dispatch, hs]
    split_ifs
    · exact hread .commentStartDash ⟨by decide, id⟩
    · exact ((hclean.inside .doctype ⟨by decide, id⟩).advanceBy 7).goes hm.text
    · exact (inside_newToken t .comment .comment (by decide) ⟨by decide, id⟩).goes hm.text
  · simp only [dispatch, hs]
    split_ifs
    · exact (inside_newToken t .comment .comment (by decide) ⟨by decide, id⟩).advance.goes hm.text
    · exact hread .data ⟨by decide, id⟩
  · simp only [dispatch, hs]
    split_ifs
    · exact hread .commentEndDash ⟨by decide, id⟩
    · exact (hclean.inside .data ⟨by decide, id⟩).goes hm.text
    · exact hput _ fun _ => rfl
  · simp only [dispatch, hs]
    split_ifs
    · exact hread .commentEnd ⟨by decide, id⟩
    · exact (hclean.inside .comment ⟨by decide, id⟩).advance.amend hm.text fun _ => rfl
  · simp only [dispatch, hs]
    split_ifs
    · exact hend
    · exact hread .comment ⟨by decide, id⟩
  · simp only [dispatch, hs]
    split_ifs
    · exact hstay
    · exact (inside_newToken t .doctype .doctypeName (by decide) ⟨by decide, id⟩).goes hm.text
  · simp only [dispatch, hs]
    split_ifs
    · exact hread .afterDoctypeName ⟨by decide, id⟩
    · exact hend
    · exact hput _ fun _ => rfl
  · simp only [dispatch, hs]
    split_ifs
    · exact hstay
    · exact hend
    · exact hstay

private theorem dispatch_allows (hclean : t.Clean) (hc : t.currentChar ≠ 0) : t.Allows (t.dispatch t.currentChar) := by
  by_cases htext : Imposed t.state
  · exact text_allows hclean hc htext
  by_cases hopen : t.state = .tagOpen
  · exact tagOpen_allows hclean hopen
  by_cases href : t.state.IsReference
  · exact reference_allows hclean href
  have hm : InMarkup t.state := ⟨htext, hopen, href⟩
  cases hs : t.state with
  | data | rcdata | rawtext => exact absurd (by rw [hs]; decide) htext
  | tagOpen => exact absurd hs hopen
  | characterReference | namedCharacterReference => exact absurd (by rw [hs]; trivial) href
  | tagName | beforeAttributeName | attributeName | afterAttributeName | afterAttributeValueQuoted | selfClosingStartTag =>
    exact tag_allows hclean hm (by simp [hs])
  | beforeAttributeValue | attributeValueDoubleQuoted | attributeValueSingleQuoted | attributeValueUnquoted =>
    exact value_allows hclean hc hm (by simp [hs])
  | endTagOpen | commentStart | commentStartDash | comment | commentEndDash | commentEnd | doctype | doctypeName | afterDoctypeName =>
    exact comment_allows hclean hm (by simp [hs])
  | _ =>
    simp only [dispatch, hs]
    exact (hclean.same hm).advance.goes htext

theorem step_allows (hclean : t.Clean) : (t.currentChar ≠ 0 ∧ t.Allows t.step) ∨
    (t.currentChar = 0 ∧ ¬ Imposed t.state ∧ ∃ tok ∈ t.currentToken, t.step = .emit tok { t with currentToken := none }) ∨
    ∃ u, t.step = .emit (Token.new .eof) u := by
  by_cases hc : t.currentChar = 0
  · right
    by_cases htext : t.state ≠ .data ∧ t.state ≠ .rcdata ∧ t.state ≠ .rawtext
    · rw [step, if_pos ⟨hc, htext⟩]
      cases htok : t.currentToken with
      | none => exact .inr ⟨t, rfl⟩
      | some tok =>
        refine .inl ⟨hc, ?_, tok, rfl, rfl⟩
        rintro (h | h | h)
        · exact htext.1 h
        · exact htext.2.1 h
        · exact htext.2.2 h
    · rw [step, if_neg fun h => htext h.2, if_pos hc]
      exact .inr ⟨t, rfl⟩
  · refine .inl ⟨hc, ?_⟩
    rw [step, if_neg fun h => hc h.1, if_neg hc]
    exact dispatch_allows hclean hc

end Tokenizer

namespace HTML5Parser
variable {p q r : HTML5Parser} {tz tz' : Tokenizer} {t : Token} {e i k : Nat}

inductive Builds (p : HTML5Parser) : HTML5Parser → Prop where
  | refl : Builds p p
  | mode {q : HTML5Parser} (h : Builds p q) (m : InsertionMode) : Builds p (q.setMode m)
  | popped {q : HTML5Parser} {l : List Nat} (h : Builds p q) (hl : l <:+ q.openElements) : Builds p { q with openElements := l }
  | element {q r : HTML5Parser} {t : Token} (h : Builds p q) (hr : q.insertElement t = some r) : Builds p r
  | character {q r : HTML5Parser} {t : Token} (h : Builds p q) (hr : q.insertCharacter t = some r) : Builds p r
  | doctype {q : HTML5Parser} (h : Builds p q) (t : Token) : Builds p (q.insertDoctype t)

theorem Builds.trans (h : Builds p q) (h' : Builds q r) : Builds p r := by
  induction h' with
  | refl => exact h
  | mode _ m ih => exact ih.mode m
  | popped _ hl ih => exact ih.popped hl
  | element _ hr ih => exact ih.element hr
  | character _ hr ih => exact ih.character hr
  | doctype _ t ih => exact ih.doctype t

theorem popThrough_suffix (p : HTML5Parser) (name : List UInt8) (l : List Nat) : p.popThrough name l <:+ l := by
  induction l with
  | nil => exact suffix_refl _
  | cons i l ih =>
    cases l with
    | nil => exact suffix_refl _
    | cons j l =>
      rw [popThrough]
      split
      · exact suffix_cons i _
      · exact ih.trans (suffix_cons i _)

theorem builds_element {f : HTML5Parser → Option (HTML5Parser × Tokenizer)} (h : (p.insertElement t).bind f = some (q, tz'))
    (hf : ∀ r, Builds p r → f r = some (q, tz') → Builds p q) : Builds p q := by
  obtain ⟨r, hr, hq⟩ := bind_eq_some_iff.mp h
  exact hf r (.element .refl hr) hq

theorem builds_character (h : ((p.insertCharacter t).bind fun q => some (q, tz)) = some (q, tz')) : Builds p q := by
  obtain ⟨r, hr, hq⟩ := bind_eq_some_iff.mp h
  cases hq
  exact .character .refl hr

theorem builds_mode {m : InsertionMode} (h : ((p.insertElement t).bind fun q => some (q.setMode m, tz)) = some (q, tz')) : Builds p q :=
  builds_element h fun r hr hq => by
    cases hq
    exact hr.mode m

theorem Builds.pop (h : Builds p q) : Builds p q.popElement := h.popped (tail_suffix _)

private theorem processToken_builds {n : Nat} (h : processToken t n p tz = some (q, tz')) : Builds p q := by
  induction n generalizing p tz with
  | zero => cases h
  | succ n ih =>
    have himplied : ∀ name m, ((p.insertElement (.implied name)).bind fun q => processToken t n (q.setMode m) tz) = some (q, tz') →
        Builds p q := fun name m h => builds_element h fun r hr hq => (hr.mode m).trans (ih hq)
    rw [processToken] at h
    cases hmode : p.mode <;> rw [hmode] at h <;> dsimp only at h
    case initial =>
      split_ifs at h
      · cases h
        exact .refl
      · cases h
        exact (Builds.refl.doctype t).mode .beforeHtml
      · exact (Builds.refl.mode .beforeHtml).trans (ih h)
    case beforeHtml =>
      split_ifs at h
      · cases h
        exact .refl
      · exact builds_mode h
      · exact himplied _ _ h
    case beforeHead =>
      split_ifs at h
      · cases h
        exact .refl
      · exact builds_mode h
      · exact himplied _ _ h
    case inHead =>
      split_ifs at h
      · exact builds_character h
      · cases h
        exact Builds.refl.pop.mode .afterHead
      · exact builds_mode h
      · exact builds_mode h
      · refine builds_element h fun r hr hq => ?_
        cases hq
        exact hr.pop
      · exact (Builds.refl.pop.mode .afterHead).trans (ih h)
    case afterHead =>
      split_ifs at h
      · exact builds_character h
      · exact builds_mode h
      · exact himplied _ _ h
    case inBody =>
      cases htype : t.type <;> rw [htype] at h <;> dsimp only at h
      case character => exact builds_character h
      case startTag =>
        refine builds_element h fun r hr hq => ?_
        split_ifs at hq
        · cases hq
          exact hr.mode .text
        · cases hq
          exact hr.pop
        · cases hq
          exact hr
      case endTag =>
        split_ifs at h
        · cases h
          exact Builds.refl.mode .afterBody
        · cases h
          exact (Builds.refl.popped (p.popThrough_suffix t.name p.openElements)).mode .inBody
      all_goals
        cases h
        exact .refl
    case text =>
      cases htype : t.type <;> rw [htype] at h <;> dsimp only at h
      case character => exact builds_character h
      case endTag =>
        cases h
        exact Builds.refl.pop.mode _
      all_goals
        cases h
        exact .refl
    case afterBody =>
      split_ifs at h
      · cases h
        exact Builds.refl.mode .afterAfterBody
      · cases h
        exact .refl
    case afterAfterBody =>
      cases h
      exact .refl

def HasText (e : Nat) (w : List UInt8) (p : HTML5Parser) : Prop := (p.node e).lastChild = some (e + 1) ∧ (p.node (e + 1)).type = .text w

def HasOther (e : Nat) (p : HTML5Parser) : Prop := ∃ j, (p.node e).lastChild = some j ∧ e + 1 ≤ j ∧ (j = e + 1 → p.IsElement j)

/-- The element is a node below the document, and the stack holds nodes. -/
structure Settled (e : Nat) (p : HTML5Parser) : Prop where
  linked : p.Linked
  open_lt : ∀ i ∈ p.openElements, i < p.nodes.length
  pos : e ≠ 0
  lt : e < p.nodes.length

/-- What becomes of the children of the element: once it is closed they stay, and another child stays one. -/
structure Follows (e : Nat) (p q : HTML5Parser) : Prop where
  settled : q.Settled e
  closed : e ∉ p.openElements → e ∉ q.openElements ∧ ∀ w, q.HasText e w ↔ p.HasText e w
  other : p.HasOther e → q.HasOther e

/-- The element will never have the text for its only child: it is closed without it, or has another child. -/
structure Lost (e : Nat) (w : List UInt8) (p : HTML5Parser) : Prop where
  settled : p.Settled e
  how : (e ∉ p.openElements ∧ ¬ p.HasText e w) ∨ p.HasOther e

variable {w : List UInt8} {ty : NodeType}

theorem HasOther.not_hasText (h : p.HasOther e) : ¬ p.HasText e w := by
  obtain ⟨j, hlast, -, helem⟩ := h
  rintro ⟨hlast', htype⟩
  cases hlast.symm.trans hlast'
  obtain ⟨tag, attrs, htype'⟩ := helem rfl
  cases htype.symm.trans htype'

theorem Lost.not_hasText (h : p.Lost e w) : ¬ p.HasText e w := h.how.elim And.right HasOther.not_hasText

theorem Follows.lost (h : Follows e p q) (hp : p.Lost e w) : q.Lost e w := by
  refine ⟨h.settled, hp.how.imp (fun ⟨hclosed, hnot⟩ => ?_) h.other⟩
  obtain ⟨hclosed', hsame⟩ := h.closed hclosed
  exact ⟨hclosed', (hsame w).not.mpr hnot⟩

theorem Follows.trans (h : Follows e p q) (h' : Follows e q r) : Follows e p r := by
  refine ⟨h'.settled, fun hclosed => ?_, fun hother => h'.other (h.other hother)⟩
  obtain ⟨hq, hsame⟩ := h.closed hclosed
  obtain ⟨hr, hsame'⟩ := h'.closed hq
  exact ⟨hr, fun w => (hsame' w).trans (hsame w)⟩

theorem Settled.refl (h : p.Settled e) : Follows e p p := ⟨h, fun hclosed => ⟨hclosed, fun _ => Iff.rfl⟩, id⟩

theorem Settled.frame (h : p.Settled e) (hnodes : q.nodes = p.nodes)
    (hopen : ∀ i ∈ q.openElements, i ∈ p.openElements ∨ i < p.nodes.length ∧ i ≠ e) : Follows e p q := by
  have hnode : ∀ i, q.node i = p.node i := fun i => by rw [node, node, hnodes]
  refine ⟨⟨(sameLinks_of_nodes hnodes).linked h.linked, fun i hi => ?_, h.pos, by rw [hnodes]; exact h.lt⟩, fun hclosed => ⟨?_, fun w => ?_⟩, ?_⟩
  · rw [hnodes]
    exact (hopen i hi).elim (h.open_lt i) And.left
  · exact fun he => (hopen e he).elim hclosed fun hne => hne.2 rfl
  · rw [HasText, HasText, hnode, hnode]
  · rintro ⟨j, hj, hle, helem⟩
    refine ⟨j, by rw [hnode]; exact hj, hle, fun heq => ?_⟩
    rw [IsElement, hnode]
    exact helem heq

theorem Settled.append (h : p.Settled e) (happ : p.Appended k ty q) (hk : k < p.nodes.length) (hin : k ∈ p.openElements ∨ k = 0) :
    Follows e p q := by
  have hne : e ≠ p.nodes.length := Nat.ne_of_lt h.lt
  refine ⟨⟨happ.linked h.linked hk, fun i hi => ?_, h.pos, ?_⟩, fun hclosed => ⟨by rw [happ.openElements]; exact hclosed, fun w => ?_⟩, ?_⟩
  · rw [happ.openElements] at hi
    rw [happ.length]
    exact lt_succ_of_lt (h.open_lt i hi)
  · rw [happ.length]
    exact lt_succ_of_lt h.lt
  · have hek : e ≠ k := by
      rintro rfl
      exact hin.elim hclosed h.pos
    rw [HasText, HasText, happ.lastChild, if_neg hne, if_neg hek]
    refine and_congr_right fun hlast => ?_
    rw [happ.type, if_neg (Nat.ne_of_lt (h.linked.last e _ hlast).1)]
  · rintro ⟨j, hj, hle, helem⟩
    have hlt := (h.linked.last e j hj).1
    by_cases hek : e = k
    · refine ⟨p.nodes.length, ?_, by omega, fun heq => by omega⟩
      rw [happ.lastChild, if_neg hne, if_pos hek]
    · refine ⟨j, ?_, hle, fun heq => ?_⟩
      · rw [happ.lastChild, if_neg hne, if_neg hek]
        exact hj
      · rw [IsElement, happ.type, if_neg (Nat.ne_of_lt hlt)]
        exact helem heq

theorem Settled.write {s s' : List UInt8} (h : p.Settled e) (hk : k ∈ p.openElements) (hlast : (p.node k).lastChild = some i)
    (htype : (p.node i).type = .text s) : Follows e p (p.setNode i fun n => { n with type := .text s' }) := by
  have hsame : SameLinks p (p.setNode i fun n => { n with type := .text s' }) := sameLinks_setNode (fun _ => .text s') i
  obtain ⟨hi, hchild, -⟩ := h.linked.last k i hlast
  have hnode : ∀ j, j ≠ i → ((p.setNode i fun n => { n with type := .text s' }).node j).type = (p.node j).type := fun j hj => by
    rw [node_setNode hi, if_neg hj]
  refine ⟨⟨hsame.linked h.linked, fun j hj => by rw [hsame.length]; exact h.open_lt j hj, h.pos, by rw [hsame.length]; exact h.lt⟩,
    fun hclosed => ⟨hclosed, fun w => ?_⟩, ?_⟩
  · rw [HasText, HasText, hsame.lastChild]
    refine and_congr_right fun hlast' => ?_
    have hne : e + 1 ≠ i := by
      rintro rfl
      have hparent := (h.linked.last e _ hlast').2.1.parent
      cases hparent.symm.trans hchild.parent
      exact hclosed hk
    rw [hnode _ hne]
  · rintro ⟨j, hj, hle, helem⟩
    refine ⟨j, (hsame.lastChild e).trans hj, hle, fun heq => ?_⟩
    obtain ⟨tag, attrs, helem⟩ := helem heq
    have hne : j ≠ i := by
      rintro rfl
      cases htype.symm.trans helem
    exact ⟨tag, attrs, (hnode j hne).trans helem⟩

theorem Builds.follows (h : Builds p q) (hp : p.Settled e) : Follows e p q := by
  induction h with
  | refl => exact hp.refl
  | mode _ m ih => exact ih.trans (ih.settled.frame rfl fun i hi => .inl hi)
  | popped _ hl ih => exact ih.trans (ih.settled.frame rfl fun i hi => .inl (hl.mem hi))
  | @element q r t _ hr ih =>
    obtain ⟨k, hk, hr⟩ := bind_eq_some_iff.mp hr
    cases hr
    have hmem : k ∈ q.openElements := mem_of_mem_head? hk
    have hlt := ih.settled.open_lt k hmem
    have happ := appendChild_appended ih.settled.linked hlt (.element (t.name.take 63) (t.attrs.foldl setAttribute []))
    have hnew := ih.trans (ih.settled.append happ hlt (.inl hmem))
    rw [pushElement]
    split
    · refine hnew.trans (hnew.settled.frame rfl fun i hi => ?_)
      rcases mem_cons.mp hi with rfl | hi
      · refine .inr ⟨?_, (Nat.ne_of_lt ih.settled.lt).symm⟩
        rw [happ.length]
        exact lt_succ_self _
      · exact .inl hi
    · exact hnew
  | @character q r t _ hr ih =>
    obtain ⟨k, hk, hr⟩ := bind_eq_some_iff.mp hr
    have hmem : k ∈ q.openElements := mem_of_mem_head? hk
    have hlt := ih.settled.open_lt k hmem
    have happend := ih.trans (ih.settled.append (appendChild_appended ih.settled.linked hlt (.text t.data)) hlt (.inl hmem))
    split at hr
    · cases hr
      exact happend
    · next last hlast =>
      split at hr
      · next s hs =>
        cases hr
        exact ih.trans (ih.settled.write hmem hlast hs)
      · cases hr
        exact happend
  | @doctype q _ t ih =>
    have hpos : 0 < q.nodes.length := lt_of_le_of_lt (zero_le e) ih.settled.lt
    exact ih.trans (ih.settled.append (appendChild_appended ih.settled.linked hpos _) hpos (.inr rfl))

/-- What holds between any two steps. -/
structure Going (html : CString) (s : HTML5Parser × Tokenizer) : Prop where
  built : s.1.Built
  sound : s.2.Sound
  clean : s.2.Clean
  input : s.2.input = html

theorem process_built (h : p.Built) (hq : p.process t tz = some (q, tz')) :
    q.Built ∧ (tz' = tz ∨ ∃ s, Tokenizer.Imposed s ∧ tz' = tz.setState s) := by
  constructor
  · have hbuilt := (take_spec (s := (p, tz)) (t := t) h).1
    rw [take, hq] at hbuilt
    exact hbuilt
  · obtain ⟨q', u, hq', -, hu⟩ := process_spec h.steady t tz
    obtain ⟨-, rfl⟩ := Prod.mk.inj (some.inj (hq.symm.trans hq'))
    exact hu

theorem ParseStep.going {html : CString} {s s' : HTML5Parser × Tokenizer} (h : ParseStep s s') (hs : Going html s) :
    Going html s' ∧ s.2.position ≤ s'.2.position := by
  obtain ⟨hbuilt, hsound, hclean, hinput⟩ := hs
  have hmeets := step_meets hsound
  cases h with
  | @again p tz u hstep =>
    rw [hstep] at hmeets
    obtain ⟨hu, hui, -⟩ := hmeets
    rcases step_allows hclean with ⟨-, hallow⟩ | ⟨-, -, tok, -, hemit⟩ | ⟨v, hemit⟩
    · rw [hstep] at hallow
      exact ⟨⟨hbuilt, hu, hallow.clean, hui.trans hinput⟩, hallow.le⟩
    · cases hstep.symm.trans hemit
    · cases hstep.symm.trans hemit
  | @token p q tz u v tok hstep htype hp =>
    rw [hstep] at hmeets
    obtain ⟨hu, hui, -⟩ := hmeets
    have hafter : u.Clean ∧ tz.position ≤ u.position := by
      rcases step_allows hclean with ⟨-, hallow⟩ | ⟨-, -, tok', -, hemit⟩ | ⟨v, hemit⟩
      · rw [hstep] at hallow
        exact ⟨hallow.clean, hallow.le⟩
      · cases hstep.symm.trans hemit
        exact ⟨nofun, le_refl _⟩
      · cases hstep.symm.trans hemit
        exact absurd rfl htype
    obtain ⟨hq, hv⟩ := process_built hbuilt hp
    rcases hv with rfl | ⟨st, himp, rfl⟩
    · exact ⟨⟨hq, hu, hafter.1, hui.trans hinput⟩, hafter.2⟩
    · exact ⟨⟨hq, hu.setState himp, hafter.1, hui.trans hinput⟩, hafter.2⟩

theorem Parses.going {html : CString} {s s' : HTML5Parser × Tokenizer} (h : Parses s s') (hs : Going html s) :
    Going html s' ∧ s.2.position ≤ s'.2.position := by
  induction h with
  | refl => exact ⟨hs, le_refl _⟩
  | tail _ hstep ih => exact ⟨(hstep.going ih.1).1, ih.2.trans (hstep.going ih.1).2⟩

theorem Parsing.going {html : CString} {n : Nat} (h : Parsing html p n tz) : Going html (p, tz) := by
  induction h with
  | start => exact ⟨start_built, new_sound html, nofun, rfl⟩
  | again _ hs ih => exact ((ParseStep.again hs).going ih).1
  | token _ hs htype hp ih => exact ((ParseStep.token hs htype hp).going ih).1

theorem ParseStep.unique {s a b : HTML5Parser × Tokenizer} (h : ParseStep s a) (h' : ParseStep s b) : a = b := by
  cases h with
  | again hs =>
    cases h' with
    | again hs' =>
      cases hs.symm.trans hs'
      rfl
    | token hs' _ _ => cases hs.symm.trans hs'
  | token hs _ hp =>
    cases h' with
    | again hs' => cases hs.symm.trans hs'
    | token hs' _ hp' =>
      cases hs.symm.trans hs'
      cases hp.symm.trans hp'
      rfl

theorem Parses.total {s a b : HTML5Parser × Tokenizer} (h : Parses s a) (h' : Parses s b) : Parses a b ∨ Parses b a :=
  total_of_right_unique (fun _ _ _ h h' => h.unique h') h h'

/-- Behind the closing tag: a tag that the stack keeps no more. -/
def Outside (s : HTML5Parser × Tokenizer) : Prop := s.1.mode = .afterBody ∨ s.1.mode = .afterAfterBody

private theorem process_outside (h : p.mode = .afterBody ∨ p.mode = .afterAfterBody) (hq : p.process t tz = some (q, tz')) :
    q.mode = .afterBody ∨ q.mode = .afterAfterBody := by
  rw [process, processToken] at hq
  rcases h with hm | hm <;> rw [hm] at hq <;> dsimp only at hq
  · split_ifs at hq
    · cases hq
      exact .inr rfl
    · cases hq
      exact .inl hm
  · cases hq
    exact .inr hm

/-- So much of the text is there, and a character of it is lost already or about to be: what stands in a tag, a comment or
a reference is none of the text. -/
structure Below (b n : Nat) (x : List UInt8) (u : Tokenizer) : Prop where
  behind : b + x.length + 1 ≤ u.position
  markup : ¬ Tokenizer.Imposed u.state → x.length + 1 ≤ n
  begun : u.state = .tagOpen → b + x.length + 2 ≤ u.position
  reference : u.state.IsReference → b + x.length + 2 ≤ u.position ∧ x.length + 2 ≤ n

structure Content (html : CString) (b : Nat) (w close : CString) : Prop where
  left : ∃ rest, html.drop b = w ++ (close ++ rest)
  closing : ∀ c ∈ close.tail, c.val ≠ less ∧ c.val ≠ amp
  first : ∀ c ∈ close.head?, c.val ≠ amp

/-- No way leads back to the text `w`. -/
def Astray (p : HTML5Parser) (e b : Nat) (w close : CString) (s : HTML5Parser × Tokenizer) : Prop :=
  (∃ x, s.1 = p.withText e x ∧ Below b w.length x s.2) ∨ s.1.Lost e (w.map (·.val)) ∨ Outside s ∨
    b + w.length + close.length < s.2.position

variable {html w close : CString} {b n : Nat} {x : List UInt8} {u v : Tokenizer} {z : CString}

/-- A `<` or an ampersand before the end of the closing tag. -/
theorem Content.char (h : Content html b w close) (hu : u.input = html)
    (hend : u.position < b + w.length + close.length) :
    (u.currentChar = less → u.position ≤ b + w.length) ∧ (u.currentChar = amp → u.position < b + w.length) := by
  obtain ⟨rest, hleft⟩ := h.left
  have hget : ∀ i, i < w.length + close.length → html[b + i]? = (w ++ close)[i]? := by
    intro i hi
    have hcong := congrArg (fun l : CString => l[i]?) hleft
    rw [getElem?_drop, ← append_assoc, getElem?_append_left (by rw [length_append]; exact hi)] at hcong
    exact hcong
  have hclose : ∀ i, u.position = b + w.length + i → u.currentChar = (close[i]?).elim 0 (·.val) := by
    intro i hi
    rw [currentChar, hu, hi, add_assoc, hget _ (by omega), getElem?_append_right (le_add_right _ _),
      Nat.add_sub_cancel_left]
  constructor
  · intro hless
    by_contra hgt
    have hchar := hclose (u.position - b - w.length) (by omega)
    rw [hless] at hchar
    obtain ⟨i, hi⟩ : ∃ i, u.position - b - w.length = i + 1 := ⟨u.position - b - w.length - 1, by omega⟩
    rw [hi, ← getElem?_tail] at hchar
    cases hc : close.tail[i]? with
    | none =>
      rw [hc] at hchar
      cases hchar
    | some c =>
      rw [hc] at hchar
      exact (h.closing c (mem_of_getElem? hc)).1 hchar.symm
  · intro hamp
    by_contra hge
    have hchar := hclose (u.position - b - w.length) (by omega)
    rw [hamp] at hchar
    cases hc : close[u.position - b - w.length]? with
    | none =>
      rw [hc] at hchar
      cases hchar
    | some c =>
      rw [hc] at hchar
      cases hk : u.position - b - w.length with
      | zero =>
        rw [hk, ← head?_eq_getElem?] at hc
        exact h.first c hc hchar.symm
      | succ i =>
        rw [hk, ← getElem?_tail] at hc
        exact (h.closing c (mem_of_getElem? hc)).2 hchar.symm

theorem Below.goes (h : Below b w.length x u) (hcont : Content html b w close) (hu : u.input = html) (hgo : u.Goes v) :
    Below b w.length x v ∨ b + w.length + close.length < v.position := by
  obtain ⟨hle, -, hhow⟩ := hgo
  obtain ⟨hbehind, hmarkup, hbegun, href⟩ := h
  rcases hhow with ⟨himp, hless, hstate, hpos⟩ | ⟨-, hamp, hstate, hpos⟩ | ⟨hat, hstate, hpos⟩ | ⟨himp, hno, hnoref⟩
  · by_cases hend : u.position < b + w.length + close.length
    · have hlt := (hcont.char hu hend).1 hless
      refine .inl ⟨by omega, fun _ => by omega, fun _ => by omega, fun hr => ?_⟩
      rw [hstate] at hr
      exact hr.elim
    · exact .inr (by omega)
  · by_cases hend : u.position < b + w.length + close.length
    · have hlt := (hcont.char hu hend).2 hamp
      exact .inl ⟨by omega, fun _ => by omega, fun _ => by omega, fun _ => ⟨by omega, by omega⟩⟩
    · exact .inr (by omega)
  · obtain ⟨h1, h2⟩ := href (by rw [hat]; trivial)
    exact .inl ⟨by omega, fun _ => by omega, fun _ => by omega, fun _ => ⟨by omega, h2⟩⟩
  · exact .inl ⟨by omega, fun _ => hmarkup himp, fun hs => (hno hs).elim, fun hr => (hnoref hr).elim⟩

theorem Below.gives (h : Below b n x u) (hsound : u.Sound) (hgive : u.Gives t v) :
    (∃ c, t = .ofCharacter c ∧ Below b n (x ++ [c]) v) ∨ (t.type ≠ .character ∧ x.length + 1 ≤ n ∧ Below b n x v) := by
  obtain ⟨hle, -, hhow⟩ := hgive
  obtain ⟨hbehind, hmarkup, hbegun, href⟩ := h
  have hlen : ∀ c : UInt8, (x ++ [c]).length = x.length + 1 := fun c => length_append
  have hread : ∀ s : TokenizerState, Tokenizer.Imposed s → s ≠ .tagOpen ∧ ¬ s.IsReference := by
    rintro s (rfl | rfl | rfl) <;> exact ⟨nofun, id⟩
  rcases hhow with ⟨himp, ⟨c, rfl⟩, hstate, hpos⟩ | ⟨hat, ⟨c, rfl⟩, hstate, hpos⟩ | ⟨hat, ⟨c, rfl⟩, hstate⟩ | ⟨himp, htype, hstate⟩
  · obtain ⟨hno, hnoref⟩ := hread _ himp
    refine .inl ⟨c, rfl, ?_, ?_, ?_, ?_⟩ <;> rw [hlen]
    · omega
    · exact fun hm => (hm (hstate ▸ himp)).elim
    · exact fun hs => (hno (hstate ▸ hs)).elim
    · exact fun hr => (hnoref (hstate ▸ hr)).elim
  · have hpos' := hbegun hat
    refine .inl ⟨c, rfl, ?_, ?_, ?_, ?_⟩ <;> rw [hlen]
    · omega
    · exact fun hm => (hm (.inl hstate)).elim
    · exact fun hs => nomatch hstate.symm.trans hs
    · exact fun hr => by rw [hstate] at hr; exact hr.elim
  · obtain ⟨hpos', hle'⟩ := href hat
    have hreturns := hsound.returns
    refine .inl ⟨c, rfl, ?_, ?_, ?_, ?_⟩ <;> rw [hlen]
    · omega
    · exact fun _ => hle'
    · intro hs
      rw [← hstate, hs] at hreturns
      exact hreturns.elim
    · intro hr
      exact (hreturns.not_isReference (hstate ▸ hr)).elim
  · exact .inr ⟨htype, hmarkup himp, by omega, fun _ => hmarkup himp, fun hs => (nomatch hstate.symm.trans hs),
      fun hr => by rw [hstate] at hr; exact hr.elim⟩

private theorem withText_lastChild (h : p.RawStart e) (x : List UInt8) (y : List UInt8) (hne : x ≠ y) : ¬ (p.withText e x).HasText e y := by
  rintro ⟨hlast, htype⟩
  by_cases hx : x = []
  · rw [hx, withText_nil, h.childless] at hlast
    cases hlast
  · have happ := appendChild_appended h.built.linked h.lt (.text x)
    rw [withText, if_neg hx, happ.type, if_pos h.last.symm] at htype
    exact hne (NodeType.text.inj htype)

private theorem chain_lt {l : List Nat} (hl : l.IsChain p.ElementChild) (hb : l.getLast? = some 0) (h0 : 0 < p.nodes.length) :
    ∀ i ∈ l, i < p.nodes.length := by
  induction l with
  | nil => exact fun i hi => absurd hi not_mem_nil
  | cons j l ih =>
    cases l with
    | nil =>
      cases hb
      intro i hi
      rw [mem_singleton.mp hi]
      exact h0
    | cons k l =>
      obtain ⟨hjk, hchain⟩ := isChain_cons_cons.mp hl
      intro i hi
      rcases mem_cons.mp hi with rfl | hi
      · exact hjk.2.lt
      · exact ih hchain hb i hi

theorem Built.open_lt (h : p.Built) : ∀ i ∈ p.openElements, i < p.nodes.length := chain_lt h.chain h.steady.bottom h.zero_lt

theorem RawStart.le_withText (h : p.RawStart e) (x : List UInt8) : e < (p.withText e x).nodes.length := by
  have hlt := h.lt
  rw [withText]
  split
  · exact hlt
  · rw [(appendChild_appended h.built.linked hlt _).length]
    exact lt_succ_of_lt hlt

theorem RawStart.closed_lost (h : p.RawStart e) (hbuilt : (p.withText e x).Built) (hne : x ≠ w.map (·.val)) {l : List Nat}
    (hl : l <:+ p.openElements.tail) (m : InsertionMode) :
    Lost e (w.map (·.val)) { p.withText e x with openElements := l, mode := m } := by
  have hsuffix : l <:+ (p.withText e x).openElements := by
    rw [withText_openElements]
    exact hl.trans (tail_suffix _)
  have hlinks : SameLinks (p.withText e x) { p.withText e x with openElements := l, mode := m } := sameLinks_of_nodes rfl
  refine ⟨⟨hlinks.linked hbuilt.linked, fun i hi => hbuilt.open_lt i (hsuffix.mem hi), h.pos, h.le_withText x⟩, .inl ⟨fun he => h.once (hl.mem he), withText_lastChild h x _ hne⟩⟩

theorem RawStart.child_lost (h : p.RawStart e) (hcur : p.currentNode = some e) (hbuilt : (p.withText e x).Built)
    (hq : (p.withText e x).insertElement t = some q) (w : List UInt8) : q.Lost e w := by
  obtain ⟨q', hq', hset, -⟩ := insertElement_built hbuilt t
  cases hq.symm.trans hq'
  have hqb : q.Built := hset q.mode
  have hlt := h.le_withText x
  have happ := appendChild_appended hbuilt.linked hlt (.element (t.name.take 63) (t.attrs.foldl setAttribute []))
  have hcur' : (p.withText e x).currentNode = some e := by rw [currentNode, withText_openElements]; exact hcur
  rw [insertElement, hcur'] at hq
  have hnodes : q.nodes = ((p.withText e x).appendChild e (.element (t.name.take 63) (t.attrs.foldl setAttribute []))).nodes := by
    cases hq
    rw [pushElement]
    split <;> rfl
  have hnode : ∀ i, q.node i = ((p.withText e x).appendChild e (.element (t.name.take 63) (t.attrs.foldl setAttribute []))).node i :=
    fun i => by rw [node, node, hnodes]
  refine ⟨⟨hqb.linked, hqb.open_lt, h.pos, ?_⟩, .inr ⟨(p.withText e x).nodes.length, ?_, hlt, fun _ => ?_⟩⟩
  · rw [hnodes, happ.length]
    exact lt_succ_of_lt hlt
  · rw [hnode, happ.lastChild, if_neg (Nat.ne_of_lt hlt), if_pos rfl]
  · rw [IsElement, hnode, happ.type, if_pos rfl]
    exact ⟨_, _, rfl⟩

theorem RawStart.process_other (h : p.RawStart e) (hcur : p.currentNode = some e) (hbuilt : (p.withText e x).Built)
    (hne : x ≠ w.map (·.val)) (htype : t.type ≠ .character) (hq : (p.withText e x).process t u = some (q, v)) :
    (q = p.withText e x ∧ v = u) ∨ q.Lost e (w.map (·.val)) ∨ Outside (q, v) := by
  have hmode := withText_mode p e x
  obtain ⟨l, hl⟩ : ∃ l, p.openElements = e :: l := by
    cases hopen : p.openElements with
    | nil =>
      rw [currentNode, hopen] at hcur
      cases hcur
    | cons i l =>
      rw [currentNode, hopen] at hcur
      cases hcur
      exact ⟨l, rfl⟩
  rw [process, processToken] at hq
  rcases h.mode with hm | hm <;> rw [hmode, hm] at hq <;> dsimp only at hq
  · cases ht : t.type <;> rw [ht] at hq <;> dsimp only at hq
    case character => exact absurd ht htype
    case endTag =>
      cases hq
      refine .inr (.inl (h.closed_lost hbuilt hne ?_ _))
      rw [← withText_openElements p e x]
      exact suffix_refl _
    all_goals
      cases hq
      exact .inl ⟨rfl, rfl⟩
  · cases ht : t.type <;> rw [ht] at hq <;> dsimp only at hq
    case character => exact absurd ht htype
    case startTag =>
      obtain ⟨r, hr, hq⟩ := bind_eq_some_iff.mp hq
      have hlost := h.child_lost hcur hbuilt hr (w.map (·.val))
      right
      left
      split_ifs at hq
      · cases hq
        exact (hlost.settled.frame (q := r.setMode .text) rfl fun i hi => .inl hi).lost hlost
      · cases hq
        exact (hlost.settled.frame (q := r.popElement) rfl fun i hi => .inl (mem_of_mem_tail hi)).lost hlost
      · cases hq
        exact hlost
    case endTag =>
      split_ifs at hq
      · cases hq
        exact .inr (.inr (.inl rfl))
      · cases hq
        refine .inr (.inl (h.closed_lost hbuilt hne ?_ _))
        have hbottom := h.built.steady.bottom
        rw [withText_openElements]
        rw [hl] at hbottom ⊢
        cases l with
        | nil => exact absurd (some.inj hbottom) h.pos
        | cons j l =>
          rw [popThrough]
          split
          · exact suffix_refl _
          · exact popThrough_suffix _ _ _
    all_goals
      cases hq
      exact .inl ⟨rfl, rfl⟩

theorem RawStart.astray_step (h : p.RawStart e) (hcur : p.currentNode = some e) (hcont : Content html b w close)
    {s s' : HTML5Parser × Tokenizer} (hs : Going html s) (ha : Astray p e b w close s) (hstep : ParseStep s s') :
    Astray p e b w close s' := by
  rcases ha with ⟨x, hx, hbelow⟩ | hlost | hout | hpast
  · obtain ⟨hbuilt, hsound, hclean, hinput⟩ := hs
    -- what a token does that is no character, when the tokenizer then stands at `v`
    have hother : ∀ {t : Token} {v v' : Tokenizer} {q : HTML5Parser}, t.type ≠ .character → x.length + 1 ≤ w.length →
        Below b w.length x v → (p.withText e x).process t v = some (q, v') → Astray p e b w close (q, v') := by
      intro t v v' q htype hlen hv hp
      have hne : x ≠ w.map (·.val) := by
        rintro rfl
        rw [length_map] at hlen
        omega
      rcases h.process_other hcur (hx ▸ hbuilt) hne htype hp with ⟨rfl, rfl⟩ | hlost | hout
      · exact .inl ⟨x, rfl, hv⟩
      · exact .inr (.inl hlost)
      · exact .inr (.inr (.inl hout))
    cases hstep with
    | @again q u v hstep =>
      rcases step_allows hclean with ⟨-, hallow⟩ | ⟨-, -, tok, -, hemit⟩ | ⟨_, hemit⟩
      · rw [hstep] at hallow
        rcases hbelow.goes hcont hinput hallow with hv | hpast
        · exact .inl ⟨x, hx, hv⟩
        · exact .inr (.inr (.inr hpast))
      · cases hstep.symm.trans hemit
      · cases hstep.symm.trans hemit
    | @token r q u v v' t hstep htype hp =>
      obtain rfl : r = p.withText e x := hx
      rcases step_allows hclean with ⟨-, hallow⟩ | ⟨-, himp, tok, htok, hemit⟩ | ⟨_, hemit⟩
      · rw [hstep] at hallow
        rcases hbelow.gives hsound hallow with ⟨c, rfl, hv⟩ | ⟨hchar, hlen, hv⟩
        · cases (h.process_character hcur x c v).symm.trans hp
          exact .inl ⟨_, rfl, hv⟩
        · exact hother hchar hlen hv hp
      · cases hstep.symm.trans hemit
        obtain ⟨hbehind, hmarkup, hbegun, href⟩ := hbelow
        exact hother (v := { u with currentToken := none }) (hclean _ htok) (hmarkup himp) ⟨hbehind, hmarkup, hbegun, href⟩ hp
      · cases hstep.symm.trans hemit
        exact absurd rfl htype
  · refine .inr (.inl ?_)
    cases hstep with
    | again _ => exact hlost
    | token _ _ hp => exact ((processToken_builds hp).follows hlost.settled).lost hlost
  · refine .inr (.inr (.inl ?_))
    cases hstep with
    | again _ => exact hout
    | token _ _ hp => exact process_outside hout hp
  · exact .inr (.inr (.inr (lt_of_lt_of_le hpast (hstep.going hs).2)))

theorem Below.cons {c : UInt8} (h : Below (b + 1) n x u) : Below b (n + 1) (c :: x) u := by
  obtain ⟨hbehind, hmarkup, hbegun, href⟩ := h
  refine ⟨?_, fun hm => ?_, fun hs => ?_, fun hr => ?_⟩ <;> rw [length_cons]
  · omega
  · have := hmarkup hm
    omega
  · have := hbegun hs
    omega
  · have := href hr
    omega

private theorem below_markup (hb : b + 1 ≤ u.position) (hn : 1 ≤ n) (hs : u.state ≠ .tagOpen ∧ ¬ u.state.IsReference) : Below b n [] u :=
  ⟨hb, fun _ => hn, fun h => (hs.1 h).elim, fun h => (hs.2 h).elim⟩

private theorem step_opens {c d : CChar} (hs : Tokenizer.Imposed tz.state) (h : tz.left = c :: d :: z) (hc : c.val = less)
    (hd : d.val = bang ∨ d.val = slash ∨ isAsciiAlpha d.val = true) :
    ∃ u, tz.Steps [] u ∧ tz.position + 1 ≤ u.position ∧ u.position ≤ tz.position + 2 ∧ u.state ≠ .tagOpen ∧ ¬ u.state.IsReference := by
  have hopen := step_less hs h hc
  have hleft : ((tz.skip 1).setState .tagOpen).left = d :: z := left_skip (w := [c]) h
  have hadv : ∀ s, (((tz.skip 1).setState .tagOpen).setState s).advance = (tz.skip 2).setState s := fun s =>
    advance_of_left hleft
  have hstep : ∃ u, ((tz.skip 1).setState .tagOpen).step = .again u ∧ tz.position + 1 ≤ u.position ∧ u.position ≤ tz.position + 2 ∧
      u.state ≠ .tagOpen ∧ ¬ u.state.IsReference := by
    rw [step_of hleft, dispatch]
    by_cases hbang : d.val = bang
    · exact ⟨(tz.skip 2).setState .commentStart, by rw [if_pos hbang]; exact congrArg Scan.again (hadv .commentStart),
        le_succ _, le_refl _, by rintro ⟨⟩, id⟩
    · rw [if_neg hbang]
      by_cases hslash : d.val = slash
      · exact ⟨(tz.skip 2).setState .endTagOpen, by rw [if_pos hslash]; exact congrArg Scan.again (hadv .endTagOpen),
          le_succ _, le_refl _, by rintro ⟨⟩, id⟩
      · rw [if_neg hslash, if_pos ((hd.resolve_left hbang).resolve_left hslash)]
        exact ⟨_, rfl, le_refl _, le_succ _, by rintro ⟨⟩, id⟩
  obtain ⟨u, hu, hpos⟩ := hstep
  exact ⟨u, .again hopen (.again hu (.refl u)), hpos⟩

private theorem references_pos : ∀ r ∈ references, 1 ≤ r.2.1 := by decide

private theorem steps_opens {c d : CChar} {y : CString} (hs : Tokenizer.InText tz.state) (h : tz.left = d :: (y ++ c :: z)) (hc : c.val = less)
    (hd : d.val = amp) (hy : opensReference y) :
    ∃ x u, tz.Steps (x.map .ofCharacter) u ∧ Below tz.position (y.length + 1) x u ∧ u.position ≤ tz.position + y.length + 2 := by
  have hleft : tz.advance.left = y ++ c :: z := by
    rw [advance_of_left h]
    exact left_skip (w := [d]) h
  have hlooks : ∀ s : String, tz.advance.looksAt s = true ↔ ofString s <+: y ++ c :: z := fun s => by
    rw [looksAt, isPrefixOf_iff_prefix, ← hleft, left]
  have hat : tz.AtReference := by
    refine ⟨?_, (currentChar_of h).trans hd⟩
    rcases hs with hs | hs <;> rw [hs] <;> trivial
  obtain ⟨e, v, hnext⟩ : ∃ e v, y ++ c :: z = e :: v := by
    cases y with
    | nil => exact ⟨c, z, rfl⟩
    | cons e y => exact ⟨e, y ++ c :: z, rfl⟩
  have hahead : tz.ahead 1 = e.val := currentChar_of ((left_skip (w := [d]) h).trans hnext)
  have hopened := step_opened (t := tz) (by rw [hahead]; exact e.property)
  have hopen := step_amp hat
  have hhead : ∀ f ∈ y.head?, f = e := fun f hf =>
    some.inj (((mem_head?_append_of_mem_head? hf).symm.trans (congrArg head? hnext)))
  rcases hy with ⟨f, hf, hhash⟩ | ⟨r, hr, hpre⟩
  · rw [hahead, ← hhead f hf, hhash, if_neg (by decide), if_pos rfl] at hopened
    exact ⟨[], _, .again hopen (.again hopened (.refl _)), below_markup (le_succ _) (succ_pos _) ⟨by rintro ⟨⟩, id⟩, by dsimp only; omega⟩
  · obtain ⟨a, l, hname, halpha⟩ := references_alpha r hr
    have ha : a = e := by
      rw [hname] at hpre
      obtain ⟨rest, rfl⟩ := hpre
      exact hhead a rfl
    have hnamed := step_named (t := tz) (by rw [hahead]; exact e.property)
    rw [hahead, ← ha, if_pos halpha] at hopened
    cases hfind : references.find? fun r => tz.advance.looksAt r.1 with
    | none => exact absurd ((hlooks r.1).mpr (hpre.trans (prefix_append y _))) (find?_eq_none.mp hfind r hr)
    | some found =>
      obtain ⟨name, len, ch⟩ := found
      rw [hfind] at hnamed
      have hmem := mem_of_find?_eq_some hfind
      have hlook := find?_some hfind
      have hlen : len = (ofString name).length := references_length _ hmem
      have hshort : len ≤ y.length := by
        rw [hlen]
        refine (prefix_before ((hlooks name).mp hlook) fun f hf hmem' => ?_).length_le
        cases hf
        exact references_less _ hmem c hmem' hc
      have hlong : 1 ≤ len := references_pos _ hmem
      have hread : Tokenizer.Imposed tz.state := hs.imp_right .inl
      refine ⟨[ch], { tz.opened with state := tz.state, position := tz.position + 1 + len },
        .again hopen (.again hopened (.emit hnamed (.refl _))), ⟨?_, fun hm => (hm hread).elim, fun ht => ?_, fun ht => ?_⟩, ?_⟩
      · dsimp only [length_singleton]
        omega
      · rcases hs with hs | hs <;> rw [hs] at ht <;> cases ht
      · rcases hs with hs | hs <;> rw [hs] at ht <;> exact ht.elim
      · dsimp only
        omega

private theorem lost_text {c : CChar} (hsound : tz.Sound) (hs : Tokenizer.Imposed tz.state) (h : tz.left = w ++ c :: z)
    (hc : c.val = less) (hlost : ¬ Kept tz.readsReferences w) :
    ∃ x u, tz.Steps (x.map .ofCharacter) u ∧ Below tz.position w.length x u ∧ u.position ≤ tz.position + w.length + 1 := by
  induction w generalizing tz with
  | nil => exact (hlost trivial).elim
  | cons d w ih =>
    by_cases hopens : Opens tz.readsReferences d w
    · rcases hopens with ⟨hless, e, he, hopen⟩ | ⟨hamp, hread, hrefers⟩
      · obtain ⟨w, rfl⟩ : ∃ w', w = e :: w' := by
          cases w with
          | nil => cases he
          | cons f w =>
            cases he
            exact ⟨w, rfl⟩
        obtain ⟨u, hsteps, hlow, hhigh, hstate⟩ := step_opens hs h hless hopen
        exact ⟨[], u, hsteps, below_markup hlow (succ_pos _) hstate, by rw [length_cons, length_cons]; omega⟩
      · have htext : Tokenizer.InText tz.state := by
          have hraw : tz.state ≠ .rawtext := of_decide_eq_true hread
          exact hs.imp_right fun hs => hs.resolve_right hraw
        exact steps_opens htext h hc hamp hrefers
    · obtain ⟨u, hu, hread⟩ := kept_reads hs h hc hopens
      have hrest : ¬ Kept u.readsReferences w := fun hkept => hlost ⟨hopens, hread ▸ hkept⟩
      obtain ⟨x, v, hsteps, hbelow, hhigh⟩ := ih (hu.1.sound hsound).1 hu.2.2.1 (hu.left (v := w ++ c :: z) hsound h) hrest
      have hpos : u.position = tz.position + 1 := hu.2.1
      rw [hpos] at hbelow hhigh
      exact ⟨d.val :: x, v, hu.1.trans hsteps, hbelow.cons, by rw [length_cons]; omega⟩

variable {name : List UInt8} {rest : CString} {s s' : HTML5Parser × Tokenizer}

theorem ParseStep.reads (h : ParseStep s s') (hs : Going html s) (himp : Tokenizer.Imposed s.2.state) :
    s.2.position + 1 ≤ s'.2.position := by
  have hread : ∀ st : TokenizerState, Tokenizer.Imposed st → st ≠ .tagOpen ∧ ¬ st.IsReference := by
    rintro st (rfl | rfl | rfl) <;> exact ⟨nofun, id⟩
  obtain ⟨hno, hnoref⟩ := hread _ himp
  cases h with
  | @again p u v hstep =>
    rcases step_allows hs.clean with ⟨-, hallow⟩ | ⟨-, -, tok, -, hemit⟩ | ⟨_, hemit⟩
    · rw [hstep] at hallow
      rcases hallow.how with ⟨-, -, -, hpos⟩ | ⟨-, -, -, hpos⟩ | ⟨hat, -⟩ | ⟨hmarkup, -⟩
      · exact hpos.ge
      · exact hpos.ge
      · dsimp only at hnoref
        rw [hat] at hnoref
        exact (hnoref trivial).elim
      · exact (hmarkup himp).elim
    · cases hstep.symm.trans hemit
    · cases hstep.symm.trans hemit
  | @token p q u v v' t hstep htype hp =>
    have hkeep : v'.position = v.position := by
      rcases (process_built hs.built hp).2 with rfl | ⟨st, -, rfl⟩ <;> rfl
    rw [hkeep]
    rcases step_allows hs.clean with ⟨-, hallow⟩ | ⟨-, hmarkup, -⟩ | ⟨_, hemit⟩
    · rw [hstep] at hallow
      rcases hallow.how with ⟨-, -, -, hpos⟩ | ⟨hat, -⟩ | ⟨hat, -⟩ | ⟨hmarkup, -⟩
      · exact hpos.ge
      · exact (hno hat).elim
      · exact (hnoref hat).elim
      · exact (hmarkup himp).elim
    · exact (hmarkup himp).elim
    · cases hstep.symm.trans hemit
      exact absurd rfl htype

theorem RawStart.closing_unique (h : p.RawStart e) (hs : Going html (p, tz)) (hname : IsTagName name) (hclose : IsClosingTag name close)
    (himp : Tokenizer.Imposed tz.state) (hleft : tz.left = close ++ rest) (hrun : Parses (p, tz) (q, u))
    (hpos : u.position = tz.position + close.length) : q = p.closeRaw name := by
  obtain ⟨t, hsteps, hemit, hlt⟩ := hands_closing hname.letters hclose himp hleft
  have hbefore : Parses (p, tz) (p, t) := parses_silent p hsteps
  have hstep : ParseStep (p, t) (p.closeRaw name, { tz.skip close.length with state := .data, currentToken := none }) := by
    have hdata : ({ tz.skip close.length with state := .data, currentToken := none } : Tokenizer).state = .data := rfl
    have hp := h.process_closing hname.notBody [] hdata
    rw [withText_nil, withText_nil] at hp
    exact .token hemit nofun hp
  have hgoing := hbefore.going hs
  have hlt' : t.position < u.position := by
    rw [hpos]
    exact hlt
  rcases hrun.total hbefore with hback | hon
  · exact absurd (hback.going (hrun.going hs).1).2 (not_le.mpr hlt')
  · rcases cases_head hon with heq | ⟨s', hs', hon⟩
    · cases heq
      exact absurd hlt' (lt_irrefl _)
    · cases hstep.unique hs'
      have hclosed := (hs'.going hgoing.1).1
      rcases cases_head hon with heq | ⟨s'', hs'', hon⟩
      · cases heq
        rfl
      · have hread := hs''.reads hclosed (.inl rfl)
        have hle := (Parses.going hon (hs''.going hclosed).1).2
        dsimp only [skip] at hread hle
        omega

theorem RawStart.open_cons (h : p.RawStart e) (hcur : p.currentNode = some e) : ∃ j l, p.openElements = e :: j :: l := by
  have hbottom := h.built.steady.bottom
  rw [currentNode] at hcur
  rcases hopen : p.openElements with _ | ⟨i, _ | ⟨j, l⟩⟩
  · rw [hopen] at hcur
    cases hcur
  · rw [hopen] at hcur hbottom
    cases hcur
    exact absurd (some.inj hbottom) h.pos
  · rw [hopen] at hcur
    cases hcur
    exact ⟨j, l, rfl⟩

theorem RawStart.closeRaw_eq (h : p.RawStart e) (name : List UInt8) : ∃ l m, p.closeRaw name = { p with openElements := l, mode := m } ∧
    (m = .inHead ∨ m = .inBody) ∧ (p.currentNode = some e → l <:+ p.openElements.tail) := by
  rw [closeRaw]
  by_cases hm : p.mode = .text
  · rw [if_pos hm]
    refine ⟨p.openElements.tail, _, rfl, ?_, fun _ => suffix_refl _⟩
    split
    · exact .inl rfl
    · exact .inr rfl
  · rw [if_neg hm]
    refine ⟨_, p.mode, rfl, .inr (h.mode.resolve_left hm), fun hcur => ?_⟩
    obtain ⟨j, l, hopen⟩ := h.open_cons hcur
    rw [hopen, popThrough]
    split
    · exact suffix_refl _
    · exact popThrough_suffix _ _ _

theorem RawStart.hasText (h : p.RawStart e) {y : List UInt8} (hy : y ≠ []) : (p.withText e y).HasText e y := by
  have happ := appendChild_appended h.built.linked h.lt (.text y)
  rw [HasText, withText, if_neg hy, happ.lastChild, happ.type, if_neg (Nat.ne_of_lt h.lt), if_pos rfl, h.last, if_pos rfl]
  exact ⟨rfl, rfl⟩

theorem RawStart.not_astray (h : p.RawStart e) (name : List UInt8) (hw : w ≠ []) (hcur : p.currentNode = some e)
    (hpos : u.position ≤ b + w.length + close.length) : ¬ Astray p e b w close ((p.closeRaw name).withText e (w.map (·.val)), u) := by
  intro ha
  obtain ⟨l, m, hclose, hm, hl⟩ := h.closeRaw_eq name
  rw [hclose, withText_frame] at ha
  rcases ha with ⟨x, hx, -⟩ | hlost | hout | hpast
  · have hopen := congrArg openElements hx
    rw [withText_openElements] at hopen
    obtain ⟨j, k, hcons⟩ := h.open_cons hcur
    have hlen := (hl hcur).length_le
    rw [show l = p.openElements from hopen, hcons, tail_cons, length_cons] at hlen
    exact absurd hlen (not_succ_le_self _)
  · exact hlost.not_hasText (h.hasText (map_eq_nil_iff.not.mpr hw))
  · dsimp only [Outside] at hout
    rcases hm with rfl | rfl <;> rcases hout with hout | hout <;> cases hout
  · exact absurd hpos (not_le.mpr hpast)

theorem RawStart.astray_run (h : p.RawStart e) (hcur : p.currentNode = some e) (hcont : Content html b w close) (hs : Going html s)
    (ha : Astray p e b w close s) (hrun : Parses s s') : Astray p e b w close s' := by
  induction hrun with
  | refl => exact ha
  | tail hbefore hstep ih => exact h.astray_step hcur hcont (Parses.going hbefore hs).1 ih hstep

theorem Parses.follows (hrun : Parses s s') (hs : s.1.Settled e) : Follows e s.1 s'.1 := by
  induction hrun with
  | refl => exact hs.refl
  | tail _ hstep ih =>
    cases hstep with
    | again _ => exact ih
    | token _ _ hp => exact ih.trans ((processToken_builds hp).follows ih.settled)

theorem RawStart.settled (h : p.RawStart e) : p.Settled e := ⟨h.built.linked, h.built.open_lt, h.pos, h.lt⟩

theorem RawStart.lost_start (h : p.RawStart e) (hcur : p.currentNode ≠ some e) (x : List UInt8) : p.Lost e x := by
  refine ⟨h.settled, .inl ⟨fun he => ?_, fun hhas => ?_⟩⟩
  · cases hopen : p.openElements with
    | nil =>
      rw [hopen] at he
      cases he
    | cons i l =>
      have honce := h.once
      rw [hopen] at he honce
      rcases mem_cons.mp he with rfl | he
      · exact hcur (by rw [currentNode, hopen]; rfl)
      · exact honce he
  · cases h.childless.symm.trans hhas.1

/-- The contents `w` of an element: the parser comes behind the closing tag in the state in which it would be without the
contents, but with the text `w` for the only child of the element, and this stays so. -/
def Contains (p : HTML5Parser) (e : Nat) (tz : Tokenizer) (w close rest : CString) : Prop :=
  ∃ q u q₀ u₀, Parses (p, tz) (q, u) ∧ Parses (p, Without tz (close ++ rest)) (q₀, u₀) ∧
    u.position = tz.position + w.length + close.length ∧ u₀.position = tz.position + close.length ∧
    u.state = u₀.state ∧ u.currentToken = u₀.currentToken ∧ q = q₀.withText e (w.map (·.val)) ∧
    ∀ s, Parses (q, u) s → w = [] ∨ s.1.HasText e (w.map (·.val))

theorem RawStart.contains (h : p.RawStart e) (hname : IsTagName name) (hclose : IsClosingTag name close)
    (hcur : w = [] ∨ p.currentNode = some e) (hsound : tz.Sound) (hs : Tokenizer.Imposed tz.state)
    (hleft : tz.left = w ++ (close ++ rest)) (hkept : Kept tz.readsReferences w) : Contains p e tz w close rest := by
  obtain ⟨c, z, hc, hless⟩ := closing_cons hclose
  have hleft' : tz.left = w ++ c :: (z ++ rest) := by rw [hleft, hc, cons_append]
  obtain ⟨u, hu⟩ := kept_text hsound hs hleft' hless hkept
  have htext : Parses (p, tz) (p.withText e (w.map (·.val)), u) := by
    rcases hcur with rfl | hcur
    · exact parses_silent p hu.1
    · have hrun := h.parses_text hcur hu.1 []
      rw [withText_nil, nil_append] at hrun
      exact hrun
  have hend := h.parses_closing hname hclose hu.2.2.1 (hu.left hsound hleft) (w.map (·.val))
  have hwithout : (Without tz (close ++ rest)).left = close ++ rest :=
    left_without hleft (by rw [hc]; exact append_ne_nil_of_right_ne_nil w (cons_ne_nil c _))
  have hs₀ : Tokenizer.Imposed (Without tz (close ++ rest)).state := hs
  have hend₀ := h.parses_closing hname hclose hs₀ hwithout []
  rw [withText_nil, withText_nil] at hend₀
  have hfollows := Parses.follows (htext.trans hend) h.settled
  refine ⟨_, _, _, _, htext.trans hend, hend₀, ?_, rfl, rfl, rfl, rfl, fun s hlater => or_iff_not_imp_left.mpr fun hw => ?_⟩
  · rw [← hu.2.1]
    rfl
  · obtain ⟨l, m, heq, -, hl⟩ := h.closeRaw_eq name
    have hclosed : e ∉ ((p.closeRaw name).withText e (w.map (·.val))).openElements := by
      rw [heq, withText_openElements]
      exact fun he => h.once ((hl (hcur.resolve_left hw)).mem he)
    refine (((Parses.follows hlater hfollows.settled).closed hclosed).2 _).mpr ?_
    rw [heq, withText_frame]
    exact h.hasText (map_eq_nil_iff.not.mpr hw)

theorem IsClosingTag.content (hname : IsTagName name) (hclose : IsClosingTag name close) (hleft : html.drop b = w ++ (close ++ rest)) :
    Content html b w close := by
  obtain ⟨n, white, hn, hwhite, rfl⟩ := hclose
  refine ⟨⟨rest, hleft⟩, fun c hc => ?_, fun c hc => ?_⟩
  · rcases mem_cons.mp hc with rfl | hc
    · exact ⟨by decide, by decide⟩
    rcases mem_append.mp hc with hc | hc
    · have hletter := letter_of_lower (hname.letters.2.2 _ (hn ▸ mem_map_of_mem hc))
      constructor <;> intro heq <;> rw [heq] at hletter <;> cases hletter
    rcases mem_append.mp hc with hc | hc
    · have hspace := hwhite c hc
      constructor <;> intro heq <;> rw [heq] at hspace <;> cases hspace
    · rw [mem_singleton.mp hc]
      exact ⟨by decide, by decide⟩
  · cases hc
    decide

theorem RawStart.contains_iff (h : p.RawStart e) (hs : Going html (p, tz)) (hname : IsTagName name) (hclose : IsClosingTag name close)
    (himp : Tokenizer.Imposed tz.state) (hleft : tz.left = w ++ (close ++ rest)) :
    Contains p e tz w close rest ↔ (w = [] ∨ p.currentNode = some e) ∧ Kept tz.readsReferences w := by
  refine ⟨fun hcontains => ?_, fun ⟨hcur, hkept⟩ => h.contains hname hclose hcur hs.sound himp hleft hkept⟩
  obtain ⟨q, u, q₀, u₀, hrun, hrun₀, hpos, hpos₀, -, -, rfl, -⟩ := hcontains
  by_cases hw : w = []
  · subst hw
    exact ⟨.inl rfl, trivial⟩
  obtain ⟨c, z, hc, hless⟩ := closing_cons hclose
  have hwithout : (Without tz (close ++ rest)).left = close ++ rest :=
    left_without hleft (by rw [hc]; exact append_ne_nil_of_right_ne_nil w (cons_ne_nil c _))
  have hs₀ : Going (Without tz (close ++ rest)).input (p, Without tz (close ++ rest)) := by
    refine ⟨hs.built, ⟨hs.sound.returns, fun _ hneeds => ?_⟩, hs.clean, rfl⟩
    have hfree : ∀ st : TokenizerState, Tokenizer.Imposed st → ¬ st.UsesToken ∧ ¬ st.IsReference := by
      rintro st (rfl | rfl | rfl) <;> exact ⟨id, id⟩
    exact (hneeds.elim (hfree _ himp).1 fun href => (hfree _ himp).2 href.1).elim
  obtain rfl := h.closing_unique hs₀ hname hclose himp hwithout hrun₀ hpos₀
  have hcur : p.currentNode = some e := by
    by_contra hcur
    have hstart := h.lost_start hcur (w.map (·.val))
    have hlost := (Parses.follows hrun hstart.settled).lost hstart
    obtain ⟨l, m, heq, -, -⟩ := h.closeRaw_eq name
    rw [heq, withText_frame] at hlost
    exact hlost.not_hasText (h.hasText (map_eq_nil_iff.not.mpr hw))
  refine ⟨.inr hcur, ?_⟩
  by_contra hkept
  have hleft' : tz.left = w ++ c :: (z ++ rest) := by rw [hleft, hc, cons_append]
  obtain ⟨x, v, hsteps, hbelow, hhigh⟩ := lost_text hs.sound himp hleft' hless hkept
  have hastray : Parses (p, tz) (p.withText e x, v) := by
    have htext := h.parses_text hcur hsteps []
    exact htext
  have hcont : Content html tz.position w close := IsClosingTag.content hname hclose (by rw [← hs.input]; exact hleft)
  have hlong : 2 ≤ close.length := by
    obtain ⟨n, white, -, -, rfl⟩ := hclose
    exact le_add_left 2 _
  rcases hrun.total hastray with hback | hon
  · have hle := (hback.going (hrun.going hs).1).2
    dsimp only at hle hpos hhigh
    omega
  · exact h.not_astray name hw hcur hpos.le (h.astray_run hcur hcont (hastray.going hs).1 (.inl ⟨x, rfl, hbelow⟩) hon)

private theorem insertElement_raw {m : InsertionMode} (h : p.Built) (hr : p.insertElement t = some r) (hm : m = .text ∨ m = .inBody) :
    (r.setMode m).RawStart p.nodes.length := by
  obtain ⟨r', hr', hset, -, -, hopen, -⟩ := insertElement_built h t
  cases hr.symm.trans hr'
  obtain ⟨k, hk, hlt⟩ := h.current
  have happ := appendChild_appended h.linked hlt (.element (t.name.take 63) (t.attrs.foldl setAttribute []))
  have hnodes : r.nodes = (p.appendChild k (.element (t.name.take 63) (t.attrs.foldl setAttribute []))).nodes := by
    rw [insertElement, hk] at hr
    cases hr
    rw [pushElement]
    split <;> rfl
  have hfresh : p.nodes.length ∉ p.openElements := fun he => lt_irrefl _ (h.open_lt _ he)
  refine ⟨hset m, ne_of_gt h.zero_lt, ?_, ?_, ?_, hm⟩
  · rw [← happ.length, ← hnodes]
    rfl
  · change p.nodes.length ∉ r.openElements.tail
    rw [hopen]
    split
    · exact hfresh
    · exact fun he => hfresh (mem_of_mem_tail he)
  · change (r.node p.nodes.length).lastChild = none
    rw [node, hnodes]
    exact (happ.lastChild _).trans (if_pos rfl)

private theorem handled_not_ignores {n : Nat} (hm : ¬ p.mode.Ignores) : ¬ (handled t n p).mode.Ignores := by
  induction n generalizing p with
  | zero => exact hm
  | succ n ih =>
    rw [handled]
    cases hd : p.defer t with
    | none => exact hm
    | some q =>
      refine ih ?_
      have himplied : ∀ name m, (p.insertElement (.implied name)).map (fun q => q.setMode m) = some q → q.mode = m := by
        intro name m hmap
        obtain ⟨r, -, rfl⟩ := map_eq_some_iff.mp hmap
        rfl
      rw [defer] at hd
      cases hmode : p.mode <;> rw [hmode] at hd <;> dsimp only at hd
      case initial =>
        split_ifs at hd
        cases hd
        exact id
      case beforeHtml =>
        split_ifs at hd
        rw [himplied _ _ hd]
        exact id
      case beforeHead =>
        split_ifs at hd
        rw [himplied _ _ hd]
        exact id
      case inHead =>
        split_ifs at hd
        cases hd
        exact id
      case afterHead =>
        split_ifs at hd
        rw [himplied _ _ hd]
        exact id
      all_goals cases hd

def rawNames : List (List UInt8) := ["script", "style", "title"].map bytes

private theorem rawNames_isTagName (name : List UInt8) (h : name ∈ rawNames) : IsTagName name := by
  have hall : ∀ name ∈ rawNames, (name ≠ [] ∧ name.length ≤ 63 ∧ ∀ c ∈ name, isAsciiAlpha c = true) ∧ name ≠ bytes "body" := by
    decide +kernel
  exact ⟨(hall name h).1, (hall name h).2⟩

private theorem raw_start (h : p.Built) (hm : ¬ p.mode.Ignores) (htype : t.type = .startTag) (hname : t.name ∈ rawNames)
    (hdata : tz.state = .data) (hq : p.process t tz = some (q, tz')) :
    q.RawStart (q.nodes.length - 1) ∧ Tokenizer.Imposed tz'.state ∧ tz'.readsReferences = decide (t.name = bytes "title") := by
  obtain ⟨hb, hd, n, hsame⟩ := processToken_handled (t := t) (n := 5) h (by cases p.mode <;> decide)
  have hig := handled_not_ignores (t := t) (n := 5) hm
  rw [process, hsame] at hq
  generalize handled t 5 p = p' at hb hd hig hq
  have hspace : t.isSpace = false := by rw [Token.isSpace, htype]; rfl
  have hend : ∀ s, t.isEnd s = false := fun s => by rw [Token.isEnd, htype]; rfl
  have hstart : ∀ s, t.isStart s = true ↔ t.name = bytes s := fun s => isStart_iff.trans (and_iff_right htype)
  have hnot : ∀ s, bytes s ∉ rawNames → ¬ t.isStart s = true := fun s hs hst => hs ((hstart s).mp hst ▸ hname)
  have hdiff : bytes "title" ≠ bytes "script" ∧ bytes "title" ≠ bytes "style" := by decide +kernel
  -- the element is inserted, and it is the last node
  have hraw : ∀ m : InsertionMode, m = .text ∨ m = .inBody → ∀ r, p'.insertElement t = some r →
      (r.setMode m).RawStart ((r.setMode m).nodes.length - 1) := fun m hm r hr => by
    have hnew := insertElement_raw hb hr hm
    rw [hnew.last]
    exact hnew
  rw [processToken] at hq
  rw [defer] at hd
  cases hmode : p'.mode <;> rw [hmode] at hq hd hig <;> dsimp only at hq hd
  case initial =>
    rw [if_neg (by rw [hspace, htype]; decide)] at hd
    cases hd
  case beforeHtml | beforeHead | afterHead =>
    obtain ⟨r, hr, -⟩ := insertElement_built hb (.implied _)
    rw [if_neg (by rw [hspace]; exact not_or.mpr ⟨Bool.false_ne_true, hnot _ (by decide +kernel)⟩), hr] at hd
    cases hd
  case inHead =>
    rw [hspace, hend, if_neg Bool.false_ne_true, if_neg Bool.false_ne_true] at hq
    by_cases htitle : t.name = bytes "title"
    · rw [if_pos ((hstart _).mpr htitle)] at hq
      obtain ⟨r, hr, hq⟩ := bind_eq_some_iff.mp hq
      cases hq
      exact ⟨hraw .text (.inl rfl) r hr, .inr (.inl rfl), by rw [htitle, decide_eq_true rfl]; rfl⟩
    · have hother : t.isStart "style" = true ∨ t.isStart "script" = true := by
        rw [hstart, hstart]
        simp only [rawNames, map_cons, map_nil, mem_cons, not_mem_nil, or_false] at hname
        tauto
      rw [if_neg fun hst => htitle ((hstart _).mp hst), if_pos hother] at hq
      obtain ⟨r, hr, hq⟩ := bind_eq_some_iff.mp hq
      cases hq
      exact ⟨hraw .text (.inl rfl) r hr, .inr (.inr rfl), by rw [decide_eq_false htitle]; rfl⟩
  case inBody =>
    rw [htype] at hq
    obtain ⟨r, hr, hq⟩ := bind_eq_some_iff.mp hq
    by_cases htitle : t.name = bytes "title"
    · have hvoid : t.name ∉ voidElements := by rw [htitle]; decide +kernel
      have hneither : ¬ (t.isStart "script" = true ∨ t.isStart "style" = true) := by
        rw [hstart, hstart, htitle]
        exact not_or.mpr hdiff
      rw [if_neg hneither, if_neg hvoid] at hq
      cases hq
      obtain ⟨r', hr', -, hmode', -⟩ := insertElement_built hb t
      cases hr.symm.trans hr'
      have hsame : q.setMode .inBody = q := by rw [← hmode, ← hmode']; rfl
      have hrs := hraw .inBody (.inr rfl) q hr
      rw [hsame] at hrs
      refine ⟨hrs, .inl hdata, ?_⟩
      rw [decide_eq_true htitle, readsReferences, hdata]
      rfl
    · have hother : t.isStart "script" = true ∨ t.isStart "style" = true := by
        rw [hstart, hstart]
        simp only [rawNames, map_cons, map_nil, mem_cons, not_mem_nil, or_false] at hname
        tauto
      rw [if_pos hother] at hq
      cases hq
      exact ⟨hraw .text (.inl rfl) r hr, .inr (.inr rfl), by rw [decide_eq_false htitle]; rfl⟩
  all_goals exact absurd trivial hig

structure RawElement (html : CString) (t : Token) (p : HTML5Parser) (tz : Tokenizer) (w close rest : CString) : Prop where
  tag : t.type = .startTag ∧ t.name ∈ rawNames
  start : ∃ p₀ n tz₀ tz₁, Parsing html p₀ n tz₀ ∧ tz₀.step = .emit t tz₁ ∧ ¬ p₀.mode.Ignores ∧ p₀.process t tz₁ = some (p, tz)
  closing : IsClosingTag t.name close
  left : tz.left = w ++ (close ++ rest)

theorem RawElement.raw (h : RawElement html t p tz w close rest) : Going html (p, tz) ∧ p.RawStart (p.nodes.length - 1) ∧
    Tokenizer.Imposed tz.state ∧ tz.readsReferences = decide (t.name = bytes "title") := by
  obtain ⟨⟨htype, hname⟩, ⟨p₀, n, tz₀, tz₁, hparsing, hstep, hmode, hprocess⟩, hclose, hleft⟩ := h
  have hs₀ := hparsing.going
  have hs := (ParseStep.token hstep (by rw [htype]; exact nofun) hprocess).going hs₀
  have hsame : tz.left = tz₁.left := by
    rcases (process_built hs₀.built hprocess).2 with rfl | ⟨st, -, rfl⟩
    · rfl
    · rfl
  have hne : w ++ (close ++ rest) ≠ [] := by
    obtain ⟨c, z, hc, -⟩ := closing_cons hclose
    rw [hc]
    exact append_ne_nil_of_right_ne_nil w (cons_ne_nil c _)
  have hdata : tz₁.state = .data := by
    rcases step_allows hs₀.clean with ⟨-, hallow⟩ | ⟨hc, -, tok, -, hemit⟩ | ⟨_, hemit⟩
    · rw [hstep] at hallow
      rcases hallow.how with ⟨-, ⟨c, rfl⟩, -⟩ | ⟨-, ⟨c, rfl⟩, -⟩ | ⟨-, ⟨c, rfl⟩, -⟩ | ⟨-, -, hstate⟩
      · cases htype
      · cases htype
      · cases htype
      · exact hstate
    · -- at the end of the input there is no closing tag
      cases hstep.symm.trans hemit
      obtain ⟨c, v, hcv⟩ := exists_cons_of_ne_nil (hsame ▸ hleft ▸ hne : tz₀.left ≠ [])
      exact absurd ((currentChar_of hcv).symm.trans hc) c.property
    · cases hstep.symm.trans hemit
      cases htype
  exact ⟨hs.1, raw_start hs₀.built hmode htype hname hdata hprocess⟩

def scriptTag : Token := { Token.new .startTag with name := bytes "script" }

def scriptEnd : CString := closingTag (ofString "script") []

private theorem script_element (w : CString) : ∃ p tz, p.currentNode = some (p.nodes.length - 1) ∧
    RawElement (ofString "<script>" ++ (w ++ (scriptEnd ++ []))) scriptTag p tz w scriptEnd [] := by
  let html := ofString "<script>" ++ (w ++ (scriptEnd ++ []))
  let tag : Tokenizer := { new html with position := 1, state := .tagName, currentToken := some (Token.new .startTag) }
  have htag : Parsing html start 0 tag := .again (.again .start rfl) rfl
  have hname : Parsing html start 0 { tag with position := 4, currentToken := some { Token.new .startTag with name := bytes "scr" } } :=
    .again (.again (.again htag rfl) rfl) rfl
  have hend : Parsing html start 0 { tag with position := 7, currentToken := some scriptTag } := .again (.again (.again hname rfl) rfl) rfl
  exact ⟨_, _, rfl, ⟨rfl, by decide +kernel⟩,
    ⟨start, 0, _, { tag with position := 8, state := .data, currentToken := none }, hend, rfl, id, rfl⟩, ⟨_, [], by decide +kernel, nofun, rfl⟩, rfl⟩

/-- The text of the element is its contents, and these leave no other trace, just if the stack has a place for the element and
all characters are kept; a script and a style sheet keep an ampersand before the first `<`. -/
theorem raw_text_iff {html w close rest : CString} {t : Token} {p : HTML5Parser} {tz : Tokenizer} (h : RawElement html t p tz w close rest) :
    Contains p (p.nodes.length - 1) tz w close rest ↔
      (w = [] ∨ p.currentNode = some (p.nodes.length - 1)) ∧ Kept (t.name = bytes "title") w := by
  obtain ⟨hgoing, hraw, himp, hreads⟩ := h.raw
  rw [← hreads]
  exact hraw.contains_iff hgoing (rawNames_isTagName _ h.tag.2) h.closing himp h.left

theorem raw_text_statement : ∃ p tz,
    RawElement (ofString "<script>1 < 2</script>") scriptTag p tz (ofString "1 < 2") scriptEnd [] ∧
      Contains p (p.nodes.length - 1) tz (ofString "1 < 2") scriptEnd [] := by
  obtain ⟨p, tz, hcur, h⟩ := script_element (ofString "1 < 2")
  have hhtml : ofString "<script>" ++ (ofString "1 < 2" ++ (scriptEnd ++ [])) = ofString "<script>1 < 2</script>" := by
    decide +kernel
  exact ⟨p, tz, h, (raw_text_iff h).mpr ⟨.inr hcur, by decide +kernel⟩⟩

theorem compared_text_lost : ¬ ∀ (html w close rest : CString) (t : Token) (p : HTML5Parser) (tz : Tokenizer),
    RawElement html t p tz w close rest → (∀ c, IsClosingTag t.name c → ¬ c <:+: w) → Contains p (p.nodes.length - 1) tz w close rest := by
  intro hall
  obtain ⟨p, tz, -, h⟩ := script_element (ofString "a<b")
  have hnone : ∀ c, IsClosingTag scriptTag.name c → ¬ c <:+: ofString "a<b" := by
    rintro c ⟨n, white, -, -, rfl⟩ hin
    have hslash : (⟨slash, by decide⟩ : CChar) ∉ ofString "a<b" := by decide +kernel
    exact hslash (hin.subset (.tail _ (.head _)))
  obtain ⟨hgoing, hraw, himp, hreads⟩ := h.raw
  have hcontains := hall _ _ _ _ _ p tz h hnone
  have hkept := ((hraw.contains_iff hgoing (rawNames_isTagName _ h.tag.2) h.closing himp h.left).mp hcontains).2
  rw [hreads] at hkept
  revert hkept
  decide +kernel

end HTML5Parser
end RetroOs.Browser
