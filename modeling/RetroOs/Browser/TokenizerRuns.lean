import RetroOs.Browser.Tokenizer

/-! What a step of the tokenizer keeps, and what bounds its steps and its tokens: a token costs a
character, and a character is left to another state at most four times. -/
namespace RetroOs.Browser
open Lib Nat Option

namespace TokenizerState

/-- The states that read or write `current_token`. -/
def UsesToken : TokenizerState → Prop
  | .tagName | .beforeAttributeName | .attributeName | .afterAttributeName | .beforeAttributeValue
  | .attributeValueDoubleQuoted | .attributeValueSingleQuoted | .attributeValueUnquoted
  | .afterAttributeValueQuoted | .selfClosingStartTag | .comment | .commentEndDash | .commentEnd
  | .doctypeName | .afterDoctypeName => True
  | _ => False

/-- Those from which a character reference can start. -/
def TakesReference : TokenizerState → Prop
  | .data | .rcdata | .attributeValueDoubleQuoted | .attributeValueSingleQuoted | .attributeValueUnquoted => True
  | _ => False

def IsReference : TokenizerState → Prop
  | .characterReference | .namedCharacterReference => True
  | _ => False

/-- The states in which a character is read that no token accounts for yet. -/
def owed : TokenizerState → Nat
  | .tagOpen | .endTagOpen | .commentStart | .commentStartDash | .doctype
  | .characterReference | .namedCharacterReference => 1
  | _ => 0

private theorem owed_le (s : TokenizerState) : s.owed ≤ 1 := by
  cases s <;> decide

theorem TakesReference.not_isReference {s : TokenizerState} (h : s.TakesReference) : ¬ s.IsReference := by
  cases s <;> first | exact id | exact h.elim

theorem TakesReference.owed_eq {s : TokenizerState} (h : s.TakesReference) : s.owed = 0 := by
  cases s <;> first | rfl | exact h.elim

/-- How often a state can leave the character to another one. -/
def rank (c : UInt8) : TokenizerState → Nat
  | .attributeName => if isSpace c ∨ c = slash ∨ c = greater then 2 else 0
  | .afterAttributeName => 1
  | .beforeAttributeName => 3
  | .afterAttributeValueQuoted | .selfClosingStartTag => 4
  | .tagOpen | .endTagOpen | .beforeAttributeValue | .commentStart | .characterReference | .doctype => 1
  | _ => 0

private theorem rank_le (c : UInt8) (s : TokenizerState) : s.rank c ≤ 4 := by
  unfold rank
  split <;> (try split) <;> omega

end TokenizerState

namespace Tokenizer

/-- The characters still to be read. -/
def rest (t : Tokenizer) : Nat := t.input.length - t.position

/-- The tokens that can still come. -/
def credit (t : Tokenizer) : Nat := t.rest + t.state.owed + t.currentToken.toList.length

/-- The steps that can still be made before a token comes. -/
def fuel (t : Tokenizer) : Nat := 5 * t.rest + t.state.rank t.currentChar

def NeedsToken (t : Tokenizer) : Prop :=
  t.state.UsesToken ∨ t.state.IsReference ∧ t.returnState.UsesToken

/-- What holds of the tokenizer between any two steps. -/
structure Sound (t : Tokenizer) : Prop where
  returns : t.returnState.TakesReference
  token : t.currentChar ≠ 0 → t.NeedsToken → t.currentToken.isSome

def GoesOn (t t' : Tokenizer) : Prop :=
  t'.Sound ∧ t'.input = t.input ∧ t'.credit ≤ t.credit ∧ t'.fuel < t.fuel

def Emits (t : Tokenizer) (_ : Token) (t' : Tokenizer) : Prop :=
  t'.Sound ∧ t'.input = t.input ∧ t'.credit < t.credit

/-- At the same character, and sound there. -/
structure Beside (t u : Tokenizer) : Prop where
  input : u.input = t.input
  position : u.position = t.position
  returns : u.returnState.TakesReference
  token : u.NeedsToken → u.currentToken.isSome

section
variable {t u : Tokenizer} {s : TokenizerState} {f : Token → Token} {c : UInt8} {tok : Token}

theorem Beside.currentChar (h : t.Beside u) : u.currentChar = t.currentChar := by
  rw [Tokenizer.currentChar, Tokenizer.currentChar, h.input, h.position]

theorem Beside.rest (h : t.Beside u) : u.rest = t.rest := by
  rw [Tokenizer.rest, Tokenizer.rest, h.input, h.position]

theorem Beside.sound (h : t.Beside u) : u.Sound := ⟨h.returns, fun _ => h.token⟩

private theorem rest_pos (hc : t.currentChar ≠ 0) : 0 < t.rest := by
  rw [Tokenizer.rest, Nat.sub_pos_iff_lt]
  by_contra hge
  apply hc
  rw [Tokenizer.currentChar, List.getElem?_eq_none (Nat.le_of_not_lt hge)]
  rfl

theorem advance_of (hc : t.currentChar ≠ 0) : t.advance = { t with position := t.position + 1 } := if_pos hc

theorem advance_rest (hc : t.currentChar ≠ 0) : t.advance.rest + 1 = t.rest := by
  have hpos := rest_pos hc
  rw [advance_of hc]
  simp only [Tokenizer.rest] at *
  omega

theorem Beside.read (h : t.Beside u) (hc : t.currentChar ≠ 0)
    (ho : u.state.owed + u.currentToken.toList.length ≤ t.state.owed + t.currentToken.toList.length + 1) :
    t.GoesOn u.advance := by
  have hcu : u.currentChar ≠ 0 := h.currentChar ▸ hc
  have hrest := advance_rest hcu
  rw [h.rest] at hrest
  have hrank := u.advance.state.rank_le u.advance.currentChar
  have hs : u.advance.Sound := by
    rw [advance_of hcu]
    exact ⟨h.returns, fun _ => h.token⟩
  refine ⟨hs, ?_, ?_, ?_⟩
  · rw [advance_of hcu]
    exact h.input
  · simp only [credit]
    rw [show u.advance.state = u.state by rw [advance_of hcu],
      show u.advance.currentToken = u.currentToken by rw [advance_of hcu]]
    omega
  · simp only [fuel]
    omega

theorem Beside.left (h : t.Beside u)
    (ho : u.state.owed + u.currentToken.toList.length ≤ t.state.owed + t.currentToken.toList.length)
    (hr : u.state.rank t.currentChar < t.state.rank t.currentChar) : t.GoesOn u := by
  refine ⟨h.sound, h.input, ?_, ?_⟩
  · simp only [credit]
    rw [h.rest]
    omega
  · simp only [fuel]
    rw [h.rest, h.currentChar]
    omega

theorem Beside.setState (h : t.Sound) (hn : (t.setState s).NeedsToken → t.currentToken.isSome) :
    t.Beside (t.setState s) := ⟨rfl, rfl, h.returns, hn⟩

theorem Beside.newToken (h : t.Sound) (type : TokenType) : t.Beside ((t.newToken type).setState s) :=
  ⟨rfl, rfl, h.returns, fun _ => rfl⟩

theorem Beside.refl (h : t.Sound) (hc : t.currentChar ≠ 0) : t.Beside t := ⟨rfl, rfl, h.returns, h.token hc⟩

theorem Beside.amend (h : t.Sound) :
    t.Beside { t with state := s, currentToken := some tok } := ⟨rfl, rfl, h.returns, fun _ => rfl⟩

theorem stays (h : t.Sound) (hc : t.currentChar ≠ 0) : t.GoesOn t.advance :=
  (Beside.refl h hc).read hc (le_succ _)

theorem reads (h : t.Sound) (hc : t.currentChar ≠ 0) (hn : (t.setState s).NeedsToken → t.currentToken.isSome) :
    t.GoesOn (t.setState s).advance := by
  apply (Beside.setState h hn).read hc
  have hle := s.owed_le
  simp only [Tokenizer.setState]
  omega

theorem leaves (h : t.Sound) (hn : (t.setState s).NeedsToken → t.currentToken.isSome) (ho : s.owed ≤ t.state.owed)
    (hr : s.rank t.currentChar < t.state.rank t.currentChar) : t.GoesOn (t.setState s) :=
  (Beside.setState h hn).left (Nat.add_le_add_right ho _) hr

theorem opens {type : TokenType} (h : t.Sound) (ho : s.owed < t.state.owed)
    (hr : s.rank t.currentChar < t.state.rank t.currentChar) : t.GoesOn ((t.newToken type).setState s) :=
  (Beside.newToken h type).left (le_add_right_of_le ho) hr

theorem writes (h : t.Sound) (hc : t.currentChar ≠ 0) (htok : t.currentToken.isSome) :
    ((t.setState s).advance.amend f).Meets t.GoesOn t.Emits := by
  obtain ⟨tok, htok⟩ := isSome_iff_exists.mp htok
  have hc' : (t.setState s).currentChar ≠ 0 := hc
  have hb : t.Beside { t with state := s, currentToken := some (f tok) } := Beside.amend h
  have hread := hb.read hc (by
    have hle := s.owed_le
    rw [htok]
    simp only [toList_some, List.length_singleton]
    omega)
  rw [advance_of (hb.currentChar ▸ hc)] at hread
  rw [advance_of hc']
  simp only [Tokenizer.amend, Tokenizer.setState, htok]
  exact hread

theorem rewrites (h : t.Sound) (htok : t.currentToken.isSome) (ho : s.owed ≤ t.state.owed)
    (hr : s.rank t.currentChar < t.state.rank t.currentChar) :
    ((t.setState s).amend f).Meets t.GoesOn t.Emits := by
  obtain ⟨tok, htok⟩ := isSome_iff_exists.mp htok
  have hb : t.Beside { t with state := s, currentToken := some (f tok) } := Beside.amend h
  simp only [Tokenizer.amend, Tokenizer.setState, htok]
  apply hb.left _ hr
  rw [htok]
  exact Nat.add_le_add_right ho _

private theorem not_needs (hu : ¬ s.UsesToken) (hr : ¬ s.IsReference) : ¬ (t.setState s).NeedsToken :=
  not_or.mpr ⟨hu, fun h => hr h.1⟩

theorem closes (h : t.Sound) (hc : t.currentChar ≠ 0) (htok : t.currentToken.isSome) :
    ((t.setState .data).advance.emitCurrent f).Meets t.GoesOn t.Emits := by
  obtain ⟨tok, htok⟩ := isSome_iff_exists.mp htok
  have hc' : (t.setState .data).currentChar ≠ 0 := hc
  have hrest : (t.setState .data).advance.rest + 1 = t.rest := advance_rest hc'
  rw [advance_of hc'] at hrest ⊢
  simp only [Tokenizer.emitCurrent, Tokenizer.setState, htok]
  refine ⟨⟨h.returns, fun _ hn => (not_needs (s := .data) id id hn).elim⟩, rfl, ?_⟩
  have ho : TokenizerState.owed .data = 0 := rfl
  simp only [credit, Tokenizer.rest, ho, toList_none, List.length_nil] at *
  omega

theorem utters (h : t.Sound) (hc : t.currentChar ≠ 0) : (t.advance.emitChar c).Meets t.GoesOn t.Emits := by
  obtain ⟨hs, hi, -, -⟩ := stays h hc
  refine ⟨hs, hi, ?_⟩
  have hrest := advance_rest hc
  rw [advance_of hc] at hrest ⊢
  simp only [credit, Tokenizer.rest] at *
  omega

theorem answers {p : Nat} (h : t.Sound) (hp : t.position ≤ p)
    (hn : (t.setState s).NeedsToken → t.currentToken.isSome) (ho : s.owed < t.state.owed) :
    (emitChar { t with position := p, state := s } c).Meets t.GoesOn t.Emits := by
  refine ⟨⟨h.returns, fun _ => hn⟩, rfl, ?_⟩
  simp only [credit, Tokenizer.rest]
  omega

theorem advanceBy_of (t : Tokenizer) (n : Nat) : ∃ p, t.position ≤ p ∧ t.advanceBy n = { t with position := p } := by
  induction n with
  | zero => exact ⟨t.position, le_refl _, rfl⟩
  | succ n ih =>
    obtain ⟨p, hp, hn⟩ := ih
    rw [advanceBy, hn, Tokenizer.advance]
    split
    · exact ⟨p + 1, by omega, rfl⟩
    · exact ⟨p, hp, rfl⟩

theorem GoesOn.trans {v : Tokenizer} (h : t.GoesOn u) (h' : u.GoesOn v) : t.GoesOn v := by
  obtain ⟨-, hi, hcr, hf⟩ := h
  obtain ⟨hs, hi', hcr', hf'⟩ := h'
  exact ⟨hs, hi'.trans hi, hcr'.trans hcr, hf'.trans hf⟩

theorem skips (h : t.Sound) (hc : t.currentChar ≠ 0) (hn : (t.setState s).NeedsToken → t.currentToken.isSome) (n : Nat) :
    t.GoesOn ((t.setState s).advanceBy (n + 1)) := by
  induction n with
  | zero => exact reads h hc hn
  | succ n ih =>
    rw [advanceBy]
    by_cases h0 : ((t.setState s).advanceBy (n + 1)).currentChar ≠ 0
    · exact ih.trans (stays ih.1 h0)
    · rw [Tokenizer.advance, if_neg h0]
      exact ih

theorem returns_needs (h : t.Sound) (hc : t.currentChar ≠ 0) (hr : t.state.IsReference) :
    (t.setState t.returnState).NeedsToken → t.currentToken.isSome := by
  intro hn
  have hret := h.returns
  apply h.token hc
  rcases hn with hu | ⟨href, -⟩
  · exact Or.inr ⟨hr, hu⟩
  · exact (hret.not_isReference href).elim

theorem refers (h : t.Sound) (hc : t.currentChar ≠ 0) (ht : t.state.TakesReference) : t.GoesOn t.openReference := by
  have hb : t.Beside { t with returnState := t.state, state := .characterReference } :=
    ⟨rfl, rfl, ht, fun hn => h.token hc (Or.inl (hn.elim False.elim And.right))⟩
  apply hb.read hc
  simp only [TokenizerState.owed]
  omega

theorem free (hu : ¬ s.UsesToken) (hr : ¬ s.IsReference) :
    (t.setState s).NeedsToken → t.currentToken.isSome := fun hn => (not_needs hu hr hn).elim

private theorem text_meets (h : t.Sound) (hc : t.currentChar ≠ 0)
    (hs : t.state = .data ∨ t.state = .rcdata ∨ t.state = .rawtext) :
    (t.dispatch t.currentChar).Meets t.GoesOn t.Emits := by
  rcases hs with hs | hs | hs
  · simp only [dispatch, hs]
    split_ifs
    · exact reads h hc (free id id)
    · exact refers h hc (by rw [hs]; trivial)
    · exact utters h hc
  · simp only [dispatch, hs]
    split_ifs
    · exact reads h hc (free id id)
    · exact refers h hc (by rw [hs]; trivial)
    · exact utters h hc
  · simp only [dispatch, hs]
    split_ifs
    · exact reads h hc (free id id)
    · exact utters h hc

/-- `<` and `</` have been read: a tag starts, or the character goes back to the text. -/
theorem tagOpen_meets (h : t.Sound) (hc : t.currentChar ≠ 0) (hs : t.state = .tagOpen ∨ t.state = .endTagOpen) :
    (t.dispatch t.currentChar).Meets t.GoesOn t.Emits := by
  have ho : 0 < t.state.owed := by rcases hs with hs | hs <;> rw [hs] <;> exact zero_lt_one
  have hr : 0 < t.state.rank t.currentChar := by rcases hs with hs | hs <;> rw [hs] <;> exact zero_lt_one
  rcases hs with hs | hs
  · simp only [dispatch, hs]
    split_ifs
    · exact reads h hc (free id id)
    · exact reads h hc (free id id)
    · exact opens h ho hr
    · exact answers h (le_refl _) (free id id) ho
  · simp only [dispatch, hs]
    split_ifs
    · exact opens h ho hr
    · exact reads h hc (free id id)
    · exact leaves h (free id id) (zero_le _) hr

private theorem tag_meets (h : t.Sound) (hc : t.currentChar ≠ 0)
    (hs : t.state = .tagName ∨ t.state = .beforeAttributeName ∨ t.state = .attributeName ∨ t.state = .afterAttributeName) :
    (t.dispatch t.currentChar).Meets t.GoesOn t.Emits := by
  have htok : t.currentToken.isSome := h.token hc (Or.inl (by rcases hs with hs | hs | hs | hs <;> rw [hs] <;> trivial))
  rcases hs with hs | hs | hs | hs
  · simp only [dispatch, hs]
    split_ifs
    · exact reads h hc fun _ => htok
    · exact reads h hc fun _ => htok
    · exact closes h hc htok
    · exact writes (s := t.state) h hc htok
  · have hr : t.state.rank t.currentChar = 3 := by rw [hs]; rfl
    simp only [dispatch, hs]
    split_ifs
    · exact stays h hc
    · exact leaves h (fun _ => htok) (zero_le _) (by rw [hr]; exact (by decide : 1 < 3))
    · refine rewrites h htok (zero_le _) ?_
      rw [hr, TokenizerState.rank]
      split <;> decide
  · simp only [dispatch, hs]
    split_ifs with hend
    · have hr : t.state.rank t.currentChar = 2 := by
        rw [hs, TokenizerState.rank, if_pos]
        simpa only [hc, or_false] using hend
      exact leaves h (fun _ => htok) (zero_le _) (by rw [hr]; exact (by decide : 1 < 2))
    · exact reads h hc fun _ => htok
    · exact writes (s := t.state) h hc htok
  · have hr : t.state.rank t.currentChar = 1 := by rw [hs]; rfl
    simp only [dispatch, hs]
    split_ifs with hspace hslash _ hgreater
    · exact stays h hc
    · exact reads h hc fun _ => htok
    · exact reads h hc fun _ => htok
    · exact closes h hc htok
    · -- the character that starts a name is not one that ends it
      refine rewrites h htok (zero_le _) ?_
      rw [hr, TokenizerState.rank, if_neg (not_or.mpr ⟨hspace, not_or.mpr ⟨hslash, hgreater⟩⟩)]
      exact zero_lt_one

private theorem value_meets (h : t.Sound) (hc : t.currentChar ≠ 0)
    (hs : t.state = .beforeAttributeValue ∨ t.state = .attributeValueDoubleQuoted ∨ t.state = .attributeValueSingleQuoted ∨
      t.state = .attributeValueUnquoted) :
    (t.dispatch t.currentChar).Meets t.GoesOn t.Emits := by
  have htok : t.currentToken.isSome := h.token hc (Or.inl (by rcases hs with hs | hs | hs | hs <;> rw [hs] <;> trivial))
  rcases hs with hs | hs | hs | hs
  · simp only [dispatch, hs]
    split_ifs
    · exact stays h hc
    · exact reads h hc fun _ => htok
    · exact reads h hc fun _ => htok
    · exact closes h hc htok
    · exact leaves h (fun _ => htok) (zero_le _) (by rw [hs]; exact zero_lt_one)
  · simp only [dispatch, hs]
    split_ifs
    · exact reads h hc fun _ => htok
    · exact refers h hc (by rw [hs]; trivial)
    · exact writes (s := t.state) h hc htok
  · simp only [dispatch, hs]
    split_ifs
    · exact reads h hc fun _ => htok
    · exact refers h hc (by rw [hs]; trivial)
    · exact writes (s := t.state) h hc htok
  · simp only [dispatch, hs]
    split_ifs
    · exact reads h hc fun _ => htok
    · exact refers h hc (by rw [hs]; trivial)
    · exact closes h hc htok
    · exact writes (s := t.state) h hc htok

private theorem tagEnd_meets (h : t.Sound) (hc : t.currentChar ≠ 0)
    (hs : t.state = .afterAttributeValueQuoted ∨ t.state = .selfClosingStartTag) :
    (t.dispatch t.currentChar).Meets t.GoesOn t.Emits := by
  have htok : t.currentToken.isSome := h.token hc (Or.inl (by rcases hs with hs | hs <;> rw [hs] <;> trivial))
  have hr : t.state.rank t.currentChar = 4 := by rcases hs with hs | hs <;> rw [hs] <;> rfl
  have hlt : TokenizerState.rank t.currentChar .beforeAttributeName < t.state.rank t.currentChar := by
    rw [hr]
    exact (by decide : 3 < 4)
  rcases hs with hs | hs
  · simp only [dispatch, hs]
    split_ifs
    · exact reads h hc fun _ => htok
    · exact reads h hc fun _ => htok
    · exact closes h hc htok
    · exact leaves h (fun _ => htok) (zero_le _) hlt
  · simp only [dispatch, hs]
    split_ifs
    · exact closes h hc htok
    · exact leaves h (fun _ => htok) (zero_le _) hlt

private theorem markup_meets (h : t.Sound) (hc : t.currentChar ≠ 0)
    (hs : t.state = .commentStart ∨ t.state = .commentStartDash ∨ t.state = .doctype) :
    (t.dispatch t.currentChar).Meets t.GoesOn t.Emits := by
  have ho : 0 < t.state.owed := by rcases hs with hs | hs | hs <;> rw [hs] <;> exact zero_lt_one
  rcases hs with hs | hs | hs
  · simp only [dispatch, hs]
    split_ifs
    · exact reads h hc (free id id)
    · exact skips h hc (free id id) 6
    · exact opens h ho (by rw [hs]; exact zero_lt_one)
  · simp only [dispatch, hs]
    split_ifs
    · exact (Beside.newToken h .comment).read hc (le_add_left 1 _)
    · exact reads h hc (free id id)
  · simp only [dispatch, hs]
    split_ifs
    · exact stays h hc
    · exact opens h ho (by rw [hs]; exact zero_lt_one)

private theorem comment_meets (h : t.Sound) (hc : t.currentChar ≠ 0)
    (hs : t.state = .comment ∨ t.state = .commentEndDash ∨ t.state = .commentEnd ∨ t.state = .doctypeName ∨
      t.state = .afterDoctypeName) :
    (t.dispatch t.currentChar).Meets t.GoesOn t.Emits := by
  have htok : t.currentToken.isSome := h.token hc (Or.inl (by rcases hs with hs | hs | hs | hs | hs <;> rw [hs] <;> trivial))
  rcases hs with hs | hs | hs | hs | hs
  · simp only [dispatch, hs]
    split_ifs
    · exact reads h hc fun _ => htok
    · exact writes (s := t.state) h hc htok
  · simp only [dispatch, hs]
    split_ifs
    · exact reads h hc fun _ => htok
    · exact writes h hc htok
  · simp only [dispatch, hs]
    split_ifs
    · exact closes h hc htok
    · exact reads h hc fun _ => htok
  · simp only [dispatch, hs]
    split_ifs
    · exact reads h hc fun _ => htok
    · exact closes h hc htok
    · exact writes (s := t.state) h hc htok
  · simp only [dispatch, hs]
    split_ifs
    · exact stays h hc
    · exact closes h hc htok
    · exact stays h hc

private theorem reference_meets (h : t.Sound) (hc : t.currentChar ≠ 0)
    (hs : t.state = .characterReference ∨ t.state = .namedCharacterReference) :
    (t.dispatch t.currentChar).Meets t.GoesOn t.Emits := by
  have href : t.state.IsReference := by rcases hs with hs | hs <;> rw [hs] <;> trivial
  have ho : t.state.owed = 1 := by rcases hs with hs | hs <;> rw [hs] <;> rfl
  have hlt : t.returnState.owed < t.state.owed := by
    rw [ho, h.returns.owed_eq]
    exact zero_lt_one
  rcases hs with hs | hs
  · simp only [dispatch, hs]
    split_ifs
    · refine leaves h ?_ (le_of_eq ho.symm) (by rw [hs]; exact zero_lt_one)
      exact fun hn => h.token hc (Or.inr ⟨href, hn.elim False.elim And.right⟩)
    · exact reads h hc (free id id)
    · exact answers h (le_refl _) (returns_needs h hc href) hlt
  · simp only [dispatch, hs]
    cases references.find? fun r => t.looksAt r.1 with
    | none => exact answers h (le_refl _) (returns_needs h hc href) hlt
    | some r =>
      obtain ⟨p, hp, hn⟩ := advanceBy_of t r.2.1
      simp only [hn]
      exact answers h hp (returns_needs h hc href) hlt

private theorem dispatch_meets (h : t.Sound) (hc : t.currentChar ≠ 0) :
    (t.dispatch t.currentChar).Meets t.GoesOn t.Emits := by
  cases hs : t.state with
  | data | rcdata | rawtext => exact text_meets h hc (by simp [hs])
  | tagOpen | endTagOpen => exact tagOpen_meets h hc (by simp [hs])
  | tagName | beforeAttributeName | attributeName | afterAttributeName => exact tag_meets h hc (by simp [hs])
  | beforeAttributeValue | attributeValueDoubleQuoted | attributeValueSingleQuoted | attributeValueUnquoted =>
    exact value_meets h hc (by simp [hs])
  | afterAttributeValueQuoted | selfClosingStartTag => exact tagEnd_meets h hc (by simp [hs])
  | commentStart | commentStartDash | doctype => exact markup_meets h hc (by simp [hs])
  | comment | commentEndDash | commentEnd | doctypeName | afterDoctypeName => exact comment_meets h hc (by simp [hs])
  | characterReference | namedCharacterReference => exact reference_meets h hc (by simp [hs])
  | _ =>
    simp only [dispatch, hs]
    exact stays h hc

/-- A token is handed out, and paid for. -/
def Yields (t : Tokenizer) (tok : Token) (u : Tokenizer) : Prop :=
  u.Sound ∧ u.input = t.input ∧ u.credit + (if tok.type = .eof then 0 else 1) ≤ t.credit

theorem Emits.yields (h : t.Emits tok u) : t.Yields tok u := by
  obtain ⟨hs, hi, hlt⟩ := h
  refine ⟨hs, hi, ?_⟩
  split <;> omega

theorem step_meets (h : t.Sound) : t.step.Meets t.GoesOn t.Yields := by
  have hend : t.Yields (Token.new .eof) t := ⟨h, rfl, le_refl _⟩
  by_cases hc : t.currentChar = 0
  · simp only [step, hc, true_and, if_true]
    split
    · cases htok : t.currentToken with
      | none => exact hend
      | some tok =>
        refine Emits.yields ⟨⟨h.returns, fun hc' => (hc' hc).elim⟩, rfl, ?_⟩
        simp only [credit, Tokenizer.rest, htok, toList_none, toList_some, List.length_nil, List.length_singleton]
        omega
    · exact hend
  · simp only [step, hc, false_and, if_false]
    exact (dispatch_meets h hc).imp (fun _ h => h) fun _ _ h => h.yields

theorem nextToken_spec (h : t.Sound) : ∃ tok u, t.nextToken = some (tok, u) ∧ t.Yields tok u := by
  apply scan_spec (fun u => u.Sound ∧ u.input = t.input ∧ u.credit ≤ t.credit) fuel
  · rintro v ⟨hs, hi, hcr⟩
    apply (step_meets hs).imp
    · rintro u ⟨hu, hui, hucr, hf⟩
      exact ⟨⟨hu, hui.trans hi, hucr.trans hcr⟩, hf⟩
    · rintro tok u ⟨hu, hui, hucr⟩
      exact ⟨hu, hui.trans hi, hucr.trans hcr⟩
  · exact ⟨h, rfl, le_refl _⟩
  · have hr := t.state.rank_le t.currentChar
    simp only [fuel, Tokenizer.rest]
    omega

theorem new_sound (input : CString) : (new input).Sound :=
  ⟨trivial, fun _ hn => (hn.elim id And.left).elim⟩

/-- The states that the tree builder sets. -/
def Imposed (s : TokenizerState) : Prop := s = .data ∨ s = .rcdata ∨ s = .rawtext

theorem Sound.setState (h : t.Sound) (hs : Imposed s) : (t.setState s).Sound := by
  refine ⟨h.returns, fun _ hn => ?_⟩
  rcases hs with rfl | rfl | rfl <;> exact free id id hn

theorem credit_setState (hs : Imposed s) : (t.setState s).credit ≤ t.credit := by
  rcases hs with rfl | rfl | rfl <;>
    exact Nat.add_le_add_right (Nat.add_le_add_left (Nat.zero_le _) _) _

end

/-- The tokenizer on an input, after so many tokens: it makes its steps, and between them its state
may be changed to any of those the tree builder sets. -/
inductive Driven (input : CString) : Nat → Tokenizer → Prop where
  | start : Driven input 0 (new input)
  | again {n : Nat} {t u : Tokenizer} (hr : Driven input n t) (hs : t.step = .again u) : Driven input n u
  | token {n : Nat} {t u : Tokenizer} {tok : Token} (hr : Driven input n t) (hs : t.step = .emit tok u)
      (htype : tok.type ≠ .eof) : Driven input (n + 1) u
  | eof {n : Nat} {t u : Tokenizer} {tok : Token} (hr : Driven input n t) (hs : t.step = .emit tok u)
      (htype : tok.type = .eof) : Driven input n u
  | setState {n : Nat} {t : Tokenizer} {s : TokenizerState} (hr : Driven input n t) (hs : Imposed s) :
      Driven input n (t.setState s)

theorem Driven.sound {input : CString} {n : Nat} {t : Tokenizer} (hr : Driven input n t) :
    t.Sound ∧ n + t.credit ≤ input.length := by
  induction hr with
  | start => exact ⟨new_sound input, le_of_eq (zero_add _)⟩
  | again _ hs ih =>
    have hm := step_meets ih.1
    rw [hs] at hm
    obtain ⟨hu, -, hcr, -⟩ := hm
    exact ⟨hu, by omega⟩
  | token _ hs htype ih =>
    have hm := step_meets ih.1
    rw [hs] at hm
    obtain ⟨hu, -, hcr⟩ := hm
    rw [if_neg htype] at hcr
    exact ⟨hu, by omega⟩
  | eof _ hs htype ih =>
    have hm := step_meets ih.1
    rw [hs] at hm
    obtain ⟨hu, -, hcr⟩ := hm
    exact ⟨hu, by omega⟩
  | setState _ hs ih =>
    exact ⟨ih.1.setState hs, (Nat.add_le_add_left (credit_setState hs) _).trans ih.2⟩

end Tokenizer
end RetroOs.Browser
