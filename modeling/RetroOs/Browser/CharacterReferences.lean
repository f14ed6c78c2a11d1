import RetroOs.Browser.ParserRuns

/-! Character references: where an ampersand is read, what comes of it, and where the tokenizer goes on. -/
namespace RetroOs.Browser
open Lib List CString
namespace Tokenizer

inductive Steps : Tokenizer → List Token → Tokenizer → Prop where
  | refl (t : Tokenizer) : Steps t [] t
  | again {t u v : Tokenizer} {ts : List Token} (hs : t.step = .again u) (hr : Steps u ts v) : Steps t ts v
  | emit {t u v : Tokenizer} {tok : Token} {ts : List Token} (hs : t.step = .emit tok u) (hr : Steps u ts v) : Steps t (tok :: ts) v

/-- The character so many places on. -/
def ahead (t : Tokenizer) (k : Nat) : UInt8 := (t.input[t.position + k]?).elim 0 (·.val)

structure AtReference (t : Tokenizer) : Prop where
  state : t.state.TakesReference
  char : t.currentChar = amp

def InText (s : TokenizerState) : Prop := s = .data ∨ s = .rcdata

def isDigitOrEnd (c : UInt8) : Bool := isAsciiAlpha c || (0x30 ≤ c && c ≤ 0x39) || c == 0x3B

/-- Some text that the reference may stand for, and how many characters it takes: a name that the tokenizer knows, a number,
which takes no more than its digits, or else the ampersand alone. -/
def Expansion (t : Tokenizer) (cs : List UInt8) (n : Nat) : Prop :=
  if t.ahead 1 = hash then 2 ≤ n ∧ ∀ k, 2 ≤ k → k < n → isDigitOrEnd (t.ahead k) = true
  else
    match references.find? fun r => t.advance.looksAt r.1 with
    | some (_, len, ch) => cs = [ch] ∧ n = len + 1
    | none => cs = [amp] ∧ n = 1

def Expands (t : Tokenizer) : Prop :=
  ∃ cs n u, t.Expansion cs n ∧ u.position = t.position + n ∧ u.state = t.state ∧
    ((InText t.state ∧ Steps t (cs.map .ofCharacter) u ∧ u.currentToken = t.currentToken) ∨
      (¬ InText t.state ∧ Steps t [] u ∧
        u.currentToken = t.currentToken.map fun tok => cs.foldl (fun tok c => tok.putAttrValue c) tok))

/-- It stands in a text, and neither a number sign nor the end of the input follows. -/
def Plain (t : Tokenizer) : Prop := InText t.state ∧ t.ahead 1 ≠ hash ∧ t.ahead 1 ≠ 0

variable {t u : Tokenizer} {ts : List Token} {cs : List UInt8} {n : Nat} {s : String}

theorem Expansion.pos (h : t.Expansion cs n) : 1 ≤ n := by
  rw [Expansion] at h
  split at h
  · omega
  · split at h <;> omega

theorem Steps.at_end (h : Steps t ts u) (hc : t.currentChar = 0) (hs : t.state ≠ .data ∧ t.state ≠ .rcdata ∧ t.state ≠ .rawtext) :
    u.state = t.state := by
  induction h with
  | refl => rfl
  | again hstep hr ih =>
    rw [step, if_pos ⟨hc, hs⟩] at hstep
    split at hstep <;> cases hstep
  | emit hstep hr ih =>
    rw [step, if_pos ⟨hc, hs⟩] at hstep
    split at hstep
    · cases hstep
      exact ih hc hs
    · cases hstep
      exact ih hc hs

theorem Steps.numeric (h : Steps t ts u) (hs : t.state = .numericCharacterReference) : u.state = .numericCharacterReference := by
  induction h with
  | refl => exact hs
  | @again t u v ts hstep hr ih =>
    by_cases hc : t.currentChar = 0
    · rw [step, if_pos ⟨hc, by rw [hs]; decide⟩] at hstep
      split at hstep <;> cases hstep
    · rw [step, if_neg fun h => hc h.1, if_neg hc, dispatch, hs] at hstep
      cases hstep
      refine ih ?_
      rw [advance_of hc]
      exact hs
  | @emit t u v tok ts hstep hr ih =>
    by_cases hc : t.currentChar = 0
    · have hne : t.state ≠ .data ∧ t.state ≠ .rcdata ∧ t.state ≠ .rawtext := by rw [hs]; decide
      exact (Steps.at_end (.emit hstep hr) hc hne).trans hs
    · rw [step, if_neg fun h => hc h.1, if_neg hc, dispatch, hs] at hstep
      cases hstep

/-- Where the ampersand is read. -/
def opened (t : Tokenizer) : Tokenizer := { t with position := t.position + 1, state := .characterReference, returnState := t.state }

theorem step_amp (h : t.AtReference) : t.step = .again t.opened := by
  have hc : t.currentChar ≠ 0 := by rw [h.char]; decide
  have hopen : t.openReference = t.opened := by
    rw [openReference, advance_of (by exact hc)]
    rfl
  rw [step, if_neg fun he => hc he.1, if_neg hc, h.char, ← hopen, dispatch]
  have hstate := h.state
  cases hs : t.state <;> rw [hs] at hstate <;> first | exact hstate.elim | rfl

private theorem ahead_looksAt {c : CChar} {l : CString} (h : t.looksAt s = true) (hs : ofString s = c :: l) :
    t.currentChar = c.val := by
  rw [looksAt, hs, isPrefixOf_iff_prefix] at h
  obtain ⟨rest, hrest⟩ := h
  have hget := congrArg head? hrest
  rw [cons_append, head?_cons, head?_drop] at hget
  rw [currentChar, ← hget]
  rfl

private theorem advanceBy_inside (h : ∀ k < n, t.ahead k ≠ 0) : t.advanceBy n = { t with position := t.position + n } := by
  induction n with
  | zero => rfl
  | succ n ih =>
    have hlast : ({ t with position := t.position + n } : Tokenizer).currentChar ≠ 0 := h n (Nat.lt_succ_self n)
    rw [advanceBy, ih fun k hk => h k (Nat.lt_succ_of_lt hk), advance_of hlast]
    rfl

private theorem advanceBy_looksAt (h : t.looksAt s = true) :
    t.advanceBy (ofString s).length = { t with position := t.position + (ofString s).length } := by
  refine advanceBy_inside fun k hk => ?_
  rw [looksAt, isPrefixOf_iff_prefix] at h
  obtain ⟨rest, hrest⟩ := h
  have hget := congrArg (fun l : CString => l[k]?) hrest
  rw [getElem?_append_left hk, getElem?_drop, getElem?_eq_getElem hk] at hget
  rw [ahead, ← hget]
  exact ((ofString s)[k]).property

theorem references_length : ∀ r ∈ references, r.2.1 = (ofString r.1).length := by decide +kernel

theorem references_alpha : ∀ r ∈ references, ∃ c l, ofString r.1 = c :: l ∧ isAsciiAlpha c.val = true := by
  intro r hr
  have hhead : ∀ r ∈ references, (ofString r.1).head?.any fun c => isAsciiAlpha c.val := by decide +kernel
  have halpha := hhead r hr
  cases hs : ofString r.1 with
  | nil =>
    rw [hs] at halpha
    cases halpha
  | cons c l =>
    rw [hs] at halpha
    exact ⟨c, l, rfl, halpha⟩

theorem step_opened (h1 : t.ahead 1 ≠ 0) : t.opened.step =
    if isAsciiAlpha (t.ahead 1) then .again (t.opened.setState .namedCharacterReference)
    else if t.ahead 1 = hash then .again ({ t.opened with state := .numericCharacterReference, position := t.position + 2 })
    else .emit (.ofCharacter amp) { t.opened with state := t.state } := by
  have hc : t.opened.currentChar = t.ahead 1 := rfl
  have hc' : (t.opened.setState .numericCharacterReference).currentChar ≠ 0 := h1
  rw [step, hc, if_neg fun he => h1 he.1, if_neg h1, dispatch]
  dsimp only [opened]
  split
  · rfl
  · split
    · exact congrArg Scan.again (advance_of hc')
    · rfl

theorem step_named (h1 : t.ahead 1 ≠ 0) : (t.opened.setState .namedCharacterReference).step =
    match references.find? fun r => t.advance.looksAt r.1 with
    | some (_, len, ch) => .emit (.ofCharacter ch) { t.opened with state := t.state, position := t.position + 1 + len }
    | none => .emit (.ofCharacter amp) { t.opened with state := t.state } := by
  have hc : (t.opened.setState .namedCharacterReference).currentChar = t.ahead 1 := rfl
  have h0 : t.currentChar ≠ 0 := by
    intro hzero
    have hnone : t.input[t.position]? = none := by
      cases hget : t.input[t.position]? with
      | none => rfl
      | some c =>
        rw [currentChar, hget] at hzero
        exact (c.property hzero).elim
    rw [ahead, getElem?_eq_none (Nat.le_succ_of_le (getElem?_eq_none_iff.mp hnone))] at h1
    exact h1 rfl
  have hlooks : ∀ s, (t.opened.setState .namedCharacterReference).looksAt s = t.advance.looksAt s := fun s => by
    rw [advance_of h0]
    rfl
  rw [step, hc, if_neg fun he => h1 he.1, if_neg h1, dispatch]
  dsimp only [setState]
  have hfind : (references.find? fun r => (t.opened.setState .namedCharacterReference).looksAt r.1) =
      references.find? fun r => t.advance.looksAt r.1 := by simp only [hlooks]
  rw [show (references.find? fun r => ({ t.opened with state := .namedCharacterReference } : Tokenizer).looksAt r.1) =
    references.find? fun r => t.advance.looksAt r.1 from hfind]
  cases hr : references.find? fun r => t.advance.looksAt r.1 with
  | none => rfl
  | some r =>
    obtain ⟨name, len, ch⟩ := r
    have hmem := mem_of_find?_eq_some hr
    have hlen : len = (ofString name).length := references_length _ hmem
    have hfound := find?_some hr
    have hlook : (t.opened.setState .namedCharacterReference).looksAt name = true := (hlooks name).trans hfound
    have hadv := advanceBy_looksAt hlook
    rw [← hlen] at hadv
    dsimp only
    rw [show ({ t.opened with state := .namedCharacterReference } : Tokenizer).advanceBy len = _ from hadv]
    rfl

private theorem find_none (h0 : t.currentChar ≠ 0) (halpha : isAsciiAlpha (t.ahead 1) = false) :
    (references.find? fun r => t.advance.looksAt r.1) = none := by
  refine find?_eq_none.mpr fun r hr hlook => ?_
  obtain ⟨c, l, hs, hc⟩ := references_alpha r hr
  have hchar := ahead_looksAt hlook hs
  rw [advance_of h0, show ({ t with position := t.position + 1 } : Tokenizer).currentChar = t.ahead 1 from rfl] at hchar
  rw [hchar, hc] at halpha
  cases halpha

private theorem isAsciiAlpha_hash : isAsciiAlpha hash = false := by decide

theorem Plain.expands (h : t.Plain) (ha : t.AtReference) : t.Expands := by
  obtain ⟨htext, hhash, h1⟩ := h
  have h0 : t.currentChar ≠ 0 := by rw [ha.char]; decide
  have hopen := step_amp ha
  have hnext := step_opened h1
  rw [if_neg hhash] at hnext
  by_cases halpha : isAsciiAlpha (t.ahead 1) = true
  · rw [if_pos halpha] at hnext
    have hnamed := step_named h1
    cases hr : references.find? fun r => t.advance.looksAt r.1 with
    | some r =>
      obtain ⟨name, len, ch⟩ := r
      rw [hr] at hnamed
      refine ⟨[ch], len + 1, { t.opened with state := t.state, position := t.position + 1 + len }, ?_, ?_, rfl,
        .inl ⟨htext, .again hopen (.again hnext (.emit hnamed (.refl _))), rfl⟩⟩
      · rw [Expansion, if_neg hhash, hr]
        exact ⟨rfl, rfl⟩
      · dsimp only
        omega
    | none =>
      rw [hr] at hnamed
      refine ⟨[amp], 1, { t.opened with state := t.state }, ?_, rfl, rfl,
        .inl ⟨htext, .again hopen (.again hnext (.emit hnamed (.refl _))), rfl⟩⟩
      rw [Expansion, if_neg hhash, hr]
      exact ⟨rfl, rfl⟩
  · rw [if_neg halpha] at hnext
    refine ⟨[amp], 1, { t.opened with state := t.state }, ?_, rfl, rfl, .inl ⟨htext, .again hopen (.emit hnext (.refl _)), rfl⟩⟩
    rw [Expansion, if_neg hhash, find_none h0 (Bool.not_eq_true _ ▸ halpha)]
    exact ⟨rfl, rfl⟩

private theorem not_silent (ha : t.AtReference) (hr : Steps t [] u) (hpos : t.position < u.position) :
    u.state ≠ t.state := by
  have hstate := ha.state
  have hne : TokenizerState.characterReference ≠ t.state ∧ TokenizerState.namedCharacterReference ≠ t.state ∧
      TokenizerState.numericCharacterReference ≠ t.state := by
    cases hs : t.state <;> rw [hs] at hstate <;> first | exact hstate.elim | decide
  cases hr with
  | refl => exact absurd hpos (Nat.lt_irrefl _)
  | again hs hr =>
    cases (step_amp ha).symm.trans hs
    by_cases h1 : t.ahead 1 = 0
    · have hend := hr.at_end (show t.opened.currentChar = 0 from h1) ⟨nofun, nofun, nofun⟩
      rw [hend]
      exact hne.1
    · cases hr with
      | refl => exact hne.1
      | again hs hr =>
        rw [step_opened h1] at hs
        split at hs
        · cases hs
          cases hr with
          | refl => exact hne.2.1
          | again hs hr =>
            rw [step_named h1] at hs
            split at hs <;> cases hs
        · split at hs
          · cases hs
            rw [hr.numeric rfl]
            exact hne.2.2
          · cases hs

theorem Expands.plain (h : t.Expands) (ha : t.AtReference) : t.Plain := by
  obtain ⟨cs, n, u, hexp, hpos, hstate, hrun⟩ := h
  have hn := hexp.pos
  rcases hrun with ⟨htext, hr, -⟩ | ⟨htext, hr, -⟩
  · have hne : TokenizerState.characterReference ≠ t.state ∧ TokenizerState.numericCharacterReference ≠ t.state := by
      rcases htext with hs | hs <;> rw [hs] <;> decide
    generalize cs.map Token.ofCharacter = ts at hr
    refine ⟨htext, fun hhash => ?_, fun h1 => ?_⟩
    · cases hr with
      | refl => omega
      | emit hs _ => cases (step_amp ha).symm.trans hs
      | again hs hr =>
        cases (step_amp ha).symm.trans hs
        have hnext := step_opened (t := t) (by rw [hhash]; decide)
        rw [hhash, if_neg (by rw [isAsciiAlpha_hash]; decide), if_pos rfl] at hnext
        cases hr with
        | refl => exact hne.1 hstate
        | emit hs _ => cases hnext.symm.trans hs
        | again hs hr =>
          cases hnext.symm.trans hs
          exact hne.2 ((hr.numeric rfl).symm.trans hstate)
    · cases hr with
      | refl => omega
      | emit hs _ => cases (step_amp ha).symm.trans hs
      | again hs hr =>
        cases (step_amp ha).symm.trans hs
        exact hne.1 ((hr.at_end (show t.opened.currentChar = 0 from h1) ⟨nofun, nofun, nofun⟩).symm.trans hstate)
  · exact absurd hstate (not_silent ha hr (by omega))

end Tokenizer

/-- In every input, wherever the parser's tokenizer stands at an ampersand: the references are expanded where they stand just
if they stand in texts, are no numbers, and do not end the input. -/
theorem references_iff (html : CString) :
    (∀ p n tz, HTML5Parser.Parsing html p n tz → tz.AtReference → tz.Expands) ↔
      ∀ p n tz, HTML5Parser.Parsing html p n tz → tz.AtReference → tz.Plain :=
  forall_congr' fun _ => forall_congr' fun _ => forall_congr' fun _ => imp_congr_right fun _ => forall_congr' fun ha =>
    ⟨fun h => h.plain ha, fun h => h.expands ha⟩

theorem reference_in_value : ¬ ∀ (html : CString) (p : HTML5Parser) (n : Nat) (tz : Tokenizer),
    HTML5Parser.Parsing html p n tz → tz.AtReference → tz.Expands := by
  intro h
  let html := ofString "<a b=\"&lt;\">"
  let value : Tokenizer :=
    { input := html, position := 6, state := .attributeValueDoubleQuoted, returnState := .data,
      currentToken := some { Token.new .startTag with name := [0x61], attrs := [⟨[0x62], []⟩] } }
  have hname : HTML5Parser.Parsing html HTML5Parser.start 0
      { value with position := 3, state := .beforeAttributeName, currentToken := some { Token.new .startTag with name := [0x61] } } :=
    .again (.again (.again (.again .start rfl) rfl) rfl) rfl
  have hvalue : HTML5Parser.Parsing html HTML5Parser.start 0 value := .again (.again (.again (.again hname rfl) rfl) rfl) rfl
  have hat : value.AtReference := ⟨trivial, by decide +kernel⟩
  rcases ((h html _ 0 value hvalue hat).plain hat).1 with hs | hs <;> cases hs

end RetroOs.Browser
