import RetroOs.Browser.OpenElements
import RetroOs.Browser.CharacterReferences

/-! The contents of `script`, `style` and `title`: which of their characters the tokenizer hands out as they are, and what
the builder makes of them up to the closing tag. -/
namespace RetroOs.Browser
open Lib List Tokenizer Nat

/-- What makes a tag, a comment or the like of a `<` before it. -/
def opensMarkup (s : CString) : Prop := ∃ c ∈ s.head?, c.val = bang ∨ c.val = slash ∨ isAsciiAlpha c

/-- What makes a reference of an ampersand before it. -/
def opensReference (s : CString) : Prop := (∃ c ∈ s.head?, c.val = hash) ∨ ∃ r ∈ references, CString.ofString r.1 <+: s

/-- The character, before `w` and a closing tag, is not handed out as it is. -/
def Opens (b : Bool) (c : CChar) (w : CString) : Prop := (c.val = less ∧ opensMarkup w) ∨ (c.val = amp ∧ b ∧ opensReference w)

/-- Before a closing tag the characters are all handed out as they are. Ampersands count where references are read, which
they are behind the first `<`, be it in a script. -/
def Kept : Bool → CString → Prop
  | _, [] => True
  | b, c :: w => ¬ Opens b c w ∧ Kept (b || c.val == less) w

instance (b : Bool) (c : CChar) (w : CString) : Decidable (Opens b c w) :=
  inferInstanceAs (Decidable ((c.val = less ∧ ∃ d ∈ w.head?, d.val = bang ∨ d.val = slash ∨ isAsciiAlpha d) ∨
    (c.val = amp ∧ b ∧ ((∃ d ∈ w.head?, d.val = hash) ∨ ∃ r ∈ references, CString.ofString r.1 <+: w))))

instance decidableKept : (b : Bool) → (w : CString) → Decidable (Kept b w)
  | _, [] => .isTrue trivial
  | b, c :: w => @instDecidableAnd _ _ _ (decidableKept (b || c.val == less) w)

def closingTag (n white : CString) : CString :=
  ⟨less, by decide⟩ :: ⟨slash, by decide⟩ :: (n ++ (white ++ [⟨greater, by decide⟩]))

def IsClosingTag (name : List UInt8) (close : CString) : Prop :=
  ∃ n white, n.map (fun c => toLower c.val) = name ∧ (∀ c ∈ white, isSpace c.val) ∧ close = closingTag n white

namespace Tokenizer
variable {tz : Tokenizer} {c d : CChar} {v w : CString}

def left (tz : Tokenizer) : CString := tz.input.drop tz.position

def skip (tz : Tokenizer) (n : Nat) : Tokenizer := { tz with position := tz.position + n }

theorem currentChar_of (h : tz.left = c :: v) : tz.currentChar = c.val := by
  have hget := congrArg head? h
  rw [left, head?_drop] at hget
  rw [currentChar, hget]
  rfl

theorem left_skip (h : tz.left = w ++ v) : (tz.skip w.length).left = v := by
  rw [left, skip, ← drop_drop, ← left, h, drop_left]

theorem step_of (h : tz.left = c :: v) : tz.step = tz.dispatch c.val := by
  have hc := currentChar_of h
  rw [step, hc, if_neg fun h => c.property h.1, if_neg c.property]

theorem advance_of_left (h : tz.left = c :: v) : tz.advance = tz.skip 1 :=
  advance_of (by rw [currentChar_of h]; exact c.property)

private theorem step_plain (hs : Imposed tz.state) (h : tz.left = c :: v) (hless : c.val ≠ less) (hamp : c.val = amp → tz.state = .rawtext) :
    tz.step = .emit (.ofCharacter c) (tz.skip 1) := by
  rw [step_of h, dispatch]
  rcases hs with hs | hs | hs
  · rw [hs]
    dsimp only
    rw [if_neg hless, if_neg (fun ha => by cases hs.symm.trans (hamp ha)), emitChar, advance_of_left h]
  · rw [hs]
    dsimp only
    rw [if_neg hless, if_neg (fun ha => by cases hs.symm.trans (hamp ha)), emitChar, advance_of_left h]
  · rw [hs]
    dsimp only
    rw [if_neg hless, emitChar, advance_of_left h]

theorem step_less (hs : Imposed tz.state) (h : tz.left = c :: v) (hless : c.val = less) :
    tz.step = .again ((tz.skip 1).setState .tagOpen) := by
  have hadv : (tz.setState .tagOpen).advance = (tz.skip 1).setState .tagOpen := advance_of_left h
  rw [step_of h, dispatch]
  rcases hs with hs | hs | hs <;> rw [hs] <;> dsimp only <;> rw [if_pos hless, hadv]

private theorem step_alone (hs : tz.state = .tagOpen) (h : tz.left = c :: v) (hopen : ¬ opensMarkup (c :: v)) :
    tz.step = .emit (.ofCharacter less) (tz.setState .data) := by
  have hnone : ∀ p : Prop, (c.val = bang ∨ c.val = slash ∨ isAsciiAlpha c.val) → p := fun p hc => (hopen ⟨c, rfl, hc⟩).elim
  rw [step_of h, dispatch, hs]
  dsimp only
  rw [if_neg fun hc => hnone _ (.inl hc), if_neg fun hc => hnone _ (.inr (.inl hc)), if_neg fun hc => hnone _ (.inr (.inr hc))]
  rfl

variable {t u : Tokenizer} {ts us : List Token} {n white : CString}

theorem Steps.trans {v : Tokenizer} (h : Steps t ts u) (h' : Steps u us v) : Steps t (ts ++ us) v := by
  induction h with
  | refl => exact h'
  | again hs _ ih => exact .again hs (ih h')
  | emit hs _ ih => exact .emit hs (ih h')

theorem Steps.sound (h : Steps t ts u) (ht : t.Sound) : u.Sound ∧ u.input = t.input := by
  induction h with
  | refl => exact ⟨ht, rfl⟩
  | again hs _ ih =>
    have hm := step_meets ht
    rw [hs] at hm
    obtain ⟨hsound, hinput, -⟩ := hm
    exact ⟨(ih hsound).1, (ih hsound).2.trans hinput⟩
  | emit hs _ ih =>
    have hm := step_meets ht
    rw [hs] at hm
    obtain ⟨hsound, hinput, -⟩ := hm
    exact ⟨(ih hsound).1, (ih hsound).2.trans hinput⟩

/-- Names have no `<`, so that none reaches into a tag. -/
theorem prefix_before {l w v : CString} (h : l <+: w ++ v) (hl : ∀ c ∈ v.head?, c ∉ l) : l <+: w := by
  induction w generalizing l with
  | nil =>
    cases v with
    | nil => exact h
    | cons d v =>
      cases l with
      | nil => exact nil_prefix
      | cons c l =>
        obtain rfl : c = d := (cons_prefix_cons.mp h).1
        exact absurd (.head _) (hl c rfl)
  | cons d w ih =>
    cases l with
    | nil => exact nil_prefix
    | cons c l =>
      obtain ⟨hcd, hrest⟩ := cons_prefix_cons.mp h
      exact cons_prefix_cons.mpr ⟨hcd, ih hrest fun x hx hmem => hl x hx (.tail _ hmem)⟩

theorem references_less : ∀ r ∈ references, ∀ c ∈ CString.ofString r.1, c.val ≠ less := by decide +kernel

/-- What begins with a `<` is no reference, and does not make one of what is before it. -/
theorem opensReference_append (hc : c.val = less) : opensReference (w ++ c :: v) ↔ opensReference w := by
  constructor
  · rintro (⟨d, hd, hhash⟩ | ⟨r, hr, hpre⟩)
    · cases w with
      | nil =>
        cases hd
        rw [hc] at hhash
        exact absurd hhash (by decide)
      | cons e w => exact .inl ⟨d, hd, hhash⟩
    · refine .inr ⟨r, hr, prefix_before hpre fun d hd hmem => ?_⟩
      cases hd
      exact references_less r hr c hmem hc
  · rintro (⟨d, hd, hhash⟩ | ⟨r, hr, hpre⟩)
    · exact .inl ⟨d, mem_head?_append_of_mem_head? hd, hhash⟩
    · exact .inr ⟨r, hr, hpre.trans (prefix_append w _)⟩

private theorem opensMarkup_append (hc : c.val = less) : opensMarkup (w ++ c :: v) ↔ opensMarkup w := by
  cases w with
  | nil =>
    refine iff_of_false ?_ nofun
    rintro ⟨d, hd, hopen⟩
    cases hd
    rw [hc] at hopen
    revert hopen
    decide
  | cons d w => exact Iff.rfl

private theorem steps_amp (hs : InText tz.state) (h : tz.left = c :: d :: v) (hc : c.val = amp) (hrefers : ¬ opensReference (d :: v)) :
    ∃ u, Steps tz [.ofCharacter c] u ∧ u.position = tz.position + 1 ∧ u.state = tz.state ∧ u.currentToken = tz.currentToken := by
  have hahead : tz.ahead 1 = d.val := currentChar_of (left_skip (w := [c]) h)
  have hplain : tz.Plain := ⟨hs, by rw [hahead]; exact fun hhash => hrefers (.inl ⟨d, rfl, hhash⟩), by rw [hahead]; exact d.property⟩
  have hat : tz.AtReference := by
    refine ⟨?_, (currentChar_of h).trans hc⟩
    rcases hs with hs | hs <;> rw [hs] <;> trivial
  have hnone : (references.find? fun r => tz.advance.looksAt r.1) = none := by
    refine find?_eq_none.mpr fun r hr hlook => hrefers (.inr ⟨r, hr, ?_⟩)
    rw [advance_of_left h, looksAt, isPrefixOf_iff_prefix] at hlook
    rw [← left_skip (w := [c]) h]
    exact hlook
  obtain ⟨cs, n, u, hexp, hpos, hstate, hrun⟩ := hplain.expands hat
  rw [Expansion, if_neg hplain.2.1, hnone] at hexp
  obtain ⟨rfl, rfl⟩ := hexp
  rcases hrun with ⟨-, hsteps, htoken⟩ | ⟨hno, -⟩
  · rw [← hc] at hsteps
    exact ⟨u, hsteps, hpos, hstate, htoken⟩
  · exact absurd hs hno

def readsReferences (tz : Tokenizer) : Bool := tz.state ≠ .rawtext

/-- The characters of a text are handed out, and the tokenizer stands behind them. -/
def Reads (tz : Tokenizer) (w : CString) (u : Tokenizer) : Prop :=
  Steps tz ((w.map (·.val)).map .ofCharacter) u ∧ u.position = tz.position + w.length ∧ Imposed u.state ∧ u.currentToken = tz.currentToken

theorem Reads.left {v : CString} (h : tz.Reads w u) (hsound : tz.Sound) (hleft : tz.left = w ++ v) : u.left = v := by
  rw [Tokenizer.left, (h.1.sound hsound).2, h.2.1]
  exact left_skip hleft

theorem Reads.cons {v : Tokenizer} (h : tz.Reads [c] u) (h' : u.Reads w v) : tz.Reads (c :: w) v := by
  obtain ⟨hsteps, hpos, -, htoken⟩ := h
  obtain ⟨hsteps', hpos', hstate, htoken'⟩ := h'
  refine ⟨hsteps.trans hsteps', ?_, hstate, htoken'.trans htoken⟩
  rw [hpos', hpos]
  simp only [length_cons, length_nil]
  omega

theorem kept_reads (hs : Imposed tz.state) (h : tz.left = d :: (w ++ c :: v)) (hc : c.val = less)
    (hkept : ¬ Opens tz.readsReferences d w) :
    ∃ u, tz.Reads [d] u ∧ u.readsReferences = (tz.readsReferences || d.val == less) := by
  obtain ⟨hmarkup, hrefers⟩ := not_or.mp hkept
  obtain ⟨e, z, hnext⟩ : ∃ e z, w ++ c :: v = e :: z := by
    cases w with
    | nil => exact ⟨c, v, rfl⟩
    | cons e w => exact ⟨e, w ++ c :: v, rfl⟩
  by_cases hless : d.val = less
  · have hopen : ¬ opensMarkup (e :: z) := by
      rw [← hnext, opensMarkup_append hc]
      exact fun hopen => hmarkup ⟨hless, hopen⟩
    have hleft : ((tz.skip 1).setState .tagOpen).left = e :: z := (left_skip (w := [d]) h).trans hnext
    refine ⟨((tz.skip 1).setState .tagOpen).setState .data, ⟨.again (step_less hs h hless) ?_, rfl, .inl rfl, rfl⟩, ?_⟩
    · have hstep := step_alone rfl hleft hopen
      rw [← hless] at hstep
      exact .emit hstep (.refl _)
    · rw [hless, beq_self_eq_true, Bool.or_true]
      rfl
  · rw [beq_eq_false_iff_ne.mpr hless, Bool.or_false]
    by_cases hamp : d.val = amp ∧ tz.readsReferences = true
    · have htext : InText tz.state := by
        have hread : tz.state ≠ .rawtext := of_decide_eq_true hamp.2
        exact hs.imp_right fun hs => hs.resolve_right hread
      have hrefers : ¬ opensReference (e :: z) := by
        rw [← hnext, opensReference_append hc]
        exact fun hopen => hrefers ⟨hamp.1, hamp.2, hopen⟩
      rw [hnext] at h
      obtain ⟨u, hsteps, hpos, hstate, htoken⟩ := steps_amp htext h hamp.1 hrefers
      exact ⟨u, ⟨hsteps, hpos, hstate ▸ hs, htoken⟩, by rw [readsReferences, hstate]; rfl⟩
    · have hraw : d.val = amp → tz.state = .rawtext := fun ha => by
        by_contra hread
        exact hamp ⟨ha, decide_eq_true hread⟩
      exact ⟨tz.skip 1, ⟨.emit (step_plain hs h hless hraw) (.refl _), rfl, hs, rfl⟩, rfl⟩

theorem kept_text (hsound : tz.Sound) (hs : Imposed tz.state) (h : tz.left = w ++ c :: v) (hc : c.val = less)
    (hkept : Kept tz.readsReferences w) : ∃ u, tz.Reads w u := by
  induction w generalizing tz with
  | nil => exact ⟨tz, .refl tz, rfl, hs, rfl⟩
  | cons d w ih =>
    obtain ⟨u, hu, hread⟩ := kept_reads hs h hc hkept.1
    obtain ⟨v, hv⟩ := ih (hu.1.sound hsound).1 hu.2.2.1 (hu.left (v := w ++ c :: v) hsound h) (hread ▸ hkept.2)
    exact ⟨v, hu.cons hv⟩

private theorem letter_ne {c : UInt8} (hc : isAsciiAlpha c = true) : isSpace c = false ∧ c ≠ slash ∧ c ≠ greater ∧ c ≠ bang := by
  refine ⟨Bool.eq_false_iff.mpr fun hspace => ?_, ?_, ?_, ?_⟩
  · simp only [isSpace, Bool.or_eq_true, beq_iff_eq] at hspace
    rcases hspace with (((rfl | rfl) | rfl) | rfl) | rfl <;> cases hc
  all_goals
    rintro rfl
    cases hc

private theorem step_slash (hs : tz.state = .tagOpen) (h : tz.left = c :: v) (hc : c.val = slash) :
    tz.step = .again ((tz.skip 1).setState .endTagOpen) := by
  have hadv : (tz.setState .endTagOpen).advance = (tz.skip 1).setState .endTagOpen :=
    advance_of_left h
  rw [step_of h, dispatch, hs]
  dsimp only
  rw [hc, if_neg (by decide), if_pos rfl, hadv]

private theorem step_endTag (hs : tz.state = .endTagOpen) (h : tz.left = c :: v) (hc : isAsciiAlpha c.val = true) :
    tz.step = .again ((tz.newToken .endTag).setState .tagName) := by
  rw [step_of h, dispatch, hs]
  exact if_pos hc

private theorem steps_name {tok : Token} (hs : tz.state = .tagName) (htok : tz.currentToken = some tok) (h : tz.left = n ++ v)
    (hn : ∀ c ∈ n, isAsciiAlpha c.val = true) :
    Steps tz [] { tz.skip n.length with currentToken := some (n.foldl (fun t c => t.putName c.val) tok) } := by
  induction n generalizing tz tok with
  | nil =>
    have hsame : { tz.skip 0 with currentToken := some tok } = tz := by rw [← htok]; rfl
    rw [foldl_nil, length_nil, hsame]
    exact .refl tz
  | cons c n ih =>
    obtain ⟨hspace, hslash, hgreater, -⟩ := letter_ne (hn c (.head _))
    have hstep : tz.step = .again { tz.skip 1 with currentToken := some (tok.putName c.val) } := by
      rw [step_of h, dispatch, hs]
      dsimp only
      rw [if_neg (Bool.eq_false_iff.mp hspace), if_neg hslash, if_neg hgreater, advance_of_left h, amend]
      dsimp only [skip]
      rw [htok]
    have hnext : ({ tz.skip 1 with currentToken := some (tok.putName c.val) } : Tokenizer).state = .tagName := hs
    have hrest := ih hnext rfl (left_skip (w := [c]) h)
      fun d hd => hn d (.tail _ hd)
    refine .again hstep ?_
    rw [foldl_cons, length_cons, add_comm]
    simpa only [skip, add_assoc] using hrest

private theorem step_greater {tok : Token} (hs : tz.state = .tagName ∨ tz.state = .afterAttributeName) (htok : tz.currentToken = some tok)
    (h : tz.left = c :: v) (hc : c.val = greater) : tz.step = .emit tok { tz.skip 1 with state := .data, currentToken := none } := by
  have hadv : (tz.setState .data).advance = (tz.skip 1).setState .data := advance_of_left h
  rw [step_of h, dispatch]
  rcases hs with hs | hs <;> rw [hs] <;> dsimp only <;>
    rw [hc, if_neg (by decide), if_neg (by decide)]
  · rw [if_pos rfl, hadv, emitCurrent]
    dsimp only [skip, setState]
    rw [htok]
    rfl
  · rw [if_neg (by decide), if_pos rfl, hadv, emitCurrent]
    dsimp only [skip, setState]
    rw [htok]
    rfl

def Hands (tz : Tokenizer) (tok : Token) (u : Tokenizer) : Prop := ∃ t, Steps tz [] t ∧ t.step = .emit tok u ∧ t.position < u.position

theorem Hands.again {tok : Token} {v : Tokenizer} (hs : tz.step = .again u) (h : u.Hands tok v) : tz.Hands tok v := by
  obtain ⟨t, ht, hemit⟩ := h
  exact ⟨t, .again hs ht, hemit⟩

theorem Hands.after {tok : Token} {v : Tokenizer} (hs : tz.Steps [] u) (h : u.Hands tok v) : tz.Hands tok v := by
  obtain ⟨t, ht, hemit⟩ := h
  exact ⟨t, hs.trans ht, hemit⟩

private theorem hands_greater {tok : Token} (hs : tz.state = .tagName ∨ tz.state = .afterAttributeName) (htok : tz.currentToken = some tok)
    (h : tz.left = c :: v) (hc : c.val = greater) : tz.Hands tok { tz.skip 1 with state := .data, currentToken := none } :=
  ⟨tz, .refl tz, step_greater hs htok h hc, lt_succ_self _⟩

private theorem hands_white {tok : Token} (hs : tz.state = .beforeAttributeName) (htok : tz.currentToken = some tok)
    (h : tz.left = white ++ c :: v) (hwhite : ∀ c ∈ white, isSpace c.val = true) (hc : c.val = greater) :
    tz.Hands tok { tz.skip (white.length + 1) with state := .data, currentToken := none } := by
  induction white generalizing tz with
  | nil =>
    have hstep : tz.step = .again (tz.setState .afterAttributeName) := by
      rw [step_of h, dispatch, hs]
      dsimp only
      rw [hc, if_neg (by decide), if_pos (.inr (.inl rfl))]
    exact .again hstep (hands_greater (.inr rfl) htok h hc)
  | cons d white ih =>
    have hstep : tz.step = .again (tz.skip 1) := by
      rw [step_of h, dispatch, hs]
      dsimp only
      rw [if_pos (hwhite d (mem_cons_self ..)), advance_of_left h]
    have hnext : (tz.skip 1).state = .beforeAttributeName := hs
    have hrest := ih hnext htok (left_skip (w := [d]) h) fun d hd => hwhite d (.tail _ hd)
    refine .again hstep ?_
    rw [length_cons, add_comm white.length]
    simpa only [skip, add_assoc] using hrest

private theorem foldl_putName {tok : Token} (h : tok.name.length + n.length ≤ 63) :
    n.foldl (fun t c => t.putName c.val) tok = { tok with name := tok.name ++ n.map fun c => toLower c.val } := by
  induction n generalizing tok with
  | nil => rw [foldl_nil, map_nil, append_nil]
  | cons c n ih =>
    rw [length_cons] at h
    have hput : tok.putName c.val = { tok with name := tok.name ++ [toLower c.val] } := by
      rw [Token.putName, putChar, if_pos (by omega)]
    rw [foldl_cons, hput, ih (by rw [length_append, length_singleton]; omega), map_cons, append_assoc]
    rfl

def endTag (name : List UInt8) : Token := { Token.new .endTag with name }

theorem letter_of_lower {c : UInt8} (h : isAsciiAlpha (toLower c) = true) : isAsciiAlpha c = true := by
  rw [toLower] at h
  split at h
  · next hc => rw [isAsciiAlpha, Bool.or_eq_true, Bool.and_eq_true, Bool.and_eq_true, decide_eq_true_eq, decide_eq_true_eq,
      decide_eq_true_eq, decide_eq_true_eq]; exact .inr hc
  · exact h

private theorem hands_end {tok : Token} (hs : tz.state = .tagName) (htok : tz.currentToken = some tok)
    (h : tz.left = white ++ c :: v) (hwhite : ∀ c ∈ white, isSpace c.val = true) (hc : c.val = greater) :
    tz.Hands tok { tz.skip (white.length + 1) with state := .data, currentToken := none } := by
  cases white with
  | nil => exact hands_greater (.inl hs) htok h hc
  | cons d white =>
    have hstep : tz.step = .again ((tz.skip 1).setState .beforeAttributeName) := by
      have hadv : (tz.setState .beforeAttributeName).advance = (tz.skip 1).setState .beforeAttributeName :=
        advance_of_left h
      rw [step_of h, dispatch, hs]
      rw [if_pos (hwhite d (mem_cons_self ..)), hadv]
    have hnext : ((tz.skip 1).setState .beforeAttributeName).state = .beforeAttributeName := rfl
    have hrest := hands_white hnext htok (left_skip (w := [d]) h)
      (fun d hd => hwhite d (.tail _ hd)) hc
    refine .again hstep ?_
    rw [length_cons, add_comm white.length]
    simpa only [skip, setState, add_assoc] using hrest

theorem hands_closing {name : List UInt8} {close : CString} (hname : name ≠ [] ∧ name.length ≤ 63 ∧ ∀ c ∈ name, isAsciiAlpha c = true)
    (hclose : IsClosingTag name close) (hs : Imposed tz.state) (h : tz.left = close ++ v) :
    tz.Hands (endTag name) { tz.skip close.length with state := .data, currentToken := none } := by
  obtain ⟨n, white, hn, hwhite, rfl⟩ := hclose
  obtain ⟨hne, hlen, hletters⟩ := hname
  have halpha : ∀ c ∈ n, isAsciiAlpha c.val = true := fun c hc => letter_of_lower (hletters _ (hn ▸ mem_map_of_mem hc))
  have hput : n.foldl (fun t c => t.putName c.val) (Token.new .endTag) = endTag name := by
    rw [foldl_putName (by rw [← hn, length_map] at hlen; rw [Token.new, length_nil, Nat.zero_add]; exact hlen), hn]
    rfl
  obtain ⟨c, m, rfl⟩ : ∃ c m, n = c :: m := exists_cons_of_ne_nil fun hnil => hne (by rw [← hn, hnil, map_nil])
  rw [closingTag, cons_append, cons_append, append_assoc, append_assoc] at h
  have hopen := step_less hs h rfl
  have h1 : ((tz.skip 1).setState .tagOpen).left = _ := left_skip (w := [⟨less, by decide⟩]) h
  have hslash := step_slash rfl h1 rfl
  have h2 : ((tz.skip 2).setState .endTagOpen).left = (c :: m) ++ (white ++ ([⟨greater, by decide⟩] ++ v)) :=
    left_skip (w := [⟨less, by decide⟩, ⟨slash, by decide⟩]) h
  have hbegin := step_endTag rfl h2 (halpha c (.head _))
  let t : Tokenizer := { tz.skip 2 with state := .tagName, currentToken := some (Token.new .endTag) }
  have hnamed : Steps t [] _ := steps_name rfl rfl h2 halpha
  rw [hput] at hnamed
  have h3 : { t.skip (c :: m).length with currentToken := some (endTag name) }.left = white ++ ⟨greater, by decide⟩ :: v :=
    left_skip h2
  have hend := hands_end rfl rfl h3 hwhite rfl
  have hall := Hands.again hopen (.again hslash (.again hbegin (.after hnamed hend)))
  have hsame : ({ { t.skip (c :: m).length with currentToken := some (endTag name) }.skip (white.length + 1) with
      state := .data, currentToken := none } : Tokenizer) =
      { tz.skip (closingTag (c :: m) white).length with state := .data, currentToken := none } := by
    simp only [skip, closingTag, length_cons, length_append, length_nil, mk.injEq, and_true, true_and, t]
    omega
  rw [← hsame]
  exact hall

end Tokenizer

namespace HTML5Parser

inductive ParseStep : HTML5Parser × Tokenizer → HTML5Parser × Tokenizer → Prop where
  | again {p : HTML5Parser} {tz tz' : Tokenizer} (hs : tz.step = .again tz') : ParseStep (p, tz) (p, tz')
  | token {p q : HTML5Parser} {tz tz' tz'' : Tokenizer} {t : Token} (hs : tz.step = .emit t tz') (htype : t.type ≠ .eof)
      (hp : p.process t tz' = some (q, tz'')) : ParseStep (p, tz) (q, tz'')

abbrev Parses : HTML5Parser × Tokenizer → HTML5Parser × Tokenizer → Prop := Relation.ReflTransGen ParseStep

def withText (p : HTML5Parser) (e : Nat) (text : List UInt8) : HTML5Parser := if text = [] then p else p.appendChild e (.text text)

variable {p q : HTML5Parser} {e : Nat} {ty : NodeType} {tz : Tokenizer} {x : List UInt8}

private theorem setNode_appendChild (hlast : (p.node e).lastChild = none) (he : e < p.nodes.length) (ty ty' : NodeType) :
    (p.appendChild e ty).setNode p.nodes.length (fun n => { n with type := ty' }) = p.appendChild e ty' := by
  have hne : e ≠ p.nodes.length := Nat.ne_of_lt he
  simp only [appendChild, hlast, setNode, HTML5Parser.mk.injEq, and_true]
  refine ext_getElem? fun i => ?_
  rw [getElem?_modify, getElem?_modify, getElem?_modify]
  by_cases hi : i = p.nodes.length
  · subst hi
    rw [getElem?_concat_length, getElem?_concat_length]
    simp [hne, Node.new]
  · have hsame : ∀ n : Node, (p.nodes ++ [n])[i]? = p.nodes[i]? := fun n => by
      rcases Nat.lt_or_gt_of_ne hi with hlt | hgt
      · exact getElem?_append_left hlt
      · rw [getElem?_eq_none hgt.le, getElem?_eq_none (by rw [length_append]; exact hgt)]
    rw [hsame, hsame]
    simp [Ne.symm hi]

theorem withText_mode (p : HTML5Parser) (e : Nat) (x : List UInt8) : (p.withText e x).mode = p.mode := by
  rw [withText]
  split
  · rfl
  · rw [appendChild]
    split <;> rfl

theorem withText_openElements (p : HTML5Parser) (e : Nat) (x : List UInt8) : (p.withText e x).openElements = p.openElements := by
  rw [withText]
  split
  · rfl
  · rw [appendChild]
    split <;> rfl

/-- The element whose contents are read, in a state in which nothing of them has been read. -/
structure RawStart (p : HTML5Parser) (e : Nat) : Prop where
  built : p.Built
  pos : e ≠ 0
  last : p.nodes.length = e + 1
  once : e ∉ p.openElements.tail
  childless : (p.node e).lastChild = none
  mode : p.mode = .text ∨ p.mode = .inBody

theorem RawStart.lt (h : p.RawStart e) : e < p.nodes.length := by
  rw [h.last]
  exact lt_succ_self e

theorem RawStart.insertCharacter (h : p.RawStart e) (hcur : p.currentNode = some e) (x : List UInt8) (c : UInt8) :
    (p.withText e x).insertCharacter (.ofCharacter c) = some (p.withText e (x ++ [c])) := by
  have hcur' : (p.withText e x).currentNode = some e := by rw [currentNode, withText_openElements]; exact hcur
  have hnew : p.withText e (x ++ [c]) = p.appendChild e (.text (x ++ [c])) := by
    rw [withText, if_neg (append_ne_nil_of_right_ne_nil x (cons_ne_nil c []))]
  rw [HTML5Parser.insertCharacter, hcur', hnew, Option.bind_eq_bind, Option.bind_some]
  by_cases hx : x = []
  · subst hx
    have hnone : p.withText e [] = p := if_pos rfl
    rw [hnone, h.childless]
    rfl
  · have happ := appendChild_appended h.built.linked h.lt (.text x)
    have htext : p.withText e x = p.appendChild e (.text x) := if_neg hx
    have hlast : ((p.appendChild e (.text x)).node e).lastChild = some p.nodes.length := by
      rw [happ.lastChild, if_neg (Nat.ne_of_lt h.lt), if_pos rfl]
    have htype : ((p.appendChild e (.text x)).node p.nodes.length).type = .text x := by rw [happ.type, if_pos rfl]
    rw [htext, hlast]
    dsimp only
    rw [htype]
    exact congrArg some (setNode_appendChild h.childless h.lt _ _)

theorem RawStart.process_character (h : p.RawStart e) (hcur : p.currentNode = some e) (x : List UInt8) (c : UInt8) (tz : Tokenizer) :
    (p.withText e x).process (.ofCharacter c) tz = some (p.withText e (x ++ [c]), tz) := by
  have hmode := withText_mode p e x
  have hins := h.insertCharacter hcur x c
  have htype : (Token.ofCharacter c).type = .character := rfl
  rw [process, processToken]
  rcases h.mode with hm | hm <;> rw [hmode, hm] <;> dsimp only <;> rw [htype] <;> dsimp only <;> rw [hins] <;> rfl

theorem withText_nil (p : HTML5Parser) (e : Nat) : p.withText e [] = p := if_pos rfl

theorem withText_frame (p : HTML5Parser) (e : Nat) (x : List UInt8) (l : List Nat) (m : InsertionMode) :
    ({ p with openElements := l, mode := m } : HTML5Parser).withText e x = { p.withText e x with openElements := l, mode := m } := by
  by_cases hx : x = []
  · rw [withText, withText, if_pos hx, if_pos hx]
  · rw [withText, withText, if_neg hx, if_neg hx, appendChild, appendChild]
    cases hlast : (p.node e).lastChild with
    | none =>
      rw [show (({ p with openElements := l, mode := m } : HTML5Parser).node e).lastChild = none from hlast]
      rfl
    | some last =>
      rw [show (({ p with openElements := l, mode := m } : HTML5Parser).node e).lastChild = some last from hlast]
      rfl

theorem RawStart.tagName_withText (h : p.RawStart e) (x : List UInt8) : (p.withText e x).tagName = p.tagName := by
  funext i
  by_cases hx : x = []
  · rw [hx, withText_nil]
  · have happ := appendChild_appended h.built.linked h.lt (.text x)
    have htext : p.withText e x = p.appendChild e (.text x) := if_neg hx
    rw [tagName, tagName, htext, happ.type]
    by_cases hi : i = p.nodes.length
    · rw [if_pos hi, hi, node_outside (le_refl _)]
      rfl
    · rw [if_neg hi]

private theorem popThrough_congr {name : List UInt8} (htag : q.tagName = p.tagName) (l : List Nat) :
    q.popThrough name l = p.popThrough name l := by
  induction l with
  | nil => rfl
  | cons i l ih =>
    cases l with
    | nil => rfl
    | cons j l =>
      rw [popThrough, popThrough, htag, ih]

private theorem headOpen_congr (htag : q.tagName = p.tagName) (hopen : q.openElements = p.openElements) : q.headOpen = p.headOpen := by
  rw [headOpen, headOpen, htag, hopen]

/-- The builder behind the end tag. -/
def closeRaw (p : HTML5Parser) (name : List UInt8) : HTML5Parser :=
  if p.mode = .text then p.popElement.setMode (if p.popElement.headOpen then .inHead else .inBody)
  else { p with openElements := p.popThrough name p.openElements }

theorem RawStart.process_closing (h : p.RawStart e) {name : List UInt8} (hname : name ≠ bytes "body") (x : List UInt8)
    (htz : tz.state = .data) : (p.withText e x).process (endTag name) tz = some ((p.closeRaw name).withText e x, tz) := by
  have hmode := withText_mode p e x
  have htype : (endTag name).type = .endTag := rfl
  have hstate : tz.setState .data = tz := by
    rw [setState, ← htz]
  have htag := h.tagName_withText x
  rw [process, processToken, closeRaw]
  rcases h.mode with hm | hm <;> rw [hmode, hm] <;> dsimp only <;> rw [htype] <;> dsimp only
  · have hhead : (p.withText e x).popElement.headOpen = p.popElement.headOpen :=
      headOpen_congr htag (congrArg tail (withText_openElements p e x))
    rw [if_pos rfl, hstate, hhead]
    rw [popElement, withText_openElements]
    exact congrArg (fun q => some (q, tz)) (withText_frame p e x _ _).symm
  · have hbody : (endTag name).isEnd "body" = false := Bool.eq_false_iff.mpr fun hend => hname (isEnd_iff.mp hend).2
    rw [hbody, if_neg Bool.false_ne_true, if_neg (by decide), popThrough_congr htag, withText_openElements]
    exact congrArg (fun q => some (q, tz)) (withText_frame p e x _ _).symm

variable {u v : Tokenizer} {w close rest : CString} {tok : Token} {name : List UInt8}

theorem parses_silent (p : HTML5Parser) (h : tz.Steps [] u) : Parses (p, tz) (p, u) := by
  generalize hts : ([] : List Token) = ts at h
  induction h with
  | refl => exact .refl
  | again hs _ ih => exact .head (.again hs) (ih hts)
  | emit => cases hts

theorem RawStart.parses_text (h : p.RawStart e) (hcur : p.currentNode = some e) {y : List UInt8}
    (hsteps : tz.Steps (y.map .ofCharacter) u) (x : List UInt8) : Parses (p.withText e x, tz) (p.withText e (x ++ y), u) := by
  generalize hts : y.map Token.ofCharacter = ts at hsteps
  induction hsteps generalizing y x with
  | refl =>
    rw [map_eq_nil_iff.mp hts, append_nil]
  | again hs _ ih => exact .head (.again hs) (ih x hts)
  | emit hs _ ih =>
    cases y with
    | nil => cases hts
    | cons c y =>
      obtain ⟨htok, hrest⟩ := cons.inj hts
      rw [← htok] at hs
      have htail := ih (y := y) (x ++ [c]) hrest
      rw [append_assoc] at htail
      exact .head (.token hs nofun (h.process_character hcur x c _)) htail

private theorem parses_hands (h : tz.Hands tok u) (htype : tok.type ≠ .eof) (hp : p.process tok u = some (q, v)) : Parses (p, tz) (q, v) := by
  obtain ⟨t, ht, hemit, -⟩ := h
  exact (parses_silent p ht).tail (.token hemit htype hp)

def Without (tz : Tokenizer) (s : CString) : Tokenizer := { tz with input := tz.input.take tz.position ++ s }

/-- A name that is read whole. -/
structure IsTagName (name : List UInt8) : Prop where
  letters : name ≠ [] ∧ name.length ≤ 63 ∧ ∀ c ∈ name, isAsciiAlpha c = true
  notBody : name ≠ bytes "body"

theorem RawStart.parses_closing (h : p.RawStart e) (hname : IsTagName name) (hclose : IsClosingTag name close)
    (hs : Tokenizer.Imposed tz.state) (hleft : tz.left = close ++ rest) (x : List UInt8) :
    Parses (p.withText e x, tz) ((p.closeRaw name).withText e x, { tz.skip close.length with state := .data, currentToken := none }) :=
  parses_hands (hands_closing hname.letters hclose hs hleft) nofun (h.process_closing hname.notBody x rfl)

theorem left_without (hleft : tz.left = w ++ rest) (hne : w ++ rest ≠ []) : (Without tz rest).left = rest := by
  have hlen : tz.position ≤ tz.input.length := by
    by_contra hlong
    rw [left, drop_eq_nil_of_le (Nat.le_of_not_le hlong)] at hleft
    exact hne hleft.symm
  have htake : (tz.input.take tz.position).length = tz.position := length_take_of_le hlen
  rw [Without, left]
  rw [drop_append_of_le_length htake.ge, drop_eq_nil_of_le htake.le, nil_append]

theorem closing_cons (hclose : IsClosingTag name close) : ∃ c z, close = c :: z ∧ c.val = less := by
  obtain ⟨n, white, -, -, rfl⟩ := hclose
  exact ⟨_, _, rfl, rfl⟩

end HTML5Parser
end RetroOs.Browser
