import RetroOs.Browser.CssParserRuns
import Mathlib.Data.List.TakeWhile

/-! Rules as tokens: what the parser makes of a style rule wherever it stands, and of what is put before it. -/
namespace RetroOs.Browser
open Lib List Option

def punctuation (type : CSSTokenType) (h : type ≠ .eofToken) (c : CChar) : SheetToken := ⟨{ CSSToken.new type with value := [c] }, h⟩

def openCurly : SheetToken := punctuation .leftCurly nofun ⟨0x7B, by decide⟩

def closeCurly : SheetToken := punctuation .rightCurly nofun ⟨0x7D, by decide⟩

namespace CSSParser

def Alike (pre X Y : List SheetToken) (p q : CSSParser) : Prop :=
  ∃ l, l <:+ pre ∧ p.upcoming = l ++ openCurly :: X ∧ q.upcoming = l ++ openCurly :: Y

variable {pre X Y : List SheetToken} {p q : CSSParser}

private theorem alike_start (pre X Y : List SheetToken) (i j : Bool) : Alike pre X Y ⟨pre ++ openCurly :: X, i⟩ ⟨pre ++ openCurly :: Y, j⟩ :=
  ⟨pre, suffix_refl pre, rfl, rfl⟩

theorem Alike.current (h : Alike pre X Y p q) : q.currentToken = p.currentToken := by
  obtain ⟨l, -, hp, hq⟩ := h
  rw [currentToken, currentToken, hp, hq]
  cases l <;> rfl

theorem Alike.advance (h : Alike pre X Y p q) (hc : p.currentToken.type ≠ .leftCurly) : Alike pre X Y p.advance q.advance := by
  obtain ⟨l, hl, hp, hq⟩ := h
  rw [currentToken, hp] at hc
  cases l with
  | nil => exact absurd rfl hc
  | cons t l => exact ⟨l, (suffix_cons t l).trans hl, congrArg tail hp, congrArg tail hq⟩

theorem Alike.skipWhile {skip : CSSToken → Bool} (h : Alike pre X Y p q) (hc : skip openCurly.val = false) :
    Alike pre X Y (p.skipWhile skip) (q.skipWhile skip) := by
  obtain ⟨l, hl, hp, hq⟩ := h
  have hstop : ∀ Z : List SheetToken,
      (l ++ openCurly :: Z).dropWhile (fun t => skip t.val) = l.dropWhile (fun t => skip t.val) ++ openCurly :: Z := by
    intro Z
    rw [dropWhile_append]
    split
    · next hnil => rw [isEmpty_iff.mp hnil, dropWhile_cons, hc]; rfl
    · rfl
  refine ⟨l.dropWhile fun t => skip t.val, (dropWhile_suffix _).trans hl, ?_, ?_⟩
  · rw [CSSParser.skipWhile, hp, hstop]
  · rw [CSSParser.skipWhile, hq, hstop]

theorem Alike.skipWhitespace (h : Alike pre X Y p q) : Alike pre X Y p.skipWhitespace q.skipWhitespace := h.skipWhile rfl

theorem Alike.addSelector (h : Alike pre X Y p q) (hc : p.currentToken.type ≠ .leftCurly) (mark : SelectorType) :
    (q.addSelector mark).1 = (p.addSelector mark).1 ∧ Alike pre X Y (p.addSelector mark).2 (q.addSelector mark).2 := by
  refine ⟨by rw [CSSParser.addSelector, CSSParser.addSelector, h.current], ?_⟩
  obtain ⟨l, hl, hp, hq⟩ := h.advance hc
  exact ⟨l, hl, hp, hq⟩

/-- With the same results so far. -/
def AlikeAt {α : Type} (pre X Y : List SheetToken) (s t : CSSParser × α) : Prop := Alike pre X Y s.1 t.1 ∧ s.2 = t.2

/-- With the same result. -/
def AlikeIn {α : Type} (pre X Y : List SheetToken) (r r' : α × CSSParser) : Prop := r.1 = r'.1 ∧ Alike pre X Y r.2 r'.2

private theorem markTurn_alike (h : Alike pre X Y p q) (hc : p.currentToken.type ≠ .leftCurly) (mark : SelectorType) (head : List CSSSelector) :
    (markTurn mark p head).Related (AlikeAt pre X Y) (AlikeIn pre X Y) (markTurn mark q head) := by
  have hmark := h.advance hc
  rw [markTurn, markTurn]
  dsimp only
  rw [hmark.current]
  by_cases hident : p.advance.currentToken.type = .ident
  · obtain ⟨hs, hp⟩ := hmark.addSelector (by rw [hident]; decide) mark
    rw [if_pos hident, if_pos hident, hs]
    exact ⟨hp, rfl⟩
  · rw [if_neg hident, if_neg hident]
    exact ⟨hmark, rfl⟩

private theorem compoundTurn_alike (h : Alike pre X Y p q) (head : List CSSSelector) :
    ∃ r ∈ compoundTurn (p, head), ∃ r' ∈ compoundTurn (q, head), r.Related (AlikeAt pre X Y) (AlikeIn pre X Y) r' := by
  rw [compoundTurn, compoundTurn, h.current]
  split
  · exact ⟨_, rfl, _, rfl, rfl, h⟩
  · exact ⟨_, rfl, _, rfl, rfl, h⟩
  · exact ⟨_, rfl, _, rfl, rfl, h⟩
  · exact ⟨_, rfl, _, rfl, rfl, h⟩
  · next ht =>
    obtain ⟨hs, hp⟩ := h.addSelector (by rw [ht]; decide) .type
    exact ⟨_, rfl, _, rfl, hp, congrArg (fun s => head ++ [s]) hs.symm⟩
  · next ht =>
    obtain ⟨hs, hp⟩ := h.addSelector (by rw [ht]; decide) .id
    exact ⟨_, rfl, _, rfl, hp, congrArg (fun s => head ++ [s]) hs.symm⟩
  · next ht =>
    have hc : p.currentToken.type ≠ .leftCurly := by rw [ht]; decide
    by_cases hdot : p.currentToken.isDelim dot = true
    · rw [if_pos hdot, if_pos hdot]
      exact ⟨_, rfl, _, rfl, markTurn_alike h hc _ _⟩
    · rw [if_neg hdot, if_neg hdot]
      by_cases hstar : p.currentToken.isDelim star = true
      · rw [if_pos hstar, if_pos hstar]
        exact ⟨_, rfl, _, rfl, h.advance hc, rfl⟩
      · rw [if_neg hstar, if_neg hstar]
        exact ⟨_, rfl, _, rfl, rfl, h⟩
  · next ht => exact ⟨_, rfl, _, rfl, markTurn_alike h (by rw [ht]; decide) _ _⟩
  · exact ⟨_, rfl, _, rfl, rfl, h⟩

theorem loop_alike {α β : Type} {turn : CSSParser × α → Option (Turn (CSSParser × α) (β × CSSParser))}
    (hturn : ∀ p q x, Alike pre X Y p q →
      ∃ r ∈ turn (p, x), ∃ r' ∈ turn (q, x), r.Related (AlikeAt pre X Y) (AlikeIn pre X Y) r')
    {n m : Nat} {x : α} {r r' : β × CSSParser} (h : Alike pre X Y p q) (hr : Lib.loop turn n (p, x) = some r)
    (hr' : Lib.loop turn m (q, x) = some r') : AlikeIn pre X Y r r' := by
  refine Loops.related (R := AlikeAt pre X Y) (fun s t hst => ?_) (.of_loop hr) (.of_loop hr') ⟨h, rfl⟩
  obtain ⟨p, x⟩ := s
  obtain ⟨q, y⟩ := t
  obtain ⟨hpq, rfl⟩ := hst
  exact hturn p q x hpq

private theorem parseCompoundSelector_alike (h : Alike pre X Y p q) :
    ∃ r ∈ p.parseCompoundSelector, ∃ r' ∈ q.parseCompoundSelector, AlikeIn pre X Y r r' := by
  obtain ⟨r, hr, -⟩ := parseCompoundSelector_spec false p
  obtain ⟨r', hr', -⟩ := parseCompoundSelector_spec false q
  exact ⟨r, hr, r', hr', loop_alike (fun _ _ x h => compoundTurn_alike h x) h hr hr'⟩

private theorem complexTurn_alike (h : Alike pre X Y p q) (chain : ComplexSelector) :
    ∃ r ∈ complexTurn (p, chain), ∃ r' ∈ complexTurn (q, chain), r.Related (AlikeAt pre X Y) (AlikeIn pre X Y) r' := by
  have hskip := h.skipWhitespace
  rw [complexTurn, complexTurn, hskip.current]
  generalize p.skipWhitespace = u at hskip
  generalize q.skipWhitespace = v at hskip
  -- the same compound selector is read
  have hnext : ∀ u v combinator, Alike pre X Y u v →
      ∃ r ∈ (do
        let r ← u.parseCompoundSelector
        let chain := linkCompound chain combinator r.1
        if r.1 = [] then some (.done (chain, r.2)) else some (.again (r.2, chain)) :
          Option (Turn (CSSParser × ComplexSelector) (ComplexSelector × CSSParser))),
      ∃ r' ∈ (do
        let r ← v.parseCompoundSelector
        let chain := linkCompound chain combinator r.1
        if r.1 = [] then some (.done (chain, r.2)) else some (.again (r.2, chain)) :
          Option (Turn (CSSParser × ComplexSelector) (ComplexSelector × CSSParser))),
        r.Related (AlikeAt pre X Y) (AlikeIn pre X Y) r' := by
    intro u v combinator huv
    obtain ⟨⟨next, u'⟩, hu, ⟨next', v'⟩, hv, heq, huv'⟩ := parseCompoundSelector_alike huv
    obtain rfl : next = next' := heq
    rw [mem_def.mp hu, mem_def.mp hv]
    cases next with
    | nil => exact ⟨_, rfl, _, rfl, rfl, huv'⟩
    | cons s next => exact ⟨_, rfl, _, rfl, huv', rfl⟩
  by_cases hcomb : u.currentToken.isCombinator = true
  · have htaken := (hskip.advance (by rw [isCombinator_type hcomb]; decide)).skipWhitespace
    simp only [hcomb, if_true, true_or]
    exact hnext _ _ _ htaken
  · simp only [hcomb, if_false, false_or, Bool.false_eq_true, hskip.current]
    by_cases hstart : startsCompound u.currentToken = true
    · simp only [hstart, if_true]
      exact hnext _ _ _ hskip
    · simp only [hstart, if_false, Bool.false_eq_true]
      exact ⟨_, rfl, _, rfl, rfl, hskip⟩

private theorem parseComplexSelector_alike (h : Alike pre X Y p q) :
    ∃ r ∈ p.parseComplexSelector, ∃ r' ∈ q.parseComplexSelector, AlikeIn pre X Y r r' := by
  obtain ⟨r, hr, -⟩ := parseComplexSelector_spec p
  obtain ⟨r', hr', -⟩ := parseComplexSelector_spec q
  refine ⟨r, hr, r', hr', ?_⟩
  obtain ⟨⟨head, u⟩, hu, ⟨head', v⟩, hv, heq, huv⟩ := parseCompoundSelector_alike h
  obtain rfl : head = head' := heq
  rw [parseComplexSelector, mem_def.mp hu] at hr
  rw [parseComplexSelector, mem_def.mp hv] at hr'
  exact loop_alike (fun _ _ x h => complexTurn_alike h x) huv hr hr'

private theorem listTurn_alike (h : Alike pre X Y p q) (s : List ComplexSelector × Bool) :
    ∃ r ∈ listTurn (p, s), ∃ r' ∈ listTurn (q, s), r.Related (AlikeAt pre X Y) (AlikeIn pre X Y) r' := by
  rw [listTurn, listTurn, h.current]
  by_cases hcomma : p.currentToken.type = .comma
  · have htaken := (h.advance (by rw [hcomma]; decide)).skipWhitespace
    obtain ⟨⟨next, u⟩, hu, ⟨next', v⟩, hv, heq, huv⟩ := parseComplexSelector_alike htaken
    obtain rfl : next = next' := heq
    rw [if_pos hcomma, if_pos hcomma, mem_def.mp hu, mem_def.mp hv]
    exact ⟨_, rfl, _, rfl, huv, rfl⟩
  · rw [if_neg hcomma, if_neg hcomma]
    exact ⟨_, rfl, _, rfl, rfl, h⟩

private theorem parseSelectorList_alike (h : Alike pre X Y p q) :
    ∃ r ∈ p.parseSelectorList, ∃ r' ∈ q.parseSelectorList, AlikeIn pre X Y r r' := by
  obtain ⟨r, hr, -⟩ := parseSelectorList_spec p
  obtain ⟨r', hr', -⟩ := parseSelectorList_spec q
  refine ⟨r, hr, r', hr', ?_⟩
  obtain ⟨⟨head, u⟩, hu, ⟨head', v⟩, hv, heq, huv⟩ := parseComplexSelector_alike h
  obtain rfl : head = head' := heq
  rw [parseSelectorList, mem_def.mp hu] at hr
  rw [parseSelectorList, mem_def.mp hv] at hr'
  exact loop_alike (fun _ _ s h => listTurn_alike h s) huv hr hr'

/-- What an entry of a value becomes. -/
def valueOf (t : CSSToken) : Option CSSValue :=
  match t.type with
  | .hash => some { CSSValue.new .color with data := t.value }
  | .dimension => some { CSSValue.new .dimension with numericValue := t.numericValue, unit := t.unit }
  | .number => some { CSSValue.new .number with numericValue := t.numericValue }
  | .percentage => some { CSSValue.new .percentage with numericValue := t.numericValue }
  | .ident => some { CSSValue.new .keyword with data := t.value }
  | .string => some { CSSValue.new .string with data := t.value }
  | _ => none

def White (l : List SheetToken) : Prop := ∀ t ∈ l, t.val.type = .whitespace

def Entries (l : List SheetToken) : Prop := ∀ t ∈ l, endsValue t.val = false ∧ t.val.isDelim bang = false

variable {s l ts : List SheetToken} {t : SheetToken} {i : Bool} {e : SheetToken}

theorem current_cons : (⟨t :: ts, i⟩ : CSSParser).currentToken = t.val := rfl

theorem advance_cons : (⟨t :: ts, i⟩ : CSSParser).advance = ⟨ts, i⟩ := rfl

theorem skipWhitespace_white (hs : White s) (ht : t.val.type ≠ .whitespace) :
    skipWhitespace ⟨s ++ t :: ts, i⟩ = ⟨t :: ts, i⟩ := by
  have hdrop : (s ++ t :: ts).dropWhile (fun t => t.val.type == .whitespace) = t :: ts := by
    rw [dropWhile_append_of_pos fun u hu => beq_iff_eq.mpr (hs u hu), dropWhile_cons, if_neg]
    exact fun h => ht (beq_iff_eq.mp h)
  rw [skipWhitespace, skipWhile, hdrop]

private theorem valueTurn_entry (ht : endsValue t.val = false ∧ t.val.isDelim bang = false) (hw : t.val.type ≠ .whitespace) (head : List CSSValue) :
    ∃ j, valueTurn (⟨t :: ts, i⟩, head) = some (.again (⟨ts, j⟩, head ++ (valueOf t.val).toList)) := by
  have hskip : skipWhitespace ⟨t :: ts, i⟩ = ⟨t :: ts, i⟩ := skipWhitespace_of hw
  rw [valueTurn, hskip]
  dsimp only [currentToken, List.head?_cons, Option.elim]
  rw [valueOf]
  simp only [ht.1, ht.2, Bool.false_eq_true, if_false]
  split <;> simp_all [strcpy, advance]

private theorem valueTurn_white (hw : t.val.type = .whitespace) (head : List CSSValue) :
    valueTurn (⟨t :: ts, i⟩, head) = valueTurn (⟨ts, i⟩, head) := by
  have hend : endsValue t.val = false := by rw [endsValue, hw]; rfl
  have hskip : skipWhitespace ⟨t :: ts, i⟩ = skipWhitespace ⟨ts, i⟩ := by simp [skipWhitespace, skipWhile, hw]
  rw [valueTurn, valueTurn, hskip]
  have hcur : endsValue (currentToken ⟨t :: ts, i⟩) = false := hend
  rw [hcur, if_neg Bool.false_ne_true]
  by_cases hts : endsValue (currentToken ⟨ts, i⟩) = true
  · have hnone : skipWhitespace ⟨ts, i⟩ = ⟨ts, i⟩ := by
      refine skipWhitespace_of fun hspace => ?_
      rw [endsValue, hspace] at hts
      exact Bool.false_ne_true hts
    rw [if_pos hts, hnone]
    rw [if_pos hts]
  · rw [if_neg hts]

private theorem value_loops (he : endsValue e.val = true ∨ e.val.isDelim bang = true) (hl : Entries l) (X : List SheetToken)
    (i : Bool) (head : List CSSValue) :
    ∃ j, Loops valueTurn (⟨l ++ e :: X, i⟩, head) (head ++ l.filterMap fun t => valueOf t.val, ⟨e :: X, j⟩) := by
  induction l generalizing i head with
  | nil =>
    refine ⟨i, ?_⟩
    rw [filterMap_nil, append_nil, nil_append]
    refine .done ?_
    have hspace : e.val.type ≠ .whitespace := by
      intro hw
      rcases he with h | h
      · rw [endsValue, hw] at h
        exact Bool.false_ne_true h
      · rw [isDelim_type h] at hw
        cases hw
    rw [valueTurn, skipWhitespace_of (p := ⟨e :: X, i⟩) hspace]
    dsimp only
    rw [current_cons]
    by_cases hend : endsValue e.val = true
    · rw [if_pos hend]
    · rw [if_neg hend, if_neg hend, if_pos (he.resolve_left hend)]
  | cons t l ih =>
    have htl := forall_mem_cons.mp hl
    by_cases hw : t.val.type = .whitespace
    · obtain ⟨j, hj⟩ := ih htl.2 i head
      refine ⟨j, ?_⟩
      have hnone : valueOf t.val = none := by rw [valueOf, hw]
      rw [filterMap_cons, hnone]
      cases hj with
      | again hs hr => exact .again ((valueTurn_white hw head).trans hs) hr
      | done hs => exact .done ((valueTurn_white hw head).trans hs)
    · obtain ⟨k, hk⟩ := valueTurn_entry (i := i) htl.1 hw head
      obtain ⟨j, hj⟩ := ih htl.2 k (head ++ (valueOf t.val).toList)
      refine ⟨j, .again hk ?_⟩
      have hadd : head ++ (t :: l).filterMap (fun t => valueOf t.val) =
          head ++ (valueOf t.val).toList ++ l.filterMap fun t => valueOf t.val := by
        rw [filterMap_cons, append_assoc]
        cases valueOf t.val <;> rfl
      rw [hadd]
      exact hj

private theorem parseValue_entries (he : endsValue e.val = true ∨ e.val.isDelim bang = true) (hl : Entries l)
    (X : List SheetToken) (i : Bool) :
    ∃ j, parseValue ⟨l ++ e :: X, i⟩ = some (l.filterMap fun t => valueOf t.val, ⟨e :: X, j⟩) := by
  obtain ⟨j, hj⟩ := value_loops he hl X i []
  obtain ⟨r, hr, -⟩ := parseValue_spec ⟨l ++ e :: X, i⟩
  exact ⟨j, (mem_def.mp hr).trans (congrArg some (Loops.unique (.of_loop hr) hj))⟩

private theorem entries_skip (he : e.val.type ≠ .whitespace) (hl : Entries l) (X : List SheetToken) (i : Bool) :
    ∃ m, Entries m ∧ m.filterMap (fun t => valueOf t.val) = l.filterMap (fun t => valueOf t.val) ∧
      skipWhitespace ⟨l ++ e :: X, i⟩ = ⟨m ++ e :: X, i⟩ := by
  induction l with
  | nil => exact ⟨[], hl, rfl, skipWhitespace_of he⟩
  | cons t l ih =>
    by_cases hw : t.val.type = .whitespace
    · obtain ⟨m, hm, heq, hskip⟩ := ih (forall_mem_cons.mp hl).2
      have hnone : valueOf t.val = none := by rw [valueOf, hw]
      refine ⟨m, hm, by rw [heq, filterMap_cons, hnone], Eq.trans ?_ hskip⟩
      simp [skipWhitespace, skipWhile, hw]
    · exact ⟨t :: l, hl, rfl, skipWhitespace_of hw⟩

inductive IsDeclaration : List SheetToken → CSSDeclaration → Prop where
  | plain {name colon : SheetToken} {s l : List SheetToken} (hname : name.val.type = .ident) (hs : White s)
      (hcolon : colon.val.type = .colon) (hl : Entries l) :
      IsDeclaration (name :: (s ++ colon :: l)) ⟨name.val.value, l.filterMap fun t => valueOf t.val, false⟩
  | important {name colon mark word : SheetToken} {s l w : List SheetToken} (hname : name.val.type = .ident) (hs : White s)
      (hcolon : colon.val.type = .colon) (hl : Entries l) (hmark : mark.val.isDelim bang = true)
      (hword : word.val.type = .ident ∧ word.val.value = CString.ofString "important") (hw : White w) :
      IsDeclaration (name :: (s ++ colon :: (l ++ mark :: word :: w))) ⟨name.val.value, l.filterMap fun t => valueOf t.val, true⟩

/-- The tokens between the braces of a rule. -/
inductive IsBlock : List SheetToken → List CSSDeclaration → Prop where
  | empty {s : List SheetToken} (hs : White s) : IsBlock s []
  | last {s l : List SheetToken} {d : CSSDeclaration} (hs : White s) (hd : IsDeclaration l d) : IsBlock (s ++ l) [d]
  | more {s l b : List SheetToken} {semicolon : SheetToken} {d : CSSDeclaration} {ds : List CSSDeclaration} (hs : White s)
      (hd : IsDeclaration l d) (hsemi : semicolon.val.type = .semicolon) (hb : IsBlock b ds) :
      IsBlock (s ++ (l ++ semicolon :: b)) (d :: ds)

private theorem endsValue_of (he : e.val.type = .semicolon ∨ e.val.type = .rightCurly) :
    endsValue e.val = true ∧ e.val.isDelim bang = false ∧ e.val.type ≠ .whitespace := by
  rcases he with h | h <;> simp [endsValue, CSSToken.isDelim, h]

private theorem parseDeclaration_value {name colon : SheetToken} (hname : name.val.type = .ident) (hs : White s)
    (hcolon : colon.val.type = .colon) (hl : Entries l) (he : endsValue e.val = true ∨ e.val.isDelim bang = true)
    (hspace : e.val.type ≠ .whitespace) (X : List SheetToken) (i : Bool) :
    ∃ j, parseDeclaration ⟨name :: (s ++ colon :: (l ++ e :: X)), i⟩ =
      if e.val.isDelim bang then
        if (⟨X, j⟩ : CSSParser).currentToken.type = .ident ∧ (⟨X, j⟩ : CSSParser).currentToken.value = CString.ofString "important" then
          some (some ⟨name.val.value, l.filterMap fun t => valueOf t.val, true⟩, CSSParser.advance ⟨X, j⟩)
        else some (some ⟨name.val.value, l.filterMap fun t => valueOf t.val, false⟩, ⟨X, j⟩)
      else some (some ⟨name.val.value, l.filterMap fun t => valueOf t.val, false⟩, ⟨e :: X, j⟩) := by
  obtain ⟨j, hj⟩ : ∃ j, parseValue (skipWhitespace ⟨l ++ e :: X, i && decide (name.val.value.length < 64)⟩) =
      some (l.filterMap fun t => valueOf t.val, ⟨e :: X, j⟩) := by
    obtain ⟨m, hm, heq, hskip⟩ := entries_skip hspace hl X (i && decide (name.val.value.length < 64))
    rw [hskip, ← heq]
    exact parseValue_entries he hm X _
  refine ⟨j, ?_⟩
  have hback : skipWhitespace ⟨e :: X, j⟩ = ⟨e :: X, j⟩ := skipWhitespace_of hspace
  have hgap : ∀ k, skipWhitespace ⟨s ++ colon :: (l ++ e :: X), k⟩ = ⟨colon :: (l ++ e :: X), k⟩ := fun k =>
    skipWhitespace_white hs (by rw [hcolon]; decide)
  rw [parseDeclaration]
  dsimp only
  rw [current_cons, if_neg (not_not.mpr hname), strcpy, advance_cons, hgap, current_cons, if_neg (not_not.mpr hcolon), advance_cons, hj]
  dsimp only [bind_eq_bind, bind_some]
  rw [hback, current_cons, advance_cons]

private theorem parseDeclaration_tokens {d : CSSDeclaration} (hd : IsDeclaration l d)
    (he : e.val.type = .semicolon ∨ e.val.type = .rightCurly) (X : List SheetToken) (i : Bool) :
    ∃ p j, parseDeclaration ⟨l ++ e :: X, i⟩ = some (some d, p) ∧ p.skipWhitespace = ⟨e :: X, j⟩ := by
  obtain ⟨hend, hbang, hspace⟩ := endsValue_of he
  cases hd with
  | @plain name colon s l hname hs hcolon hl =>
    obtain ⟨j, hj⟩ := parseDeclaration_value hname hs hcolon hl (.inl hend) hspace X i
    rw [hbang, if_neg Bool.false_ne_true] at hj
    refine ⟨_, j, ?_, skipWhitespace_of hspace⟩
    rw [← hj]
    simp
  | @important name colon mark word s l w hname hs hcolon hl hmark hword hw =>
    obtain ⟨j, hj⟩ := parseDeclaration_value hname hs hcolon hl (.inr hmark) (by rw [isDelim_type hmark]; decide)
      (word :: (w ++ e :: X)) i
    rw [if_pos hmark, current_cons, if_pos hword, advance_cons] at hj
    refine ⟨_, j, ?_, skipWhitespace_white hw hspace⟩
    rw [← hj]
    simp

private theorem declarationTurn_tokens {d : CSSDeclaration} (hs : White s) (hd : IsDeclaration l d)
    (he : e.val.type = .semicolon ∨ e.val.type = .rightCurly) (X : List SheetToken) (i : Bool) (head : List CSSDeclaration) :
    ∃ j, declarationTurn (⟨s ++ (l ++ e :: X), i⟩, head) =
      if e.val.type = .semicolon then some (.again (⟨X, j⟩, head ++ [d])) else some (.done (head ++ [d], ⟨e :: X, j⟩)) := by
  obtain ⟨p, j, hp, hskip⟩ := parseDeclaration_tokens hd he X i
  obtain ⟨name, m, hl, hname⟩ : ∃ (name : SheetToken) (m : List SheetToken), l = name :: m ∧ name.val.type = .ident := by
    cases hd with
    | plain hname _ _ _ => exact ⟨_, _, rfl, hname⟩
    | important hname _ _ _ _ _ _ => exact ⟨_, _, rfl, hname⟩
  subst hl
  refine ⟨j, ?_⟩
  have hgap : skipWhitespace ⟨s ++ (name :: m ++ e :: X), i⟩ = ⟨name :: m ++ e :: X, i⟩ :=
    skipWhitespace_white hs (by rw [hname]; decide)
  have hfirst : ¬ ((⟨s ++ (name :: m ++ e :: X), i⟩ : CSSParser).currentToken.type = .rightCurly ∨
      (⟨s ++ (name :: m ++ e :: X), i⟩ : CSSParser).currentToken.type = .eofToken) := by
    cases s with
    | nil =>
      rw [nil_append, cons_append, current_cons, hname]
      decide
    | cons w s =>
      rw [cons_append, current_cons, hs w (mem_cons_self ..)]
      decide
  have hcurly : (⟨name :: m ++ e :: X, i⟩ : CSSParser).currentToken.type ≠ .rightCurly := by
    rw [cons_append, current_cons, hname]
    decide
  rw [declarationTurn, if_neg hfirst, hgap]
  dsimp only
  rw [if_neg hcurly, hp]
  dsimp only [bind_eq_bind, bind_some]
  rw [hskip, current_cons, advance_cons]
  rfl

private theorem block_loops {b : List SheetToken} {ds : List CSSDeclaration} (hb : IsBlock b ds) (X : List SheetToken) (i : Bool)
    (head : List CSSDeclaration) :
    ∃ j, Loops declarationTurn (⟨b ++ closeCurly :: X, i⟩, head) (head ++ ds, ⟨closeCurly :: X, j⟩) := by
  induction hb generalizing i head with
  | @empty s hs =>
    refine ⟨i, .done ?_⟩
    have hgap : skipWhitespace ⟨s ++ closeCurly :: X, i⟩ = ⟨closeCurly :: X, i⟩ := skipWhitespace_white hs nofun
    rw [append_nil, declarationTurn, hgap]
    cases s with
    | nil => rfl
    | cons w s =>
      have hw : w.val.type = .whitespace := hs w (.head _)
      rw [if_neg (by rw [cons_append, current_cons, hw]; decide)]
      rfl
  | @last s l d hs hd =>
    obtain ⟨j, hj⟩ := declarationTurn_tokens hs hd (.inr rfl : closeCurly.val.type = .semicolon ∨ _) X i head
    exact ⟨j, .done (by rw [append_assoc]; exact hj)⟩
  | @more s l b semicolon d ds hs hd hsemi _ ih =>
    obtain ⟨k, hk⟩ := declarationTurn_tokens hs hd (.inl hsemi) (b ++ closeCurly :: X) i head
    rw [if_pos hsemi] at hk
    obtain ⟨j, hj⟩ := ih k (head ++ [d])
    refine ⟨j, .again (t := (⟨b ++ closeCurly :: X, k⟩, head ++ [d])) ?_ ?_⟩
    · rw [← hk]
      simp
    · rw [append_assoc] at hj
      exact hj

private theorem parseDeclarationList_block {b : List SheetToken} {ds : List CSSDeclaration} (hb : IsBlock b ds) (X : List SheetToken) (i : Bool) :
    ∃ j, parseDeclarationList ⟨b ++ closeCurly :: X, i⟩ = some (ds, ⟨closeCurly :: X, j⟩) := by
  obtain ⟨j, hj⟩ := block_loops hb X i []
  obtain ⟨r, hr, -⟩ := parseDeclarationList_spec ⟨b ++ closeCurly :: X, i⟩
  exact ⟨j, (mem_def.mp hr).trans (congrArg some (Loops.unique (.of_loop hr) hj))⟩

def selectorsRead (prelude : List SheetToken) : List ComplexSelector :=
  match parseSelectorList ⟨prelude ++ [openCurly], true⟩ with
  | some (selectors, p) => if p.skipWhitespace.currentToken.type = .leftCurly then selectors else []
  | none => []

/-- No brace, and no at keyword that begins it. -/
structure IsPrelude (l : List SheetToken) : Prop where
  braceless : ∀ t ∈ l, t.val.type ≠ .leftCurly ∧ t.val.type ≠ .rightCurly
  noAt : ∀ t ∈ l.head?, t.val.type ≠ .atKeyword ∧ t.val.type ≠ .whitespace

variable {b X : List SheetToken} {ds : List CSSDeclaration} {rules : List CSSStyleRule}

private theorem parseStyleRule_tokens (hl : IsPrelude l) (hb : IsBlock b ds) (X : List SheetToken) (i : Bool) :
    (∃ j, parseStyleRule ⟨l ++ openCurly :: (b ++ closeCurly :: X), i⟩ = some (some ⟨selectorsRead l, ds⟩, ⟨X, j⟩)) ∨
      (selectorsRead l = [] ∧ ∃ m j, m <:+ l ∧ m ≠ [] ∧
        parseStyleRule ⟨l ++ openCurly :: (b ++ closeCurly :: X), i⟩ = some (none, ⟨m ++ openCurly :: (b ++ closeCurly :: X), j⟩)) := by
  obtain ⟨⟨selectors, u⟩, hu, ⟨selectors', v⟩, hv, heq, huv⟩ :=
    parseSelectorList_alike (alike_start l (b ++ closeCurly :: X) [] i true)
  obtain rfl : selectors = selectors' := heq
  have hskip := huv.skipWhitespace
  have hread : selectorsRead l = if u.skipWhitespace.currentToken.type = .leftCurly then selectors else [] := by
    rw [selectorsRead, mem_def.mp hv]
    dsimp only
    rw [hskip.current]
  rw [parseStyleRule, mem_def.mp hu, hread]
  dsimp only [bind_eq_bind, bind_some]
  obtain ⟨m, hm, hup, -⟩ := hskip
  obtain ⟨us, j⟩ := u
  have htokens : skipWhitespace ⟨us, j⟩ = ⟨m ++ openCurly :: (b ++ closeCurly :: X), j⟩ := congrArg (fun l => CSSParser.mk l j) hup
  rw [htokens]
  cases m with
  | nil =>
    obtain ⟨k, hk⟩ := parseDeclarationList_block hb X j
    left
    refine ⟨k, ?_⟩
    have hopen : openCurly.val.type = .leftCurly := rfl
    rw [nil_append, current_cons, if_pos hopen, if_pos hopen, advance_cons, hk]
    rfl
  | cons t m =>
    have hopen : t.val.type ≠ .leftCurly := (hl.braceless t (hm.mem (.head _))).1
    right
    rw [cons_append, current_cons, if_neg hopen, if_neg hopen]
    exact ⟨rfl, t :: m, j, hm, cons_ne_nil t m, rfl⟩

/-- Turns of the loop over the rules. -/
def RuleTurns : CSSParser × List CSSStyleRule → CSSParser × List CSSStyleRule → Prop :=
  Relation.ReflTransGen fun s t => ruleTurn s = some (.again t)

private theorem recover_braceless (hl : ∀ t ∈ l, t.val.type ≠ .leftCurly ∧ t.val.type ≠ .rightCurly) (X : List SheetToken) (i : Bool) :
    recover ⟨l ++ openCurly :: X, i⟩ = ⟨openCurly :: X, i⟩ := by
  have hskip : skipWhile (fun t => t.type != .leftCurly && t.type != .rightCurly) ⟨l ++ openCurly :: X, i⟩ = ⟨openCurly :: X, i⟩ := by
    rw [skipWhile, dropWhile_append_of_pos]
    · rfl
    · intro t ht
      rw [Bool.and_eq_true, bne_iff_ne, bne_iff_ne]
      exact hl t ht
  rw [recover, hskip]
  rfl

private theorem ruleTurn_style (hs : White s) (hl : IsPrelude l) (Z : List SheetToken) (i : Bool) (rules : List CSSStyleRule) :
    ruleTurn (⟨s ++ (l ++ openCurly :: Z), i⟩, rules) = (parseStyleRule ⟨l ++ openCurly :: Z, i⟩).bind fun r =>
      match r.1 with
      | some rule => some (.again (r.2, rules ++ [rule]))
      | none => some (.again (r.2.recover, rules)) := by
  obtain ⟨t, ts, htokens, hat, hspace⟩ : ∃ t ts, l ++ openCurly :: Z = t :: ts ∧ t.val.type ≠ .atKeyword ∧ t.val.type ≠ .whitespace := by
    cases l with
    | nil => exact ⟨openCurly, Z, rfl, nofun, nofun⟩
    | cons t l => exact ⟨t, l ++ openCurly :: Z, rfl, hl.noAt t rfl⟩
  rw [htokens, ruleTurn, skipWhitespace_white hs hspace]
  dsimp only
  rw [current_cons, if_neg t.property, parseRule, current_cons, if_neg hat]
  rfl

private theorem rule_bare (hs : White s) (hb : IsBlock b ds) (X : List SheetToken) (i : Bool) (rules : List CSSStyleRule) :
    ∃ j, RuleTurns (⟨s ++ openCurly :: (b ++ closeCurly :: X), i⟩, rules) (⟨X, j⟩, rules ++ [⟨[], ds⟩]) := by
  have hnone : IsPrelude [] := ⟨fun t ht => absurd ht not_mem_nil, nofun⟩
  have hread : selectorsRead [] = [] := by decide +kernel
  have hturn := ruleTurn_style hs hnone (b ++ closeCurly :: X) i rules
  rcases parseStyleRule_tokens hnone hb X i with ⟨j, hj⟩ | ⟨-, m, -, hm, hne, -⟩
  · rw [hj, hread] at hturn
    exact ⟨j, .single hturn⟩
  · exact absurd (suffix_nil.mp hm) hne

private theorem rule_turns (hs : White s) (hl : IsPrelude l) (hb : IsBlock b ds) (X : List SheetToken) (i : Bool) (rules : List CSSStyleRule) :
    ∃ j, RuleTurns (⟨s ++ (l ++ openCurly :: (b ++ closeCurly :: X)), i⟩, rules) (⟨X, j⟩, rules ++ [⟨selectorsRead l, ds⟩]) := by
  have hturn := ruleTurn_style hs hl (b ++ closeCurly :: X) i rules
  rcases parseStyleRule_tokens hl hb X i with ⟨j, hj⟩ | ⟨hread, m, j, hm, -, hj⟩
  · rw [hj] at hturn
    exact ⟨j, .single hturn⟩
  · obtain ⟨k, hk⟩ := rule_bare (s := []) (fun _ h => absurd h not_mem_nil) hb X j rules
    have hrec : recover ⟨m ++ openCurly :: (b ++ closeCurly :: X), j⟩ = ⟨openCurly :: (b ++ closeCurly :: X), j⟩ :=
      recover_braceless (fun t ht => hl.braceless t (hm.mem ht)) _ j
    rw [hj] at hturn
    dsimp only [bind_some] at hturn
    rw [hrec] at hturn
    exact ⟨k, .head hturn (hread ▸ hk)⟩

/-- What stands between braces that open and close in pairs. -/
inductive Balanced : List SheetToken → Prop where
  | nil : Balanced []
  | token {t : SheetToken} {l : List SheetToken} (ht : t.val.type ≠ .leftCurly ∧ t.val.type ≠ .rightCurly) (hl : Balanced l) :
      Balanced (t :: l)
  | block {l m : List SheetToken} (hl : Balanced l) (hm : Balanced m) : Balanced (openCurly :: (l ++ closeCurly :: m))

inductive IsAtRule : List SheetToken → Prop where
  | statement {s l : List SheetToken} {keyword semicolon : SheetToken} (hs : White s) (hk : keyword.val.type = .atKeyword)
      (hl : ∀ t ∈ l, t.val.type ≠ .semicolon ∧ t.val.type ≠ .leftCurly) (hsemi : semicolon.val.type = .semicolon) :
      IsAtRule (s ++ keyword :: (l ++ [semicolon]))
  | block {s l b : List SheetToken} {keyword : SheetToken} (hs : White s) (hk : keyword.val.type = .atKeyword)
      (hl : ∀ t ∈ l, t.val.type ≠ .semicolon ∧ t.val.type ≠ .leftCurly) (hb : Balanced b) :
      IsAtRule (s ++ keyword :: (l ++ openCurly :: (b ++ [closeCurly])))

private theorem skipBlock_balanced (hb : Balanced b) (n : Nat) (X : List SheetToken) : skipBlock (n + 1) (b ++ X) = skipBlock (n + 1) X := by
  induction hb generalizing n X with
  | nil => rfl
  | token ht _ ih =>
    rw [cons_append, skipBlock, if_neg ht.1, if_neg ht.2]
    exact ih n X
  | @block l m _ _ ihl ihm =>
    have hopen : openCurly.val.type = .leftCurly := rfl
    have hclose : closeCurly.val.type = .rightCurly := rfl
    rw [cons_append, skipBlock, if_pos hopen, append_assoc, ihl (n + 1), cons_append, skipBlock, hclose,
      if_neg (by decide), if_pos rfl]
    exact ihm n X

private theorem ruleTurn_at {keyword : SheetToken} (hs : White s) (hk : keyword.val.type = .atKeyword)
    (hl : ∀ t ∈ l, t.val.type ≠ .semicolon ∧ t.val.type ≠ .leftCurly) (he : e.val.type = .semicolon ∨ e.val.type = .leftCurly)
    (Z : List SheetToken) (i : Bool) (rules : List CSSStyleRule) :
    ruleTurn (⟨s ++ keyword :: (l ++ e :: Z), i⟩, rules) =
      some (.again (recover ⟨if e.val.type = .leftCurly then skipBlock 1 Z else Z, i⟩, rules)) := by
  have hdrop : (keyword :: (l ++ e :: Z)).dropWhile (fun t => t.val.type != .semicolon && t.val.type != .leftCurly) = e :: Z := by
    rw [dropWhile_cons, if_pos (by rw [hk]; rfl), dropWhile_append_of_pos, dropWhile_cons, if_neg]
    · rcases he with h | h <;> rw [h] <;> decide
    · intro t ht
      rw [Bool.and_eq_true, bne_iff_ne, bne_iff_ne]
      exact hl t ht
  have hskip : skipAtRule ⟨keyword :: (l ++ e :: Z), i⟩ = ⟨if e.val.type = .leftCurly then skipBlock 1 Z else Z, i⟩ := by
    rw [skipAtRule, skipWhile, hdrop]
    dsimp only
    rw [current_cons, advance_cons]
    by_cases hopen : e.val.type = .leftCurly
    · rw [if_pos hopen, if_pos hopen]
    · rw [if_neg hopen, if_neg hopen, if_pos (he.resolve_right hopen)]
  rw [ruleTurn, skipWhitespace_white hs (by rw [hk]; decide)]
  dsimp only
  rw [current_cons, if_neg keyword.property, parseRule, current_cons, if_pos hk, hskip]
  rfl

private theorem atRule_turn (hr : IsAtRule l) (X : List SheetToken) (i : Bool) (rules : List CSSStyleRule) :
    ruleTurn (⟨l ++ X, i⟩, rules) = some (.again (recover ⟨X, i⟩, rules)) := by
  cases hr with
  | @statement s l keyword semicolon hs hk hl hsemi =>
    have hturn := ruleTurn_at hs hk hl (.inl hsemi) X i rules
    rw [if_neg (by rw [hsemi]; decide)] at hturn
    rw [← hturn]
    simp
  | @block s l b keyword hs hk hl hb =>
    have hturn := ruleTurn_at hs hk hl (.inr rfl : openCurly.val.type = _ ∨ openCurly.val.type = .leftCurly) (b ++ closeCurly :: X) i rules
    have hclose : closeCurly.val.type = .rightCurly := rfl
    have hclosed : skipBlock 1 (b ++ closeCurly :: X) = X := by
      rw [skipBlock_balanced hb 0, skipBlock, hclose, if_neg (by decide), if_pos rfl, skipBlock]
    rw [if_pos (by rfl), hclosed] at hturn
    rw [← hturn]
    simp

structure StyleRule where
  space : List SheetToken
  prelude : List SheetToken
  block : List SheetToken
  declarations : List CSSDeclaration
  white : White space
  isPrelude : IsPrelude prelude
  isBlock : IsBlock block declarations

def StyleRule.tokens (r : StyleRule) : List SheetToken := r.space ++ (r.prelude ++ openCurly :: (r.block ++ [closeCurly]))

/-- What the parser makes of it. -/
def StyleRule.rule (r : StyleRule) : CSSStyleRule := ⟨selectorsRead r.prelude, r.declarations⟩

def sheetTokens (A : List StyleRule) : List SheetToken := A.flatMap StyleRule.tokens

variable {A B : List StyleRule} {w : List SheetToken}

theorem StyleRule.turns (r : StyleRule) (X : List SheetToken) (i : Bool) (rules : List CSSStyleRule) :
    ∃ j, RuleTurns (⟨r.tokens ++ X, i⟩, rules) (⟨X, j⟩, rules ++ [r.rule]) := by
  obtain ⟨j, hj⟩ := rule_turns r.white r.isPrelude r.isBlock X i rules
  refine ⟨j, ?_⟩
  rw [StyleRule.tokens, StyleRule.rule]
  simpa using hj

theorem sheet_turns (A : List StyleRule) (X : List SheetToken) (i : Bool) (rules : List CSSStyleRule) :
    ∃ j, RuleTurns (⟨sheetTokens A ++ X, i⟩, rules) (⟨X, j⟩, rules ++ A.map StyleRule.rule) := by
  induction A generalizing i rules with
  | nil => exact ⟨i, by rw [map_nil, append_nil]; exact .refl⟩
  | cons r A ih =>
    obtain ⟨k, hk⟩ := r.turns (sheetTokens A ++ X) i rules
    obtain ⟨j, hj⟩ := ih k (rules ++ [r.rule])
    refine ⟨j, ?_⟩
    rw [append_assoc] at hj
    rw [sheetTokens, flatMap_cons, append_assoc]
    exact Relation.ReflTransGen.trans hk hj

private theorem recovered_turns (r : StyleRule) (X : List SheetToken) (i : Bool) (rules : List CSSStyleRule) :
    ∃ j, RuleTurns (recover ⟨r.tokens ++ X, i⟩, rules) (⟨X, j⟩, rules ++ [⟨[], r.declarations⟩]) := by
  have hbraceless : ∀ t ∈ r.space ++ r.prelude, t.val.type ≠ .leftCurly ∧ t.val.type ≠ .rightCurly := by
    intro t ht
    rcases mem_append.mp ht with h | h
    · rw [r.white t h]
      decide
    · exact r.isPrelude.braceless t h
  have hrec := recover_braceless hbraceless (r.block ++ closeCurly :: X) i
  obtain ⟨j, hj⟩ := rule_bare (s := []) (fun _ h => absurd h not_mem_nil) r.isBlock X i rules
  refine ⟨j, ?_⟩
  rw [StyleRule.tokens]
  simp only [append_assoc, cons_append, nil_append] at hrec hj ⊢
  rw [hrec]
  exact hj

theorem RuleTurns.loops {s t : CSSParser × List CSSStyleRule} {r : List CSSStyleRule × CSSParser} (h : RuleTurns s t)
    (ht : Loops ruleTurn t r) : Loops ruleTurn s r := by
  induction h using Relation.ReflTransGen.head_induction_on with
  | refl => exact ht
  | head hs _ ih => exact .again hs ih

theorem white_loops (hw : White w) (i : Bool) (rules : List CSSStyleRule) : Loops ruleTurn (⟨w, i⟩, rules) (rules, ⟨[], i⟩) := by
  have hskip : skipWhitespace ⟨w, i⟩ = ⟨[], i⟩ := by
    rw [skipWhitespace, skipWhile, dropWhile_eq_nil_iff.mpr fun t ht => beq_iff_eq.mpr (hw t ht)]
  exact .done (by rw [ruleTurn, hskip]; rfl)

private theorem recovered_white (hw : White w) (i : Bool) : recover ⟨w, i⟩ = ⟨[], i⟩ := by
  have hskip : skipWhile (fun t => t.type != .leftCurly && t.type != .rightCurly) ⟨w, i⟩ = ⟨[], i⟩ := by
    rw [skipWhile, dropWhile_eq_nil_iff.mpr fun t ht => by rw [hw t ht]; rfl]
  rw [recover, hskip]
  rfl

theorem parseRules_of {ts : List SheetToken} {rules : List CSSStyleRule} {p : CSSParser} {i : Bool}
    (h : Loops ruleTurn (⟨ts, i⟩, []) (rules, p)) : parseRules ⟨ts, i⟩ = some (rules, p) := by
  obtain ⟨r, hr, -⟩ := parseRules_spec ⟨ts, i⟩
  exact (mem_def.mp hr).trans (congrArg some (Loops.unique (.of_loop hr) h))

theorem parseRules_sheet (A : List StyleRule) (hw : White w) (i : Bool) :
    ∃ p, parseRules ⟨sheetTokens A ++ w, i⟩ = some (A.map StyleRule.rule, p) := by
  obtain ⟨j, hj⟩ := sheet_turns A w i []
  exact ⟨_, parseRules_of (hj.loops (white_loops hw j _))⟩

/-- The rules behind an at-rule: the first of them has lost its selectors. -/
def bare : List StyleRule → List CSSStyleRule
  | [] => []
  | r :: B => ⟨[], r.declarations⟩ :: B.map StyleRule.rule

theorem parseRules_atRule (A B : List StyleRule) (hr : IsAtRule l) (hw : White w) (i : Bool) :
    ∃ p, parseRules ⟨sheetTokens A ++ (l ++ (sheetTokens B ++ w)), i⟩ = some (A.map StyleRule.rule ++ bare B, p) := by
  obtain ⟨j, hj⟩ := sheet_turns A (l ++ (sheetTokens B ++ w)) i []
  have hturn := atRule_turn hr (sheetTokens B ++ w) j (A.map StyleRule.rule)
  cases B with
  | nil =>
    rw [sheetTokens, flatMap_nil, nil_append, recovered_white hw] at hturn
    rw [bare, append_nil]
    exact ⟨_, parseRules_of (hj.loops (.again hturn (white_loops (fun _ h => absurd h not_mem_nil) j _)))⟩
  | cons r B =>
    obtain ⟨k, hk⟩ := recovered_turns r (sheetTokens B ++ w) j (A.map StyleRule.rule)
    obtain ⟨m, hm⟩ := sheet_turns B w k (A.map StyleRule.rule ++ [⟨[], r.declarations⟩])
    have hrest := hk.loops (hm.loops (white_loops hw m _))
    have htokens : sheetTokens (r :: B) ++ w = r.tokens ++ (sheetTokens B ++ w) := by
      rw [sheetTokens, flatMap_cons, append_assoc]
      rfl
    rw [htokens] at hturn hj ⊢
    rw [append_assoc] at hrest
    exact ⟨_, parseRules_of (hj.loops (.again hturn hrest))⟩

end CSSParser
end RetroOs.Browser
