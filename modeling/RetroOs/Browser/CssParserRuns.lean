import RetroOs.Browser.CssPlaces

/-! What the parser's loops read: each turn that goes on takes a token, and each function leads from one place
to another. -/
namespace RetroOs.Browser
open Lib List Option Nat Place CSSToken Place

/-- Every turn comes to an end, and one that goes on takes a token. -/
def Consuming {α β : Type} (turn : CSSParser × α → Option (Turn (CSSParser × α) β)) : Prop :=
  ∀ s, ∃ r ∈ turn s, r.Meets (fun t => t.1.upcoming.length < s.1.upcoming.length) fun _ => True

structure Reads (a : Place) (p : CSSParser) (b : Place) (q : CSSParser) : Prop where
  le : q.upcoming.length ≤ p.upcoming.length
  sound : q.sound b = p.sound a

/-- And it has taken a token. -/
structure ReadsOn (a : Place) (p : CSSParser) (b : Place) (q : CSSParser) : Prop where
  lt : q.upcoming.length < p.upcoming.length
  sound : q.sound b = p.sound a

section
variable {a b c : Place} {p q r : CSSParser} {t : SheetToken} {ts : List SheetToken} {i : Bool} {bare : Bool}
  {n : Nat} {s : CString}

theorem Reads.refl (a : Place) (p : CSSParser) : Reads a p a p := ⟨le_refl _, rfl⟩

theorem Reads.trans (h : Reads a p b q) (h' : Reads b q c r) : Reads a p c r := ⟨h'.le.trans h.le, h'.sound.trans h.sound⟩

theorem ReadsOn.reads (h : ReadsOn a p b q) : Reads a p b q := ⟨le_of_lt h.lt, h.sound⟩

theorem ReadsOn.trans (h : ReadsOn a p b q) (h' : Reads b q c r) : ReadsOn a p c r :=
  ⟨lt_of_le_of_lt h'.le h.lt, h'.sound.trans h.sound⟩

theorem Reads.trans_on (h : Reads a p b q) (h' : ReadsOn b q c r) : ReadsOn a p c r :=
  ⟨lt_of_lt_of_le h'.lt h.le, h'.sound.trans h.sound⟩

theorem ReadsOn.token (h : a.step t = (b, true)) : ReadsOn a ⟨t :: ts, i⟩ b ⟨ts, i⟩ := by
  refine ⟨lt_succ_self _, ?_⟩
  rw [CSSParser.sound, CSSParser.sound, Place.fits, h, Bool.true_and]

theorem ReadsOn.copied (h : a.step t = (b, decide (s.length < n))) :
    ReadsOn a ⟨t :: ts, i⟩ b ⟨ts, i && decide (s.length < n)⟩ := by
  refine ⟨lt_succ_self _, ?_⟩
  rw [CSSParser.sound, CSSParser.sound, Place.fits, h, Bool.and_assoc]

theorem Reads.handed (h : a.step t = b.step t) : Reads a ⟨t :: ts, i⟩ b ⟨t :: ts, i⟩ := by
  refine ⟨le_refl _, ?_⟩
  rw [CSSParser.sound, CSSParser.sound, Place.fits, Place.fits, h]

theorem Reads.nil (a b : Place) : Reads a ⟨[], i⟩ b ⟨[], i⟩ := ⟨le_refl _, rfl⟩

theorem Reads.stay (h : p.currentToken.type ≠ .eofToken → a.step p.currentToken = b.step p.currentToken) : Reads a p b p := by
  obtain ⟨ts, i⟩ := p
  cases ts with
  | nil => exact .nil a b
  | cons t ts => exact .handed (h t.property)

theorem ReadsOn.advance (hp : p.currentToken.type ≠ .eofToken) (h : a.step p.currentToken = (b, true)) :
    ReadsOn a p b p.advance := by
  obtain ⟨ts, i⟩ := p
  cases ts with
  | nil => exact absurd rfl hp
  | cons t ts => exact .token h

theorem ReadsOn.strcpy (hp : p.currentToken.type ≠ .eofToken)
    (h : a.step p.currentToken = (b, decide (s.length < n))) : ReadsOn a p b (p.strcpy n s).advance := by
  obtain ⟨ts, i⟩ := p
  cases ts with
  | nil => exact absurd rfl hp
  | cons t ts => exact .copied h

/-- The places at which white space is skipped. -/
def Place.Waits (a : Place) : Prop := ∀ t : CSSToken, t.type = .whitespace → a.step t = (a, true)

theorem Reads.skipWhile {skip : CSSToken → Bool} (h : ∀ t : CSSToken, skip t = true → a.step t = (a, true)) (p : CSSParser) :
    Reads a p a (p.skipWhile skip) ∧
      ((p.skipWhile skip).currentToken.type ≠ .eofToken → skip (p.skipWhile skip).currentToken = false) := by
  obtain ⟨ts, i⟩ := p
  induction ts with
  | nil => exact ⟨.nil a a, fun h => absurd rfl h⟩
  | cons t ts ih =>
    by_cases ht : skip t = true
    · have hskip : CSSParser.skipWhile skip ⟨t :: ts, i⟩ = CSSParser.skipWhile skip ⟨ts, i⟩ := by
        simp [CSSParser.skipWhile, ht]
      rw [hskip]
      exact ⟨(ReadsOn.token (h t ht)).reads.trans ih.1, ih.2⟩
    · have hskip : CSSParser.skipWhile skip ⟨t :: ts, i⟩ = ⟨t :: ts, i⟩ := by
        simp [CSSParser.skipWhile, ht]
      rw [hskip]
      exact ⟨.refl _ _, fun _ => Bool.not_eq_true _ ▸ ht⟩

theorem Reads.skipWhitespace (h : a.Waits) (p : CSSParser) :
    Reads a p a p.skipWhitespace ∧ p.skipWhitespace.currentToken.type ≠ .whitespace := by
  obtain ⟨hread, hstop⟩ := Reads.skipWhile (fun t ht => h t (beq_iff_eq.mp ht)) p
  refine ⟨hread, fun hspace => ?_⟩
  have hnone := hstop (by rw [show (p.skipWhile fun t => t.type == .whitespace).currentToken.type = .whitespace from hspace]; decide)
  exact absurd hspace (beq_eq_false_iff_ne.mp hnone)

end

namespace Place
variable {t : CSSToken}

private theorem waits_between : between.Waits := fun _ ht => if_pos ht

private theorem waits_combined : combined.Waits := fun _ ht => if_pos ht

private theorem waits_comma : comma.Waits := fun _ ht => if_pos ht

private theorem waits_start : start.Waits := fun t ht => by rw [step, startStep, ht]

private theorem waits_close : close.Waits := fun t ht => by rw [step, closeStep, ht]

private theorem waits_declarations : declarations.Waits := fun t ht => by rw [step, ht]

private theorem waits_property : property.Waits := fun t ht => by rw [step, ht]

private theorem waits_value : value.Waits := fun t ht => by
  rw [step, ht]
  exact if_neg (by rw [isDelim, ht]; exact Bool.false_ne_true)

private theorem waits_declared : declared.Waits := fun t ht => by rw [step, declaredStep, ht]

/-- Behind a compound selector. -/
def behind (bare : Bool) : Place := if bare then .alternative else .between

private theorem step_compound (bare : Bool) (t : CSSToken) : (compound bare).step t = compoundStep (behind bare).step bare t := by
  cases bare <;> rfl

private theorem compoundStep_leaves {next : CSSToken → Place × Bool}
    (h : t.type ≠ .ident ∧ t.type ≠ .hash ∧ t.type ≠ .colon ∧ t.type ≠ .delim) : compoundStep next bare t = next t := by
  obtain ⟨hi, hh, hc, hd⟩ := h
  rw [compoundStep]
  split <;> first | rfl | contradiction

private theorem step_open {a : Place} (h : t.type = .leftCurly) (ha : a = .recovery ∨ a = .start) : a.step t = (.declarations, true) := by
  rcases ha with rfl | rfl <;>
    simp [step, recoveryStep, startStep, selectorStep, compoundStep, betweenStep, alternativeStep, closeStep, h,
      isCombinator, isDelim, CSSParser.startsCompound]

end Place

namespace CSSParser
variable {p : CSSParser}

def inCompound (bare : Bool) (head : List CSSSelector) : Place := .compound (bare && head.isEmpty)

theorem inCompound_added (bare : Bool) (head : List CSSSelector) (s : CSSSelector) :
    inCompound bare (head ++ [s]) = .compound false := by
  simp [inCompound]

private theorem markTurn_spec {head : List CSSSelector} {t : SheetToken} {ts : List SheetToken} {i : Bool}
    (mark : SelectorType) (h : (inCompound bare head).step t = (.marked (bare && head.isEmpty), true))
    {Q : List CSSSelector × CSSParser → Prop} :
    (markTurn mark ⟨t :: ts, i⟩ head).Meets (fun s => ReadsOn (inCompound bare head) ⟨t :: ts, i⟩ (inCompound bare s.2) s.1) Q := by
  have hread : ReadsOn (inCompound bare head) ⟨t :: ts, i⟩ (.marked (bare && head.isEmpty)) ⟨ts, i⟩ := .token h
  rw [markTurn]
  cases ts with
  | nil => exact hread.trans (.nil _ _)
  | cons u ts =>
    by_cases hu : u.val.type = .ident
    · dsimp only
      rw [if_pos (by exact hu), Turn.Meets, inCompound_added]
      have hcopied : ReadsOn (.marked (bare && head.isEmpty)) ⟨u :: ts, i⟩ (.compound false)
          ⟨ts, i && decide (u.val.value.length < 64)⟩ := .copied (if_pos hu)
      exact hread.trans hcopied.reads
    · dsimp only
      rw [if_neg (by exact hu)]
      exact hread.trans (.handed (if_neg hu))

private theorem compoundTurn_spec (bare : Bool) (p : CSSParser) (head : List CSSSelector) :
    ∃ r ∈ compoundTurn (p, head), r.Meets (fun s => ReadsOn (inCompound bare head) p (inCompound bare s.2) s.1)
      fun r => r.1 = head ∧ Reads (inCompound bare head) p (.behind (bare && head.isEmpty)) r.2 := by
  obtain ⟨ts, i⟩ := p
  cases ts with
  | nil => exact ⟨_, rfl, rfl, .nil _ _⟩
  | cons t ts =>
    have hstep : (inCompound bare head).step t = _ := step_compound _ _
    have hadd : ∀ s : CSSSelector, (inCompound bare head).step t = (.compound false, decide (t.val.value.length < 64)) →
        ReadsOn (inCompound bare head) ⟨t :: ts, i⟩ (inCompound bare (head ++ [s])) ⟨ts, i && decide (t.val.value.length < 64)⟩ :=
      fun s h => inCompound_added bare head s ▸ .copied h
    have hleave : t.val.type ≠ .ident ∧ t.val.type ≠ .hash ∧ t.val.type ≠ .colon ∧ t.val.type ≠ .delim →
        Reads (inCompound bare head) ⟨t :: ts, i⟩ (.behind (bare && head.isEmpty)) ⟨t :: ts, i⟩ :=
      fun h => .handed (hstep.trans (compoundStep_leaves h))
    rw [compoundTurn]
    dsimp only [currentToken, List.head?_cons, Option.elim]
    split
    · next ht => exact ⟨_, rfl, rfl, hleave (by rw [ht]; decide)⟩
    · next ht => exact ⟨_, rfl, rfl, hleave (by rw [ht]; decide)⟩
    · next ht => exact ⟨_, rfl, rfl, hleave (by rw [ht]; decide)⟩
    · next ht => exact absurd ht t.property
    · next ht => exact ⟨_, rfl, hadd _ (by rw [hstep, compoundStep, ht])⟩
    · next ht => exact ⟨_, rfl, hadd _ (by rw [hstep, compoundStep, ht])⟩
    · next ht =>
      rw [compoundStep, ht] at hstep
      dsimp only at hstep
      by_cases hdot : t.val.isDelim dot = true
      · exact ⟨_, if_pos hdot, markTurn_spec _ (hstep.trans (if_pos hdot))⟩
      · rw [if_neg hdot] at hstep
        by_cases hstar : t.val.isDelim star = true
        · refine ⟨_, (if_neg hdot).trans (if_pos hstar), ?_⟩
          rw [Turn.Meets, inCompound_added]
          exact .token (hstep.trans (if_pos hstar))
        · exact ⟨_, (if_neg hdot).trans (if_neg hstar), rfl, .handed (hstep.trans (if_neg hstar))⟩
    · next ht => exact ⟨_, rfl, markTurn_spec _ (by rw [hstep, compoundStep, ht])⟩
    · next h1 h2 h3 h4 h5 h6 h7 h8 => exact ⟨_, rfl, rfl, hleave ⟨h5, h6, h8, h7⟩⟩

theorem parseCompoundSelector_spec (bare : Bool) (p : CSSParser) :
    ∃ r ∈ p.parseCompoundSelector, Reads (.compound bare) p (.behind (bare && r.1.isEmpty)) r.2 ∧
      (r.1 ≠ [] → r.2.upcoming.length < p.upcoming.length) := by
  let Inv (s : CSSParser × List CSSSelector) : Prop :=
    Reads (.compound bare) p (inCompound bare s.2) s.1 ∧ (s.2 ≠ [] → s.1.upcoming.length < p.upcoming.length)
  have h0 : Inv (p, []) := by
    refine ⟨?_, fun h => absurd rfl h⟩
    have hplace : inCompound bare [] = .compound bare := by rw [inCompound, List.isEmpty_nil, Bool.and_true]
    rw [hplace]
    exact .refl _ _
  refine loop_spec Inv (fun s => s.1.upcoming.length) (fun ⟨q, head⟩ hinv => ?_) h0 (lt_succ_self _)
  obtain ⟨r, hr, hm⟩ := compoundTurn_spec bare q head
  refine ⟨r, hr, ?_⟩
  cases r with
  | again s => exact ⟨⟨(hinv.1.trans_on hm).reads, fun _ => (hinv.1.trans_on hm).lt⟩, hm.lt⟩
  | done r =>
    obtain ⟨rfl, hread⟩ := hm
    exact ⟨hinv.1.trans hread, fun h => lt_of_le_of_lt hread.le (hinv.2 h)⟩

theorem isCombinator_type {t : CSSToken} (h : t.isCombinator = true) : t.type = .delim := by
  simp only [isCombinator, isDelim, Bool.or_eq_true, Bool.and_eq_true, beq_iff_eq] at h
  rcases h with (h | h) | h <;> exact h.1

private theorem complexTurn_spec (p : CSSParser) (chain : ComplexSelector) :
    ∃ r ∈ complexTurn (p, chain), r.Meets (fun s => ReadsOn .between p .between s.1)
      fun r => Reads .between p .alternative r.2 := by
  obtain ⟨hskip, hspace⟩ := Reads.skipWhitespace Place.waits_between p
  rw [complexTurn]
  generalize p.skipWhitespace = q at hskip hspace
  -- a compound selector is read from `u` on
  have hnext : ∀ u combinator, Reads .between p (.compound true) u →
      ∃ r ∈ (do
        let r ← u.parseCompoundSelector
        let chain := linkCompound chain combinator r.1
        if r.1 = [] then some (.done (chain, r.2)) else some (.again (r.2, chain)) :
          Option (Turn (CSSParser × ComplexSelector) (ComplexSelector × CSSParser))),
        r.Meets (fun s => ReadsOn .between p .between s.1) fun r => Reads .between p .alternative r.2 := by
    intro u combinator hu
    obtain ⟨⟨next, v⟩, hv, hread, hlt⟩ := parseCompoundSelector_spec true u
    rw [Option.mem_def.mp hv]
    cases next with
    | nil => exact ⟨_, rfl, hu.trans hread⟩
    | cons s next => exact ⟨_, rfl, Nat.lt_of_lt_of_le (hlt (List.cons_ne_nil _ _)) hu.le, (hu.trans hread).sound⟩
  by_cases hcomb : q.currentToken.isCombinator = true
  · have hdelim := isCombinator_type hcomb
    have htaken : ReadsOn .between q .combined q.advance := by
      refine .advance (by rw [hdelim]; decide) ?_
      rw [Place.step, Place.betweenStep, if_neg hspace, if_pos hcomb]
    obtain ⟨hskip', hspace'⟩ := Reads.skipWhitespace Place.waits_combined q.advance
    have hbare : Reads .combined q.advance.skipWhitespace (.compound true) q.advance.skipWhitespace :=
      .stay fun _ => if_neg hspace'
    simp only [hcomb, true_or, if_true]
    exact hnext _ _ ((hskip.trans_on htaken).trans (hskip'.trans hbare)).reads
  · by_cases hstart : startsCompound q.currentToken = true
    · dsimp only
      simp only [if_neg hcomb, hstart, or_true, if_true]
      refine hnext _ _ (hskip.trans (.stay fun _ => ?_))
      change Place.betweenStep _ = Place.bareStep _
      rw [Place.betweenStep, if_neg hspace, if_neg hcomb, if_pos hstart]
    · dsimp only
      simp only [if_neg hcomb]
      refine ⟨_, if_neg (not_or.mpr ⟨hcomb, hstart⟩), hskip.trans (.stay fun _ => ?_)⟩
      change Place.betweenStep _ = Place.alternativeStep _
      rw [Place.betweenStep, if_neg hspace, if_neg hcomb, if_neg hstart]

theorem parseComplexSelector_spec (p : CSSParser) :
    ∃ r ∈ p.parseComplexSelector, Reads (.compound false) p .alternative r.2 := by
  obtain ⟨⟨head, q⟩, hq, hread, -⟩ := parseCompoundSelector_spec false p
  rw [parseComplexSelector, mem_def.mp hq]
  have hbetween : Reads (.compound false) p .between q := hread
  refine loop_spec (fun s => Reads (.compound false) p .between s.1) (fun s => s.1.upcoming.length)
    (fun ⟨u, chain⟩ hu => ?_) hbetween (lt_succ_self _)
  obtain ⟨r, hr, hm⟩ := complexTurn_spec u chain
  refine ⟨r, hr, ?_⟩
  cases r with
  | again s => exact ⟨(hu.trans_on hm).reads, hm.lt⟩
  | done r => exact hu.trans hm

private theorem listTurn_spec (p : CSSParser) (alternatives : List ComplexSelector) (linked : Bool) :
    ∃ r ∈ listTurn (p, alternatives, linked), r.Meets (fun s => ReadsOn .alternative p .alternative s.1)
      fun r => Reads .alternative p .close r.2 := by
  rw [listTurn]
  by_cases hcomma : p.currentToken.type = .comma
  · rw [if_pos hcomma]
    have htaken : ReadsOn .alternative p .comma p.advance := by
      refine .advance (by rw [hcomma]; decide) ?_
      rw [step, alternativeStep, hcomma]
    obtain ⟨hskip, hspace⟩ := Reads.skipWhitespace waits_comma p.advance
    have hnext : Reads .comma p.advance.skipWhitespace (.compound false) p.advance.skipWhitespace :=
      .stay fun _ => if_neg hspace
    obtain ⟨⟨next, q⟩, hq, hread⟩ := parseComplexSelector_spec p.advance.skipWhitespace
    rw [mem_def.mp hq]
    exact ⟨_, rfl, htaken.trans (hskip.trans (hnext.trans hread))⟩
  · rw [if_neg hcomma]
    refine ⟨_, rfl, .stay fun _ => ?_⟩
    rw [step, alternativeStep]
    split
    · contradiction
    · rfl

theorem parseSelectorList_spec (p : CSSParser) :
    ∃ r ∈ p.parseSelectorList, Reads (.compound false) p .close r.2 := by
  obtain ⟨⟨head, q⟩, hq, hread⟩ := parseComplexSelector_spec p
  rw [parseSelectorList, mem_def.mp hq]
  refine loop_spec (fun s => Reads (.compound false) p .alternative s.1) (fun s => s.1.upcoming.length)
    (fun ⟨u, alternatives, linked⟩ hu => ?_) hread (lt_succ_self _)
  obtain ⟨r, hr, hm⟩ := listTurn_spec u alternatives linked
  refine ⟨r, hr, ?_⟩
  cases r with
  | again s => exact ⟨(hu.trans_on hm).reads, hm.lt⟩
  | done r => exact hu.trans hm

private theorem valueTurn_spec (p : CSSParser) (head : List CSSValue) :
    ∃ r ∈ valueTurn (p, head), r.Meets (fun s => ReadsOn .value p .value s.1)
      fun r => Reads .value p .value r.2 ∧ (endsValue r.2.currentToken = true ∨ r.2.currentToken.isDelim bang = true) := by
  rw [valueTurn]
  by_cases hend : endsValue p.currentToken = true
  · exact ⟨_, if_pos hend, .refl _ _, .inl hend⟩
  rw [if_neg hend]
  obtain ⟨hskip, -⟩ := Reads.skipWhitespace waits_value p
  generalize p.skipWhitespace = q at hskip
  by_cases hend' : endsValue q.currentToken = true
  · exact ⟨_, if_pos hend', hskip, .inl hend'⟩
  rw [if_neg hend']
  by_cases hbang : q.currentToken.isDelim bang = true
  · exact ⟨_, if_pos hbang, hskip, .inr hbang⟩
  rw [if_neg hbang]
  have heof : q.currentToken.type ≠ .eofToken := fun h => hend' (by simp [endsValue, h])
  have hother : q.currentToken.type ≠ .semicolon ∧ q.currentToken.type ≠ .rightCurly := by
    constructor <;> exact fun h => hend' (by simp [endsValue, h])
  split
  · next ht => exact ⟨_, rfl, hskip.trans_on (.strcpy heof (by rw [step, ht]))⟩
  · next ht => exact ⟨_, rfl, hskip.trans_on (.strcpy heof (by rw [step, ht]))⟩
  · next ht => exact ⟨_, rfl, hskip.trans_on (.advance heof (by rw [step, ht]; exact if_neg hbang))⟩
  · next ht => exact ⟨_, rfl, hskip.trans_on (.advance heof (by rw [step, ht]; exact if_neg hbang))⟩
  · next ht => exact ⟨_, rfl, hskip.trans_on (.strcpy heof (by rw [step, ht]))⟩
  · next ht => exact ⟨_, rfl, hskip.trans_on (.strcpy heof (by rw [step, ht]))⟩
  · next h1 h2 h3 h4 h5 h6 =>
    refine ⟨_, rfl, hskip.trans_on (.advance heof ?_)⟩
    rw [step]
    split <;> first | contradiction | exact absurd ‹_› hother.1 | exact absurd ‹_› hother.2 | exact if_neg hbang

theorem parseValue_spec (p : CSSParser) :
    ∃ r ∈ p.parseValue, Reads .value p .value r.2 ∧
      (endsValue r.2.currentToken = true ∨ r.2.currentToken.isDelim bang = true) := by
  refine loop_spec (fun s => Reads .value p .value s.1) (fun s => s.1.upcoming.length) (fun ⟨q, head⟩ hq => ?_)
    (.refl _ _) (lt_succ_self _)
  obtain ⟨r, hr, hm⟩ := valueTurn_spec q head
  refine ⟨r, hr, ?_⟩
  cases r with
  | again s => exact ⟨(hq.trans_on hm).reads, hm.lt⟩
  | done r => exact ⟨hq.trans hm.1, hm.2⟩

private theorem declared_spec {t : CSSToken} (h : endsValue t = true ∨ t.isDelim bang = true) (hb : t.isDelim bang ≠ true)
    (ht : t.type ≠ .eofToken) : value.step t = declared.step t := by
  have hend : t.type = .semicolon ∨ t.type = .rightCurly := by
    rcases h with h | h
    · simp only [endsValue, Bool.or_eq_true, beq_iff_eq] at h
      rcases h with (h | h) | h
      · exact .inl h
      · exact .inr h
      · exact absurd h ht
    · exact absurd h hb
  rcases hend with h | h <;> rw [step, h] <;> rfl

theorem isDelim_type {t : CSSToken} {c : UInt8} (h : t.isDelim c = true) : t.type = .delim := by
  rw [isDelim, Bool.and_eq_true, beq_iff_eq] at h
  exact h.1

theorem skipWhitespace_of (h : p.currentToken.type ≠ .whitespace) : p.skipWhitespace = p := by
  obtain ⟨ts, i⟩ := p
  cases ts with
  | nil => rfl
  | cons t ts =>
    have ht : (t.val.type == .whitespace) = false := beq_eq_false_iff_ne.mpr h
    rw [skipWhitespace, skipWhile, dropWhile_cons, ht]
    rfl

private theorem parseDeclaration_spec (p : CSSParser) (hp : p.currentToken.type ≠ .whitespace) :
    ∃ r ∈ p.parseDeclaration, Reads .declarations p .declared r.2 := by
  rw [parseDeclaration]
  by_cases hident : p.currentToken.type = .ident
  · have hname : ReadsOn .declarations p .property (p.strcpy 64 p.currentToken.value).advance :=
      .strcpy (by rw [hident]; decide) (by rw [step, hident])
    obtain ⟨hskip, hspace⟩ := Reads.skipWhitespace waits_property (p.strcpy 64 p.currentToken.value).advance
    have hproperty := hname.trans hskip
    rw [if_neg (not_not.mpr hident)]
    generalize (p.strcpy 64 p.currentToken.value).advance.skipWhitespace = q at hproperty hspace
    by_cases hcolon : q.currentToken.type = .colon
    · have htaken : ReadsOn .property q .value q.advance := .advance (by rw [hcolon]; decide) (by rw [step, hcolon])
      obtain ⟨hskip, -⟩ := Reads.skipWhitespace waits_value q.advance
      obtain ⟨⟨value, v⟩, hv, hread, hend⟩ := parseValue_spec q.advance.skipWhitespace
      have hvalue : Reads .declarations p .value v := hproperty.reads.trans ((htaken.trans hskip).reads.trans hread)
      have hnone : v.skipWhitespace = v := by
        refine skipWhitespace_of fun hspace => ?_
        rcases hend with h | h
        · simp [endsValue, hspace] at h
        · rw [isDelim_type h] at hspace
          cases hspace
      simp only [hcolon, ne_eq, not_true_eq_false, if_false, mem_def.mp hv, bind_eq_bind, bind_some, hnone]
      by_cases hbang : v.currentToken.isDelim bang = true
      · have hmark : ReadsOn .value v .bang v.advance :=
          .advance (by rw [isDelim_type hbang]; decide) (by rw [step, isDelim_type hbang]; exact if_pos hbang)
        rw [if_pos hbang]
        by_cases himportant : v.advance.currentToken.type = .ident ∧ v.advance.currentToken.value = CString.ofString "important"
        · have hword : ReadsOn .bang v.advance .declared v.advance.advance :=
            .advance (by rw [himportant.1]; decide) (if_pos himportant)
          exact ⟨_, if_pos himportant, hvalue.trans (hmark.reads.trans hword.reads)⟩
        · exact ⟨_, if_neg himportant, hvalue.trans (hmark.reads.trans (.stay fun _ => if_neg himportant))⟩
      · exact ⟨_, if_neg hbang, hvalue.trans (.stay fun heof => declared_spec hend hbang heof)⟩
    · refine ⟨_, if_pos hcolon, hproperty.reads.trans (.stay fun _ => ?_)⟩
      rw [step]
      split <;> first | contradiction | rfl
  · rw [if_pos hident]
    refine ⟨_, rfl, .stay fun _ => ?_⟩
    rw [step]
    split <;> first | contradiction | rfl

private theorem declarationTurn_spec (p : CSSParser) (head : List CSSDeclaration) :
    ∃ r ∈ declarationTurn (p, head), r.Meets (fun s => ReadsOn .declarations p .declarations s.1)
      fun r => Reads .declarations p .declared r.2 ∧ r.2.currentToken.type ≠ .semicolon ∧ r.2.currentToken.type ≠ .whitespace := by
  have hclosed : ∀ q : CSSParser, q.currentToken.type = .rightCurly ∨ q.currentToken.type = .eofToken →
      Reads .declarations q .declared q ∧ q.currentToken.type ≠ .semicolon ∧ q.currentToken.type ≠ .whitespace := by
    intro q hq
    refine ⟨.stay fun heof => ?_, ?_⟩
    · rw [step, hq.resolve_right heof]
      rfl
    · rcases hq with h | h <;> rw [h] <;> decide
  rw [declarationTurn]
  by_cases hend : p.currentToken.type = .rightCurly ∨ p.currentToken.type = .eofToken
  · exact ⟨_, if_pos hend, hclosed p hend⟩
  rw [if_neg hend]
  obtain ⟨hskip, hspace⟩ := Reads.skipWhitespace waits_declarations p
  generalize p.skipWhitespace = q at hskip hspace
  by_cases hcurly : q.currentToken.type = .rightCurly
  · obtain ⟨hread, hother⟩ := hclosed q (.inl hcurly)
    exact ⟨_, if_pos hcurly, hskip.trans hread, hother⟩
  rw [if_neg hcurly]
  obtain ⟨⟨decl, v⟩, hv, hread⟩ := parseDeclaration_spec q hspace
  obtain ⟨hskip', hspace'⟩ := Reads.skipWhitespace waits_declared v
  simp only [mem_def.mp hv, bind_eq_bind, bind_some]
  have hdeclared := hskip.trans (hread.trans hskip')
  by_cases hsemi : v.skipWhitespace.currentToken.type = .semicolon
  · refine ⟨_, if_pos hsemi, hdeclared.trans_on (.advance (by rw [hsemi]; decide) ?_)⟩
    rw [step, declaredStep, hsemi]
  · exact ⟨_, if_neg hsemi, hdeclared, hsemi, hspace'⟩

theorem parseDeclarationList_spec (p : CSSParser) :
    ∃ r ∈ p.parseDeclarationList, Reads .declarations p .declared r.2 ∧
      r.2.currentToken.type ≠ .semicolon ∧ r.2.currentToken.type ≠ .whitespace := by
  refine loop_spec (fun s => Reads .declarations p .declarations s.1) (fun s => s.1.upcoming.length)
    (fun ⟨q, head⟩ hq => ?_) (.refl _ _) (lt_succ_self _)
  obtain ⟨r, hr, hm⟩ := declarationTurn_spec q head
  refine ⟨r, hr, ?_⟩
  cases r with
  | again s => exact ⟨(hq.trans_on hm).reads, hm.lt⟩
  | done r => exact ⟨hq.trans hm.1, hm.2⟩

def AfterRule (p : CSSParser) : Option CSSStyleRule × CSSParser → Prop
  | (some _, q) => ReadsOn .start p .start q
  | (none, q) => Reads .start p .recovery q ∧ (q.upcoming.length < p.upcoming.length ∨ q.currentToken.type ≠ .leftCurly)

private theorem parseStyleRule_spec (p : CSSParser) (hp : p.currentToken.type ≠ .whitespace) (hat : p.currentToken.type ≠ .atKeyword) :
    ∃ r ∈ p.parseStyleRule, AfterRule p r := by
  have hstart : Reads .start p (.compound false) p := by
    refine .stay fun _ => ?_
    rw [step, startStep]
    split <;> first | contradiction | rfl
  obtain ⟨⟨selectors, q⟩, hq, hread⟩ := parseSelectorList_spec p
  obtain ⟨hskip, hspace⟩ := Reads.skipWhitespace waits_close q
  have hclose := hstart.trans (hread.trans hskip)
  rw [parseStyleRule, mem_def.mp hq]
  dsimp only [bind_eq_bind, bind_some]
  generalize q.skipWhitespace = u at hclose hspace
  by_cases hcurly : u.currentToken.type = .leftCurly
  · have htaken : ReadsOn .close u .declarations u.advance := .advance (by rw [hcurly]; decide) (by rw [step, closeStep, hcurly])
    obtain ⟨⟨declarations, v⟩, hv, hread', hsemi, hspace'⟩ := parseDeclarationList_spec u.advance
    have hdeclared := hclose.trans_on (htaken.trans hread')
    rw [if_pos hcurly, mem_def.mp hv]
    refine ⟨_, rfl, ?_⟩
    by_cases hclosed : v.currentToken.type = .rightCurly
    · have hlast : ReadsOn .declared v .start v.advance :=
        .advance (by rw [hclosed]; decide) (by rw [step, declaredStep, hclosed])
      rw [if_pos hclosed]
      exact hdeclared.trans hlast.reads
    · rw [if_neg hclosed]
      refine hdeclared.trans (.stay fun _ => ?_)
      change declaredStep _ = startStep _
      unfold declaredStep
      split <;> first | contradiction | rfl
  · rw [if_neg hcurly]
    refine ⟨_, rfl, hclose.trans (.stay fun _ => ?_), .inr hcurly⟩
    change closeStep _ = recoveryStep _
    unfold closeStep
    split <;> first | contradiction | rfl

private theorem skipBlock_spec (n : Nat) (ts : List SheetToken) (i : Bool) :
    Reads (.block n) ⟨ts, i⟩ .recovery ⟨skipBlock (n + 1) ts, i⟩ := by
  induction ts generalizing n with
  | nil => exact .nil _ _
  | cons t ts ih =>
    rw [skipBlock]
    by_cases hopen : t.val.type = .leftCurly
    · rw [if_pos hopen]
      exact (ReadsOn.token (by rw [step, hopen])).reads.trans (ih (n + 1))
    · rw [if_neg hopen]
      by_cases hclose : t.val.type = .rightCurly
      · rw [if_pos hclose]
        cases n with
        | zero =>
          have hlast : ReadsOn (.block 0) ⟨t :: ts, i⟩ .recovery ⟨ts, i⟩ := .token (by rw [step, hclose]; rfl)
          rw [skipBlock]
          exact hlast.reads
        | succ n => exact (ReadsOn.token (by rw [step, hclose]; rfl)).reads.trans (ih n)
      · rw [if_neg hclose]
        refine (ReadsOn.token ?_).reads.trans (ih n)
        rw [step]
        split <;> first | contradiction | rfl

private theorem skipAtRule_spec (hp : p.currentToken.type = .atKeyword) : ReadsOn .start p .recovery p.skipAtRule := by
  have htaken : ReadsOn .start p .atRule p.advance := .advance (by rw [hp]; decide) (by rw [step, startStep, hp])
  have hpasses : ∀ t : CSSToken, (t.type != .semicolon && t.type != .leftCurly) = true → atRule.step t = (.atRule, true) := by
    intro t ht
    rw [Bool.and_eq_true, bne_iff_ne, bne_iff_ne] at ht
    rw [step]
    split
    · exact absurd ‹_› ht.1
    · exact absurd ‹_› ht.2
    · rfl
  obtain ⟨hread, hstop⟩ := Reads.skipWhile hpasses p.advance
  have hsame : p.skipWhile (fun t => t.type != .semicolon && t.type != .leftCurly) =
      p.advance.skipWhile fun t => t.type != .semicolon && t.type != .leftCurly := by
    obtain ⟨ts, i⟩ := p
    cases ts with
    | nil => rfl
    | cons t ts =>
      have ht : t.val.type = .atKeyword := hp
      simp [skipWhile, advance, ht]
  rw [skipAtRule, hsame]
  generalize p.advance.skipWhile (fun t => t.type != .semicolon && t.type != .leftCurly) = q at hread hstop
  have hrule := htaken.trans hread
  by_cases hopen : q.currentToken.type = .leftCurly
  · have hblock : ReadsOn .atRule q (.block 0) q.advance := .advance (by rw [hopen]; decide) (by rw [step, hopen])
    rw [if_pos hopen]
    exact hrule.trans (hblock.reads.trans (skipBlock_spec 0 q.advance.upcoming q.advance.intact))
  · rw [if_neg hopen]
    by_cases hsemi : q.currentToken.type = .semicolon
    · have hlast : ReadsOn .atRule q .recovery q.advance := .advance (by rw [hsemi]; decide) (by rw [step, hsemi])
      rw [if_pos hsemi]
      exact hrule.trans hlast.reads
    · rw [if_neg hsemi]
      refine hrule.trans (.stay fun heof => absurd (hstop heof) ?_)
      simp [hsemi, hopen]

private theorem parseRule_spec (p : CSSParser) (hp : p.currentToken.type ≠ .whitespace) : ∃ r ∈ p.parseRule, AfterRule p r := by
  rw [parseRule]
  by_cases hat : p.currentToken.type = .atKeyword
  · have hskip := skipAtRule_spec hat
    exact ⟨_, if_pos hat, hskip.reads, .inl hskip.lt⟩
  · rw [if_neg hat]
    exact parseStyleRule_spec p hp hat

private theorem recover_spec (p : CSSParser) :
    Reads .recovery p .start p.recover ∧
      (p.currentToken.type ≠ .eofToken → p.currentToken.type ≠ .leftCurly → p.recover.upcoming.length < p.upcoming.length) := by
  have hpasses : ∀ t : CSSToken, (t.type != .leftCurly && t.type != .rightCurly) = true → recovery.step t = (.recovery, true) := by
    intro t ht
    rw [Bool.and_eq_true, bne_iff_ne, bne_iff_ne] at ht
    change recoveryStep t = _
    unfold recoveryStep
    split
    · exact absurd ‹_› ht.1
    · exact absurd ‹_› ht.2
    · rfl
  obtain ⟨hread, hstop⟩ := Reads.skipWhile hpasses p
  have hmoved : p.currentToken.type ≠ .eofToken → p.currentToken.type ≠ .leftCurly → p.currentToken.type ≠ .rightCurly →
      (p.skipWhile fun t => t.type != .leftCurly && t.type != .rightCurly).upcoming.length < p.upcoming.length := by
    obtain ⟨ts, i⟩ := p
    intro heof hopen hclose
    cases ts with
    | nil => exact absurd rfl heof
    | cons t ts =>
      have ht : (t.val.type != .leftCurly && t.val.type != .rightCurly) = true := by
        rw [Bool.and_eq_true, bne_iff_ne, bne_iff_ne]
        exact ⟨hopen, hclose⟩
      rw [skipWhile, dropWhile_cons, if_pos ht]
      exact lt_succ_of_le (dropWhile_suffix _).length_le
  have hstays : p.currentToken.type = .rightCurly → (p.skipWhile fun t => t.type != .leftCurly && t.type != .rightCurly) = p := by
    obtain ⟨ts, i⟩ := p
    intro hclose
    cases ts with
    | nil => rfl
    | cons t ts =>
      have ht : t.val.type = .rightCurly := hclose
      simp [skipWhile, ht]
  rw [recover]
  generalize (p.skipWhile fun t => t.type != .leftCurly && t.type != .rightCurly) = q at hread hstop hmoved hstays
  by_cases hclose : q.currentToken.type = .rightCurly
  · have hlast : ReadsOn .recovery q .start q.advance := .advance (by rw [hclose]; decide) (by rw [step, recoveryStep, hclose])
    rw [if_pos hclose]
    exact ⟨(hread.trans_on hlast).reads, fun _ _ => (hread.trans_on hlast).lt⟩
  · rw [if_neg hclose]
    have hopen : q.currentToken.type ≠ .eofToken → q.currentToken.type = .leftCurly := fun heof => by
      have hno := hstop heof
      rw [Bool.and_eq_false_iff, bne_eq_false_iff_eq, bne_eq_false_iff_eq] at hno
      exact hno.resolve_right hclose
    refine ⟨hread.trans (.stay fun heof => ?_), fun heof hne => hmoved heof hne fun hcurly => ?_⟩
    · rw [step_open (hopen heof) (.inl rfl), step_open (hopen heof) (.inr rfl)]
    · rw [hstays hcurly] at hclose
      exact hclose hcurly

theorem ended_iff : p.currentToken.type = .eofToken ↔ p.upcoming = [] := by
  obtain ⟨ts, i⟩ := p
  cases ts with
  | nil => exact iff_of_true rfl rfl
  | cons t ts => exact iff_of_false t.property (cons_ne_nil _ _)

private theorem ruleTurn_spec (p : CSSParser) (rules : List CSSStyleRule) :
    ∃ r ∈ ruleTurn (p, rules), r.Meets (fun s => ReadsOn .start p .start s.1)
      fun r => Reads .start p .start r.2 ∧ r.2.currentToken.type = .eofToken := by
  obtain ⟨hskip, hspace⟩ := Reads.skipWhitespace waits_start p
  rw [ruleTurn]
  generalize p.skipWhitespace = q at hskip hspace
  by_cases heof : q.currentToken.type = .eofToken
  · exact ⟨_, if_pos heof, hskip, heof⟩
  obtain ⟨⟨rule, u⟩, hu, hafter⟩ := parseRule_spec q hspace
  simp only [if_neg heof, mem_def.mp hu, bind_eq_bind, bind_some]
  cases rule with
  | some rule => exact ⟨_, rfl, hskip.trans_on hafter⟩
  | none =>
    obtain ⟨hread, hrest⟩ := hafter
    obtain ⟨hrec, hmoved⟩ := recover_spec u
    refine ⟨_, rfl, lt_of_lt_of_le ?_ hskip.le, (hskip.trans (hread.trans hrec)).sound⟩
    by_cases hlt : u.upcoming.length < q.upcoming.length
    · exact lt_of_le_of_lt hrec.le hlt
    · -- nothing was read, so that the recovery finds a token
      have hu0 : u.currentToken.type ≠ .eofToken := fun h0 => by
        have hpos := length_pos_iff.mpr fun hnil => heof (ended_iff.mpr hnil)
        rw [ended_iff.mp h0, length_nil] at hlt
        exact hlt hpos
      exact lt_of_lt_of_le (hmoved hu0 (hrest.resolve_left hlt)) hread.le

theorem parseRules_spec (p : CSSParser) :
    ∃ r ∈ p.parseRules, r.2.upcoming = [] ∧ r.2.intact = p.sound .start := by
  refine loop_spec (fun s => Reads .start p .start s.1) (fun s => s.1.upcoming.length) (fun ⟨q, rules⟩ hq => ?_)
    (.refl _ _) (lt_succ_self _)
  obtain ⟨r, hr, hm⟩ := ruleTurn_spec q rules
  refine ⟨r, hr, ?_⟩
  cases r with
  | again s => exact ⟨(hq.trans_on hm).reads, hm.lt⟩
  | done r =>
    obtain ⟨rules, ts, i⟩ := r
    have hnil : ts = [] := ended_iff.mp hm.2
    subst hnil
    exact ⟨rfl, (Bool.and_true i).symm.trans (hq.trans hm.1).sound⟩

end CSSParser

private theorem tokenTurn_spec (s : CString) (ts : List SheetToken) :
    ∃ r ∈ tokenTurn (s, ts), r.Meets (fun u => u.1.length < s.length ∧ ∃ t : SheetToken, u.2 = ts ++ [t] ∧ t.val.unit.length < 16)
      fun l => l = ts := by
  obtain ⟨⟨t, u⟩, hu, hlt, hunit⟩ := CSSTokenizer.nextToken_spec s
  simp only [tokenTurn, mem_def.mp hu, bind_eq_bind, bind_some]
  by_cases heof : t.type = .eofToken
  · exact ⟨_, dif_pos heof, rfl⟩
  · exact ⟨_, dif_neg heof, hlt heof, ⟨t, heof⟩, rfl, hunit⟩

theorem tokens_spec (css : CString) : ∃ ts ∈ tokens css, ∀ t ∈ ts, t.val.unit.length < 16 := by
  refine loop_spec (fun s => ∀ t ∈ s.2, t.val.unit.length < 16) (fun s => s.1.length) (fun ⟨s, ts⟩ hs => ?_)
    (fun _ h => absurd h not_mem_nil) (lt_succ_self _)
  obtain ⟨r, hr, hm⟩ := tokenTurn_spec s ts
  refine ⟨r, hr, ?_⟩
  cases r with
  | again u =>
    obtain ⟨s', ts'⟩ := u
    obtain ⟨hlt, t, rfl, hunit⟩ := hm
    refine ⟨fun x hx => ?_, hlt⟩
    rcases mem_append.mp hx with hx | hx
    · exact hs x hx
    · exact mem_singleton.mp hx ▸ hunit
  | done l =>
    cases hm
    exact hs

theorem parse_spec (css : CString) :
    ∃ ts, tokens css = some ts ∧ ∃ rules p, CSSParser.parse css = some (rules, p) ∧ p.intact = start.fits ts := by
  obtain ⟨ts, hts, -⟩ := tokens_spec css
  obtain ⟨⟨rules, p⟩, hp, -, hintact⟩ := CSSParser.parseRules_spec ⟨ts, true⟩
  refine ⟨ts, hts, rules, p, ?_, hintact.trans (Bool.true_and _)⟩
  rw [CSSParser.parse, mem_def.mp hts]
  exact hp

theorem consuming_of {α β : Type} {a : Place} {turn : CSSParser × α → Option (Turn (CSSParser × α) β)} {Q : CSSParser × α → β → Prop}
    (h : ∀ s, ∃ r ∈ turn s, r.Meets (fun t => ReadsOn a s.1 a t.1) (Q s)) : Consuming turn := by
  intro s
  obtain ⟨r, hr, hm⟩ := h s
  refine ⟨r, hr, ?_⟩
  cases r with
  | again t => exact hm.lt
  | done b => trivial

/-- Each turn of the parser's loops takes a token or is the last, those that recover from an error too, and each token takes
a character. -/
structure LoopsEnd : Prop where
  rules : Consuming CSSParser.ruleTurn
  list : Consuming CSSParser.listTurn
  complex : Consuming CSSParser.complexTurn
  compound : Consuming CSSParser.compoundTurn
  declarations : Consuming CSSParser.declarationTurn
  values : Consuming CSSParser.valueTurn
  tokens : ∀ s, ∃ r, CSSTokenizer.nextToken s = some r ∧ (r.1.type ≠ .eofToken → r.2.length < s.length)

private theorem loops_end : LoopsEnd := by
  refine ⟨consuming_of fun s => CSSParser.ruleTurn_spec s.1 s.2, consuming_of fun s => CSSParser.listTurn_spec s.1 s.2.1 s.2.2,
    consuming_of fun s => CSSParser.complexTurn_spec s.1 s.2, fun s => ?_,
    consuming_of fun s => CSSParser.declarationTurn_spec s.1 s.2, consuming_of fun s => CSSParser.valueTurn_spec s.1 s.2, fun s => ?_⟩
  · obtain ⟨r, hr, hm⟩ := CSSParser.compoundTurn_spec false s.1 s.2
    refine ⟨r, hr, ?_⟩
    cases r with
    | again t => exact hm.lt
    | done b => trivial
  · obtain ⟨r, hr, hlt, -⟩ := CSSTokenizer.nextToken_spec s
    exact ⟨r, hr, hlt⟩

/-- `parse` comes to the end of the text, and on the way the pointers that its destructors follow are the ones that it set. -/
def ParseEnds (css : CString) : Prop := LoopsEnd ∧ ∃ r, CSSParser.parse css = some r ∧ r.2.upcoming = [] ∧ r.2.intact = true

/-- The loops end on every text; what they leave is whole exactly if each string fits the field at its place. -/
theorem parse_ends_iff (css : CString) : ParseEnds css ↔ ∀ ts, tokens css = some ts → start.fits ts = true := by
  obtain ⟨ts, hts, -⟩ := tokens_spec css
  obtain ⟨r, hr, hend, hintact⟩ := CSSParser.parseRules_spec ⟨ts, true⟩
  have hparse : CSSParser.parse css = some r := by
    rw [CSSParser.parse, mem_def.mp hts]
    exact hr
  have hfits : r.2.intact = start.fits ts := hintact.trans (Bool.true_and _)
  constructor
  · rintro ⟨-, r', hr', -, hwhole⟩ ts' hts'
    cases hparse.symm.trans hr'
    cases hts.symm.trans hts'
    exact hfits.symm.trans hwhole
  · exact fun h => ⟨loops_end, r, hparse, hend, hfits.trans (h ts hts)⟩

/-- A name of 200 letters, of which the last 72 lie on the pointers of its selector, and no block behind it. -/
theorem longName_parse_ends : ¬ ∀ css, ParseEnds css := by
  intro h
  have hlong := (parse_ends_iff (replicate 200 ⟨0x61, by decide⟩)).mp (h _)
  have hfits : (tokens (replicate 200 ⟨0x61, by decide⟩)).map (start.fits ·) = some false := by decide +kernel
  obtain ⟨ts, hts, hno⟩ := map_eq_some_iff.mp hfits
  cases (hlong ts hts).symm.trans hno

end RetroOs.Browser
