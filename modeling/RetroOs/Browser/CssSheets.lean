import RetroOs.Browser.CssRules

/-! Texts put together: the tokens of each come one behind the other where the first text ends with a brace or a
semicolon; and what becomes of the rules of a style sheet when one more is put between them. -/
namespace RetroOs.Browser
open Lib List Option CString CSSToken

namespace CSSTokenizer
variable {s u r : CString} {p : UInt8 → Bool} {n : Nat} {c : CChar} {q : UInt8} {d : CSSToken × CString}

/-- A brace that closes or a semicolon: it is a token by itself. -/
def Closing (c : CChar) : Prop := c.val = 0x7D ∨ c.val = 0x3B

/-- The text ends with such a character. -/
def Closed (s : CString) : Prop := ∃ c ∈ s.getLast?, Closing c

theorem Closed.ne_nil (h : Closed s) : s ≠ [] := by
  rintro rfl
  obtain ⟨c, hc, -⟩ := h
  cases hc

theorem Closed.suffix (h : Closed s) (hr : r <:+ s) (hne : r ≠ []) : Closed r := by
  obtain ⟨l, rfl⟩ := hr
  obtain ⟨c, hc, hclosing⟩ := h
  rw [getLast?_append_of_ne_nil l hne] at hc
  exact ⟨c, hc, hclosing⟩

theorem currentChar_append (hs : s ≠ []) : currentChar (s ++ u) = currentChar s := by
  cases s with
  | nil => exact absurd rfl hs
  | cons c s => rfl

theorem Closed.last (h : Closed [c]) : Closing c := by
  obtain ⟨d, hd, hclosing⟩ := h
  cases hd
  exact hclosing

theorem peek_append (h : Closed s) (hc : ∀ c : CChar, Closing c → currentChar s ≠ c.val) : peek (s ++ u) 1 = peek s 1 := by
  match s, h with
  | [], h => exact absurd rfl h.ne_nil
  | [c], h => exact absurd rfl (hc c h.last)
  | _ :: _ :: _, _ => rfl

theorem consumeWhile_suffix (p : UInt8 → Bool) (n : Nat) (s : CString) : (consumeWhile p n s).2 <:+ s :=
  ⟨(consumeWhile p n s).1, consumeWhile_append p n s⟩

theorem consumeWhile_stable (h : (consumeWhile p n s).2 ≠ []) :
    consumeWhile p n (s ++ u) = ((consumeWhile p n s).1, (consumeWhile p n s).2 ++ u) := by
  induction n generalizing s with
  | zero => rfl
  | succ n ih =>
    cases s with
    | nil => exact absurd rfl h
    | cons c s =>
      rw [consumeWhile] at h ⊢
      rw [cons_append, consumeWhile]
      split
      · next hp =>
        rw [if_pos hp] at h
        rw [ih h]
      · rfl

private theorem consumeComment_stable (h : consumeComment s ≠ []) : consumeComment (s ++ u) = consumeComment s ++ u := by
  induction s with
  | nil => exact absurd rfl h
  | cons c s ih =>
    rw [consumeComment] at h ⊢
    have hs : s ≠ [] := by
      rintro rfl
      split at h <;> exact h rfl
    rw [cons_append, consumeComment, currentChar_append hs]
    split
    · exact tail_append_of_ne_nil hs
    · next hend =>
      rw [if_neg hend] at h
      exact ih h

private theorem stringBody_stable (h : (stringBody q n s).2 ≠ []) :
    stringBody q n (s ++ u) = ((stringBody q n s).1, (stringBody q n s).2 ++ u) := by
  induction n generalizing s with
  | zero => rfl
  | succ n ih =>
    cases s with
    | nil => exact absurd rfl h
    | cons c s =>
      rw [stringBody.eq_def] at h ⊢
      rw [stringBody.eq_def _ _ (c :: s)]
      dsimp only [cons_append] at h ⊢
      split
      · rfl
      · next hq =>
        rw [if_neg hq] at h
        split
        · next hb =>
          rw [if_pos hb] at h
          cases s with
          | nil => exact absurd rfl h
          | cons d s =>
            rw [cons_append]
            dsimp only at h ⊢
            rw [ih h]
        · next hb =>
          rw [if_neg hb] at h
          rw [ih h]

private theorem consumeString_stable (h : (consumeString q s).2 ≠ []) (hs : s ≠ []) :
    consumeString q (s ++ u) = ((consumeString q s).1, (consumeString q s).2 ++ u) := by
  have hbody : (stringBody q 255 s.tail).2 ≠ [] := by
    intro hnil
    rw [consumeString] at h
    dsimp only at h
    rw [hnil] at h
    split at h <;> exact h rfl
  rw [consumeString, consumeString, tail_append_of_ne_nil hs, stringBody_stable hbody]
  dsimp only
  rw [currentChar_append hbody]
  split
  · rw [tail_append_of_ne_nil hbody]
  · rfl

theorem closing_ne (hc : Closing c) : c.val ≠ dot ∧ c.val ≠ dash ∧ c.val ≠ slash := by
  rcases hc with h | h <;> rw [h] <;> decide

private theorem consumeFraction_stable {text : CString} (hs : Closed s) (h : (consumeFraction text s).2 ≠ []) :
    consumeFraction text (s ++ u) = ((consumeFraction text s).1, (consumeFraction text s).2 ++ u) := by
  rw [consumeFraction] at h ⊢
  rw [consumeFraction, currentChar_append hs.ne_nil]
  by_cases hdot : currentChar s = dot
  · rw [peek_append hs fun c hc heq => (closing_ne hc).1 (heq.symm.trans hdot)]
    split
    · next hcond =>
      rw [if_pos hcond] at h
      dsimp only at h ⊢
      rw [tail_append_of_ne_nil hs.ne_nil, consumeWhile_stable h, take_append_of_le_length (length_pos_iff.mpr hs.ne_nil)]
    · rfl
  · rw [if_neg fun hcond => hdot hcond.1, if_neg fun hcond => hdot hcond.1]

private theorem consumeUnit_stable {token : CSSToken} (hs : Closed s) (h : (consumeUnit token s).2 ≠ []) :
    consumeUnit token (s ++ u) = ((consumeUnit token s).1, (consumeUnit token s).2 ++ u) := by
  have hident : (isIdentStart (currentChar s) = true ∨ currentChar s = dash ∧ isIdentStart (peek (s ++ u) 1) = true) ↔
      (isIdentStart (currentChar s) = true ∨ currentChar s = dash ∧ isIdentStart (peek s 1) = true) := by
    refine or_congr_right (and_congr_right fun hdash => ?_)
    rw [peek_append hs fun c hc heq => (closing_ne hc).2.1 (heq.symm.trans hdash)]
  unfold consumeUnit at h ⊢
  rw [currentChar_append hs.ne_nil]
  by_cases hpercent : currentChar s = percent
  · rw [if_pos hpercent, if_pos hpercent, tail_append_of_ne_nil hs.ne_nil]
  · rw [if_neg hpercent] at h
    rw [if_neg hpercent, if_neg hpercent]
    by_cases hunit : isIdentStart (currentChar s) = true ∨ currentChar s = dash ∧ isIdentStart (peek s 1) = true
    · rw [if_pos hunit] at h
      rw [if_pos (hident.mpr hunit), if_pos hunit]
      rw [consumeWhile_stable h]
    · rw [if_neg (hident.not.mpr hunit), if_neg hunit]

theorem consumeFraction_suffix (text s : CString) : (consumeFraction text s).2 <:+ s := by
  rw [consumeFraction]
  split
  · exact (consumeWhile_suffix _ _ _).trans (tail_suffix s)
  · exact suffix_refl s

private theorem consumeUnit_suffix (token : CSSToken) (s : CString) : (consumeUnit token s).2 <:+ s := by
  rw [consumeUnit]
  split
  · exact tail_suffix s
  · split
    · exact consumeWhile_suffix _ _ _
    · exact suffix_refl s

private theorem consumeDigits_stable {sign : CString} (hs : Closed s)
    (h : (consumeFraction (sign ++ (consumeWhile isDigit n s).1) (consumeWhile isDigit n s).2).2 ≠ []) :
    consumeFraction (sign ++ (consumeWhile isDigit n (s ++ u)).1) (consumeWhile isDigit n (s ++ u)).2 =
      ((consumeFraction (sign ++ (consumeWhile isDigit n s).1) (consumeWhile isDigit n s).2).1,
        (consumeFraction (sign ++ (consumeWhile isDigit n s).1) (consumeWhile isDigit n s).2).2 ++ u) := by
  have hdigits : (consumeWhile isDigit n s).2 ≠ [] := fun hnil => h (suffix_nil.mp (hnil ▸ consumeFraction_suffix _ _))
  rw [consumeWhile_stable hdigits]
  exact consumeFraction_stable (hs.suffix (consumeWhile_suffix _ _ _) hdigits) h

private theorem numericText_stable (hs : Closed s) (h : (numericText s).2 ≠ []) :
    numericText (s ++ u) = ((numericText s).1, (numericText s).2 ++ u) := by
  rw [numericText] at h ⊢
  rw [numericText, currentChar_append hs.ne_nil]
  by_cases hsign : currentChar s = dash ∨ currentChar s = plus
  · rw [if_pos hsign] at h
    rw [if_pos hsign, if_pos hsign, tail_append_of_ne_nil hs.ne_nil,
      take_append_of_le_length (length_pos_iff.mpr hs.ne_nil)]
    have htail : s.tail ≠ [] := by
      intro hnil
      rw [hnil] at h
      exact h (suffix_nil.mp ((consumeFraction_suffix _ _).trans (consumeWhile_suffix _ _ [])))
    exact consumeDigits_stable (hs.suffix (tail_suffix s) htail) h
  · rw [if_neg hsign] at h
    rw [if_neg hsign, if_neg hsign]
    exact consumeDigits_stable hs h

private theorem numericText_suffix (s : CString) : (numericText s).2 <:+ s := by
  rw [numericText]
  by_cases hsign : currentChar s = dash ∨ currentChar s = plus
  · rw [if_pos hsign]
    exact (consumeFraction_suffix _ _).trans ((consumeWhile_suffix _ _ _).trans (tail_suffix s))
  · rw [if_neg hsign]
    exact (consumeFraction_suffix _ _).trans (consumeWhile_suffix _ _ _)

private theorem consumeNumeric_stable (hs : Closed s) (h : (consumeNumeric s).2 ≠ []) :
    consumeNumeric (s ++ u) = ((consumeNumeric s).1, (consumeNumeric s).2 ++ u) := by
  have htext : (numericText s).2 ≠ [] := fun hnil => h (suffix_nil.mp (hnil ▸ consumeUnit_suffix _ _))
  rw [consumeNumeric, numericText_stable hs htext]
  exact consumeUnit_stable (hs.suffix (numericText_suffix s) htext) h

private theorem consumeIdentLike_stable (h : (consumeIdentLike s).2 ≠ []) :
    consumeIdentLike (s ++ u) = ((consumeIdentLike s).1, (consumeIdentLike s).2 ++ u) := by
  rw [consumeIdentLike] at h ⊢
  dsimp only at h
  have hrest : (consumeWhile isIdent 255 s).2 ≠ [] := by
    intro hnil
    rw [hnil] at h
    split at h <;> exact h rfl
  rw [consumeIdentLike, consumeWhile_stable hrest]
  dsimp only
  rw [currentChar_append hrest]
  split
  · rw [tail_append_of_ne_nil hrest]
  · rfl

private theorem consumeIdentLike_suffix (s : CString) : (consumeIdentLike s).2 <:+ s := by
  rw [consumeIdentLike]
  dsimp only
  split
  · exact (tail_suffix _).trans (consumeWhile_suffix _ _ _)
  · exact consumeWhile_suffix _ _ _

private theorem consumeComment_suffix (s : CString) : consumeComment s <:+ s := by
  induction s with
  | nil => exact suffix_refl _
  | cons c s ih =>
    rw [consumeComment]
    split
    · exact (tail_suffix s).trans (suffix_cons c s)
    · exact ih.trans (suffix_cons c s)

private theorem stringBody_suffix (q : UInt8) (n : Nat) (s : CString) : (stringBody q n s).2 <:+ s := by
  induction n generalizing s with
  | zero => exact suffix_refl _
  | succ n ih =>
    cases s with
    | nil => exact suffix_refl _
    | cons c s =>
      rw [stringBody.eq_def]
      dsimp only
      split
      · exact suffix_refl _
      · split
        · cases s with
          | nil => exact nil_suffix
          | cons d s => exact (ih s).trans ((suffix_cons d s).trans (suffix_cons c (d :: s)))
        · exact (ih s).trans (suffix_cons c s)

private theorem consumeString_suffix (q : UInt8) (s : CString) : (consumeString q s).2 <:+ s := by
  rw [consumeString]
  dsimp only
  split
  · exact (tail_suffix _).trans ((stringBody_suffix _ _ _).trans (tail_suffix s))
  · exact (stringBody_suffix _ _ _).trans (tail_suffix s)

/-- A turn before the end of a closed text does not look behind it. -/
def StableTurn (s u : CString) : Turn CString (CSSToken × CString) → Prop
  | .again r => r ≠ [] → turn (s ++ u) = some (.again (r ++ u))
  | .done d => d.2 ≠ [] ∨ d.1.type = .rightCurly ∨ d.1.type = .semicolon → turn (s ++ u) = some (.done (d.1, d.2 ++ u))

theorem turn_suffix {d : Turn CString (CSSToken × CString)} (h : turn s = some d) : d.Meets (· <:+ s) (·.2 <:+ s) := by
  cases s with
  | nil =>
    cases h
    exact suffix_refl _
  | cons c s =>
    have hmore : s <:+ c :: s := suffix_cons c s
    rw [turn] at h
    split at h
    · cases h
      exact (dropWhile_suffix _).trans hmore
    split at h
    · cases h
      exact (consumeComment_suffix _).trans ((tail_suffix s).trans hmore)
    split at h
    · cases h
      exact consumeString_suffix _ _
    split at h
    · cases h
      exact (consumeWhile_suffix _ _ _).trans hmore
    split at h
    · cases h
      exact (consumeWhile_suffix _ _ _).trans hmore
    split at h
    · cases h
      exact (consumeUnit_suffix _ _).trans (numericText_suffix _)
    split at h
    · cases h
      exact consumeIdentLike_suffix _
    · cases h
      exact hmore

private theorem turn_closing (hc : Closing c) (u : CString) : turn (c :: u) = some (.done ({ new (single c) with value := [c] }, u)) := by
  rcases hc with h | h <;>
    simp [turn, h, isSpace, slash, doubleQuote, singleQuote, hash, atSign, isDigit, dot, dash, isIdentStart, isAsciiAlpha]

theorem consumeNumeric_type (s : CString) : (consumeNumeric s).1.type ≠ .rightCurly ∧ (consumeNumeric s).1.type ≠ .semicolon := by
  rw [consumeNumeric]
  dsimp only
  rw [consumeUnit]
  split
  · exact ⟨by rintro ⟨⟩, by rintro ⟨⟩⟩
  · split <;> exact ⟨by rintro ⟨⟩, by rintro ⟨⟩⟩

theorem consumeIdentLike_type (s : CString) :
    (consumeIdentLike s).1.type ≠ .rightCurly ∧ (consumeIdentLike s).1.type ≠ .semicolon := by
  rw [consumeIdentLike]
  dsimp only
  split <;> exact ⟨by rintro ⟨⟩, by rintro ⟨⟩⟩

theorem consumeString_type (q : UInt8) (s : CString) :
    (consumeString q s).1.type ≠ .rightCurly ∧ (consumeString q s).1.type ≠ .semicolon := by
  rw [consumeString]
  exact ⟨by rintro ⟨⟩, by rintro ⟨⟩⟩

private theorem dropWhile_stable {f : CChar → Bool} (h : s.dropWhile f ≠ []) : (s ++ u).dropWhile f = s.dropWhile f ++ u := by
  rw [dropWhile_append, if_neg fun hnil => h (isEmpty_iff.mp hnil)]

private theorem turn_stable (hs : Closed s) (u : CString) : ∃ r, turn s = some r ∧ StableTurn s u r := by
  cases s with
  | nil => exact absurd rfl hs.ne_nil
  | cons c s =>
    by_cases hlast : s = []
    · subst hlast
      exact ⟨_, turn_closing hs.last [], fun _ => turn_closing hs.last u⟩
    have hcur : currentChar (s ++ u) = currentChar s := currentChar_append hlast
    have hclosed : Closed s := hs.suffix (suffix_cons c s) hlast
    -- a token of another type stands before the end
    have hrest : ∀ (t : CSSToken) (r : CString), t.type ≠ .rightCurly → t.type ≠ .semicolon →
        r ≠ [] ∨ t.type = .rightCurly ∨ t.type = .semicolon → r ≠ [] := fun t r hc hs hr => hr.resolve_right (by tauto)
    by_cases h1 : isSpace c = true
    · have hturn : turn (c :: s) = some (.done (.new .whitespace, s.dropWhile fun d => isSpace d)) := by rw [turn, if_pos h1]
      refine ⟨_, hturn, fun hr => ?_⟩
      change turn (c :: (s ++ u)) = _
      rw [turn, if_pos h1, dropWhile_stable (hrest (.new .whitespace) _ (by decide) (by decide) hr)]
    by_cases h2 : c.val = slash ∧ currentChar s = star
    · have hturn : turn (c :: s) = some (.again (consumeComment s.tail)) := by rw [turn, if_neg h1, if_pos h2]
      refine ⟨_, hturn, fun hr => ?_⟩
      change turn (c :: (s ++ u)) = _
      rw [turn, hcur, if_neg h1, if_pos h2, tail_append_of_ne_nil hlast, consumeComment_stable hr]
    by_cases h3 : c.val = doubleQuote ∨ c.val = singleQuote
    · have hturn : turn (c :: s) = some (.done (consumeString c (c :: s))) := by rw [turn, if_neg h1, if_neg h2, if_pos h3]
      refine ⟨_, hturn, fun hr => ?_⟩
      change turn (c :: (s ++ u)) = _
      rw [turn, hcur, if_neg h1, if_neg h2, if_pos h3, ← cons_append,
        consumeString_stable (hrest _ _ (consumeString_type _ _).1 (consumeString_type _ _).2 hr) (cons_ne_nil c s)]
    by_cases h4 : c.val = hash
    · have hturn : turn (c :: s) = some (.done ({ new .hash with value := (consumeWhile isIdent 255 s).1, isId := true },
          (consumeWhile isIdent 255 s).2)) := by rw [turn, if_neg h1, if_neg h2, if_neg h3, if_pos h4]
      refine ⟨_, hturn, fun hr => ?_⟩
      change turn (c :: (s ++ u)) = _
      rw [turn, hcur, if_neg h1, if_neg h2, if_neg h3, if_pos h4, consumeWhile_stable (hrest { new .hash with value := (consumeWhile isIdent 255 s).1, isId := true } _ (by rintro ⟨⟩) (by rintro ⟨⟩) hr)]
    by_cases h5 : c.val = atSign
    · have hturn : turn (c :: s) = some (.done ({ new .atKeyword with value := (consumeWhile isIdent 255 s).1 },
          (consumeWhile isIdent 255 s).2)) := by rw [turn, if_neg h1, if_neg h2, if_neg h3, if_neg h4, if_pos h5]
      refine ⟨_, hturn, fun hr => ?_⟩
      change turn (c :: (s ++ u)) = _
      rw [turn, hcur, if_neg h1, if_neg h2, if_neg h3, if_neg h4, if_pos h5, consumeWhile_stable (hrest { new .atKeyword with value := (consumeWhile isIdent 255 s).1 } _ (by rintro ⟨⟩) (by rintro ⟨⟩) hr)]
    have hpeek : currentChar s = dot → peek (s ++ u) 1 = peek s 1 := fun hdot =>
      peek_append hclosed fun d hd heq => (closing_ne hd).1 (heq.symm.trans hdot)
    have hnumber : (isDigit c = true ∨ (c.val = dot ∧ isDigit (currentChar s) = true) ∨
        (c.val = dash ∧ (isDigit (currentChar s) = true ∨ (currentChar s = dot ∧ isDigit (peek (s ++ u) 1) = true)))) ↔
        StartsNumber c s :=
      or_congr_right (or_congr_right (and_congr_right fun _ => or_congr_right (and_congr_right fun hdot => by rw [hpeek hdot])))
    by_cases h6 : StartsNumber c s
    · have hturn : turn (c :: s) = some (.done (consumeNumeric (c :: s))) := by
        rw [turn, if_neg h1, if_neg h2, if_neg h3, if_neg h4, if_neg h5]
        exact if_pos h6
      refine ⟨_, hturn, fun hr => ?_⟩
      change turn (c :: (s ++ u)) = _
      rw [turn, hcur, if_neg h1, if_neg h2, if_neg h3, if_neg h4, if_neg h5, if_pos (hnumber.mpr h6), ← cons_append,
        consumeNumeric_stable hs (hrest _ _ (consumeNumeric_type _).1 (consumeNumeric_type _).2 hr)]
    by_cases h7 : isIdentStart c = true ∨ (c.val = dash ∧ isIdentStart (currentChar s) = true)
    · have hturn : turn (c :: s) = some (.done (consumeIdentLike (c :: s))) := by
        rw [turn, if_neg h1, if_neg h2, if_neg h3, if_neg h4, if_neg h5]
        exact (if_neg h6).trans (if_pos h7)
      refine ⟨_, hturn, fun hr => ?_⟩
      change turn (c :: (s ++ u)) = _
      rw [turn, hcur, if_neg h1, if_neg h2, if_neg h3, if_neg h4, if_neg h5, if_neg (hnumber.not.mpr h6), if_pos h7, ← cons_append,
        consumeIdentLike_stable (hrest _ _ (consumeIdentLike_type _).1 (consumeIdentLike_type _).2 hr)]
    · have hturn : turn (c :: s) = some (.done ({ new (single c) with value := [c] }, s)) := by
        rw [turn, if_neg h1, if_neg h2, if_neg h3, if_neg h4, if_neg h5]
        exact (if_neg h6).trans (if_neg h7)
      refine ⟨_, hturn, fun _ => ?_⟩
      change turn (c :: (s ++ u)) = _
      rw [turn, hcur, if_neg h1, if_neg h2, if_neg h3, if_neg h4, if_neg h5, if_neg (hnumber.not.mpr h6), if_neg h7]

theorem Closed.of_suffix (hr : Closed r) (h : r <:+ s) : Closed s := by
  obtain ⟨l, rfl⟩ := h
  obtain ⟨c, hc, hclosing⟩ := hr
  exact ⟨c, mem_getLast?_append_of_mem_getLast? hc, hclosing⟩

private theorem single_closing (c : CChar) (h : single c = .rightCurly ∨ single c = .semicolon) : Closing c := by
  unfold single at h
  rw [Closing]
  grind

private theorem turn_token (h : turn (c :: s) = some (.done d)) (ht : d.1.type = .rightCurly ∨ d.1.type = .semicolon) :
    Closing c ∧ d.2 = s := by
  rw [turn] at h
  split at h
  · cases h
    rcases ht with ht | ht <;> cases ht
  split at h
  · cases h
  split at h
  · cases h
    exact absurd ht (not_or.mpr (consumeString_type _ _))
  split at h
  · cases h
    rcases ht with ht | ht <;> cases ht
  split at h
  · cases h
    rcases ht with ht | ht <;> cases ht
  split at h
  · cases h
    exact absurd ht (not_or.mpr (consumeNumeric_type _))
  split at h
  · cases h
    exact absurd ht (not_or.mpr (consumeIdentLike_type _))
  · cases h
    exact ⟨single_closing c ht, rfl⟩

private theorem loops_stable (h : Loops turn s d) (hs : Closed s) (u : CString)
    (hd : d.2 ≠ [] ∨ d.1.type = .rightCurly ∨ d.1.type = .semicolon) : Loops turn (s ++ u) (d.1, d.2 ++ u) := by
  induction h with
  | @again s t d hst hr ih =>
    obtain ⟨r, hturn, hstable⟩ := turn_stable hs u
    cases hst.symm.trans hturn
    by_cases ht : t = []
    · subst ht
      cases hr with
      | again hnil _ => cases hnil
      | done hnil =>
        cases hnil
        rcases hd with hd | hd | hd
        · exact absurd rfl hd
        · cases hd
        · cases hd
    · exact .again (hstable ht) (ih (hs.suffix (turn_suffix hst) ht) hd)
  | @done s d hsd =>
    obtain ⟨r, hturn, hstable⟩ := turn_stable hs u
    cases hsd.symm.trans hturn
    exact .done (hstable hd)

private theorem nextToken_of (h : Loops turn s d) : nextToken s = some d := by
  obtain ⟨e, he, -⟩ := nextToken_spec s
  exact (mem_def.mp he).trans (congrArg some (Loops.unique (.of_loop he) h))

private theorem loops_suffix (h : Loops turn s d) : d.2 <:+ s := by
  induction h with
  | again hs _ ih => exact ih.trans (turn_suffix hs)
  | done hs => exact turn_suffix hs

private theorem loops_closed (h : Loops turn s d) (hd : d.1.type = .rightCurly ∨ d.1.type = .semicolon)
    (hnil : d.2 = []) : Closed s := by
  induction h with
  | again hs _ ih => exact (ih hd hnil).of_suffix (turn_suffix hs)
  | @done s d hs =>
    cases s with
    | nil =>
      cases hs
      rcases hd with hd | hd <;> cases hd
    | cons c s =>
      obtain ⟨hc, hrest⟩ := turn_token hs hd
      rw [← hrest, hnil]
      exact ⟨c, rfl, hc⟩

/-- The text falls into these tokens, and the last of them reaches to its end. -/
inductive Spelled : CString → List SheetToken → Prop where
  | nil : Spelled [] []
  | cons {s r : CString} {t : SheetToken} {ts : List SheetToken} (ht : nextToken s = some (t.val, r)) (hr : Spelled r ts) :
      Spelled s (t :: ts)

def Ended (ts : List SheetToken) : Prop := ∃ t ∈ ts.getLast?, t.val.type = .rightCurly ∨ t.val.type = .semicolon

variable {t : SheetToken} {ts us : List SheetToken}

theorem Ended.tail (h : Ended (t :: ts)) (hne : ts ≠ []) : Ended ts := by
  obtain ⟨e, he, hend⟩ := h
  rw [getLast?_cons_of_ne_nil hne] at he
  exact ⟨e, he, hend⟩

theorem Ended.last (h : t.val.type = .rightCurly ∨ t.val.type = .semicolon) : Ended [t] := ⟨t, rfl, h⟩

theorem Ended.append (h : Ended ts) (us : List SheetToken) : Ended (us ++ ts) := by
  obtain ⟨e, he, hend⟩ := h
  exact ⟨e, mem_getLast?_append_of_mem_getLast? he, hend⟩

theorem Ended.cons (h : Ended ts) (t : SheetToken) : Ended (t :: ts) := h.append [t]

theorem Spelled.eq_nil (h : Spelled [] ts) : ts = [] := by
  cases h with
  | nil => rfl
  | @cons _ _ t _ ht _ =>
    have heq := congrArg Prod.fst (some.inj ht)
    exact absurd (congrArg type heq).symm t.property

theorem Spelled.closed (h : Spelled s ts) (hts : Ended ts) : Closed s := by
  induction h with
  | nil =>
    obtain ⟨e, he, -⟩ := hts
    cases he
  | @cons s r t ts ht hr ih =>
    by_cases hne : ts = []
    · subst hne
      obtain ⟨e, he, hend⟩ := hts
      cases he
      cases hr
      exact loops_closed (.of_loop ht) hend rfl
    · exact (ih (hts.tail hne)).of_suffix (loops_suffix (.of_loop ht))

private theorem nextToken_stable {r : CString} (ht : nextToken s = some (t.val, r)) (hr : Spelled r ts) (hts : Ended (t :: ts)) (u : CString) :
    nextToken (s ++ u) = some (t.val, r ++ u) := by
  have hclosed : Closed s := (Spelled.cons ht hr).closed hts
  refine nextToken_of (loops_stable (.of_loop ht) hclosed u ?_)
  by_cases hnil : r = []
  · subst hnil
    obtain rfl := hr.eq_nil
    obtain ⟨e, he, hend⟩ := hts
    cases he
    exact .inr hend
  · exact .inl hnil

private theorem tokenTurn_of {r : CString} (ht : nextToken s = some (t.val, r)) (acc : List SheetToken) :
    tokenTurn (s, acc) = some (.again (r, acc ++ [t])) := by
  rw [tokenTurn, ht]
  exact dif_neg t.property

theorem Spelled.loops {acc l : List SheetToken} (h : Spelled s ts) (hts : ts = [] ∨ Ended ts) (u : CString)
    (hu : Loops tokenTurn (u, acc ++ ts) l) : Loops tokenTurn (s ++ u, acc) l := by
  induction h generalizing acc with
  | nil =>
    rw [append_nil] at hu
    exact hu
  | @cons s r t ts ht hr ih =>
    have hend : Ended (t :: ts) := hts.resolve_left (cons_ne_nil t ts)
    have hmore : ts = [] ∨ Ended ts := or_iff_not_imp_left.mpr hend.tail
    refine .again (tokenTurn_of (nextToken_stable ht hr hend u) acc) (ih hmore ?_)
    rw [append_assoc]
    exact hu

private theorem tokenTurn_prepend (ts : List SheetToken) (x : CString × List SheetToken) (r : Turn (CString × List SheetToken) (List SheetToken))
    (h : tokenTurn x = some r) :
    tokenTurn (x.1, ts ++ x.2) = some (r.map (fun x => (x.1, ts ++ x.2)) (ts ++ ·)) := by
  obtain ⟨s, us⟩ := x
  obtain ⟨⟨t, rest⟩, hr, -⟩ := nextToken_spec s
  rw [tokenTurn, mem_def.mp hr] at h ⊢
  dsimp only [bind_eq_bind, bind_some] at h ⊢
  by_cases heof : t.type = .eofToken
  · rw [dif_pos heof] at h ⊢
    cases h
    rfl
  · rw [dif_neg heof] at h ⊢
    cases h
    rw [Turn.map, append_assoc]

theorem Spelled.tokens_append {u : CString} (h : Spelled s ts) (hts : ts = [] ∨ Ended ts) (hu : tokens u = some us) :
    tokens (s ++ u) = some (ts ++ us) := by
  have hbehind : Loops tokenTurn (u, [] ++ ts) (ts ++ us) := by
    have hmap := Loops.map (tokenTurn_prepend ts) (.of_loop hu)
    rw [append_nil] at hmap
    exact hmap
  have hall : Loops tokenTurn (s ++ u, []) (ts ++ us) := h.loops hts u hbehind
  obtain ⟨l, hl, -⟩ := tokens_spec (s ++ u)
  exact (mem_def.mp hl).trans (congrArg some (Loops.unique (.of_loop hl) hall))

end CSSTokenizer

namespace CSSParser
open CSSTokenizer
variable {A B : List StyleRule} {l rs w : List SheetToken} {a r b : CString}

theorem StyleRule.ended (m : StyleRule) : Ended m.tokens :=
  ((((Ended.last (.inl rfl)).append m.block).cons openCurly).append m.prelude).append m.space

private theorem sheet_ended (A : List StyleRule) : sheetTokens A = [] ∨ Ended (sheetTokens A) := by
  induction A with
  | nil => exact .inl rfl
  | cons m A ih =>
    right
    rw [sheetTokens, flatMap_cons]
    rcases ih with hnil | hend
    · rw [sheetTokens] at hnil
      rw [hnil, append_nil]
      exact m.ended
    · exact hend.append m.tokens

theorem IsAtRule.ended (h : IsAtRule rs) : Ended rs := by
  cases h with
  | @statement s l keyword semicolon hs hk hl hsemi => exact (((Ended.last (.inr hsemi)).append l).cons keyword).append s
  | @block s l b keyword hs hk hl hb =>
    exact (((((Ended.last (.inl rfl)).append b).cons openCurly).append l).cons keyword).append s

private theorem bare_eq_iff (B : List StyleRule) : bare B = B.map StyleRule.rule ↔ ∀ m ∈ B.head?, selectorsRead m.prelude = [] := by
  cases B with
  | nil => exact iff_of_true rfl nofun
  | cons m B =>
    rw [bare, map_cons, StyleRule.rule, cons.injEq, and_iff_left rfl, CSSStyleRule.mk.injEq, and_iff_left rfl]
    constructor
    · intro hnone x hx
      cases hx
      exact hnone.symm
    · intro h
      exact (h m rfl).symm

private theorem parse_append {us : List SheetToken} (ha : Spelled a rs) (hrs : rs = [] ∨ Ended rs) (hb : tokens b = some us) :
    parse (a ++ b) = parseRules ⟨rs ++ us, true⟩ := by
  rw [parse, ha.tokens_append hrs hb]
  rfl

/-- What is put between two sheets of style rules, an at-rule or a style rule of which no selectors can be read, leaves
the rules as they are only if it is an at-rule and the rule behind it has no selectors to lose. All names are taken to fit
the fields that they are copied to (`Place.start.fits`): those of the model have no bound. -/
theorem inserted_iff (ha : Spelled a (sheetTokens A)) (hr : Spelled r rs)
    (hrs : IsAtRule rs ∨ ∃ m : StyleRule, selectorsRead m.prelude = [] ∧ m.tokens = rs)
    (hb : tokens b = some (sheetTokens B ++ w)) (hw : White w) :
    (∃ rules p q, parse (a ++ (r ++ b)) = some (rules, p) ∧ parse (a ++ b) = some (rules, q)) ↔
      IsAtRule rs ∧ ∀ m ∈ B.head?, selectorsRead m.prelude = [] := by
  have hended : Ended rs := by
    rcases hrs with h | ⟨m, -, rfl⟩
    · exact h.ended
    · exact m.ended
  have hwith : parse (a ++ (r ++ b)) = parseRules ⟨sheetTokens A ++ (rs ++ (sheetTokens B ++ w)), true⟩ :=
    parse_append ha (sheet_ended A) (hr.tokens_append (.inr hended) hb)
  obtain ⟨q, hq⟩ : ∃ q, parse (a ++ b) = some (A.map StyleRule.rule ++ B.map StyleRule.rule, q) := by
    obtain ⟨q, hq⟩ := parseRules_sheet (A ++ B) hw true
    rw [map_append] at hq
    refine ⟨q, (parse_append ha (sheet_ended A) hb).trans (Eq.trans ?_ hq)⟩
    rw [sheetTokens, sheetTokens, sheetTokens, flatMap_append, append_assoc]
  rw [hwith]
  by_cases hat : IsAtRule rs
  · obtain ⟨p, hp⟩ := parseRules_atRule A B hat hw true
    rw [hp, hq, and_iff_right hat, ← bare_eq_iff]
    constructor
    · rintro ⟨rules, p', q', hp', hq'⟩
      have hsame := (congrArg Prod.fst (some.inj hp')).trans (congrArg Prod.fst (some.inj hq')).symm
      exact append_cancel_left hsame
    · intro heq
      rw [heq]
      exact ⟨_, p, q, rfl, rfl⟩
  · obtain ⟨m, hm, rfl⟩ := hrs.resolve_left hat
    obtain ⟨p, hp⟩ := parseRules_sheet (A ++ m :: B) hw true
    have htokens : sheetTokens A ++ (m.tokens ++ (sheetTokens B ++ w)) = sheetTokens (A ++ m :: B) ++ w := by
      rw [sheetTokens, sheetTokens, sheetTokens, flatMap_append, flatMap_cons]
      simp only [append_assoc]
    rw [htokens, hp, hq]
    refine iff_of_false ?_ fun h => hat h.1
    -- one rule more
    rintro ⟨rules, p', q', hp', hq'⟩
    have hsame := (congrArg Prod.fst (some.inj hp')).trans (congrArg Prod.fst (some.inj hq')).symm
    have hlen := congrArg length hsame
    simp only [map_append, map_cons, length_append, length_cons, length_map] at hlen
    omega

def paragraphName : SheetToken := ⟨{ new .ident with value := ofString "p" }, nofun⟩

def paragraph : StyleRule where
  space := []
  prelude := [paragraphName]
  block := []
  declarations := []
  white := nofun
  isPrelude := ⟨by decide, by decide⟩
  isBlock := .empty nofun

def keyword : SheetToken := ⟨{ new .atKeyword with value := ofString "x" }, nofun⟩

def semicolon : SheetToken := punctuation .semicolon nofun ⟨0x3B, by decide⟩

private theorem statement_isAtRule : IsAtRule [keyword, semicolon] := .statement (s := []) (l := []) nofun rfl nofun rfl

private theorem statement_spelled : Spelled (ofString "@x;") [keyword, semicolon] :=
  .cons (r := ofString ";") (by decide +kernel) (.cons (r := []) (by decide +kernel) .nil)

private theorem paragraph_tokens : tokens (ofString "p{}") = some (sheetTokens [paragraph] ++ []) := by decide +kernel

theorem inserted_iff_statement : (∃ rules p q, parse ([] ++ (ofString "@x;" ++ ofString "p{}")) = some (rules, p) ∧
      parse ([] ++ ofString "p{}") = some (rules, q)) ↔
    IsAtRule [keyword, semicolon] ∧ ∀ m ∈ [paragraph].head?, selectorsRead m.prelude = [] :=
  inserted_iff (A := []) .nil statement_spelled (.inl statement_isAtRule) paragraph_tokens nofun

/-- `@x;` before `p{}` takes the selector from the rule. -/
theorem selector_lost : ¬ ∀ (a r b : CString) (A B : List StyleRule) (rs w : List SheetToken),
    Spelled a (sheetTokens A) → Spelled r rs → (IsAtRule rs ∨ ∃ m : StyleRule, selectorsRead m.prelude = [] ∧ m.tokens = rs) →
    tokens b = some (sheetTokens B ++ w) → White w →
      ∃ rules p q, parse (a ++ (r ++ b)) = some (rules, p) ∧ parse (a ++ b) = some (rules, q) := by
  intro h
  obtain ⟨rules, p, q, hp, hq⟩ := h [] _ _ [] [paragraph] _ [] .nil statement_spelled (.inl statement_isAtRule) paragraph_tokens nofun
  have hwith : (parse ([] ++ (ofString "@x;" ++ ofString "p{}"))).map (fun r => r.1.map (·.selectors.length)) = some [0] := by
    decide +kernel
  have hwithout : (parse ([] ++ ofString "p{}")).map (fun r => r.1.map (·.selectors.length)) = some [1] := by decide +kernel
  rw [hp] at hwith
  rw [hq] at hwithout
  cases hwith.symm.trans hwithout

end CSSParser
end RetroOs.Browser
