import RetroOs.Lib.Copying
import RetroOs.Lib.Words

/-! The regular expressions of the user programs: the backtracking matcher, and the language that a pattern stands for. -/
namespace RetroOs.Apps.Regex
open Lib Language
open scoped Computability

private theorem dot_ne_zero : (0x2E : UInt8) ≠ 0 := by decide

def dot : CChar := ⟨0x2E, dot_ne_zero⟩
def asterisk : CChar := ⟨0x2A, by decide⟩
def plus : CChar := ⟨0x2B, by decide⟩
def question : CChar := ⟨0x3F, by decide⟩
def caret : CChar := ⟨0x5E, by decide⟩
def dollar : CChar := ⟨0x24, by decide⟩

/-- `*text == c || c == '.'` -/
def accepts (c d : CChar) : Bool := d = c || c = dot

def regexMatchStar (c : CChar) (here : CString → Bool) : CString → Bool
  | [] => here []
  | d :: text => here (d :: text) || accepts c d && regexMatchStar c here text

def regexMatchPlus (c : CChar) (here : CString → Bool) : CString → Bool
  | [] => false
  | d :: text => accepts c d && (here text || regexMatchPlus c here text)

/-- One character of the text, and the rest of the pattern behind it. -/
def matchOne (c : CChar) (here : CString → Bool) : CString → Bool
  | [] => false
  | d :: text => accepts c d && here text

def regexMatchHere : CString → CString → Bool
  | [], _ => true
  | [c], text => if c = dollar then text.isEmpty else matchOne c (regexMatchHere []) text
  | c :: q :: regex, text =>
    if q = asterisk then regexMatchStar c (regexMatchHere regex) text
    else if q = plus then regexMatchPlus c (regexMatchHere regex) text
    else if q = question then regexMatchHere regex text || matchOne c (regexMatchHere regex) text
    else matchOne c (regexMatchHere (q :: regex)) text

def matchFrom (regex : CString) : CString → Bool
  | [] => regexMatchHere regex []
  | d :: text => regexMatchHere regex (d :: text) || matchFrom regex text

def regexMatch (regex text : CString) : Bool :=
  if regex.head? = some caret then regexMatchHere regex.tail text else matchFrom regex text

/-! ### Patterns -/

def special : List CChar := [dot, asterisk, plus, question, caret, dollar]

inductive Atom where
  | literal (c : { c : CChar // c ∉ special })
  | any

inductive Quantifier where
  | once
  | star
  | plus
  | optional

structure Item where
  atom : Atom
  quantifier : Quantifier

/-- Items, with `^` before them and `$` behind them or not. -/
structure Pattern where
  fromStart : Bool
  items : List Item
  toEnd : Bool

def Atom.char : Atom → CChar
  | .literal c => c.val
  | .any => dot

def Quantifier.text : Quantifier → CString
  | .once => []
  | .star => [asterisk]
  | .plus => [Regex.plus]
  | .optional => [question]

def Item.text (i : Item) : CString := i.atom.char :: i.quantifier.text

def endText (toEnd : Bool) : CString := if toEnd then [dollar] else []

def bodyText (items : List Item) (toEnd : Bool) : CString := items.flatMap Item.text ++ endText toEnd

def Pattern.text (p : Pattern) : CString := (if p.fromStart then [caret] else []) ++ bodyText p.items p.toEnd

/-! ### Their languages -/

def Atom.Accepts : Atom → CChar → Prop
  | .literal c, d => d = c.val
  | .any, _ => True

def Atom.language (a : Atom) : Language CChar := letter a.Accepts

def Item.language (i : Item) : Language CChar :=
  match i.quantifier with
  | .once => i.atom.language
  | .star => i.atom.language∗
  | .plus => i.atom.language * i.atom.language∗
  | .optional => 1 + i.atom.language

def language (items : List Item) : Language CChar := (items.map Item.language).prod

structure Pattern.Matches (p : Pattern) (before word after : CString) : Prop where
  inLanguage : word ∈ language p.items
  atStart : p.fromStart → before = []
  atEnd : p.toEnd → after = []

/-- What may follow a match. -/
def following (toEnd : Bool) : Language CChar := if toEnd then 1 else anyWord

variable {a : Atom} {c d q : CChar} {regex text : CString} {here : CString → Bool} {l : Language CChar} {items : List Item}

/-! ### What the matcher finds at one place -/

theorem Atom.char_ne (a : Atom) : a.char ∉ [asterisk, Regex.plus, question, caret, dollar] := by
  cases a with
  | literal c => exact List.not_mem_of_not_mem_cons c.property
  | any => decide

theorem accepts_iff (a : Atom) (d : CChar) : accepts a.char d = true ↔ a.Accepts d := by
  cases a with
  | literal c =>
    have hdot : c.val ≠ dot := fun h => c.property (h ▸ (.head _))
    rw [accepts, Atom.char, decide_eq_false hdot, Bool.or_false, decide_eq_true_iff]
    rfl
  | any => exact iff_of_true (Bool.or_true _) trivial

private theorem matchOne_iff (h : ∀ w, here w = true ↔ w ∈ l) : matchOne a.char here text = true ↔ text ∈ a.language * l := by
  cases text with
  | nil => exact iff_of_false Bool.false_ne_true nil_notMem_letter_mul
  | cons d text => rw [matchOne, Bool.and_eq_true, accepts_iff, h, Atom.language, cons_mem_letter_mul]

private theorem regexMatchStar_iff (h : ∀ w, here w = true ↔ w ∈ l) :
    regexMatchStar a.char here text = true ↔ text ∈ a.language∗ * l := by
  induction text with
  | nil =>
    rw [kstar_mul, mem_add, regexMatchStar, h]
    exact (or_iff_left nil_notMem_letter_mul).symm
  | cons d text ih =>
    rw [kstar_mul, mem_add, regexMatchStar, Bool.or_eq_true, Bool.and_eq_true, h, accepts_iff, ih]
    exact or_congr_right cons_mem_letter_mul.symm

private theorem regexMatchPlus_iff (h : ∀ w, here w = true ↔ w ∈ l) :
    regexMatchPlus a.char here text = true ↔ text ∈ a.language * (a.language∗ * l) := by
  induction text with
  | nil => exact iff_of_false Bool.false_ne_true nil_notMem_letter_mul
  | cons d text ih =>
    rw [regexMatchPlus, Bool.and_eq_true, Bool.or_eq_true, accepts_iff, h, ih, ← mem_add, ← kstar_mul,
      Atom.language, cons_mem_letter_mul]

private theorem regexMatchHere_star : regexMatchHere (c :: asterisk :: regex) text = regexMatchStar c (regexMatchHere regex) text := by
  rw [regexMatchHere, if_pos rfl]

private theorem regexMatchHere_plus : regexMatchHere (c :: plus :: regex) text = regexMatchPlus c (regexMatchHere regex) text := by
  rw [regexMatchHere, if_neg (by decide), if_pos rfl]

private theorem regexMatchHere_optional :
    regexMatchHere (c :: question :: regex) text = (regexMatchHere regex text || matchOne c (regexMatchHere regex) text) := by
  rw [regexMatchHere, if_neg (by decide), if_neg (by decide), if_pos rfl]

private theorem regexMatchHere_once (hc : c ≠ dollar) (h : ∀ q ∈ regex.head?, q ∉ [asterisk, plus, question]) :
    regexMatchHere (c :: regex) text = matchOne c (regexMatchHere regex) text := by
  cases regex with
  | nil => rw [regexMatchHere, if_neg hc]
  | cons q regex =>
    have hq := h q rfl
    simp only [List.mem_cons, List.not_mem_nil, or_false, not_or] at hq
    rw [regexMatchHere, if_neg hq.1, if_neg hq.2.1, if_neg hq.2.2]

theorem head_bodyText (items : List Item) (toEnd : Bool) :
    ∀ q ∈ (bodyText items toEnd).head?, q ∉ [asterisk, plus, question, caret] := by
  intro q hq
  cases items with
  | nil =>
    cases toEnd with
    | false => cases hq
    | true =>
      cases hq
      decide
  | cons i items =>
    cases hq
    have hchar := i.atom.char_ne
    simp only [List.mem_cons, List.not_mem_nil, or_false, not_or] at hchar ⊢
    exact ⟨hchar.1, hchar.2.1, hchar.2.2.1, hchar.2.2.2.1⟩

private theorem bodyText_cons (i : Item) (items : List Item) (toEnd : Bool) :
    bodyText (i :: items) toEnd = i.atom.char :: (i.quantifier.text ++ bodyText items toEnd) := by
  rw [bodyText, bodyText, List.flatMap_cons, Item.text, List.cons_append, List.cons_append, List.append_assoc]

private theorem regexMatchHere_end (toEnd : Bool) : regexMatchHere (endText toEnd) text = true ↔ text ∈ following toEnd := by
  cases toEnd with
  | false => exact iff_of_true rfl (mem_anyWord text)
  | true => exact List.isEmpty_iff

theorem language_cons (i : Item) (items : List Item) : language (i :: items) = i.language * language items := List.prod_cons

theorem regexMatchHere_iff (items : List Item) (toEnd : Bool) (text : CString) :
    regexMatchHere (bodyText items toEnd) text = true ↔ text ∈ language items * following toEnd := by
  induction items generalizing text with
  | nil =>
    rw [language, List.map_nil, List.prod_nil, one_mul]
    exact regexMatchHere_end toEnd
  | cons i items ih =>
    obtain ⟨a, quantifier⟩ := i
    rw [bodyText_cons, language_cons, mul_assoc]
    cases quantifier with
    | once =>
      have hdollar : a.char ≠ dollar := fun h => a.char_ne (by rw [h]; decide)
      have hhead : ∀ q ∈ (bodyText items toEnd).head?, q ∉ [asterisk, plus, question] := fun q hq hmem =>
        head_bodyText items toEnd q hq (List.mem_append_left [caret] hmem)
      exact (regexMatchHere_once hdollar hhead) ▸ matchOne_iff ih
    | star => exact regexMatchHere_star ▸ regexMatchStar_iff ih
    | plus =>
      rw [show Item.language ⟨a, .plus⟩ = a.language * a.language∗ from rfl, mul_assoc]
      exact regexMatchHere_plus ▸ regexMatchPlus_iff ih
    | optional =>
      rw [show Item.language ⟨a, .optional⟩ = 1 + a.language from rfl, one_add_mul, mem_add, ← ih, ← matchOne_iff ih,
        ← Bool.or_eq_true]
      exact Bool.eq_iff_iff.mp regexMatchHere_optional

/-! ### The search -/

private theorem matchFrom_iff (h : ∀ w, regexMatchHere regex w = true ↔ w ∈ l) : matchFrom regex text = true ↔ text ∈ anyWord * l := by
  induction text with
  | nil => rw [matchFrom, h, nil_mem_anyWord_mul]
  | cons d text ih => rw [matchFrom, Bool.or_eq_true, h, ih, cons_mem_anyWord_mul]

theorem mem_language_following {toEnd : Bool} :
    text ∈ l * following toEnd ↔ ∃ v w, text = v ++ w ∧ v ∈ l ∧ (toEnd → w = []) := by
  rw [mem_mul]
  constructor
  · rintro ⟨v, hv, w, hw, rfl⟩
    refine ⟨v, w, rfl, hv, fun hend => ?_⟩
    rwa [following, if_pos hend] at hw
  · rintro ⟨v, w, rfl, hv, hend⟩
    refine ⟨v, hv, w, ?_, rfl⟩
    cases toEnd with
    | false => exact mem_anyWord w
    | true => exact hend rfl

private theorem text_anchored (items : List Item) (toEnd : Bool) :
    Pattern.text ⟨true, items, toEnd⟩ = caret :: bodyText items toEnd := rfl

private theorem text_floating (items : List Item) (toEnd : Bool) : Pattern.text ⟨false, items, toEnd⟩ = bodyText items toEnd := rfl

private theorem regexMatch_anchored : regexMatch (caret :: regex) text = regexMatchHere regex text := if_pos rfl

private theorem regexMatch_floating {toEnd : Bool} : regexMatch (bodyText items toEnd) text = matchFrom (bodyText items toEnd) text :=
  if_neg fun h => head_bodyText items toEnd caret h (by decide)

/-- The matcher finds a match exactly where there is one, for every pattern and text. -/
theorem regexMatch_iff (p : Pattern) (text : CString) :
    regexMatch p.text text = true ↔ ∃ before word after, text = before ++ word ++ after ∧ p.Matches before word after := by
  obtain ⟨fromStart, items, toEnd⟩ := p
  cases fromStart with
  | true =>
    rw [text_anchored, regexMatch_anchored, regexMatchHere_iff, mem_language_following]
    constructor
    · rintro ⟨v, w, rfl, hv, hend⟩
      exact ⟨[], v, w, rfl, hv, fun _ => rfl, hend⟩
    · rintro ⟨u, v, w, rfl, hv, hstart, hend⟩
      rw [hstart rfl]
      exact ⟨v, w, rfl, hv, hend⟩
  | false =>
    rw [text_floating, regexMatch_floating, matchFrom_iff (regexMatchHere_iff items toEnd), mem_anyWord_mul]
    constructor
    · rintro ⟨u, x, rfl, hx⟩
      obtain ⟨v, w, rfl, hv, hend⟩ := mem_language_following.mp hx
      exact ⟨u, v, w, (List.append_assoc u v w).symm, hv, fun h => absurd h Bool.false_ne_true, hend⟩
    · rintro ⟨u, v, w, rfl, hv, -, hend⟩
      exact ⟨u, v ++ w, List.append_assoc u v w, mem_language_following.mpr ⟨v, w, rfl, hv, hend⟩⟩

example : regexMatch (.ofString "^a+b?c*$") (.ofString "aac") = true := by decide

end RetroOs.Apps.Regex

/-! Where the user programs find a match, and what they put in its place. The end of a match is looked for by matching the
pattern again at the positions behind its start, and this is right only where the matches happen to start in a row. -/
namespace RetroOs.Apps.Regex
open Lib
open Lib.CString (terminated length_terminated)

structure RegexMatch where
  matched : Bool
  start : ℤ
  stop : ℤ
  deriving DecidableEq

def noMatch : RegexMatch := { matched := false, start := -1, stop := -1 }

def findEnd (regex : CString) : CString → ℕ
  | [] => 0
  | _ :: t => if regexMatchHere regex t then findEnd regex t + 1 else 0

def findFrom (regex : CString) (anchored : Bool) (pos : ℕ) : CString → RegexMatch
  | [] => if regexMatchHere regex [] then { matched := true, start := pos, stop := pos + findEnd regex [] } else noMatch
  | c :: text =>
    if regexMatchHere regex (c :: text) then { matched := true, start := pos, stop := pos + findEnd regex (c :: text) }
    else if anchored then noMatch
    else findFrom regex anchored (pos + 1) text

def regexFind (regex text : CString) : RegexMatch :=
  if regex.head? = some caret then findFrom regex.tail true 0 text else findFrom regex false 0 text

/-- The first loop of `strncpy`: the memory, `dest` and `n` after it; `n--` of 0 leaves the largest number. -/
def strncpyCopy (m : Memory) (dest : ℕ) : CString → ℕ → Memory × ℕ × ℕ
  | _, 0 => (m, dest, 2 ^ 32 - 1)
  | [], n + 1 => (m.store8 dest 0, dest + 1, n)
  | c :: src, n + 1 => strncpyCopy (m.store8 dest c) (dest + 1) src n

def strncpy (m : Memory) (dest : ℕ) (src : CString) (n : ℕ) : Memory :=
  let (m, dest, n) := strncpyCopy m dest src n
  m.fill dest 0 n

def regexReplace (m : Memory) (regex replacement text : CString) (output : ℕ) (outsize : UInt32) : Memory × Bool :=
  let r := regexFind regex text
  let rem := (outsize - 1).toNat
  if r.matched then
    let before := if rem < r.start.toNat then rem else r.start.toNat
    let m := m.memcpy output ((terminated text).take before)
    let p := output + before
    let rem := rem - before
    let rlen := if rem < replacement.length then rem else replacement.length
    let m := m.memcpy p ((terminated replacement).take rlen)
    let p := p + rlen
    let rem := rem - rlen
    let after := text.drop r.stop.toNat
    let alen := if rem < after.length then rem else after.length
    let m := m.memcpy p ((terminated after).take alen)
    (m.store8 (p + alen) 0, true)
  else
    ((strncpy m output text rem).store8 (output + rem) 0, false)

/-! ### What is asked of them -/

def Pattern.StartsAt (p : Pattern) (text : CString) (i : ℕ) : Prop :=
  ∃ before word after, text = before ++ word ++ after ∧ p.Matches before word after ∧ before.length = i

def Pattern.Leftmost (p : Pattern) (text : CString) (i : ℕ) : Prop := IsLeast {k | p.StartsAt text k} i

def span (text : CString) (i j : ℕ) : CString := (text.take j).drop i

/-- The buffer gets the string, cut to its size, with a terminator; and no other byte changes. -/
structure Writes (m m' : Memory) (output size : ℕ) (s : CString) : Prop where
  written : m'.bytes output ((s.take (size - 1)).length + 1) = terminated (s.take (size - 1))
  outside : ∀ x, x < output ∨ output + size ≤ x → m' x = m x

structure FindsMatch (p : Pattern) (text : CString) (i j : ℕ) : Prop where
  found : regexFind p.text text = { matched := true, start := i, stop := j }
  leftmost : p.Leftmost text i
  ordered : i ≤ j ∧ j ≤ text.length
  isMatch : span text i j ∈ language p.items
  replaces : ∀ (m : Memory) (replacement : CString) (output : ℕ) (outsize : UInt32), 1 ≤ outsize →
    Writes m (regexReplace m p.text replacement text output outsize).1 output outsize.toNat
      (text.take i ++ replacement ++ text.drop j)

def FindsRight (p : Pattern) (text : CString) : Prop :=
  (regexFind p.text text).matched = regexMatch p.text text ∧
    (regexMatch p.text text = true → ∃ i j, FindsMatch p text i j)

/-- Matches start at each position from `i` to `j`, but not at the next one. -/
structure Pattern.Run (p : Pattern) (text : CString) (i j : ℕ) : Prop where
  le : i ≤ j
  starts : ∀ k, i ≤ k → k ≤ j → p.StartsAt text k
  ends : ¬ p.StartsAt text (j + 1)

def Pattern.floating (p : Pattern) : Pattern := { p with fromStart := false }

/-- The leftmost positions in a row where matches start are as many as a match there is long. -/
def RunIsMatch (p : Pattern) (text : CString) : Prop :=
  ∀ i j, p.Leftmost text i → p.floating.Run text i j → span text i j ∈ language p.items

variable {m : Memory} {p : Pattern} {regex text s t : CString} {anchored : Bool} {i j k n pos output size : ℕ}
  {dest : ℕ}

/-! ### The start and the end -/

private theorem findEnd_le (regex text : CString) : findEnd regex text ≤ text.length := by
  induction text with
  | nil => exact Nat.le_refl 0
  | cons c t ih =>
    rw [findEnd]
    split
    · exact Nat.succ_le_succ ih
    · exact Nat.zero_le _

private theorem findEnd_matches (hk : k < findEnd regex text) : regexMatchHere regex (text.drop (k + 1)) = true := by
  induction text generalizing k with
  | nil => exact absurd hk (Nat.not_lt_zero k)
  | cons c t ih =>
    rw [findEnd] at hk
    split at hk
    · next hhere =>
      cases k with
      | zero => exact hhere
      | succ k => exact ih (Nat.lt_of_succ_lt_succ hk)
    · exact absurd hk (Nat.not_lt_zero k)

private theorem findEnd_stops (h : findEnd regex text < text.length) : regexMatchHere regex (text.drop (findEnd regex text + 1)) ≠ true := by
  induction text with
  | nil => exact absurd h (Nat.not_lt_zero _)
  | cons c t ih =>
    rw [findEnd] at h ⊢
    split at h
    · next hhere =>
      rw [if_pos hhere]
      exact ih (Nat.lt_of_succ_lt_succ h)
    · next hhere =>
      rw [if_neg hhere]
      exact hhere

private theorem findFrom_matched (regex : CString) (pos : ℕ) (text : CString) :
    (findFrom regex false pos text).matched = matchFrom regex text := by
  induction text generalizing pos with
  | nil =>
    rw [findFrom, matchFrom]
    cases regexMatchHere regex [] <;> rfl
  | cons c text ih =>
    rw [findFrom, matchFrom]
    cases regexMatchHere regex (c :: text) with
    | true => rfl
    | false => exact ih (pos + 1)

private theorem findFrom_anchored (regex : CString) (pos : ℕ) (text : CString) :
    (findFrom regex true pos text).matched = regexMatchHere regex text := by
  cases text with
  | nil =>
    rw [findFrom]
    cases regexMatchHere regex [] <;> rfl
  | cons c text =>
    rw [findFrom]
    cases regexMatchHere regex (c :: text) <;> rfl

structure FirstHere (regex : CString) (anchored : Bool) (text : CString) (i : ℕ) : Prop where
  le : i ≤ text.length
  here : regexMatchHere regex (text.drop i) = true
  first : ∀ k < i, regexMatchHere regex (text.drop k) ≠ true
  anchored : anchored → i = 0

theorem FirstHere.now (h : regexMatchHere regex text = true) : FirstHere regex anchored text 0 where
  le := Nat.zero_le _
  here := h
  first := fun k hk => absurd hk (Nat.not_lt_zero k)
  anchored := fun _ => rfl

private theorem findFrom_spec (h : (findFrom regex anchored pos text).matched = true) : ∃ i, FirstHere regex anchored text i ∧
    findFrom regex anchored pos text = { matched := true, start := ↑(pos + i), stop := ↑(pos + (i + findEnd regex (text.drop i))) } := by
  induction text generalizing pos with
  | nil =>
    rw [findFrom] at h ⊢
    split at h
    · next hhere =>
      refine ⟨0, .now hhere, ?_⟩
      rw [if_pos hhere, Nat.zero_add]
      rfl
    · cases h
  | cons c text ih =>
    rw [findFrom] at h ⊢
    split at h
    · next hhere =>
      refine ⟨0, .now hhere, ?_⟩
      rw [if_pos hhere, Nat.zero_add, List.drop_zero, Nat.add_zero, Nat.cast_add]
    · next hhere =>
      cases anchored with
      | true => cases h
      | false =>
        obtain ⟨i, hi, heq⟩ := ih h
        refine ⟨i + 1, ?_, ?_⟩
        · refine { le := Nat.succ_le_succ hi.le, here := hi.here, first := fun k hk => ?_, anchored := fun h => absurd h Bool.false_ne_true }
          cases k with
          | zero => exact hhere
          | succ k => exact hi.first k (Nat.lt_of_succ_lt_succ hk)
        · rw [if_neg hhere, if_neg Bool.false_ne_true, heq, List.drop_succ_cons]
          congr 2 <;> omega

theorem regexFind_eq (p : Pattern) (text : CString) :
    regexFind p.text text = findFrom (bodyText p.items p.toEnd) p.fromStart 0 text := by
  obtain ⟨fromStart, items, toEnd⟩ := p
  cases fromStart with
  | true => exact if_pos rfl
  | false => exact if_neg fun h => head_bodyText items toEnd caret h (by decide)

theorem regexFind_matched (p : Pattern) (text : CString) : (regexFind p.text text).matched = regexMatch p.text text := by
  rw [regexFind_eq]
  obtain ⟨fromStart, items, toEnd⟩ := p
  cases fromStart with
  | true => rw [findFrom_anchored, text_anchored, regexMatch_anchored]
  | false => rw [findFrom_matched, text_floating, regexMatch_floating]

theorem startsAt_iff : p.StartsAt text i ↔
    i ≤ text.length ∧ regexMatchHere (bodyText p.items p.toEnd) (text.drop i) = true ∧ (p.fromStart → i = 0) := by
  rw [regexMatchHere_iff, mem_language_following]
  constructor
  · rintro ⟨u, v, w, rfl, hmatch, rfl⟩
    refine ⟨by rw [List.append_assoc, List.length_append]; exact Nat.le_add_right _ _, ⟨v, w, ?_, hmatch.inLanguage, hmatch.atEnd⟩, ?_⟩
    · rw [List.append_assoc, List.drop_left]
    · intro hstart
      rw [hmatch.atStart hstart]
      rfl
  · rintro ⟨hi, ⟨v, w, heq, hv, hend⟩, hstart⟩
    refine ⟨text.take i, v, w, ?_, ⟨hv, fun h => ?_, hend⟩, List.length_take_of_le hi⟩
    · rw [List.append_assoc, ← heq, List.take_append_drop]
    · rw [hstart h]
      rfl

private theorem floating_startsAt_iff :
    p.floating.StartsAt text i ↔ i ≤ text.length ∧ regexMatchHere (bodyText p.items p.toEnd) (text.drop i) = true := by
  rw [startsAt_iff]
  exact and_congr_right fun _ => and_iff_left fun h => absurd h Bool.false_ne_true

theorem FirstHere.leftmost (h : FirstHere (bodyText p.items p.toEnd) p.fromStart text i) : p.Leftmost text i := by
  refine ⟨startsAt_iff.mpr ⟨h.le, h.here, h.anchored⟩, fun k hk => ?_⟩
  exact Nat.le_of_not_lt fun hlt => h.first k hlt (startsAt_iff.mp hk).2.1

theorem FirstHere.run (h : FirstHere (bodyText p.items p.toEnd) p.fromStart text i) :
    p.floating.Run text i (i + findEnd (bodyText p.items p.toEnd) (text.drop i)) := by
  have hle := findEnd_le (bodyText p.items p.toEnd) (text.drop i)
  rw [List.length_drop] at hle
  have hi := h.le
  refine { le := Nat.le_add_right _ _, starts := fun k hik hkj => ?_, ends := fun hstart => ?_ }
  · refine floating_startsAt_iff.mpr ⟨by omega, ?_⟩
    obtain ⟨d, rfl⟩ := Nat.exists_eq_add_of_le hik
    cases d with
    | zero => exact h.here
    | succ d =>
      rw [← List.drop_drop]
      exact findEnd_matches (Nat.lt_of_add_lt_add_left hkj)
  · obtain ⟨hlen, hhere⟩ := floating_startsAt_iff.mp hstart
    refine findEnd_stops (?_ : findEnd (bodyText p.items p.toEnd) (text.drop i) < (text.drop i).length) ?_
    · rw [List.length_drop]
      omega
    · rwa [List.drop_drop, ← Nat.add_assoc]

theorem Pattern.Run.unique (h : p.Run text i j) (h' : p.Run text i k) : j = k := by
  rcases Nat.lt_trichotomy j k with hlt | heq | hlt
  · exact absurd (h'.starts (j + 1) (Nat.le_succ_of_le h.le) hlt) h.ends
  · exact heq
  · exact absurd (h.starts (k + 1) (Nat.le_succ_of_le h'.le) hlt) h'.ends

private theorem regexFind_spec (h : regexMatch p.text text = true) : ∃ i j, p.Leftmost text i ∧ p.floating.Run text i j ∧
    regexFind p.text text = { matched := true, start := i, stop := j } := by
  rw [← regexFind_matched, regexFind_eq] at h
  obtain ⟨i, hi, heq⟩ := findFrom_spec h
  refine ⟨i, _, hi.leftmost, hi.run, ?_⟩
  rw [regexFind_eq, heq, Nat.zero_add, Nat.zero_add]

/-! ### What is put in the place of the match -/

theorem take_terminated (h : n ≤ s.length) : (terminated s).take (if k < n then k else n) = ((s.take n).take k).map Subtype.val := by
  have hmin : (if k < n then k else n) = min k n := by
    split
    · next hlt => exact (Nat.min_eq_left (Nat.le_of_lt hlt)).symm
    · next hle => exact (Nat.min_eq_right (Nat.le_of_not_lt hle)).symm
  rw [hmin, List.take_take, terminated, List.take_append_of_le_length, List.map_take]
  rw [List.length_map]
  exact (Nat.min_le_right k n).trans h

theorem length_take_take (h : n ≤ s.length) :
    (((s.take n).take k).map Subtype.val).length = if k < n then k else n := by
  rw [← take_terminated h, List.length_take, length_terminated]
  split <;> omega

private theorem writes_memcpy (hsize : 1 ≤ size) : Writes m (m.memcpy output (terminated (s.take (size - 1)))) output size s := by
  have hlen : (terminated (s.take (size - 1))).length ≤ size := by
    rw [length_terminated, List.length_take]
    omega
  constructor
  · rw [← length_terminated, Memory.bytes_memcpy m (Nat.le_refl _), List.take_length]
  · intro x hx
    exact Memory.memcpy_outside (by omega)

private theorem regexReplace_memcpy (hfound : regexFind regex text = { matched := true, start := i, stop := j }) (hi : i ≤ text.length)
    (replacement : CString) (output : ℕ) (outsize : UInt32) :
    (regexReplace m regex replacement text output outsize).1 =
      m.memcpy output (terminated ((text.take i ++ replacement ++ text.drop j).take (outsize - 1).toNat)) := by
  have hrest (k n : ℕ) : k - (if k < n then k else n) = k - n := by
    split <;> omega
  have hall (s : CString) : s.take s.length = s := List.take_length
  have hrep := take_terminated (s := replacement) (k := (outsize - 1).toNat - i) (Nat.le_refl _)
  have hafter := take_terminated (s := text.drop j) (k := (outsize - 1).toNat - i - replacement.length) (Nat.le_refl _)
  have hreplen := length_take_take (s := replacement) (k := (outsize - 1).toNat - i) (Nat.le_refl _)
  have hafterlen := length_take_take (s := text.drop j) (k := (outsize - 1).toNat - i - replacement.length) (Nat.le_refl _)
  rw [hall] at hrep hafter hreplen hafterlen
  simp only [regexReplace, hfound, if_true, Int.toNat_natCast, hrest, take_terminated hi, hrep, hafter]
  rw [← length_take_take hi, Memory.memcpy_append, Nat.add_assoc, ← hreplen, ← List.length_append, Memory.memcpy_append, ← hafterlen,
    Nat.add_assoc, ← List.length_append, Memory.memcpy_snoc]
  rw [terminated, List.take_append, List.take_append, List.length_append, List.length_take_of_le hi, Nat.sub_sub, List.map_append,
    List.map_append]

/-! ### Where there is no match -/

private theorem strncpyCopy_fits (h : s.length < n) :
    strncpyCopy m dest s n = (m.memcpy dest (terminated s), dest + s.length + 1, n - s.length - 1) := by
  induction s generalizing m dest n with
  | nil =>
    obtain ⟨n, rfl⟩ := Nat.exists_eq_succ_of_ne_zero (Nat.ne_of_gt h)
    rw [strncpyCopy, Memory.store8_eq]
    rfl
  | cons c s ih =>
    obtain ⟨n, rfl⟩ := Nat.exists_eq_succ_of_ne_zero (Nat.ne_of_gt (Nat.zero_lt_of_lt h))
    have hs : s.length < n := Nat.lt_of_succ_lt_succ h
    have hdest : dest + 1 + s.length + 1 = dest + (s.length + 1) + 1 := by omega
    have hleft : n - s.length - 1 = n + 1 - (s.length + 1) - 1 := by omega
    rw [strncpyCopy, ih hs, Memory.memcpy_cons, hdest, hleft]
    rfl

private theorem strncpyCopy_full (h : n ≤ s.length) :
    strncpyCopy m dest s n = (m.memcpy dest ((s.take n).map Subtype.val), dest + n, 2 ^ 32 - 1) := by
  induction n generalizing m dest s with
  | zero =>
    rw [strncpyCopy, List.take_zero, List.map_nil, Memory.memcpy_nil]
    rfl
  | succ n ih =>
    cases s with
    | nil => exact absurd h (Nat.not_succ_le_zero n)
    | cons c s =>
      rw [strncpyCopy, ih (Nat.le_of_succ_le_succ h), Memory.memcpy_cons, Nat.add_right_comm]
      rfl

private theorem strncpy_fits {d : ℕ} (h : s.length < n) :
    strncpy m d s n = (m.memcpy d (terminated s)).fill (d + s.length + 1) 0 (n - s.length - 1) := by
  rw [strncpy, strncpyCopy_fits h]

private theorem strncpy_full (h : n ≤ s.length) :
    strncpy m dest s n = (m.memcpy dest ((s.take n).map Subtype.val)).fill (dest + n) 0 (2 ^ 32 - 1) := by
  rw [strncpy, strncpyCopy_full h]

private theorem regexReplace_noMatch (h : regexMatch p.text text = false) (replacement : CString) (output : ℕ) (outsize : UInt32) :
    (regexReplace m p.text replacement text output outsize).1 =
      (strncpy m output text (outsize - 1).toNat).store8 (output + (outsize - 1).toNat) 0 := by
  rw [← regexFind_matched] at h
  simp only [regexReplace, h, Bool.false_eq_true, if_false]

theorem toNat_sub_one {outsize : UInt32} (h : 1 ≤ outsize) : (outsize - 1).toNat = outsize.toNat - 1 := UInt32.toNat_sub_of_le _ _ h

private theorem writes_strncpy (hs : s.length < n) : Writes m ((strncpy m output s n).store8 (output + n) 0) output (n + 1) s := by
  have hcopy := strncpy_fits (m := m) (d := output) hs
  have hlen := length_terminated s
  constructor
  · rw [Nat.add_sub_cancel, List.take_of_length_le (Nat.le_of_lt hs)]
    have hbytes : (m.memcpy output (terminated s)).bytes output (s.length + 1) = terminated s := by
      rw [← hlen, Memory.bytes_memcpy m (Nat.le_refl _), List.take_length]
    have hfill := Memory.fill_agreeOn (m.memcpy output (terminated s)) (a := output) (n := s.length + 1) (b := output + s.length + 1)
      (k := n - s.length - 1) 0 (.inl (by omega))
    have hstore := Memory.store8_agreeOn (strncpy m output s n) (a := output) (n := s.length + 1) (b := output + n) 0 (.inr (by omega))
    rw [hstore.bytes, hcopy, hfill.bytes, hbytes]
  · intro x hx
    rw [Memory.store8, if_neg (by omega), hcopy, Memory.fill, if_neg (by omega)]
    exact Memory.memcpy_outside (by omega)

private theorem strncpy_past (hs : n ≤ s.length) : ((strncpy m output s n).store8 (output + n) 0) (output + n + 1) = 0 := by
  rw [Memory.store8, if_neg (Nat.succ_ne_self _), strncpy_full hs, Memory.fill, if_pos (by omega)]

/-- What is found and made of a match is right exactly where the starts in a row span a match; and a text without a match is
copied exactly where it leaves room in the buffer for more than its terminator. -/
theorem findsRight_iff (p : Pattern) (text : CString) : (FindsRight p text ↔ RunIsMatch p text) ∧
    ∀ outsize : UInt32, 1 ≤ outsize → regexMatch p.text text = false →
      ((∀ m replacement output, Writes m (regexReplace m p.text replacement text output outsize).1 output outsize.toNat text) ↔
        text.length + 1 < outsize.toNat) := by
  refine ⟨⟨fun h i j hleft hrun => ?_, fun h => ⟨regexFind_matched p text, fun hmatch => ?_⟩⟩, fun outsize hsize hno => ?_⟩
  · obtain ⟨u, v, w, heq, hmatch, -⟩ := hleft.1
    have hmatched := (regexMatch_iff p text).mpr ⟨u, v, w, heq, hmatch⟩
    obtain ⟨i', j', hleft', hrun', hfind⟩ := regexFind_spec hmatched
    obtain ⟨i'', j'', hfinds⟩ := h.2 hmatched
    have hsame := hfind.symm.trans hfinds.found
    have hi : i' = i'' := Int.natCast_inj.mp (congrArg RegexMatch.start hsame)
    have hj : j' = j'' := Int.natCast_inj.mp (congrArg RegexMatch.stop hsame)
    subst hi hj
    obtain rfl := hleft.unique hleft'
    obtain rfl := hrun.unique hrun'
    exact hfinds.isMatch
  · obtain ⟨i, j, hleft, hrun, hfind⟩ := regexFind_spec hmatch
    have hi := (startsAt_iff.mp hleft.1).1
    have hj := (startsAt_iff.mp (hrun.starts j hrun.le (Nat.le_refl j))).1
    refine ⟨i, j, hfind, hleft, ⟨hrun.le, hj⟩, h i j hleft hrun, fun m replacement output outsize hsize => ?_⟩
    rw [regexReplace_memcpy hfind hi, toNat_sub_one hsize]
    exact writes_memcpy (UInt32.le_iff_toNat_le.mp hsize)
  · have hpos : 1 ≤ outsize.toNat := UInt32.le_iff_toNat_le.mp hsize
    constructor
    · intro h
      by_contra hfull
      have houtside := (h (fun _ => 1) [] 0).outside (outsize.toNat) (.inr (Nat.zero_add _ ▸ Nat.le_refl _))
      have hpast : ((strncpy (fun _ => 1) 0 text (outsize.toNat - 1)).store8 (0 + (outsize.toNat - 1)) 0) (0 + (outsize.toNat - 1) + 1) = 0 :=
        strncpy_past (by omega)
      rw [Nat.zero_add, Nat.sub_add_cancel hpos] at hpast
      rw [regexReplace_noMatch hno, toNat_sub_one hsize, Nat.zero_add, hpast] at houtside
      exact absurd houtside (by decide)
    · intro hroom m replacement output
      have hwrites : Writes m ((strncpy m output text (outsize.toNat - 1)).store8 (output + (outsize.toNat - 1)) 0) output
          (outsize.toNat - 1 + 1) text := writes_strncpy (by omega)
      rwa [Nat.sub_add_cancel hpos, ← toNat_sub_one hsize, ← regexReplace_noMatch hno replacement] at hwrites

private theorem letterA_ne_zero : (0x61 : UInt8) ≠ 0 := by decide

def letterA : Pattern := { fromStart := false, items := [⟨.literal ⟨⟨0x61, letterA_ne_zero⟩, by decide⟩, .once⟩], toEnd := false }

/-- The text `b` has no match, and is copied into three bytes. -/
theorem findsRight_iff_unmatched : regexMatch letterA.text (.ofString "b") = false ∧ ∀ m replacement output,
    Writes m (regexReplace m letterA.text replacement (.ofString "b") output 3).1 output 3 (.ofString "b") :=
  ⟨by decide, ((findsRight_iff letterA (.ofString "b")).2 3 (by decide) (by decide)).mpr (by decide)⟩

/-- The match of `a` in `a` is found at 0, and is said to end there. -/
theorem single_letter_empty : ¬ FindsRight letterA (.ofString "a") := by
  rintro ⟨-, h⟩
  obtain ⟨i, j, hfinds⟩ := h (by decide)
  have hfound : regexFind letterA.text (.ofString "a") = { matched := true, start := 0, stop := 0 } := by decide
  have hsame := hfound.symm.trans hfinds.found
  obtain rfl : j = 0 := Int.natCast_eq_zero.mp (congrArg RegexMatch.stop hsame).symm
  have hmatch := hfinds.isMatch
  rw [letterA, language_cons, span, List.take_zero, List.drop_nil] at hmatch
  exact nil_notMem_letter_mul hmatch

end RetroOs.Apps.Regex
