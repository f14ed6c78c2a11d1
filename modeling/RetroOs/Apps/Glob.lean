import RetroOs.Lib.Copying
import RetroOs.Lib.Words

/-! The glob patterns of the user programs: the matcher, the patterns and their languages, and what one turn of the matcher
does. A pointer into a string is what is left of it, with the terminator; behind that nothing can be read. -/
namespace RetroOs.Apps.Glob
open Lib List Nat
open Lib.CString (terminated terminated_cons)

def asterisk : UInt8 := 0x2A
def question : UInt8 := 0x3F
def opening : UInt8 := 0x5B
def closing : UInt8 := 0x5D
def hyphen : UInt8 := 0x2D
def bang : UInt8 := 0x21
def caret : UInt8 := 0x5E

def inRange (lo hi c : UInt8) : Bool := lo.toInt8 ≤ c.toInt8 && c.toInt8 ≤ hi.toInt8

/-- The loop over the members of a set: where the pattern goes on, and whether a member matched; or a read past an end. -/
def scanSet (text : List UInt8) : List UInt8 → Bool → Option (List UInt8 × Bool)
  | [], _ => none
  | b :: rest, hit =>
    if b = 0 ∨ b = closing then some (b :: rest, hit)
    else match text with
    | [] => none
    | c :: _ =>
      match rest with
      | [] => none
      | d :: rest =>
        if d = hyphen then
          match rest with
          | [] => none
          | e :: rest =>
            if e ≠ 0 ∧ e ≠ closing then scanSet text rest (hit || inRange b e c)
            else scanSet text (d :: e :: rest) (hit || c = b)
        else scanSet text (d :: rest) (hit || c = b)

/-- The loop behind an asterisk: the pattern is tried at every position before the terminator. -/
def starLoop (glob : List UInt8 → Option Bool) : List UInt8 → Option Bool
  | [] => none
  | c :: text =>
    if c = 0 then some false
    else match glob (c :: text) with
    | some false => starLoop glob text
    | r => r

private theorem scanSet_length {text pattern rest : List UInt8} {hit hit' : Bool} (h : scanSet text pattern hit = some (rest, hit')) :
    rest.length ≤ pattern.length := by
  fun_induction scanSet text pattern hit <;> grind

/-- `*pattern == '!' || *pattern == '^'` -/
def inverted (p : List UInt8) : Bool := p.head? = some bang || p.head? = some caret

def skipMark (p : List UInt8) : List UInt8 := if inverted p then p.tail else p

/-- Behind the bracket that closes the set, if there is one. -/
def skipClosing (p : List UInt8) : List UInt8 := if p.head? = some closing then p.tail else p

private theorem skipMark_length (p : List UInt8) : (skipMark p).length ≤ p.length := by
  rw [skipMark]
  split
  · exact length_tail ▸ sub_le _ _
  · exact le_refl _

private theorem skipClosing_length (p : List UInt8) : (skipClosing p).length ≤ p.length := by
  rw [skipClosing]
  split
  · exact length_tail ▸ sub_le _ _
  · exact le_refl _

def globMatch (pattern text : List UInt8) : Option Bool :=
  match pattern with
  | [] => none
  | b :: rest =>
    if b = 0 then text.head?.map (· == 0)
    else if b = asterisk then
      match rest with
      | [] => none
      | d :: rest => if d = 0 then some true else starLoop (fun t => globMatch (d :: rest) t) text
    else if b = question then
      match text with
      | [] => none
      | c :: text => if c = 0 then some false else globMatch rest text
    else if b = opening then
      match _h : scanSet text (skipMark rest) false with
      | none => none
      | some (p, hit) => if hit = inverted rest then some false else globMatch (skipClosing p) text.tail
    else
      match text with
      | [] => none
      | c :: text => if b = c then globMatch rest text else some false
termination_by pattern.length
decreasing_by
  · exact lt_succ_self _
  · exact lt_succ_self _
  · exact lt_succ_of_le (((skipClosing_length p).trans (scanSet_length _h)).trans (skipMark_length rest))
  · exact lt_succ_self _

/-! ### Patterns -/

inductive Member where
  | single (c : CChar)
  | range (lo hi : CChar)

def Member.text : Member → List UInt8
  | .single c => [c.val]
  | .range lo hi => [lo.val, hyphen, hi.val]

def Member.accepts : Member → UInt8 → Bool
  | .single d, c => c = d.val
  | .range lo hi, c => inRange lo.val hi.val c

def membersText (members : List Member) : List UInt8 := members.flatMap Member.text

def WellFormed : List Member → Prop
  | [] => True
  | .single c :: members => c.val ≠ closing ∧ (∀ e rest, membersText members ≠ hyphen :: e :: rest) ∧ WellFormed members
  | .range lo hi :: members => lo.val ≠ closing ∧ hi.val ≠ closing ∧ WellFormed members

inductive Mark where
  | plain
  | bang
  | caret
  deriving DecidableEq

def Mark.text : Mark → List UInt8
  | .plain => []
  | .bang => [Glob.bang]
  | .caret => [Glob.caret]

/-- A set with at least one member; one that is not negated does not begin with a mark of negation. -/
structure BracketSet where
  mark : Mark
  members : List Member
  nonempty : members ≠ []
  wellFormed : WellFormed members
  unmarked : mark = .plain → ∀ c ∈ (membersText members).head?, c ≠ bang ∧ c ≠ caret

/-- What stands for exactly one character. -/
inductive Single where
  | literal (c : { c : CChar // c.val ∉ [asterisk, question, opening] })
  | any
  | set (s : BracketSet)

inductive Item where
  | one (i : Single)
  | star

def BracketSet.accepts (s : BracketSet) (c : UInt8) : Bool := s.members.any (·.accepts c) != decide (s.mark ≠ .plain)

/-- The matcher goes on behind the character; the character may be the terminator. -/
def Single.accepts : Single → UInt8 → Bool
  | .literal d, c => c = d.val.val
  | .any, c => c ≠ 0
  | .set s, c => s.accepts c

def Single.text : Single → List UInt8
  | .literal c => [c.val.val]
  | .any => [question]
  | .set s => opening :: (s.mark.text ++ (membersText s.members ++ [closing]))

def Item.text : Item → List UInt8
  | .one i => i.text
  | .star => [asterisk]

def patternText (items : List Item) : List UInt8 := items.flatMap Item.text ++ [0]

def Item.language : Item → Language CChar
  | .one i => letter fun c => i.accepts c.val
  | .star => anyWord

def language (items : List Item) : Language CChar := (items.map Item.language).prod

variable {items rest : List Item} {i : Single} {s : CString} {text pattern : List UInt8} {c : UInt8} {hit : Bool} {members : List Member}
  {b : UInt8} {front : List Item} {j : Item}

/-! ### One turn of the matcher -/

private theorem scanSet_closing : scanSet text (closing :: pattern) hit = some (closing :: pattern, hit) := by
  rw [scanSet.eq_def]
  exact if_pos (.inr rfl)

private theorem scanSet_single {d : CChar} (hd : d.val ≠ closing) (hb : b = hyphen → ∃ rest, pattern = closing :: rest) :
    scanSet (c :: text) (d.val :: b :: pattern) hit = scanSet (c :: text) (b :: pattern) (hit || c = d.val) := by
  rw [scanSet.eq_def]
  dsimp only
  rw [if_neg (not_or.mpr ⟨d.property, hd⟩)]
  by_cases hhyphen : b = hyphen
  · obtain ⟨rest, rfl⟩ := hb hhyphen
    rw [if_pos hhyphen]
    exact if_neg fun h => h.2 rfl
  · exact if_neg hhyphen

private theorem scanSet_range {lo hi : CChar} (hlo : lo.val ≠ closing) (hhi : hi.val ≠ closing) :
    scanSet (c :: text) (lo.val :: hyphen :: hi.val :: pattern) hit = scanSet (c :: text) pattern (hit || inRange lo.val hi.val c) := by
  rw [scanSet.eq_def]
  dsimp only
  rw [if_neg (not_or.mpr ⟨lo.property, hlo⟩), if_pos rfl]
  exact if_pos ⟨hi.property, hhi⟩

private theorem scanSet_members (h : WellFormed members) (pattern : List UInt8) :
    scanSet (c :: text) (membersText members ++ closing :: pattern) hit =
      some (closing :: pattern, hit || members.any (·.accepts c)) := by
  induction members generalizing hit with
  | nil =>
    rw [any_nil, Bool.or_false]
    exact scanSet_closing
  | cons m members ih =>
    rw [any_cons, ← Bool.or_assoc]
    cases m with
    | range lo hi => exact (scanSet_range h.1 h.2.1).trans (ih h.2.2)
    | single d =>
      obtain ⟨hd, hhyphen, hrest⟩ := h
      refine Eq.trans ?_ (ih hrest)
      change scanSet (c :: text) (d.val :: (membersText members ++ closing :: pattern)) hit = _
      cases htext : membersText members with
      | nil => exact scanSet_single hd fun h => absurd h (by decide)
      | cons b bs =>
        refine scanSet_single hd fun hb => ?_
        cases bs with
        | nil => exact ⟨pattern, rfl⟩
        | cons e rest => exact absurd (hb ▸ htext) (hhyphen e rest)

private theorem scanSet_nil (hne : members ≠ []) (h : WellFormed members) (pattern : List UInt8) (hit : Bool) :
    scanSet [] (membersText members ++ pattern) hit = none := by
  obtain ⟨m, members, rfl⟩ := exists_cons_of_ne_nil hne
  cases m with
  | single d =>
    rw [scanSet.eq_def]
    exact if_neg (not_or.mpr ⟨d.property, h.1⟩)
  | range lo hi =>
    rw [scanSet.eq_def]
    exact if_neg (not_or.mpr ⟨lo.property, h.1⟩)

/-! The two ways a set begins. -/

theorem BracketSet.head_plain (b : BracketSet) (h : b.mark = .plain) (pattern : List UInt8) :
    inverted (membersText b.members ++ pattern) = false := by
  obtain ⟨m, members, hm⟩ := exists_cons_of_ne_nil b.nonempty
  have hunmarked := b.unmarked h
  rw [hm] at hunmarked ⊢
  cases m with
  | single d =>
    have hd := hunmarked d.val rfl
    exact Bool.or_eq_false_iff.mpr ⟨decide_eq_false fun h => hd.1 (Option.some.inj h), decide_eq_false fun h => hd.2 (Option.some.inj h)⟩
  | range lo hi =>
    have hd := hunmarked lo.val rfl
    exact Bool.or_eq_false_iff.mpr ⟨decide_eq_false fun h => hd.1 (Option.some.inj h), decide_eq_false fun h => hd.2 (Option.some.inj h)⟩

theorem BracketSet.inverted_text (b : BracketSet) (pattern : List UInt8) :
    inverted (b.mark.text ++ (membersText b.members ++ pattern)) = decide (b.mark ≠ .plain) := by
  cases h : b.mark with
  | plain => exact b.head_plain h pattern
  | bang => rfl
  | caret => rfl

theorem BracketSet.skipMark_text (b : BracketSet) (pattern : List UInt8) :
    skipMark (b.mark.text ++ (membersText b.members ++ pattern)) = membersText b.members ++ pattern := by
  rw [skipMark, b.inverted_text]
  cases h : b.mark with
  | plain => rfl
  | bang => rfl
  | caret => rfl

theorem patternText_cons (i : Item) (items : List Item) : patternText (i :: items) = i.text ++ patternText items := by
  rw [patternText, patternText, flatMap_cons, append_assoc]

private theorem patternText_head (i : Item) (items : List Item) : ∃ b rest, patternText (i :: items) = b :: rest ∧ b ≠ 0 := by
  cases i with
  | star => exact ⟨asterisk, _, rfl, by decide⟩
  | one i =>
    cases i with
    | literal d => exact ⟨d.val.val, _, rfl, d.val.property⟩
    | any => exact ⟨question, _, rfl, by decide⟩
    | set b => exact ⟨opening, _, rfl, by decide⟩

theorem globMatch_nil (text : List UInt8) : globMatch (patternText []) text = text.head?.map (· == 0) := by
  rw [globMatch.eq_def]
  exact if_pos rfl

theorem globMatch_lastStar (text : List UInt8) : globMatch (patternText [.star]) text = some true := by
  rw [globMatch.eq_def]
  rfl

theorem globMatch_star (j : Item) (items : List Item) (text : List UInt8) :
    globMatch (patternText (.star :: j :: items)) text = starLoop (globMatch (patternText (j :: items))) text := by
  obtain ⟨b, rest, htext, hb⟩ := patternText_head j items
  rw [patternText_cons, htext, globMatch.eq_def]
  exact if_neg hb

private theorem globMatch_literal (h0 : b ≠ 0) (hb : b ∉ [asterisk, question, opening]) (pattern text : List UInt8) (c : UInt8) :
    globMatch (b :: pattern) (c :: text) = if c = b then globMatch pattern text else some false := by
  simp only [mem_cons, not_mem_nil, or_false, not_or] at hb
  rw [globMatch.eq_def]
  dsimp only
  rw [if_neg h0, if_neg hb.1, if_neg hb.2.1, if_neg hb.2.2]
  exact if_congr eq_comm rfl rfl

private theorem globMatch_question (pattern text : List UInt8) (c : UInt8) :
    globMatch (question :: pattern) (c :: text) = if c ≠ 0 then globMatch pattern text else some false := by
  rw [globMatch.eq_def]
  dsimp only
  rw [if_neg (by decide), if_neg (by decide), if_pos rfl]
  exact (ite_not ..).symm

private theorem globMatch_set (b : BracketSet) (pattern text : List UInt8) (c : UInt8) :
    globMatch (opening :: (b.mark.text ++ (membersText b.members ++ closing :: pattern))) (c :: text) =
      if b.accepts c then globMatch pattern text else some false := by
  rw [globMatch.eq_def]
  dsimp only
  rw [if_neg (by decide), if_neg (by decide), if_neg (by decide), if_pos rfl, b.skipMark_text, scanSet_members b.wellFormed,
    b.inverted_text, Bool.false_or, BracketSet.accepts]
  dsimp only
  rw [show skipClosing (closing :: pattern) = pattern from rfl, tail_cons]
  cases b.members.any (·.accepts c) <;> cases decide (b.mark ≠ .plain) <;> rfl

private theorem patternText_set (b : BracketSet) (items : List Item) : patternText (.one (.set b) :: items) =
    opening :: (b.mark.text ++ (membersText b.members ++ closing :: patternText items)) := by
  rw [patternText_cons, Item.text, Single.text, cons_append, append_assoc, append_assoc, singleton_append]

theorem globMatch_one (i : Single) (items : List Item) (c : UInt8) (text : List UInt8) :
    globMatch (patternText (.one i :: items)) (c :: text) =
      if i.accepts c then globMatch (patternText items) text else some false := by
  cases i with
  | literal d => 
    refine (globMatch_literal d.val.property d.property _ _ c).trans ?_
    exact if_congr decide_eq_true_iff.symm rfl rfl
  | any =>
    refine (globMatch_question _ _ c).trans ?_
    exact if_congr decide_eq_true_iff.symm rfl rfl
  | set b => rw [patternText_set, globMatch_set, Single.accepts]

private theorem globMatch_one_past (i : Single) (items : List Item) : globMatch (patternText (.one i :: items)) [] = none := by
  cases i with
  | literal d =>
    have hd := d.property
    simp only [mem_cons, not_mem_nil, or_false, not_or] at hd
    rw [patternText_cons, globMatch.eq_def]
    exact (if_neg d.val.property).trans ((if_neg hd.1).trans ((if_neg hd.2.1).trans (if_neg hd.2.2)))
  | any =>
    rw [globMatch.eq_def]
    rfl
  | set b =>
    rw [patternText_set, globMatch.eq_def]
    dsimp only
    rw [if_neg (by decide), if_neg (by decide), if_neg (by decide), if_pos rfl, b.skipMark_text, scanSet_nil b.nonempty b.wellFormed]

end RetroOs.Apps.Glob

/-! When the glob matcher is right: never behind two asterisks at the end of a pattern that are left with no text, and not
where a set that is not met by the terminator's absence takes the terminator itself. -/
namespace RetroOs.Apps.Glob
open Lib
open Lib.CString (terminated terminated_cons)

variable {items rest : List Item} {i : Single} {s u v : CString} {c : CChar} {glob : List UInt8 → Option Bool}

/-! ### The loop behind an asterisk -/

private theorem starLoop_nil (glob : List UInt8 → Option Bool) : starLoop glob (terminated []) = some false := if_pos rfl

theorem starLoop_cons (glob : List UInt8 → Option Bool) (c : CChar) (s : CString) :
    starLoop glob (terminated (c :: s)) =
      match glob (terminated (c :: s)) with
      | some false => starLoop glob (terminated s)
      | r => r := if_neg c.property

private theorem starLoop_result {r : Option Bool} (h : starLoop glob (terminated s) = r) (hr : r ≠ some false) :
    ∃ u, u <:+ s ∧ u ≠ [] ∧ glob (terminated u) = r := by
  induction s with
  | nil => exact absurd (h.symm.trans (starLoop_nil glob)) hr
  | cons c s ih =>
    rw [starLoop_cons] at h
    split at h
    · obtain ⟨u, hu, hne, heq⟩ := ih h
      exact ⟨u, hu.trans (List.suffix_cons c s), hne, heq⟩
    · exact ⟨c :: s, List.suffix_rfl, List.cons_ne_nil c s, h⟩

private theorem starLoop_false (h : starLoop glob (terminated s) = some false) (hu : u <:+ s) (hne : u ≠ []) :
    glob (terminated u) = some false := by
  induction s with
  | nil => exact absurd (List.suffix_nil.mp hu) hne
  | cons c s ih =>
    rw [starLoop_cons] at h
    split at h
    · next hnow =>
      rcases List.suffix_cons_iff.mp hu with rfl | hu
      · exact hnow
      · exact ih h hu
    · next hnow => exact absurd h hnow

private theorem starLoop_true (hu : u <:+ s) (hne : u ≠ []) (hhit : glob (terminated u) = some true)
    (hbefore : ∀ v, u <:+ v → v <:+ s → glob (terminated v) ≠ none) : starLoop glob (terminated s) = some true := by
  induction s with
  | nil => exact absurd (List.suffix_nil.mp hu) hne
  | cons c s ih =>
    rw [starLoop_cons]
    rcases List.suffix_cons_iff.mp hu with rfl | hu'
    · rw [hhit]
    · have hnow := hbefore (c :: s) hu List.suffix_rfl
      have hnext := ih hu' fun v huv hv => hbefore v huv (hv.trans (List.suffix_cons c s))
      cases hr : glob (terminated (c :: s)) with
      | none => exact absurd hr hnow
      | some b =>
        cases b with
        | true => rfl
        | false => exact hnext

/-! ### The words that are found -/

/-- The language of a pattern, but for an asterisk that is not the last: the rest of the pattern is tried only where text is left. -/
def found : List Item → Language CChar
  | [] => 1
  | .one i :: items => letter (fun c => i.accepts c.val) * found items
  | [.star] => anyWord
  | .star :: j :: items => anyWord * (found (j :: items) ⊓ {w | w ≠ []})

theorem mem_anyWord_mul_iff {l : Language CChar} : s ∈ anyWord * l ↔ ∃ u, u <:+ s ∧ u ∈ l := by
  rw [mem_anyWord_mul]
  constructor
  · rintro ⟨v, u, rfl, hu⟩
    exact ⟨u, List.suffix_append v u, hu⟩
  · rintro ⟨u, ⟨v, rfl⟩, hu⟩
    exact ⟨v, u, rfl, hu⟩

private theorem mem_found_star :
    s ∈ found (.star :: j :: items) ↔ ∃ u, u <:+ s ∧ u ∈ found (j :: items) ∧ u ≠ [] := by
  rw [found, mem_anyWord_mul_iff]
  rfl

private theorem globMatch_found (items : List Item) :
    (∀ s ∈ found items, globMatch (patternText items) (terminated s) = some true) ∧
      ∀ u v, u <:+ v → u ∈ found items → globMatch (patternText items) (terminated v) ≠ none := by
  fun_induction found items with
  | case1 =>
    refine ⟨fun s hs => ?_, fun u v _ _ => ?_⟩
    · rw [(Language.mem_one s).mp hs]
      exact globMatch_nil _
    · rw [globMatch_nil]
      cases v <;> exact Option.some_ne_none _
  | case2 i items ih =>
    refine ⟨fun s hs => ?_, fun u v huv hu => ?_⟩
    · obtain ⟨c, s, rfl, hc, hs⟩ := mem_letter_mul.mp hs
      rw [terminated_cons, globMatch_one, if_pos hc]
      exact ih.1 s hs
    · obtain ⟨c, u, rfl, hc, hu⟩ := mem_letter_mul.mp hu
      cases v with
      | nil => exact absurd (List.suffix_nil.mp huv) (List.cons_ne_nil c u)
      | cons d v =>
        rw [terminated_cons, globMatch_one]
        split
        · refine ih.2 u v ?_ hu
          rcases List.suffix_cons_iff.mp huv with heq | hsuf
          · cases heq
            exact List.suffix_rfl
          · exact (List.suffix_cons c u).trans hsuf
        · exact Option.some_ne_none _
  | case3 => exact ⟨fun _ _ => globMatch_lastStar _, fun _ _ _ _ => by rw [globMatch_lastStar]; exact Option.some_ne_none _⟩
  | case4 j items ih =>
    have hfinds (s u : CString) (hu : u <:+ s) (hfound : u ∈ found (j :: items)) (hne : u ≠ []) :
        globMatch (patternText (.star :: j :: items)) (terminated s) = some true := by
      rw [globMatch_star]
      exact starLoop_true hu hne (ih.1 u hfound) fun v huv _ => ih.2 u v huv hfound
    refine ⟨fun s hs => ?_, fun u v huv hu => ?_⟩
    · obtain ⟨u, hu, hfound, hne⟩ := mem_anyWord_mul_iff.mp hs
      exact hfinds s u hu hfound hne
    · obtain ⟨w, hw, hfound, hne⟩ := mem_anyWord_mul_iff.mp hu
      rw [hfinds v w (hw.trans huv) hfound hne]
      exact Option.some_ne_none _

/-! ### The terminator taken for a character -/

/-- The text is used up where the pattern has something that accepts its terminator, with `rest` behind it. -/
def TakesEnd (items : List Item) (s : CString) (rest : List Item) : Prop :=
  ∃ front i, items = front ++ .one i :: rest ∧ i.accepts 0 = true ∧ front.getLast? ≠ some .star ∧ s ∈ language front

theorem language_cons (i : Item) (items : List Item) : language (i :: items) = i.language * language items := List.prod_cons

theorem cons_mem_language : c :: s ∈ language (.one i :: items) ↔ i.accepts c.val = true ∧ s ∈ language items := by
  rw [language_cons]
  exact cons_mem_letter_mul

theorem nil_notMem_language : [] ∉ language (.one i :: items) := by
  rw [language_cons]
  exact nil_notMem_letter_mul

theorem mem_language_star : s ∈ language (.star :: items) ↔ ∃ u, u <:+ s ∧ u ∈ language items := by
  rw [language_cons]
  exact mem_anyWord_mul_iff

theorem TakesEnd.here (hi : i.accepts 0 = true) : TakesEnd (.one i :: items) [] items :=
  ⟨[], i, rfl, hi, by rw [List.getLast?_nil]; nofun, (Language.mem_one _).mpr rfl⟩

theorem TakesEnd.one (hc : i.accepts c.val = true) (h : TakesEnd items s rest) : TakesEnd (.one i :: items) (c :: s) rest := by
  obtain ⟨front, j, rfl, hj, hlast, hs⟩ := h
  refine ⟨.one i :: front, j, rfl, hj, ?_, cons_mem_language.mpr ⟨hc, hs⟩⟩
  cases front with
  | nil => nofun
  | cons x front => rwa [List.getLast?_cons_cons]

theorem TakesEnd.star (hu : u <:+ s) (hne : u ≠ []) (h : TakesEnd items u rest) : TakesEnd (.star :: items) s rest := by
  obtain ⟨front, j, rfl, hj, hlast, hfront⟩ := h
  refine ⟨.star :: front, j, rfl, hj, ?_, mem_language_star.mpr ⟨u, hu, hfront⟩⟩
  cases front with
  | nil => exact absurd ((Language.mem_one u).mp hfront) hne
  | cons x front => rwa [List.getLast?_cons_cons]

private theorem globMatch_past (items : List Item) :
    globMatch (patternText items) [] = none ∨ items = [.star] ∧ globMatch (patternText items) [] = some true := by
  cases items with
  | nil => exact .inl (globMatch_nil [])
  | cons i items =>
    cases i with
    | one i => exact .inl (globMatch_one_past i items)
    | star =>
      cases items with
      | nil => exact .inr ⟨rfl, globMatch_lastStar []⟩
      | cons j items =>
        rw [globMatch_star]
        exact .inl rfl

private theorem takesEnd_of_none (h : globMatch (patternText items) (terminated s) = none) : ∃ rest, TakesEnd items s rest := by
  fun_induction found items generalizing s with
  | case1 =>
    rw [globMatch_nil] at h
    cases s <;> cases h
  | case2 i items ih =>
    cases s with
    | nil =>
      rw [show terminated [] = 0 :: [] from rfl, globMatch_one] at h
      split at h
      · next hi => exact ⟨items, .here hi⟩
      · cases h
    | cons c s =>
      rw [terminated_cons, globMatch_one] at h
      split at h
      · next hc =>
        obtain ⟨rest, hrest⟩ := ih h
        exact ⟨rest, hrest.one hc⟩
      · cases h
  | case3 =>
    rw [globMatch_lastStar] at h
    cases h
  | case4 j items ih =>
    rw [globMatch_star] at h
    obtain ⟨u, hu, hne, hnone⟩ := starLoop_result h (by decide)
    obtain ⟨rest, hrest⟩ := ih hnone
    exact ⟨rest, hrest.star hu hne⟩

private theorem takesEnd_of_true (h : globMatch (patternText items) (terminated s) = some true) :
    s ∈ found items ∨ TakesEnd items s [.star] := by
  fun_induction found items generalizing s with
  | case1 =>
    rw [globMatch_nil] at h
    cases s with
    | nil => exact .inl ((Language.mem_one _).mpr rfl)
    | cons c s => exact absurd (beq_iff_eq.mp (Option.some.inj h)) c.property
  | case2 i items ih =>
    cases s with
    | nil =>
      rw [show terminated [] = 0 :: [] from rfl, globMatch_one] at h
      split at h
      · next hi =>
        rcases globMatch_past items with hnone | ⟨rfl, -⟩
        · cases hnone.symm.trans h
        · exact .inr (.here hi)
      · cases h
    | cons c s =>
      rw [terminated_cons, globMatch_one] at h
      split at h
      · next hc =>
        rcases ih h with hs | hs
        · exact .inl (cons_mem_letter_mul.mpr ⟨hc, hs⟩)
        · exact .inr (hs.one hc)
      · cases h
  | case3 => exact .inl (mem_anyWord s)
  | case4 j items ih =>
    rw [globMatch_star] at h
    obtain ⟨u, hu, hne, htrue⟩ := starLoop_result h (by decide)
    rcases ih htrue with hfound | htakes
    · exact .inl (mem_found_star.mpr ⟨u, hu, hfound, hne⟩)
    · exact .inr (htakes.star hu hne)

private theorem nonempty_of_last (hne : front ≠ []) (hlast : front.getLast? ≠ some .star) (hu : u ∈ language front) : u ≠ [] := by
  rintro rfl
  induction front with
  | nil => exact hne rfl
  | cons x front ih =>
    cases x with
    | one i => exact nil_notMem_language hu
    | star =>
      cases front with
      | nil => exact hlast rfl
      | cons y front =>
        obtain ⟨u, hu, hfront⟩ := mem_language_star.mp hu
        rw [List.suffix_nil.mp hu] at hfront
        exact ih (List.cons_ne_nil y front) (by rwa [List.getLast?_cons_cons] at hlast) hfront

theorem TakesEnd.not_false (h : TakesEnd items s rest) : globMatch (patternText items) (terminated s) ≠ some false := by
  obtain ⟨front, i, rfl, hi, hlast, hs⟩ := h
  induction front generalizing s with
  | nil =>
    rw [(Language.mem_one s).mp hs, List.nil_append, show terminated [] = 0 :: [] from rfl, globMatch_one, if_pos hi]
    rcases globMatch_past rest with h | ⟨-, h⟩ <;> rw [h] <;> decide
  | cons x front ih =>
    have hlast' (hne : front ≠ []) : front.getLast? ≠ some .star := by
      obtain ⟨y, ys, rfl⟩ := List.exists_cons_of_ne_nil hne
      rwa [List.getLast?_cons_cons] at hlast
    have hnext {u : CString} (hu : u ∈ language front) : globMatch (patternText (front ++ .one i :: rest)) (terminated u) ≠ some false := by
      by_cases hne : front = []
      · exact ih (by rw [hne, List.getLast?_nil]; nofun) hu
      · exact ih (hlast' hne) hu
    cases x with
    | one j =>
      cases s with
      | nil => exact absurd hs nil_notMem_language
      | cons c s =>
        obtain ⟨hc, hs⟩ := cons_mem_language.mp hs
        rw [List.cons_append, terminated_cons, globMatch_one, if_pos hc]
        exact hnext hs
    | star =>
      have hne : front ≠ [] := by
        rintro rfl
        exact hlast rfl
      obtain ⟨u, hu, hfront⟩ := mem_language_star.mp hs
      obtain ⟨y, ys, rfl⟩ := List.exists_cons_of_ne_nil hne
      rw [List.cons_append, List.cons_append, globMatch_star]
      exact fun hfalse => hnext hfront (starLoop_false hfalse hu (nonempty_of_last hne (hlast' hne) hfront))

/-! ### Two asterisks at the end -/

private theorem eq_star_of_nil (h : [] ∈ language items) : ∀ x ∈ items, x = .star := by
  induction items with
  | nil => exact fun x hx => absurd hx List.not_mem_nil
  | cons x items ih =>
    cases x with
    | one i => exact absurd h nil_notMem_language
    | star =>
      obtain ⟨u, hu, hitems⟩ := mem_language_star.mp h
      rw [List.suffix_nil.mp hu] at hitems
      exact List.forall_mem_cons.mpr ⟨rfl, ih hitems⟩

private theorem ends_stars (h : ∀ x ∈ j :: items, x = Item.star) (hne : items ≠ []) : ∃ front, j :: items = front ++ [.star, .star] := by
  induction items generalizing j with
  | nil => exact absurd rfl hne
  | cons k items ih =>
    obtain ⟨rfl, hitems⟩ := List.forall_mem_cons.mp h
    by_cases hnil : items = []
    · obtain ⟨rfl, -⟩ := List.forall_mem_cons.mp hitems
      exact ⟨[], by rw [hnil]; rfl⟩
    · obtain ⟨front, heq⟩ := ih hitems hnil
      exact ⟨.star :: front, by rw [heq]; rfl⟩

/-- Text is left for the last asterisk, if another is right before it. -/
def LeavesText (items : List Item) (s : CString) : Prop :=
  ∀ front, items = front ++ [.star, .star] → s ∈ language (front ++ [.one .any, .star])

private theorem leavesText_one (h : i.accepts c.val = true) : LeavesText (.one i :: items) (c :: s) ↔ LeavesText items s := by
  constructor
  · rintro hleaves front rfl
    exact (cons_mem_language.mp (hleaves (.one i :: front) rfl)).2
  · intro hleaves front heq
    cases front with
    | nil => cases heq
    | cons x front =>
      obtain ⟨rfl, hrest⟩ := List.cons.inj heq
      exact cons_mem_language.mpr ⟨h, hleaves front hrest⟩

theorem mem_language_lastStar (s : CString) : s ∈ language [.star] :=
  mem_language_star.mpr ⟨[], List.nil_suffix, (Language.mem_one _).mpr rfl⟩

theorem mem_language_anyStar : s ∈ language [.one .any, .star] ↔ s ≠ [] := by
  cases s with
  | nil => exact iff_of_false nil_notMem_language fun h => h rfl
  | cons c s =>
    exact iff_of_true (cons_mem_language.mpr ⟨decide_eq_true c.property, mem_language_lastStar s⟩) (List.cons_ne_nil c s)

private theorem mem_language_stars (h : s ∈ language (front ++ [.one .any, .star])) :
    s ∈ language (front ++ [.star, .star]) ∧ s ≠ [] := by
  induction front generalizing s with
  | nil => exact ⟨mem_language_star.mpr ⟨s, List.suffix_rfl, mem_language_lastStar s⟩, mem_language_anyStar.mp h⟩
  | cons x front ih =>
    cases x with
    | one i =>
      cases s with
      | nil => exact absurd h nil_notMem_language
      | cons c s =>
        obtain ⟨hc, hs⟩ := cons_mem_language.mp h
        exact ⟨cons_mem_language.mpr ⟨hc, (ih hs).1⟩, List.cons_ne_nil c s⟩
    | star =>
      obtain ⟨u, hu, hfront⟩ := mem_language_star.mp h
      obtain ⟨hstars, hne⟩ := ih hfront
      refine ⟨mem_language_star.mpr ⟨u, hu, hstars⟩, ?_⟩
      rintro rfl
      exact hne (List.suffix_nil.mp hu)

theorem found_iff : s ∈ found items ↔ s ∈ language items ∧ LeavesText items s := by
  fun_induction found items generalizing s with
  | case1 => exact (and_iff_left fun front heq => absurd heq.symm (List.append_ne_nil_of_right_ne_nil _ (List.cons_ne_nil _ _))).symm
  | case2 i items ih =>
    cases s with
    | nil => exact iff_of_false nil_notMem_letter_mul fun h => nil_notMem_language h.1
    | cons c s =>
      rw [cons_mem_letter_mul, ih, cons_mem_language, and_assoc]
      exact and_congr_right fun hc => and_congr_right fun _ => (leavesText_one hc).symm
  | case3 =>
    refine iff_of_true (mem_anyWord s) ⟨mem_language_lastStar s, fun front heq => ?_⟩
    have hlen := congrArg List.length heq
    exact absurd hlen (by simp)
  | case4 j items ih =>
    rw [← found.eq_4, mem_found_star]
    constructor
    · rintro ⟨u, hu, hfound, hne⟩
      obtain ⟨hlang, hleaves⟩ := ih.mp hfound
      refine ⟨mem_language_star.mpr ⟨u, hu, hlang⟩, fun front heq => ?_⟩
      cases front with
      | nil => exact mem_language_anyStar.mpr fun hs => hne (List.suffix_nil.mp (hs ▸ hu))
      | cons x front =>
        obtain ⟨rfl, hrest⟩ := List.cons.inj heq
        exact mem_language_star.mpr ⟨u, hu, hleaves front hrest⟩
    · rintro ⟨hlang, hleaves⟩
      by_cases hends : ∃ front, j :: items = front ++ [.star, .star]
      · obtain ⟨front, heq⟩ := hends
        obtain ⟨u, hu, hfront⟩ := mem_language_star.mp (hleaves (.star :: front) (by rw [heq]; rfl))
        obtain ⟨hstars, hne⟩ := mem_language_stars hfront
        refine ⟨u, hu, ih.mpr ⟨heq ▸ hstars, fun front' heq' => ?_⟩, hne⟩
        rwa [← List.append_cancel_right (heq.symm.trans heq')]
      · obtain ⟨u, hu, hitems⟩ := mem_language_star.mp hlang
        have hfound : u ∈ found (j :: items) := ih.mpr ⟨hitems, fun front heq => absurd ⟨front, heq⟩ hends⟩
        by_cases hne : u = []
        · rw [hne] at hitems
          have hall := eq_star_of_nil hitems
          obtain rfl : items = [] := not_not.mp fun hitems => hends (ends_stars hall hitems)
          obtain rfl := hall j (.head _)
          exact ⟨s, List.suffix_rfl, mem_anyWord s, mem_language_anyStar.mp (hleaves [] rfl)⟩
        · exact ⟨u, hu, hfound, hne⟩

/-! ### When the matcher is right -/

/-- The matcher returns without a read past an end, and says whether the text is in the language. -/
def MatchesRight (items : List Item) (s : CString) : Prop :=
  ∃ r, globMatch (patternText items) (terminated s) = some r ∧ (r = true ↔ s ∈ language items)

/-- The matcher is right on the texts of the language that leave text for a last asterisk behind another, and on the other
texts that are not used up where a set accepts the terminator. -/
theorem matchesRight_iff (items : List Item) (s : CString) : MatchesRight items s ↔
    (s ∈ language items → LeavesText items s) ∧ (s ∉ language items → ∀ rest, ¬ TakesEnd items s rest) := by
  constructor
  · rintro ⟨r, hr, hiff⟩
    refine ⟨fun hs => ?_, fun hs rest htakes => ?_⟩
    · rw [hiff.mpr hs] at hr
      rcases takesEnd_of_true hr with hfound | ⟨front, i, heq, -, -, -⟩
      · exact (found_iff.mp hfound).2
      · intro front' heq'
        have hlast := List.append_inj_right' (heq.symm.trans heq') rfl
        cases hlast
    · have hfalse : r = false := Bool.eq_false_iff.mpr fun h => hs (hiff.mp h)
      rw [hfalse] at hr
      exact htakes.not_false hr
  · rintro ⟨hmem, hnot⟩
    by_cases hs : s ∈ language items
    · exact ⟨true, (globMatch_found items).1 s (found_iff.mpr ⟨hs, hmem hs⟩), iff_of_true rfl hs⟩
    · cases hr : globMatch (patternText items) (terminated s) with
      | none =>
        obtain ⟨rest, htakes⟩ := takesEnd_of_none hr
        exact absurd htakes (hnot hs rest)
      | some r =>
        cases r with
        | false => exact ⟨false, hr, iff_of_false Bool.false_ne_true hs⟩
        | true =>
          rcases takesEnd_of_true hr with hfound | htakes
          · exact absurd (found_iff.mp hfound).1 hs
          · exact absurd htakes (hnot hs _)

def notA : BracketSet where
  mark := .bang
  members := [.single ⟨0x61, by decide⟩]
  nonempty := nofun
  wellFormed := ⟨by decide, nofun, trivial⟩
  unmarked := nofun

theorem empty_text_missed : ¬ MatchesRight [.star, .star] [] ∧ ¬ MatchesRight [.one (.set notA)] [] := by
  constructor
  · rintro ⟨r, hr, hiff⟩
    have hfalse : globMatch (patternText [.star, .star]) (terminated []) = some false := by rw [globMatch_star, starLoop_nil]
    cases hfalse.symm.trans hr
    exact Bool.false_ne_true (hiff.mpr (mem_language_star.mpr ⟨[], List.suffix_rfl, mem_language_lastStar []⟩))
  · rintro ⟨r, hr, -⟩
    have hnone : globMatch (patternText [.one (.set notA)]) (terminated []) = none := by
      rw [show terminated [] = 0 :: [] from rfl, globMatch_one, if_pos (by decide), globMatch_nil]
      rfl
    cases hnone.symm.trans hr

end RetroOs.Apps.Glob
