import RetroOs.Browser.Parser
import RetroOs.Browser.TokenizerRuns

/-! The tree builder over whole inputs: there is always a current node to insert at, a token is
processed in bounded depth, and the tokenizer's state changes only as the tokenizer allows. -/
namespace RetroOs.Browser
open Lib Option
namespace HTML5Parser

structure Steady (p : HTML5Parser) : Prop where
  document : (p.nodes[0]?).map Node.type = some .document
  bottom : p.openElements.getLast? = some 0
  above : p.mode = .inHead ∨ p.mode = .text → 2 ≤ p.openElements.length

/-- Nodes are added or written to; the stack and the mode stay. -/
structure Grown (p q : HTML5Parser) : Prop where
  document : (q.nodes[0]?).map Node.type = some .document
  openElements : q.openElements = p.openElements
  mode : q.mode = p.mode

section
variable {p q : HTML5Parser} {t : Token} {i : Nat} {f : Node → Node}

theorem start_steady : start.Steady := ⟨rfl, rfl, fun h => absurd h (by decide)⟩

theorem Grown.steady (h : Grown p q) (hp : p.Steady) : q.Steady := by
  obtain ⟨hdoc, hopen, hmode⟩ := h
  exact ⟨hdoc, hopen ▸ hp.bottom, fun hm => hopen ▸ hp.above (hmode ▸ hm)⟩

theorem setNode_grown (h : (p.nodes[0]?).map Node.type = some .document)
    (hf : ∀ n, i = 0 → (f n).type = n.type) : Grown p (p.setNode i f) := by
  refine ⟨?_, rfl, rfl⟩
  obtain ⟨n, hn, htype⟩ := map_eq_some_iff.mp h
  rw [setNode, List.getElem?_modify, hn, map_eq_map, map_some, map_some, ← htype]
  split
  · next h0 => rw [hf n h0]
  · rfl

theorem appendChild_grown (h : (p.nodes[0]?).map Node.type = some .document) (parent : Nat) (type : NodeType) :
    Grown p (p.appendChild parent type) := by
  have h' : ((p.nodes ++ [{ Node.new type with parent := some parent }])[0]?).map Node.type = some .document := by
    obtain ⟨n, hn, -⟩ := map_eq_some_iff.mp h
    rw [List.getElem?_append_left (List.getElem?_eq_some_iff.mp hn).1]
    exact h
  unfold appendChild
  split
  · have hg := setNode_grown (p := { p with nodes := _ }) (i := parent) h' (f := fun n =>
      { n with firstChild := some p.nodes.length, lastChild := some p.nodes.length }) fun _ _ => rfl
    exact ⟨hg.document, rfl, rfl⟩
  · next last _ =>
    have h1 := setNode_grown (p := { p with nodes := _ }) (i := last) h' (f := fun n =>
      { n with nextSibling := some p.nodes.length }) fun _ _ => rfl
    have h2 := setNode_grown (i := p.nodes.length) h1.document (f := fun n => { n with prevSibling := some last }) fun _ _ => rfl
    have h3 := setNode_grown (i := parent) h2.document (f := fun n => { n with lastChild := some p.nodes.length }) fun _ _ => rfl
    exact ⟨h3.document, rfl, rfl⟩

theorem insertCharacter_grown (h : p.Steady) : ∃ q, p.insertCharacter t = some q ∧ Grown p q := by
  cases hopen : p.openElements with
  | nil =>
    have hb := h.bottom
    rw [hopen] at hb
    cases hb
  | cons parent l =>
    have hcur : p.currentNode = some parent := by rw [currentNode, hopen, List.head?_cons]
    rw [insertCharacter, hcur, bind_eq_bind, bind_some]
    split
    · exact ⟨_, rfl, appendChild_grown h.document _ _⟩
    · next last _ =>
      split
      · next s hs =>
        refine ⟨_, rfl, setNode_grown h.document ?_⟩
        -- the document is no text
        rintro n rfl
        obtain ⟨d, hd, htype⟩ := map_eq_some_iff.mp h.document
        rw [node, List.getD_eq_getElem?_getD, hd, getD_some, htype] at hs
        cases hs
      · exact ⟨_, rfl, appendChild_grown h.document _ _⟩

theorem insertElement_grown (h : p.Steady) (t : Token) : ∃ q, p.insertElement t = some q ∧
    (q.nodes[0]?).map Node.type = some .document ∧ q.openElements.getLast? = some 0 ∧
    min 64 (p.openElements.length + 1) ≤ q.openElements.length ∧ q.mode = p.mode := by
  cases hopen : p.openElements with
  | nil =>
    have hb := h.bottom
    rw [hopen] at hb
    cases hb
  | cons parent l =>
    have hcur : p.currentNode = some parent := by rw [currentNode, hopen, List.head?_cons]
    obtain ⟨hdoc, hstack, hmode⟩ := appendChild_grown h.document parent (.element (t.name.take 63) (t.attrs.foldl setAttribute []))
    refine ⟨_, by rw [insertElement, hcur]; rfl, ?_⟩
    rw [pushElement]
    split
    · refine ⟨hdoc, ?_, ?_, hmode⟩
      · rw [hstack, hopen, List.getLast?_cons_cons, ← hopen]
        exact h.bottom
      · rw [hstack, hopen]
        exact Nat.min_le_right ..
    · refine ⟨hdoc, hstack ▸ h.bottom, ?_, hmode⟩
      omega

theorem popElement_bottom (hb : p.openElements.getLast? = some 0) (h2 : 2 ≤ p.openElements.length) :
    p.popElement.openElements.getLast? = some 0 := by
  rw [popElement]
  match h : p.openElements with
  | [] | [_] => simp [h] at h2
  | i :: j :: l => rwa [h, List.getLast?_cons_cons] at hb

theorem popThrough_bottom (p : HTML5Parser) (name : List UInt8) {l : List Nat} (hb : l.getLast? = some 0) :
    (p.popThrough name l).getLast? = some 0 := by
  induction l with
  | nil => exact hb
  | cons i l ih =>
    cases l with
    | nil => exact hb
    | cons j l =>
      rw [popThrough]
      split
      · exact hb
      · exact ih hb

theorem two_le_of_headOpen (hdoc : (p.nodes[0]?).map Node.type = some .document)
    (hb : p.openElements.getLast? = some 0) (h : p.headOpen) : 2 ≤ p.openElements.length := by
  obtain ⟨d, hd, htype⟩ := map_eq_some_iff.mp hdoc
  have htag : p.tagName 0 = none := by
    rw [tagName, node, List.getD_eq_getElem?_getD, hd, getD_some, htype]
  match hopen : p.openElements with
  | [] => simp [hopen] at hb
  | [i] =>
    rw [hopen] at hb
    obtain rfl : i = 0 := some.inj hb
    simp [headOpen, hopen, htag] at h
  | i :: j :: l => exact Nat.le_add_left 2 _

end

/-- How many calls of `process_token` can follow, this one counted. -/
def depth : InsertionMode → Nat
  | .initial => 6
  | .beforeHtml => 5
  | .beforeHead => 4
  | .inHead => 3
  | .afterHead => 2
  | _ => 1

def Processed (tz : Tokenizer) (r : Option (HTML5Parser × Tokenizer)) : Prop :=
  ∃ q tz', r = some (q, tz') ∧ q.Steady ∧ (tz' = tz ∨ ∃ s, Tokenizer.Imposed s ∧ tz' = tz.setState s)

section
variable {p : HTML5Parser} {t : Token} {tz : Tokenizer} {n : Nat}

theorem Steady.pos (h : p.Steady) : 1 ≤ p.openElements.length := by
  cases hopen : p.openElements with
  | nil =>
    have hb := h.bottom
    rw [hopen] at hb
    cases hb
  | cons i l => exact Nat.le_add_left 1 _

theorem Processed.same (h : p.Steady) : Processed tz (some (p, tz)) := ⟨p, tz, rfl, h, Or.inl rfl⟩

theorem processed_character (h : p.Steady) :
    Processed tz ((p.insertCharacter t).bind fun q => some (q, tz)) := by
  obtain ⟨q, hq, hg⟩ := insertCharacter_grown h (t := t)
  rw [hq]
  exact Processed.same (hg.steady h)

theorem processed_insert (h : p.Steady) (t : Token) {k : HTML5Parser → Option (HTML5Parser × Tokenizer)}
    (hk : ∀ q : HTML5Parser, (∀ m, (q.setMode m).Steady) → q.mode = p.mode →
      min 64 (p.openElements.length + 1) ≤ q.openElements.length → Processed tz (k q)) :
    Processed tz ((p.insertElement t).bind k) := by
  obtain ⟨q, hq, hdoc, hb, hlen, hmode⟩ := insertElement_grown h t
  have hpos := h.pos
  rw [hq]
  exact hk q (fun m => ⟨hdoc, hb, fun _ => by simp only [setMode]; omega⟩) hmode hlen

theorem popElement_steady (h : p.Steady) (h2 : 2 ≤ p.openElements.length) {m : InsertionMode} (hm : m ≠ .inHead ∧ m ≠ .text) :
    (p.popElement.setMode m).Steady :=
  ⟨h.document, popElement_bottom h.bottom h2, fun hm' => (hm'.elim hm.1 hm.2).elim⟩

theorem setMode_steady (h : p.Steady) {m : InsertionMode} (hm : m ≠ .inHead ∧ m ≠ .text) : (p.setMode m).Steady :=
  ⟨h.document, h.bottom, fun hm' => (hm'.elim hm.1 hm.2).elim⟩

private theorem inBody_processed (h : p.Steady) (hmode : p.mode = .inBody) (t : Token) (tz : Tokenizer) (n : Nat) :
    Processed tz (processToken t (n + 1) p tz) := by
  have hne : p.mode ≠ .inHead ∧ p.mode ≠ .text := by rw [hmode]; decide
  rw [processToken, hmode]
  dsimp only
  split
  · exact processed_character h
  · refine processed_insert h t fun q hq hqm hlen => ?_
    have hpos := h.pos
    have hq0 : q.Steady := hq q.mode
    split_ifs
    · exact ⟨_, _, rfl, hq _, Or.inr ⟨_, Or.inr (Or.inr rfl), rfl⟩⟩
    · exact Processed.same (popElement_steady hq0 (by omega) (hqm ▸ hne))
    · exact Processed.same hq0
  · split_ifs
    · exact Processed.same (setMode_steady h (by decide))
    · exact Processed.same ⟨h.document, p.popThrough_bottom t.name h.bottom, fun hm => by simp at hm⟩
  · exact Processed.same h

private theorem text_processed (h : p.Steady) (hmode : p.mode = .text) (t : Token) (tz : Tokenizer) (n : Nat) :
    Processed tz (processToken t (n + 1) p tz) := by
  rw [processToken, hmode]
  dsimp only
  split
  · exact processed_character h
  · have hb := popElement_bottom h.bottom (h.above (Or.inr hmode))
    refine ⟨_, _, rfl, ⟨h.document, hb, fun hm => ?_⟩, Or.inr ⟨_, Or.inl rfl, rfl⟩⟩
    apply two_le_of_headOpen (p := p.popElement) h.document hb
    by_contra hhead
    simp [setMode, hhead] at hm
  · exact Processed.same h

private theorem processToken_spec (t : Token) (h : p.Steady) (hn : depth p.mode ≤ n) :
    Processed tz (processToken t n p tz) := by
  induction n generalizing p with
  | zero =>
    revert hn
    cases p.mode <;> exact fun hn => absurd hn (by decide)
  | succ n ih =>
    rw [processToken]
    cases hmode : p.mode with
    | initial =>
      rw [hmode] at hn
      dsimp only
      split_ifs
      · exact Processed.same h
      · exact Processed.same (setMode_steady ((appendChild_grown h.document 0 _).steady h) (by decide))
      · exact ih (setMode_steady h (by decide)) (Nat.le_of_succ_le_succ hn)
    | beforeHtml =>
      rw [hmode] at hn
      dsimp only
      split_ifs
      · exact Processed.same h
      · exact processed_insert h t fun q hq _ _ => Processed.same (hq _)
      · exact processed_insert h _ fun q hq _ _ => ih (hq _) (Nat.le_of_succ_le_succ hn)
    | beforeHead =>
      rw [hmode] at hn
      dsimp only
      split_ifs
      · exact Processed.same h
      · exact processed_insert h t fun q hq _ _ => Processed.same (hq _)
      · exact processed_insert h _ fun q hq _ _ => ih (hq _) (Nat.le_of_succ_le_succ hn)
    | inHead =>
      have h2 := h.above (Or.inl hmode)
      rw [hmode] at hn
      dsimp only
      split_ifs
      · exact processed_character h
      · exact Processed.same (popElement_steady h h2 (by decide))
      · exact processed_insert h t fun q hq _ _ => ⟨_, _, rfl, hq _, Or.inr ⟨_, Or.inr (Or.inl rfl), rfl⟩⟩
      · exact processed_insert h t fun q hq _ _ => ⟨_, _, rfl, hq _, Or.inr ⟨_, Or.inr (Or.inr rfl), rfl⟩⟩
      · refine processed_insert h t fun q hq _ hlen => Processed.same ⟨(hq .inHead).document, ?_, fun _ => ?_⟩
        · exact popElement_bottom (hq .inHead).bottom (by omega)
        · rw [popElement, List.length_tail]
          omega
      · exact ih (popElement_steady h h2 (by decide)) (Nat.le_of_succ_le_succ hn)
    | afterHead =>
      rw [hmode] at hn
      dsimp only
      split_ifs
      · exact processed_character h
      · exact processed_insert h t fun q hq _ _ => Processed.same (hq _)
      · exact processed_insert h _ fun q hq _ _ => ih (hq _) (Nat.le_of_succ_le_succ hn)
    | inBody =>
      have hm := inBody_processed h hmode t tz n
      rwa [processToken, hmode] at hm
    | text =>
      have hm := text_processed h hmode t tz n
      rwa [processToken, hmode] at hm
    | afterBody =>
      dsimp only
      split_ifs
      · exact Processed.same (setMode_steady h (by decide))
      · exact Processed.same h
    | afterAfterBody => exact Processed.same h

theorem process_spec (h : p.Steady) (t : Token) (tz : Tokenizer) : Processed tz (p.process t tz) := by
  apply processToken_spec t h
  cases p.mode <;> decide

theorem loop_spec (h : p.Steady) (hs : tz.Sound) (hn : tz.credit < n) :
    ∃ q ts, loop n p tz = some (q, ts) ∧ ts.length ≤ tz.credit := by
  induction n generalizing p tz with
  | zero => exact absurd hn (Nat.not_lt_zero _)
  | succ n ih =>
    obtain ⟨t, u, hnext, hu, -, hcr⟩ := Tokenizer.nextToken_spec hs
    simp only [loop, hnext, bind_eq_bind, bind_some]
    split_ifs with htype
    · exact ⟨p, [], rfl, Nat.zero_le _⟩
    · rw [if_neg htype] at hcr
      obtain ⟨q, v, hq, hsteady, hv⟩ := process_spec h t u
      have hvs : v.Sound ∧ v.credit ≤ u.credit := by
        rcases hv with rfl | ⟨s, himp, rfl⟩
        · exact ⟨hu, Nat.le_refl _⟩
        · exact ⟨hu.setState himp, Tokenizer.credit_setState himp⟩
      obtain ⟨r, ts, hr, hlen⟩ := ih hsteady hvs.1 (by omega)
      rw [hq, bind_some, hr, bind_some]
      exact ⟨r, t :: ts, rfl, by rw [List.length_cons]; omega⟩

end

/-- What `parse` goes through: the builder, the tokens it has taken and the tokenizer, step by step. -/
inductive Parsing (html : CString) : HTML5Parser → Nat → Tokenizer → Prop where
  | start : Parsing html start 0 (.new html)
  | again {p : HTML5Parser} {n : Nat} {tz tz' : Tokenizer} (hr : Parsing html p n tz) (hs : tz.step = .again tz') :
      Parsing html p n tz'
  | token {p q : HTML5Parser} {n : Nat} {tz tz' tz'' : Tokenizer} {t : Token} (hr : Parsing html p n tz)
      (hs : tz.step = .emit t tz') (htype : t.type ≠ .eof) (hp : p.process t tz' = some (q, tz'')) :
      Parsing html q (n + 1) tz''

theorem Parsing.driven {html : CString} {p : HTML5Parser} {tz : Tokenizer} (hr : Parsing html p n tz) :
    p.Steady ∧ Tokenizer.Driven html n tz := by
  induction hr with
  | start => exact ⟨start_steady, .start⟩
  | again _ hs ih => exact ⟨ih.1, ih.2.again hs⟩
  | @token p q n tz tz' tz'' t _ hs htype hp ih =>
    obtain ⟨q', v, hq, hsteady, hv⟩ := process_spec ih.1 t tz'
    cases hp.symm.trans hq
    have hd := ih.2.token hs htype
    refine ⟨hsteady, ?_⟩
    rcases hv with rfl | ⟨s, himp, rfl⟩
    · exact hd
    · exact hd.setState himp

/-- Parsing comes to its end, with a character for each token; and whatever states the builder sets,
the tokenizer has a next token, and has the token that its state reads or writes. -/
theorem parse_total (html : CString) :
    (∃ p ts, parse html = some (p, ts) ∧ ts.length ≤ html.length) ∧
      (∀ p n tz, Parsing html p n tz → Tokenizer.Driven html n tz) ∧
      ∀ n tz, Tokenizer.Driven html n tz → n ≤ html.length ∧ tz.nextToken.isSome ∧
        (tz.currentChar ≠ 0 → tz.state.UsesToken → tz.currentToken.isSome) := by
  refine ⟨?_, fun p n tz hr => hr.driven.2, fun n tz hr => ?_⟩
  · -- at the start every character can still give a token
    exact loop_spec (n := html.length + 1) start_steady (Tokenizer.new_sound html) (Nat.lt_succ_self _)
  · obtain ⟨hs, hn⟩ := hr.sound
    obtain ⟨t, u, hnext, -⟩ := Tokenizer.nextToken_spec hs
    exact ⟨Nat.le_of_add_right_le hn, by rw [hnext]; rfl, fun hc hu => hs.token hc (Or.inl hu)⟩

end HTML5Parser
end RetroOs.Browser
