import RetroOs.Browser.ParserRuns

/-! The links between the nodes of the document: what an insertion does to each, and that the children of a node hang
together. -/
namespace RetroOs.Browser
open Lib List Node Relation.ReflTransGen
namespace HTML5Parser

def NextSibling (p : HTML5Parser) (i j : Nat) : Prop := (p.node i).nextSibling = some j

/-- The node is in the list of the children of another one, and points back to it. -/
structure Child (p : HTML5Parser) (i k : Nat) : Prop where
  parent : (p.node i).parent = some k
  listed : ∃ first, (p.node k).firstChild = some first ∧ Relation.ReflTransGen p.NextSibling first i

structure Linked (p : HTML5Parser) : Prop where
  last : ∀ i j, (p.node i).lastChild = some j → j < p.nodes.length ∧ p.Child j i ∧ (p.node j).nextSibling = none
  empty : ∀ i, (p.node i).lastChild = none → (p.node i).firstChild = none

/-- A new node behind the children of another one: link by link what has changed. -/
structure Appended (p : HTML5Parser) (k : Nat) (ty : NodeType) (q : HTML5Parser) : Prop where
  length : q.nodes.length = p.nodes.length + 1
  type : ∀ i, (q.node i).type = if i = p.nodes.length then ty else (p.node i).type
  parent : ∀ i, (q.node i).parent = if i = p.nodes.length then some k else (p.node i).parent
  prevSibling : ∀ i, (q.node i).prevSibling = if i = p.nodes.length then (p.node k).lastChild else (p.node i).prevSibling
  nextSibling : ∀ i, (q.node i).nextSibling =
    if i = p.nodes.length then none
    else if (p.node k).lastChild = some i then some p.nodes.length else (p.node i).nextSibling
  firstChild : ∀ i, (q.node i).firstChild =
    if i = p.nodes.length then none
    else if i = k ∧ (p.node k).lastChild = none then some p.nodes.length else (p.node i).firstChild
  lastChild : ∀ i, (q.node i).lastChild =
    if i = p.nodes.length then none else if i = k then some p.nodes.length else (p.node i).lastChild
  openElements : q.openElements = p.openElements
  mode : q.mode = p.mode

variable {p q : HTML5Parser} {i j k : Nat} {ty : NodeType} {f : Node → Node} {n : Node}

theorem node_setNode (hf : i < p.nodes.length) (j : Nat) : (p.setNode i f).node j = if j = i then f (p.node j) else p.node j := by
  rw [node, node, setNode, getD_eq_getElem?_getD, getD_eq_getElem?_getD, getElem?_modify]
  by_cases hij : j = i
  · subst hij
    rw [if_pos rfl, getElem?_eq_getElem hf]
    simp
  · rw [if_neg hij]
    simp [Ne.symm hij]

theorem length_setNode : (p.setNode i f).nodes.length = p.nodes.length := length_modify _ _ _

private theorem node_concat (p : HTML5Parser) (n : Node) (j : Nat) :
    ({ p with nodes := p.nodes ++ [n] } : HTML5Parser).node j = if j = p.nodes.length then n else p.node j := by
  rw [node, node, getD_eq_getElem?_getD, getD_eq_getElem?_getD]
  by_cases hj : j = p.nodes.length
  · subst hj
    rw [if_pos rfl, getElem?_concat_length]
    rfl
  · rw [if_neg hj]
    rcases Nat.lt_or_gt_of_ne hj with hlt | hgt
    · rw [getElem?_append_left hlt]
    · rw [getElem?_eq_none hgt.le, getElem?_eq_none (by rw [length_append]; exact hgt)]

theorem node_outside (h : p.nodes.length ≤ i) : p.node i = new .document := by
  rw [node, getD_eq_getElem?_getD, getElem?_eq_none h]
  rfl

theorem appendChild_appended (h : p.Linked) (hp : k < p.nodes.length) (ty : NodeType) :
    Appended p k ty (p.appendChild k ty) := by
  have hlen : (p.nodes ++ [{ new ty with parent := some k }]).length = p.nodes.length + 1 := length_append
  have hne : k ≠ p.nodes.length := Nat.ne_of_lt hp
  unfold appendChild
  cases hlast : (p.node k).lastChild with
  | none =>
    have hnode : ∀ i, (({ p with nodes := p.nodes ++ [{ new ty with parent := some k }] } : HTML5Parser).setNode k
        fun n => { n with firstChild := some p.nodes.length, lastChild := some p.nodes.length }).node i =
          if i = p.nodes.length then { new ty with parent := some k }
          else if i = k then { p.node i with firstChild := some p.nodes.length, lastChild := some p.nodes.length }
          else p.node i := by
      intro i
      rw [node_setNode (by rw [hlen]; omega), node_concat]
      by_cases hi : i = p.nodes.length
      · rw [if_pos hi, if_pos hi, if_neg (hi ▸ hne.symm)]
      · rw [if_neg hi, if_neg hi]
    refine ⟨length_setNode.trans hlen, ?_, ?_, ?_, ?_, ?_, ?_, rfl, rfl⟩ <;> intro i <;> rw [hnode i] <;> split_ifs <;>
      simp_all [new]
  | some last =>
    obtain ⟨hlt, -⟩ := h.last k last hlast
    have hnode : ∀ i, (((({ p with nodes := p.nodes ++ [{ new ty with parent := some k }] } : HTML5Parser).setNode last
        fun n => { n with nextSibling := some p.nodes.length }).setNode p.nodes.length
          fun n => { n with prevSibling := some last }).setNode k fun n => { n with lastChild := some p.nodes.length }).node i =
          if i = p.nodes.length then { new ty with parent := some k, prevSibling := some last }
          else
            { p.node i with
              nextSibling := if i = last then some p.nodes.length else (p.node i).nextSibling
              lastChild := if i = k then some p.nodes.length else (p.node i).lastChild } := by
      intro i
      rw [node_setNode (by rw [length_setNode, length_setNode, hlen]; omega),
        node_setNode (by rw [length_setNode, hlen]; omega), node_setNode (by rw [hlen]; omega), node_concat]
      by_cases hi : i = p.nodes.length
      · rw [if_pos hi, if_pos hi, if_pos hi, if_neg (by omega), if_neg (by omega)]
      · rw [if_neg hi, if_neg hi, if_neg hi]
        split_ifs <;> rfl
    refine ⟨(length_setNode.trans (length_setNode.trans length_setNode)).trans hlen, ?_, ?_, ?_, ?_, ?_, ?_, rfl, rfl⟩ <;> intro i <;>
      rw [hnode i] <;> split_ifs <;> simp_all [new]

theorem Child.lt (h : p.Child i k) : i < p.nodes.length := by
  by_contra hge
  have hp := h.parent
  rw [node_outside (Nat.le_of_not_lt hge)] at hp
  cases hp

theorem Child.parent_lt (h : p.Child i k) : k < p.nodes.length := by
  by_contra hge
  obtain ⟨first, hf, -⟩ := h.listed
  rw [node_outside (Nat.le_of_not_lt hge)] at hf
  cases hf

theorem NextSibling.lt (h : p.NextSibling i j) : i < p.nodes.length := by
  by_contra hge
  rw [NextSibling, node_outside (Nat.le_of_not_lt hge)] at h
  cases h

theorem Appended.child {m : Nat} (h : Appended p k ty q) (hl : p.Linked) (hc : p.Child i m) : q.Child i m := by
  have hm := hc.parent_lt
  obtain ⟨hp, first, hf, hpath⟩ := hc
  have hi : i ≠ p.nodes.length := Nat.ne_of_lt (Child.lt ⟨hp, first, hf, hpath⟩)
  refine ⟨(h.parent i).trans ((if_neg hi).trans hp), first, ?_, mono (fun x y hxy => ?_) first i hpath⟩
  · rw [h.firstChild, if_neg (Nat.ne_of_lt hm), if_neg]
    · exact hf
    · rintro ⟨rfl, hnone⟩
      cases (hl.empty _ hnone).symm.trans hf
  · rw [NextSibling, h.nextSibling, if_neg (Nat.ne_of_lt hxy.lt), if_neg]
    · exact hxy
    · intro hlast
      cases (hl.last k x hlast).2.2.symm.trans hxy

theorem Appended.newChild (h : Appended p k ty q) (hl : p.Linked) (hk : k < p.nodes.length) : q.Child p.nodes.length k := by
  refine ⟨(h.parent _).trans (if_pos rfl), ?_⟩
  cases hlast : (p.node k).lastChild with
  | none =>
    refine ⟨p.nodes.length, ?_, .refl⟩
    rw [h.firstChild, if_neg (Nat.ne_of_lt hk), if_pos ⟨rfl, hlast⟩]
  | some last =>
    obtain ⟨hlt, hchild, -⟩ := hl.last k last hlast
    obtain ⟨-, first, hf, hpath⟩ := h.child hl hchild
    refine ⟨first, hf, hpath.tail ?_⟩
    rw [NextSibling, h.nextSibling, if_neg (Nat.ne_of_lt hlt), if_pos hlast]

theorem Appended.linked (h : Appended p k ty q) (hl : p.Linked) (hk : k < p.nodes.length) : q.Linked := by
  constructor
  · intro i j hj
    rw [h.lastChild] at hj
    split at hj
    · cases hj
    · split at hj
      · next heq =>
        cases hj
        subst heq
        exact ⟨by rw [h.length]; exact Nat.lt_succ_self _, h.newChild hl hk, (h.nextSibling _).trans (if_pos rfl)⟩
      · next hne =>
        obtain ⟨hlt, hchild, hnone⟩ := hl.last i j hj
        refine ⟨by rw [h.length]; exact Nat.lt_succ_of_lt hlt, h.child hl hchild, ?_⟩
        rw [h.nextSibling, if_neg (Nat.ne_of_lt hlt), if_neg]
        · exact hnone
        · intro hlast
          have hparent := (hl.last k j hlast).2.1.parent
          exact hne (Option.some.inj (hchild.parent.symm.trans hparent))
  · intro i hi
    rw [h.lastChild] at hi
    rw [h.firstChild]
    split
    · rfl
    · next hlen =>
      rw [if_neg hlen] at hi
      split at hi
      · cases hi
      · next hik =>
        rw [if_neg fun hboth => hik hboth.1]
        exact hl.empty i hi

structure SameLinks (p q : HTML5Parser) : Prop where
  length : q.nodes.length = p.nodes.length
  parent : ∀ i, (q.node i).parent = (p.node i).parent
  nextSibling : ∀ i, (q.node i).nextSibling = (p.node i).nextSibling
  firstChild : ∀ i, (q.node i).firstChild = (p.node i).firstChild
  lastChild : ∀ i, (q.node i).lastChild = (p.node i).lastChild

theorem SameLinks.child (h : SameLinks p q) (hc : p.Child i k) : q.Child i k := by
  obtain ⟨hp, first, hf, hpath⟩ := hc
  refine ⟨(h.parent i).trans hp, first, (h.firstChild k).trans hf, mono (fun x y hxy => ?_) first i hpath⟩
  exact (h.nextSibling x).trans hxy

theorem SameLinks.linked (h : SameLinks p q) (hl : p.Linked) : q.Linked := by
  refine ⟨fun i j hj => ?_, fun i hi => (h.firstChild i).trans (hl.empty i ((h.lastChild i).symm.trans hi))⟩
  obtain ⟨hlt, hchild, hnone⟩ := hl.last i j ((h.lastChild i).symm.trans hj)
  exact ⟨by rw [h.length]; exact hlt, h.child hchild, (h.nextSibling j).trans hnone⟩

theorem sameLinks_setNode (f : NodeType → NodeType) (i : Nat) : SameLinks p (p.setNode i fun n => { n with type := f n.type }) := by
  by_cases hi : i < p.nodes.length
  · refine ⟨length_setNode, ?_, ?_, ?_, ?_⟩ <;> intro j <;> rw [node_setNode hi] <;> split_ifs <;> rfl
  · have hsame : p.setNode i (fun n => { n with type := f n.type }) = p := by
      rw [setNode, modify_eq_self (Nat.le_of_not_lt hi)]
    rw [hsame]
    exact ⟨rfl, fun _ => rfl, fun _ => rfl, fun _ => rfl, fun _ => rfl⟩

theorem start_linked : start.Linked := by
  have hnode : ∀ i, start.node i = new .document := by
    intro i
    cases i with
    | zero => rfl
    | succ i => exact node_outside (Nat.le_add_left 1 i)
  refine ⟨fun i j hj => ?_, fun i _ => ?_⟩
  · rw [hnode] at hj
    cases hj
  · rw [hnode]
    rfl

end HTML5Parser
end RetroOs.Browser
