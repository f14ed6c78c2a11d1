import Mathlib.Data.List.Perm.Basic
import Mathlib.Data.List.Nodup
import Mathlib.Data.List.Range

/-! Directory trees: each node of a rooted tree is given by its list of named entries. -/
namespace RetroOs.Lib
open Relation List Prod

variable {κ ι : Type} {T T' T₁ : ι → List (κ × ι)} {root d e n t : ι} {k : κ} {nodes : List ι}

/-- Some entry of `d` names `n`. -/
def HasEntry (T : ι → List (κ × ι)) (d n : ι) : Prop := n ∈ (T d).map snd

/-- `n` is `d` or lies under it. -/
def Under (T : ι → List (κ × ι)) : ι → ι → Prop := ReflTransGen (HasEntry T)

/-- The entries of `nodes` name each node but the root once and nothing else, with distinct names in
each directory, and lead from the root to every node. -/
structure IsTree (root : ι) (T : ι → List (κ × ι)) (nodes : List ι) : Prop where
  nodup : nodes.Nodup
  once : (root :: nodes.flatMap fun d => (T d).map snd).Perm nodes
  outside : ∀ d ∉ nodes, T d = []
  names : ∀ d, ((T d).map fst).Nodup
  reach : ∀ n ∈ nodes, Under T root n

theorem flatMap_gain {α : Type} (f f' : ι → List α) {a : α} (hnodup : nodes.Nodup) (hd : d ∈ nodes)
    (hgain : (f' d).Perm (a :: f d)) (ho : ∀ e ≠ d, f' e = f e) :
    (nodes.flatMap f').Perm (a :: nodes.flatMap f) := by
  induction nodes with
  | nil => cases hd
  | cons m l ih =>
    obtain ⟨hm, hl⟩ := nodup_cons.mp hnodup
    simp only [flatMap_cons]
    rcases mem_cons.mp hd with rfl | hdl
    · have hrest : l.flatMap f' = l.flatMap f :=
        flatMap_congr fun e he => ho e fun heq => hm (heq ▸ he)
      rw [hrest]
      exact hgain.append_right _
    · have hne : m ≠ d := fun heq => hm (heq ▸ hdl)
      rw [ho m hne]
      exact ((ih hl hdl).append_left _).trans perm_middle

theorem HasEntry.of_mem (h : (k, n) ∈ T d) : HasEntry T d n := mem_map_of_mem h

theorem reach_move {R R' : ι → ι → Prop} (hkeep : ∀ e n, R e n → n ≠ t → R' e n) (hnew : R' d t)
    (hd : ReflTransGen R root d) (hanc : ¬ ReflTransGen R t d) (hn : ReflTransGen R root n) :
    ReflTransGen R' root n := by
  -- A path to a node that is not below `t` does not use the old place.
  have hout : ∀ n, ReflTransGen R root n → ¬ ReflTransGen R t n → ReflTransGen R' root n := by
    intro n hn
    induction hn with
    | refl => exact fun _ => .refl
    | tail _ he ih =>
      intro hno
      have hno' := fun hte => hno (ReflTransGen.tail hte he)
      exact (ih hno').tail (hkeep _ _ he fun heq => hno (heq ▸ .refl))
  have ht : ReflTransGen R' root t := (hout d hd hanc).tail hnew
  -- A path from `t` on may come back to `t`, and is cut short there.
  have hbelow : ∀ n, ReflTransGen R t n → ReflTransGen R' root n := by
    intro n hn
    induction hn with
    | refl => exact ht
    | @tail e m _ he ih =>
      by_cases hm : m = t
      · exact hm ▸ ht
      · exact ih.tail (hkeep e m he hm)
  by_cases htn : ReflTransGen R t n
  · exact hbelow n htn
  · exact hout n hn htn

namespace IsTree
variable (h : IsTree root T nodes)
include h

theorem mem_of_hasEntry (he : HasEntry T d n) : n ∈ nodes := by
  have hd : d ∈ nodes := by
    by_contra hno
    rw [HasEntry, h.outside d hno] at he
    cases he
  apply h.once.subset
  exact .tail _ (mem_flatMap.mpr ⟨d, hd, he⟩)

theorem named_once (hn : n ∈ nodes) (hroot : n ≠ root) :
    ∃! p : ι × Nat, ∃ k, (T p.1)[p.2]? = some (k, n) := by
  have hnodup := (nodup_cons.mp (h.once.nodup_iff.mpr h.nodup)).2
  obtain ⟨heach, hdisj⟩ := nodup_flatMap.mp hnodup
  have hmem : n ∈ nodes.flatMap fun d => (T d).map snd :=
    (mem_cons.mp (h.once.symm.subset hn)).resolve_left hroot
  obtain ⟨d, hd, hdn⟩ := mem_flatMap.mp hmem
  obtain ⟨i, hi⟩ := mem_iff_getElem?.mp hdn
  have hentry : ∀ {e : ι} {j : Nat} {k : κ}, (T e)[j]? = some (k, n) → e ∈ nodes ∧ ((T e).map snd)[j]? = some n := by
    intro e j k hj
    refine ⟨?_, by rw [getElem?_map, hj]; rfl⟩
    by_contra hno
    rw [h.outside e hno] at hj
    cases hj
  refine ⟨(d, i), ?_, ?_⟩
  · rw [getElem?_map] at hi
    obtain ⟨⟨k, m⟩, hk, rfl⟩ := Option.map_eq_some_iff.mp hi
    exact ⟨k, hk⟩
  · rintro ⟨e, j⟩ ⟨k, hj⟩
    obtain ⟨he, hj⟩ := hentry hj
    have hed : e = d := by
      by_contra hne
      have : Std.Symm (Function.onFun List.Disjoint fun d => (T d).map snd) :=
        ⟨fun _ _ => List.disjoint_symm⟩
      exact hdisj.forall he hd hne (List.mem_iff_getElem?.mpr ⟨j, hj⟩) hdn
    subst hed
    obtain ⟨hjl, hj⟩ := List.getElem?_eq_some_iff.mp hj
    obtain ⟨hil, hi⟩ := List.getElem?_eq_some_iff.mp hi
    rw [mk.injEq]
    exact ⟨rfl, (heach e hd).getElem_inj_iff.mp (hj.trans hi.symm)⟩

theorem root_not_named : ¬ HasEntry T d root := by
  intro he
  have hroot := (nodup_cons.mp (h.once.nodup_iff.mpr h.nodup)).1
  have hd : d ∈ nodes := by
    by_contra hno
    rw [HasEntry, h.outside d hno] at he
    cases he
  exact hroot (mem_flatMap.mpr ⟨d, hd, he⟩)

theorem parent_unique (hd : HasEntry T d n) (he : HasEntry T e n) : d = e := by
  have hroot : n ≠ root := by
    rintro rfl
    exact h.root_not_named hd
  obtain ⟨p, -, huniq⟩ := h.named_once (h.mem_of_hasEntry hd) hroot
  have hplace : ∀ {d}, HasEntry T d n → ∃ i, (d, i) = p := by
    intro d hd
    obtain ⟨⟨k, m⟩, hmem, rfl⟩ := mem_map.mp hd
    obtain ⟨i, hi⟩ := mem_iff_getElem?.mp hmem
    exact ⟨i, huniq (d, i) ⟨k, hi⟩⟩
  obtain ⟨i, hi⟩ := hplace hd
  obtain ⟨j, hj⟩ := hplace he
  exact (mk.inj (hi.trans hj.symm)).1

theorem acyclic : ¬ TransGen (HasEntry T) n n := by
  intro hn
  obtain ⟨e, -, hen⟩ := (TransGen.tail'_iff).mp hn
  have hr := h.reach n (h.mem_of_hasEntry hen)
  clear e hen
  induction hr with
  | refl =>
    obtain ⟨e, -, he⟩ := (TransGen.tail'_iff).mp hn
    exact h.root_not_named he
  | @tail m n _ hmn ih =>
    obtain ⟨e, hne, he⟩ := (TransGen.tail'_iff).mp hn
    obtain rfl := h.parent_unique he hmn
    exact ih (TransGen.head' he hne)

theorem add (hd : d ∈ nodes) (hn : n ∉ nodes) (hk : k ∉ (T d).map fst) (hT : T' d = T d ++ [(k, n)])
    (ho : ∀ e ≠ d, T' e = T e) : IsTree root T' (nodes ++ [n]) := by
  have hnd : n ≠ d := fun heq => hn (heq ▸ hd)
  have hnil : T' n = [] := (ho n hnd).trans (h.outside n hn)
  have hkeep : ∀ e m, HasEntry T e m → HasEntry T' e m := by
    intro e m he
    by_cases hed : e = d
    · subst hed
      rw [HasEntry, hT, map_append]
      exact mem_append_left _ he
    · rwa [HasEntry, ho e hed]
  have hreach : ∀ m ∈ nodes, Under T' root m := fun m hm =>
    ReflTransGen.mono hkeep _ _ (h.reach m hm)
  refine ⟨?_, ?_, ?_, ?_, ?_⟩
  · exact nodup_append_comm.mp (nodup_cons.mpr ⟨hn, h.nodup⟩)
  · have hgain := flatMap_gain (fun d => (T d).map snd) (fun d => (T' d).map snd)
      (a := n) h.nodup hd (by rw [hT, map_append]; exact perm_append_comm)
      fun e he => by rw [ho e he]
    rw [flatMap_append, flatMap_singleton, hnil, map_nil, append_nil]
    calc (root :: nodes.flatMap fun d => (T' d).map snd).Perm
          (root :: n :: nodes.flatMap fun d => (T d).map snd) := hgain.cons root
      _ |>.Perm (n :: root :: nodes.flatMap fun d => (T d).map snd) := .swap ..
      _ |>.Perm (n :: nodes) := h.once.cons n
      _ |>.Perm (nodes ++ [n]) := (perm_append_singleton n nodes).symm
  · intro e he
    obtain ⟨he, hen⟩ := not_or.mp fun hor => he (mem_append.mpr (hor.imp id mem_singleton.mpr))
    exact (ho e fun heq => he (heq ▸ hd)).trans (h.outside e he)
  · intro e
    by_cases hed : e = d
    · subst hed
      rw [hT, map_append]
      exact nodup_append_comm.mp (nodup_cons.mpr ⟨hk, h.names e⟩)
    · rw [ho e hed]
      exact h.names e
  · intro m hm
    rcases mem_append.mp hm with hm | hm
    · exact hreach m hm
    · rw [mem_singleton.mp hm]
      exact (hreach d hd).tail (HasEntry.of_mem (k := k) (by rw [hT]; simp))

theorem move {k' : κ} {d' : ι} {i : Nat} (hi : (T d)[i]? = some (k, t)) (hd' : d' ∈ nodes)
    (hanc : ¬ Under T t d') (hk : k' ∉ (T d').map fst) (hT₁ : T₁ d' = T d' ++ [(k', t)])
    (ho₁ : ∀ e ≠ d', T₁ e = T e) (hT : T' d = (T₁ d).eraseIdx i) (ho : ∀ e ≠ d, T' e = T₁ e) :
    IsTree root T' nodes := by
  have hd : d ∈ nodes := by
    by_contra hno
    rw [h.outside d hno] at hi
    cases hi
  have hilt : i < (T d).length := (List.getElem?_eq_some_iff.mp hi).1
  have hi₁ : (T₁ d)[i]? = some (k, t) := by
    by_cases hdd : d = d'
    · subst hdd
      rw [hT₁, List.getElem?_append_left hilt, hi]
    · rw [ho₁ d hdd, hi]
  obtain ⟨hilt₁, hget⟩ := List.getElem?_eq_some_iff.mp hi₁
  have hperm₁ : (T₁ d).Perm ((k, t) :: T' d) := by
    rw [hT, ← hget]
    exact (getElem_cons_eraseIdx_perm hilt₁).symm
  have hsub : ∀ e, (T' e).Sublist (T₁ e) := by
    intro e
    by_cases he : e = d
    · rw [he, hT]
      exact eraseIdx_sublist ..
    · rw [ho e he]
  refine ⟨h.nodup, ?_, ?_, ?_, ?_⟩
  · have hgain := flatMap_gain (fun d => (T d).map snd) (fun d => (T₁ d).map snd)
      (a := t) h.nodup hd' (by rw [hT₁, map_append]; exact perm_append_singleton ..)
      fun e he => by rw [ho₁ e he]
    have hloss := flatMap_gain (fun d => (T' d).map snd) (fun d => (T₁ d).map snd)
      (a := t) h.nodup hd (hperm₁.map snd) fun e he => by rw [ho e he]
    exact ((hloss.symm.trans hgain).cons_inv.cons root).trans h.once
  · intro e he
    have hne : e ≠ d' := fun heq => he (heq ▸ hd')
    apply sublist_nil.mp
    rw [← h.outside e he, ← ho₁ e hne]
    exact hsub e
  · intro e
    apply ((hsub e).map fst).nodup
    by_cases he : e = d'
    · rw [he, hT₁, map_append]
      exact nodup_append_comm.mp (nodup_cons.mpr ⟨hk, h.names d'⟩)
    · rw [ho₁ e he]
      exact h.names e
  · intro n hn
    apply reach_move (R := HasEntry T) (t := t) (d := d') ?_ ?_ (h.reach d' hd') hanc (h.reach n hn)
    · intro e m he hm
      have he₁ : HasEntry T₁ e m := by
        by_cases hed : e = d'
        · subst hed
          rw [HasEntry, hT₁, map_append]
          exact mem_append_left _ he
        · rwa [HasEntry, ho₁ e hed]
      by_cases hed : e = d
      · subst hed
        have hmem := (hperm₁.map snd).subset he₁
        exact (mem_cons.mp hmem).resolve_left hm
      · rwa [HasEntry, ho e hed]
    · by_cases hdd : d' = d
      · subst hdd
        apply HasEntry.of_mem (k := k')
        rw [hT, hT₁, eraseIdx_append_of_lt_length hilt]
        simp
      · apply HasEntry.of_mem (k := k')
        rw [ho d' hdd, hT₁]
        simp

end IsTree
end RetroOs.Lib
