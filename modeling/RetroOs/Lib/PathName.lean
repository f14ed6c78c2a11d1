import Mathlib.Data.List.TakeWhile

/-! Names of paths: how a path falls into its components, read off one after another or all at once,
and where a walk along them can lead. -/
namespace RetroOs.Lib.PathName
open List
variable {α : Type} [DecidableEq α] (sep : α)

/-- The next component: separators are skipped, and it ends at the next one. -/
def token (path : List α) : List α := (path.dropWhile (· = sep)).takeWhile (· ≠ sep)

def afterToken (path : List α) : List α := (path.dropWhile (· = sep)).dropWhile (· ≠ sep)

/-- A component that was read so far, if there is one. -/
def flush (word : List α) : List (List α) := if word = [] then [] else [word]

def componentsFrom (word : List α) : List α → List (List α)
  | [] => flush word
  | c :: path => if c = sep then flush word ++ componentsFrom [] path else componentsFrom (word ++ [c]) path

def components (path : List α) : List (List α) := componentsFrom sep [] path

theorem componentsFrom_eq (word path : List α) :
    componentsFrom sep word path = flush (word ++ path.takeWhile (· ≠ sep)) ++ components sep (path.dropWhile (· ≠ sep)) := by
  induction path generalizing word with
  | nil => simp [componentsFrom, components, flush]
  | cons c path ih =>
    by_cases h : c = sep
    · simp [componentsFrom, components, flush, h]
    · simp [componentsFrom, h, ih]

theorem components_dropWhile (path : List α) : components sep (path.dropWhile (· = sep)) = components sep path := by
  induction path with
  | nil => rfl
  | cons c path ih =>
    by_cases h : c = sep
    · simpa [h, components, componentsFrom, flush] using ih
    · simp [h]

theorem components_eq (path : List α) :
    components sep path = flush (token sep path) ++ components sep (afterToken sep path) := by
  rw [← components_dropWhile, components, componentsFrom_eq]
  rfl

theorem components_of_token (path : List α) (h : token sep path ≠ []) :
    components sep path = token sep path :: components sep (afterToken sep path) := by
  rw [components_eq, flush, if_neg h]
  rfl

theorem components_of_token_nil (path : List α) (h : token sep path = []) : components sep path = [] := by
  have hnil : path.dropWhile (· = sep) = [] := by
    cases hd : path.dropWhile (· = sep) with
    | nil => rfl
    | cons c rest =>
      have hc := head_dropWhile_not (fun x => decide (x = sep)) (l := path) (by rw [hd]; exact cons_ne_nil _ _)
      simp only [hd, head_cons, decide_eq_false_iff_not] at hc
      simp [token, hd, hc] at h
  rw [← components_dropWhile, hnil]
  rfl

theorem afterToken_length (path : List α) (h : token sep path ≠ []) : (afterToken sep path).length < path.length := by
  have hsplit := takeWhile_append_dropWhile (p := fun x => decide (x ≠ sep)) (l := path.dropWhile (· = sep))
  have hlen := congrArg length hsplit
  have hle := (dropWhile_suffix (fun x => decide (x = sep)) (l := path)).length_le
  have hpos := length_pos_iff.mpr h
  rw [length_append] at hlen
  rw [token] at hpos
  rw [afterToken]
  omega

theorem sep_notMem_token (path : List α) : sep ∉ token sep path := by
  intro h
  have hp := mem_takeWhile_imp h
  simp at hp

theorem components_single {name : List α} (h : name ≠ []) (hsep : sep ∉ name) : components sep (sep :: name) = [name] := by
  have htake : name.takeWhile (· ≠ sep) = name :=
    takeWhile_eq_self_iff.mpr fun c hc => decide_eq_true fun hcs : c = sep => hsep (hcs ▸ hc)
  have hdrop : name.dropWhile (· ≠ sep) = [] :=
    dropWhile_eq_nil_iff.mpr fun c hc => decide_eq_true fun hcs : c = sep => hsep (hcs ▸ hc)
  have hcons : components sep (sep :: name) = componentsFrom sep [] name := by simp [components, componentsFrom, flush]
  rw [hcons, componentsFrom_eq, nil_append, htake, hdrop, flush, if_neg h]
  rfl

theorem componentsFrom_append (word path rest : List α) :
    componentsFrom sep word (path ++ sep :: rest) = componentsFrom sep word path ++ components sep rest := by
  induction path generalizing word with
  | nil => simp [componentsFrom, components]
  | cons c path ih =>
    by_cases h : c = sep
    · simp [componentsFrom, h, ih]
    · simp [componentsFrom, h, ih]

theorem components_append (path rest : List α) :
    components sep (path ++ sep :: rest) = components sep path ++ components sep rest := componentsFrom_append ..

theorem components_name {name : List α} (h : name ≠ []) (hsep : sep ∉ name) : components sep name = [name] := by
  rw [← components_single sep h hsep]
  simp [components, componentsFrom, flush]

theorem mem_components {path c : List α} (h : c ∈ components sep path) : c ≠ [] ∧ sep ∉ c := by
  have hfrom : ∀ word : List α, sep ∉ word → ∀ c ∈ componentsFrom sep word path, c ≠ [] ∧ sep ∉ c := by
    have hflush : ∀ word : List α, sep ∉ word → ∀ c ∈ flush word, c ≠ [] ∧ sep ∉ c := by
      intro word hword c hc
      rw [flush] at hc
      split at hc
      · cases hc
      · next hne =>
        obtain rfl := mem_singleton.mp hc
        exact ⟨hne, hword⟩
    clear h
    induction path with
    | nil => exact hflush
    | cons x path ih =>
      intro word hword c hc
      rw [componentsFrom] at hc
      split at hc
      · rcases mem_append.mp hc with hc | hc
        · exact hflush word hword c hc
        · exact ih [] not_mem_nil c hc
      · next hx =>
        refine ih (word ++ [x]) (fun hmem => ?_) c hc
        rcases mem_append.mp hmem with hmem | hmem
        · exact hword hmem
        · exact hx (mem_singleton.mp hmem).symm
  exact hfrom [] not_mem_nil c h

theorem components_flatMap {cs : List (List α)} (h : ∀ c ∈ cs, c ≠ [] ∧ sep ∉ c) :
    components sep (cs.flatMap fun c => c ++ [sep]) = cs := by
  induction cs with
  | nil => rfl
  | cons c cs ih =>
    obtain ⟨⟨hne, hsep⟩, hcs⟩ := forall_mem_cons.mp h
    rw [flatMap_cons, append_assoc, singleton_append, components_append, components_name sep hne hsep, ih hcs]
    rfl

section
variable {ν : Type} (dot dotdot : ν)

/-- An entry of a directory lies below it, unless it is one of the two that name the directory and its
parent. -/
def Leads (d : List ν) (c : ν) (e : List ν) : Prop := e = d ++ [c] ∨ c = dot ∧ e = d ∨ c = dotdot ∧ e = d.dropLast

instance [DecidableEq ν] (d : List ν) (c : ν) (e : List ν) : Decidable (Leads dot dotdot d c e) :=
  inferInstanceAs (Decidable (_ ∨ _))

/-- Where components can lead from a directory. -/
inductive Target : List ν → List ν → List ν → Prop where
  | nil (d : List ν) : Target d [] d
  | cons {d e p : List ν} {c : ν} {cs : List ν} (h : Leads dot dotdot d c e) (ht : Target e cs p) : Target d (c :: cs) p

variable {dot dotdot}

theorem target_iff {d cs p : List ν} (hd : dot ∉ cs) (hdd : dotdot ∉ cs) : Target dot dotdot d cs p ↔ p = d ++ cs := by
  induction cs generalizing d with
  | nil =>
    constructor
    · rintro ⟨⟩
      exact (append_nil _).symm
    · rintro rfl
      rw [append_nil]
      exact .nil d
  | cons c cs ih =>
    obtain ⟨hc, hcs⟩ := not_or.mp (mt mem_cons.mpr hd)
    obtain ⟨hc', hcs'⟩ := not_or.mp (mt mem_cons.mpr hdd)
    constructor
    · rintro ⟨⟩
      next e hl ht =>
        rcases hl with rfl | ⟨rfl, -⟩ | ⟨rfl, -⟩
        · rw [(ih hcs hcs').mp ht, append_assoc, singleton_append]
        · exact (hc rfl).elim
        · exact (hc' rfl).elim
    · rintro rfl
      refine .cons (Or.inl rfl) ((ih hcs hcs').mpr ?_)
      rw [append_assoc, singleton_append]

end
end RetroOs.Lib.PathName
