import Mathlib.Data.List.Infix

/-! Walks along names through a lookup, which finds nothing (`some none`) or has no result at all (`none`);
and what a new name in one place changes for them. -/
namespace RetroOs.Lib
open List
variable {ι ν : Type}

/-- Where the names lead from `i`. -/
def nameWalk (look : ι → ν → Option (Option ι)) : ι → List ν → Option (Option ι)
  | i, [] => some (some i)
  | i, c :: cs =>
    match look i c with
    | some (some k) => nameWalk look k cs
    | r => r

section
variable {look look' : ι → ν → Option (Option ι)} {i j k d n : ι} {c name : ν} {cs ds : List ν}

theorem nameWalk_cons (h : look i c = some (some k)) (cs : List ν) : nameWalk look i (c :: cs) = nameWalk look k cs := by
  rw [nameWalk, h]

theorem nameWalk_stop (h : ∀ k, look i c ≠ some (some k)) (cs : List ν) : nameWalk look i (c :: cs) = look i c := by
  rw [nameWalk]
  split
  · next k hk => exact absurd hk (h k)
  · rfl

theorem nameWalk_append (h : nameWalk look i cs = some (some k)) (ds : List ν) :
    nameWalk look i (cs ++ ds) = nameWalk look k ds := by
  induction cs generalizing i with
  | nil =>
    cases h
    rfl
  | cons c cs ih =>
    cases hc : look i c with
    | none =>
      rw [nameWalk, hc] at h
      cases h
    | some r =>
      cases r with
      | none =>
        rw [nameWalk, hc] at h
        cases h
      | some x =>
        rw [nameWalk_cons hc] at h
        rw [cons_append, nameWalk_cons hc]
        exact ih h

theorem nameWalk_cons_some (h : nameWalk look i (c :: cs) = some (some k)) :
    ∃ j, look i c = some (some j) ∧ nameWalk look j cs = some (some k) := by
  by_cases hj : ∃ j, look i c = some (some j)
  · obtain ⟨j, hj⟩ := hj
    exact ⟨j, hj, by rwa [nameWalk_cons hj] at h⟩
  · have hj := not_exists.mp hj
    rw [nameWalk_stop hj] at h
    exact absurd h (hj k)

theorem nameWalk_append_some (h : nameWalk look i (cs ++ ds) = some (some k)) :
    ∃ j, nameWalk look i cs = some (some j) ∧ nameWalk look j ds = some (some k) := by
  induction cs generalizing i with
  | nil => exact ⟨i, rfl, h⟩
  | cons c cs ih =>
    obtain ⟨x, hx, h⟩ := nameWalk_cons_some h
    rw [nameWalk_cons hx]
    exact ih h

theorem nameWalk_congr_along
    (h : ∀ front c rest k, cs = front ++ c :: rest → nameWalk look i front = some (some k) → look' k c = look k c) :
    nameWalk look' i cs = nameWalk look i cs := by
  induction cs generalizing i with
  | nil => rfl
  | cons c cs ih =>
    have hsame := h [] c cs i rfl rfl
    by_cases hx : ∃ x, look i c = some (some x)
    · obtain ⟨x, hx⟩ := hx
      rw [nameWalk_cons hx, nameWalk_cons (hsame.trans hx)]
      exact ih fun front d rest k heq hw => h (c :: front) d rest k (by rw [heq, cons_append]) (by rwa [nameWalk_cons hx])
    · have hx := not_exists.mp hx
      rw [nameWalk_stop hx, nameWalk_stop (by rwa [hsame]), hsame]

theorem nameWalk_keep_along
    (h : ∀ front c rest k x, cs = front ++ c :: rest → nameWalk look i front = some (some k) → look k c = some (some x) →
      look' k c = some (some x))
    (hj : nameWalk look i cs = some (some j)) : nameWalk look' i cs = some (some j) := by
  induction cs generalizing i with
  | nil => exact hj
  | cons c cs ih =>
    obtain ⟨x, hx, hrest⟩ := nameWalk_cons_some hj
    rw [nameWalk_cons (h [] c cs i x rfl rfl hx)]
    refine ih (fun front d rest k y heq hw hy => ?_) hrest
    exact h (c :: front) d rest k y (by rw [heq, cons_append]) (by rwa [nameWalk_cons hx]) hy

variable {S : Set ν}

/-- Names of `S` lead from `i` to `k`. -/
def NameReaches (look : ι → ν → Option (Option ι)) (S : Set ν) (i k : ι) : Prop :=
  ∃ cs, (∀ c ∈ cs, c ∈ S) ∧ nameWalk look i cs = some (some k)

theorem NameReaches.refl : NameReaches look S i i := ⟨[], fun _ hc => (nomatch hc), rfl⟩

theorem NameReaches.tail (h : NameReaches look S i j) (hc : c ∈ S) (hk : look j c = some (some k)) :
    NameReaches look S i k := by
  obtain ⟨cs, hcs, hw⟩ := h
  refine ⟨cs ++ [c], fun x hx => ?_, ?_⟩
  · rcases mem_append.mp hx with hx | hx
    · exact hcs x hx
    · exact mem_singleton.mp hx ▸ hc
  · rw [nameWalk_append hw, nameWalk_cons hk]
    rfl

theorem nameWalk_congr (h : ∀ k, NameReaches look S i k → ∀ c ∈ cs, look' k c = look k c) (hcs : ∀ c ∈ cs, c ∈ S)
    (hj : NameReaches look S i j) : nameWalk look' j cs = nameWalk look j cs := by
  induction cs generalizing j with
  | nil => rfl
  | cons c cs ih =>
    obtain ⟨hcS, hcs⟩ := forall_mem_cons.mp hcs
    have hsame := h j hj c (.head _)
    by_cases hk : ∃ k, look j c = some (some k)
    · obtain ⟨k, hk⟩ := hk
      rw [nameWalk_cons hk, nameWalk_cons (hsame.trans hk)]
      exact ih (fun k hk c hc => h k hk c (.tail _ hc)) hcs (hj.tail hcS hk)
    · have hk := not_exists.mp hk
      rw [nameWalk_stop hk, nameWalk_stop (by rwa [hsame]), hsame]

structure NameAdded (look look' : ι → ν → Option (Option ι)) (S : Set ν) (i d : ι) (name : ν) (n : ι) : Prop where
  missing : look d name = some none
  other : ∀ k, NameReaches look S i k → ∀ c ∈ S, (k = d → c ≠ name) → look' k c = look k c

theorem NameAdded.nameWalk_to (h : NameAdded look look' S i d name n) (hcs : ∀ c ∈ cs, c ∈ S) (hj : NameReaches look S i j)
    (hw : nameWalk look j cs = some (some k)) : nameWalk look' j cs = some (some k) := by
  induction cs generalizing j with
  | nil => exact hw
  | cons c cs ih =>
    obtain ⟨hcS, hcs⟩ := forall_mem_cons.mp hcs
    by_cases hx : ∃ x, look j c = some (some x)
    · obtain ⟨x, hx⟩ := hx
      have hold : j = d → c ≠ name := by
        rintro rfl rfl
        rw [h.missing] at hx
        cases hx
      rw [nameWalk_cons hx] at hw
      rw [nameWalk_cons ((h.other j hj c hcS hold).trans hx)]
      exact ih hcs (hj.tail hcS hx) hw
    · have hx := not_exists.mp hx
      rw [nameWalk_stop hx] at hw
      exact absurd hw (hx k)

/-- Any other walk is as before, or it comes to `n`. -/
theorem NameAdded.nameWalk_other (h : NameAdded look look' S i d name n) (hnew : look' d name = some (some n))
    (hcs : ∀ c ∈ cs, c ∈ S) (hj : NameReaches look S i j) :
    (∃ ds, ds <+: cs ∧ nameWalk look' j ds = some (some n)) ∨ nameWalk look' j cs = nameWalk look j cs := by
  induction cs generalizing j with
  | nil => exact .inr rfl
  | cons c cs ih =>
    obtain ⟨hcS, hcs⟩ := forall_mem_cons.mp hcs
    by_cases hold : j = d → c ≠ name
    · have hsame := h.other j hj c hcS hold
      by_cases hx : ∃ x, look j c = some (some x)
      · obtain ⟨x, hx⟩ := hx
        have hx' := hsame.trans hx
        rw [nameWalk_cons hx, nameWalk_cons hx']
        rcases ih hcs (hj.tail hcS hx) with ⟨ds, hds, hw⟩ | hw
        · exact .inl ⟨c :: ds, cons_prefix_cons.mpr ⟨rfl, hds⟩, by rwa [nameWalk_cons hx']⟩
        · exact .inr hw
      · have hx := not_exists.mp hx
        exact .inr (by rw [nameWalk_stop hx, nameWalk_stop (by rwa [hsame]), hsame])
    · obtain ⟨rfl, hname⟩ := Classical.not_imp.mp hold
      obtain rfl := not_not.mp hname
      refine .inl ⟨[c], cons_prefix_cons.mpr ⟨rfl, nil_prefix⟩, ?_⟩
      rw [nameWalk_cons hnew]
      rfl

end
end RetroOs.Lib
