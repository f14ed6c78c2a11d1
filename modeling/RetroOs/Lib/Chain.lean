import Mathlib.Data.List.Basic

/-! Linked chains: the nodes met by following `next` from a head until `stop` holds. -/
namespace RetroOs.Lib
open List
variable {α : Type}

/-- Following `next` from `h` visits exactly the nodes of the list and arrives at `k`. -/
def Path (stop : α → Prop) (next : α → α) : α → List α → α → Prop
  | h, [], k => h = k
  | h, a :: l, k => h = a ∧ ¬ stop a ∧ Path stop next (next a) l k

/-- A path that arrives at a stopping value. -/
def Chain (stop : α → Prop) (next : α → α) (h : α) (l : List α) : Prop :=
  ∃ k, stop k ∧ Path stop next h l k

section
variable {stop : α → Prop} {next next' : α → α} {h k a c : α} {l l' : List α} {xs ys : List α}

theorem Path.congr (hp : Path stop next h l k) (he : ∀ a ∈ l, next' a = next a) :
    Path stop next' h l k := by
  induction l generalizing h with
  | nil => exact hp
  | cons a l ih =>
    obtain ⟨rfl, hs, hp⟩ := hp
    refine ⟨rfl, hs, ?_⟩
    rw [he h (by simp)]
    exact ih hp (fun b hb => he b (by simp [hb]))

theorem path_append :
    Path stop next h (l ++ l') k ↔ ∃ m, Path stop next h l m ∧ Path stop next m l' k := by
  induction l generalizing h with
  | nil => simp [Path]
  | cons a l ih => simp only [cons_append, Path, ih, ← exists_and_left, and_assoc]

theorem Path.not_stop (hp : Path stop next h l k) (ha : a ∈ l) : ¬ stop a := by
  induction l generalizing h with
  | nil => simp at ha
  | cons b l ih =>
    rcases mem_cons.mp ha with rfl | ha
    · exact hp.2.1
    · exact ih hp.2.2 ha

@[simp] theorem chain_nil : Chain stop next h [] ↔ stop h := by
  simp [Chain, Path]

@[simp] theorem chain_cons :
    Chain stop next h (a :: l) ↔ h = a ∧ ¬ stop a ∧ Chain stop next (next a) l := by
  simp only [Chain, Path]
  constructor
  · rintro ⟨k, hk, he, hs, hp⟩
    exact ⟨he, hs, k, hk, hp⟩
  · rintro ⟨he, hs, k, hk, hp⟩
    exact ⟨k, hk, he, hs, hp⟩

theorem Chain.congr (hc : Chain stop next h l) (he : ∀ a ∈ l, next' a = next a) :
    Chain stop next' h l := by
  obtain ⟨k, hk, hp⟩ := hc
  exact ⟨k, hk, hp.congr he⟩

theorem Chain.not_stop (hc : Chain stop next h l) (ha : a ∈ l) : ¬ stop a := by
  obtain ⟨k, _, hp⟩ := hc
  exact hp.not_stop ha

theorem Chain.mem_next (hc : Chain stop next h l) (ha : a ∈ l) : a = h ∨ ∃ b, a = next b := by
  induction l generalizing h with
  | nil => exact absurd ha not_mem_nil
  | cons c l ih =>
    obtain ⟨rfl, -, hc⟩ := chain_cons.mp hc
    rcases mem_cons.mp ha with rfl | ha
    · exact .inl rfl
    · exact .inr ((ih hc ha).elim (fun he => ⟨_, he⟩) id)

theorem chain_append :
    Chain stop next h (l ++ l') ↔ ∃ m, Path stop next h l m ∧ Chain stop next m l' := by
  simp only [Chain, path_append]
  constructor
  · rintro ⟨k, hk, m, hp, hq⟩
    exact ⟨m, hp, k, hk, hq⟩
  · rintro ⟨m, hp, k, hk, hq⟩
    exact ⟨k, hk, m, hp, hq⟩

theorem Chain.unique (hc : Chain stop next h l) (hc' : Chain stop next h l') : l = l' := by
  induction l generalizing h l' with
  | nil =>
    cases l' with
    | nil => rfl
    | cons b l' =>
      obtain ⟨rfl, hs, _⟩ := chain_cons.mp hc'
      exact absurd (chain_nil.mp hc) hs
  | cons a l ih =>
    obtain ⟨rfl, hs, hc⟩ := chain_cons.mp hc
    cases l' with
    | nil => exact absurd (chain_nil.mp hc') hs
    | cons b l' =>
      obtain ⟨rfl, _, hc'⟩ := chain_cons.mp hc'
      rw [ih hc hc']

theorem Chain.suffix (hc : Chain stop next h (xs ++ a :: l)) :
    Chain stop next a (a :: l) := by
  obtain ⟨m, _, hm⟩ := chain_append.mp hc
  obtain ⟨rfl, _⟩ := chain_cons.mp hm
  exact hm

theorem Chain.nodup (hc : Chain stop next h l) : l.Nodup := by
  induction l generalizing h with
  | nil => exact .nil
  | cons a l ih =>
    obtain ⟨rfl, hs, ht⟩ := chain_cons.mp hc
    refine nodup_cons.mpr ⟨fun hm => ?_, ih ht⟩
    obtain ⟨xs, ys, rfl⟩ := append_of_mem hm
    have hc' : Chain stop next h ((h :: xs) ++ h :: ys) := hc
    have he := hc'.suffix.unique hc
    have hl := congrArg length he
    simp only [length_cons, length_append] at hl
    omega

/-- Redirecting `a` past its successor `c` removes `c` from the chain. -/
theorem Chain.unlink (hc : Chain stop next h (xs ++ a :: c :: ys))
    (ha : next' a = next c) (he : ∀ b ∈ xs ++ ys, next' b = next b) :
    Chain stop next' h (xs ++ a :: ys) := by
  obtain ⟨m, hp, hm⟩ := chain_append.mp hc
  obtain ⟨rfl, hs, hm⟩ := chain_cons.mp hm
  obtain ⟨_, _, hm⟩ := chain_cons.mp hm
  refine chain_append.mpr ⟨m, hp.congr fun b hb => he b (by simp [hb]), ?_⟩
  refine chain_cons.mpr ⟨rfl, hs, ?_⟩
  rw [ha]
  exact hm.congr fun b hb => he b (by simp [hb])

/-- A node `c` put between `a` and its successor. -/
theorem Chain.insert (hc : Chain stop next h (xs ++ a :: ys)) (ha : next' a = c) (hn : next' c = next a)
    (hs : ¬ stop c) (he : ∀ b ∈ xs ++ ys, next' b = next b) : Chain stop next' h (xs ++ a :: c :: ys) := by
  obtain ⟨m, hp, hm⟩ := chain_append.mp hc
  obtain ⟨rfl, hs', hm⟩ := chain_cons.mp hm
  refine chain_append.mpr ⟨m, hp.congr fun b hb => he b (by simp [hb]), ?_⟩
  refine chain_cons.mpr ⟨rfl, hs', ?_⟩
  rw [ha]
  refine chain_cons.mpr ⟨rfl, hs, ?_⟩
  rw [hn]
  exact hm.congr fun b hb => he b (by simp [hb])

end
end RetroOs.Lib
