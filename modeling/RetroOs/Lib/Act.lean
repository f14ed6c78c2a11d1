import RetroOs.Lib.Runs

/-! Programs that act on a machine, known by the actions they take, and when two conditions on single
actions agree along all that a program does. -/
namespace RetroOs.Lib
variable {σ ι α β : Type} {exec : σ → ι → σ}

theorem Along.append {P : σ → ι → Prop} {s : σ} {es fs : List ι} :
    Along exec P s (es ++ fs) ↔ Along exec P s es ∧ Along exec P (es.foldl exec s) fs := by
  induction es generalizing s with
  | nil => simp [Along]
  | cons e es ih => exact (and_congr_right' ih).trans and_assoc.symm

theorem Along.of_forall {P : σ → ι → Prop} {s : σ} {es : List ι} (h : ∀ e ∈ es, ∀ s, P s e) : Along exec P s es := by
  induction es generalizing s with
  | nil => trivial
  | cons e es ih => exact ⟨h e (.head _) s, ih fun e' he => h e' (.tail _ he)⟩

/-- From each state the actions taken, in order, and the result unless the program stops. -/
def Act (_ : σ → ι → σ) (α : Type) : Type := σ → List ι × Option α

namespace Act

def actions (x : Act exec α) (s : σ) : List ι := (x s).1

def result (x : Act exec α) (s : σ) : Option α := (x s).2

def final (x : Act exec α) (s : σ) : σ := (x.actions s).foldl exec s

protected def bind (x : Act exec α) (f : α → Act exec β) : Act exec β := fun s =>
  match x.result s with
  | none => (x.actions s, none)
  | some a => (x.actions s ++ (f a).actions (x.final s), (f a).result (x.final s))

instance : Monad (Act exec) where
  pure a _ := ([], some a)
  bind := Act.bind

/-- Look at the state. -/
def read (f : σ → α) : Act exec α := fun s => ([], some (f s))

def perform (e : ι) : Act exec Unit := fun _ => ([e], some ())

/-- Never return. -/
def stop : Act exec α := fun _ => ([], none)

section
variable {x : Act exec α} {f : α → Act exec β} {s : σ} {a : α}

theorem bind_stopped (h : x.result s = none) :
    (x >>= f).actions s = x.actions s ∧ (x >>= f).result s = none := by
  have hb : Act.bind x f s = (x.actions s, none) := by rw [Act.bind, h]
  exact Prod.mk.inj hb

theorem bind_returned (h : x.result s = some a) :
    (x >>= f).actions s = x.actions s ++ (f a).actions (x.final s) ∧
      (x >>= f).result s = (f a).result (x.final s) := by
  have hb : Act.bind x f s = (x.actions s ++ (f a).actions (x.final s), (f a).result (x.final s)) := by
    rw [Act.bind, h]
  exact Prod.mk.inj hb

theorem final_bind (h : x.result s = some a) : (x >>= f).final s = (f a).final (x.final s) := by
  rw [final, (bind_returned h).1, List.foldl_append]
  rfl

end

/-- The program takes the actions in order, returns, and leaves the machine in a state. -/
def Returns (x : Act exec α) (s : σ) (es : List ι) (a : α) (t : σ) : Prop :=
  x.actions s = es ∧ x.result s = some a ∧ x.final s = t

section
variable {x : Act exec α} {f : α → Act exec β} {s t u : σ} {es : List ι} {a : α} {b : β} {e : ι}

theorem returns_of_result (h : x.result s = some a) : x.Returns s (x.actions s) a (x.final s) := ⟨rfl, h, rfl⟩

theorem returns_bind : (x >>= f).Returns s es b u ↔
    ∃ fs gs a t, x.Returns s fs a t ∧ (f a).Returns t gs b u ∧ es = fs ++ gs := by
  constructor
  · rintro ⟨rfl, hr, rfl⟩
    cases hx : x.result s with
    | none =>
      rw [(bind_stopped hx).2] at hr
      cases hr
    | some a =>
      obtain ⟨ha, hf⟩ := bind_returned (f := f) hx
      exact ⟨_, _, a, _, returns_of_result hx, ⟨rfl, hf.symm.trans hr, (final_bind hx).symm⟩, ha⟩
  · rintro ⟨fs, gs, a, t, ⟨rfl, hx, rfl⟩, ⟨rfl, hr, rfl⟩, rfl⟩
    obtain ⟨ha, hf⟩ := bind_returned (f := f) hx
    exact ⟨ha, hf.trans hr, final_bind hx⟩

@[simp] theorem returns_pure {b : α} : (pure a : Act exec α).Returns s es b t ↔ es = [] ∧ b = a ∧ t = s := by
  constructor
  · rintro ⟨rfl, hr, rfl⟩
    exact ⟨rfl, (Option.some.inj hr).symm, rfl⟩
  · rintro ⟨rfl, rfl, rfl⟩
    exact ⟨rfl, rfl, rfl⟩

@[simp] theorem returns_read {f : σ → α} {b : α} : (read f : Act exec α).Returns s es b t ↔ es = [] ∧ b = f s ∧ t = s := by
  constructor
  · rintro ⟨rfl, hr, rfl⟩
    exact ⟨rfl, (Option.some.inj hr).symm, rfl⟩
  · rintro ⟨rfl, rfl, rfl⟩
    exact ⟨rfl, rfl, rfl⟩

@[simp] theorem returns_perform {b : Unit} : (perform e : Act exec Unit).Returns s es b t ↔ es = [e] ∧ t = exec s e := by
  constructor
  · rintro ⟨rfl, -, rfl⟩
    exact ⟨rfl, rfl⟩
  · rintro ⟨rfl, rfl⟩
    exact ⟨rfl, rfl, rfl⟩

@[simp] theorem returns_read_bind {g : σ → α} : (read g >>= f).Returns s es b t ↔ (f (g s)).Returns s es b t := by
  constructor
  · intro h
    obtain ⟨fs, gs, a, u, hread, h, rfl⟩ := returns_bind.mp h
    obtain ⟨rfl, rfl, rfl⟩ := returns_read.mp hread
    exact h
  · exact fun h => returns_bind.mpr ⟨[], es, g s, s, returns_read.mpr ⟨rfl, rfl, rfl⟩, h, rfl⟩

@[simp] theorem returns_perform_bind {f : Unit → Act exec β} : (perform e >>= f).Returns s es b t ↔
    ∃ gs, (f ()).Returns (exec s e) gs b t ∧ es = e :: gs := by
  constructor
  · intro h
    obtain ⟨fs, gs, a, u, hdo, h, rfl⟩ := returns_bind.mp h
    obtain ⟨rfl, rfl⟩ := returns_perform.mp hdo
    exact ⟨gs, h, rfl⟩
  · rintro ⟨gs, h, rfl⟩
    exact returns_bind.mpr ⟨[e], gs, (), exec s e, returns_perform.mpr ⟨rfl, rfl⟩, h, rfl⟩

@[simp] theorem not_returns_stop : ¬ (stop : Act exec α).Returns s es a t := fun h => nomatch h.2.1

end

/-- From the states in `pre` the conditions agree along the program, and where they hold it ends in
`post`. -/
def Agree (P Q : σ → ι → Prop) (pre : σ → Prop) (x : Act exec α) (post : α → σ → Prop) : Prop :=
  ∀ s, pre s → (Along exec P s (x.actions s) ↔ Along exec Q s (x.actions s)) ∧
    (Along exec P s (x.actions s) → ∀ a, x.result s = some a → post a (x.final s))

namespace Agree
variable {P Q : σ → ι → Prop} {pre pre' : σ → Prop} {x : Act exec α} {post post' : α → σ → Prop}

theorem weaken (h : Agree P Q pre x post) (hpre : ∀ s, pre' s → pre s) (hpost : ∀ a s, post a s → post' a s) :
    Agree P Q pre' x post' := fun s hs =>
  have hx := h s (hpre s hs)
  ⟨hx.1, fun hp a ha => hpost a _ (hx.2 hp a ha)⟩

theorem pure {a : α} (h : ∀ s, pre s → post a s) : Agree P Q pre (Pure.pure a : Act exec α) post := fun s hs =>
  ⟨Iff.rfl, fun _ _ ha => Option.some.inj ha ▸ h s hs⟩

theorem read {f : σ → α} (h : ∀ s, pre s → post (f s) s) : Agree P Q pre (Act.read f : Act exec α) post := fun s hs =>
  ⟨Iff.rfl, fun _ _ ha => Option.some.inj ha ▸ h s hs⟩

theorem stop : Agree P Q pre (Act.stop : Act exec α) post := fun _ _ =>
  ⟨Iff.rfl, fun _ _ ha => nomatch ha⟩

theorem perform {e : ι} {post : Unit → σ → Prop} (h : ∀ s, pre s → (P s e ↔ Q s e))
    (hpost : ∀ s, pre s → P s e → post () (exec s e)) :
    Agree P Q pre (Act.perform e : Act exec Unit) post := fun s hs =>
  ⟨and_congr (h s hs) Iff.rfl, fun hp _ _ => hpost s hs hp.1⟩

theorem bind {f : α → Act exec β} {mid : α → σ → Prop} {post : β → σ → Prop} (hx : Agree P Q pre x mid)
    (hf : ∀ a, Agree P Q (mid a) (f a) post) : Agree P Q pre (x >>= f) post := by
  intro s hs
  obtain ⟨hiff, hmid⟩ := hx s hs
  cases hr : x.result s with
  | none =>
    obtain ⟨ha, hn⟩ := bind_stopped (f := f) hr
    rw [ha, hn]
    exact ⟨hiff, fun _ _ hc => nomatch hc⟩
  | some a =>
    obtain ⟨ha, hn⟩ := bind_returned (f := f) hr
    rw [ha, hn, final_bind hr, Along.append, Along.append]
    constructor
    · constructor
      · rintro ⟨hp, hq⟩
        exact ⟨hiff.mp hp, (hf a _ (hmid hp a hr)).1.mp hq⟩
      · rintro ⟨hp, hq⟩
        have hp' := hiff.mpr hp
        exact ⟨hp', (hf a _ (hmid hp' a hr)).1.mpr hq⟩
    · rintro ⟨hp, hq⟩ b hb
      exact (hf a _ (hmid hp a hr)).2 hq b hb

end Agree
end Act
end RetroOs.Lib
