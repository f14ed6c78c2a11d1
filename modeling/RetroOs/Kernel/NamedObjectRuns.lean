import RetroOs.Kernel.MessageQueue
import RetroOs.Lib.Tally

/-! Runs of the calls that open, close and unlink named semaphores, message queues and shared memory objects: what their
tables hold are the objects that were made under names and are still of use. -/
namespace RetroOs.Kernel
open Lib Option Function NamedTable MessageQueues List

/-- An object in the order of making, the name it was made under, how often it is open and whether its name is given
up. -/
structure NamedObject where
  serial : ℕ
  name : CString
  opens : ℕ
  unlinked : Bool
  deriving DecidableEq

/-- Without a name an object ends with its last close. -/
def NamedObject.kept (o : NamedObject) : Option NamedObject := if o.unlinked ∧ o.opens = 0 then none else some o

/-- A table, with the object at each entry as the calls so far make it. -/
structure NamedRun (n : ℕ) (α : Type) where
  table : NamedTable n α
  objects : Fin n → Option NamedObject
  made : ℕ

namespace NamedRun
variable {n : ℕ} {α : Type}

def opened (s : NamedRun n α) (table : NamedTable n α) (name : Option CString) (slot : Option (Fin n)) : NamedRun n α :=
  match slot with
  | none => { s with table }
  | some i =>
    match s.objects i with
    | none =>
      { table
        objects := Function.update s.objects i (some { serial := s.made, name := name.getD [], opens := 1, unlinked := false })
        made := s.made + 1 }
    | some o => { s with table, objects := Function.update s.objects i (some { o with opens := o.opens + 1 }) }

def closed (s : NamedRun n α) (table : NamedTable n α) (i : Fin n) : NamedRun n α :=
  { s with table, objects := Function.update s.objects i ((s.objects i).bind fun o => NamedObject.kept { o with opens := o.opens - 1 }) }

def unlinked (s : NamedRun n α) (table : NamedTable n α) (name : Option CString) : NamedRun n α :=
  { s with
    table
    objects := fun i => (s.objects i).bind fun o => if name = some o.name then NamedObject.kept { o with unlinked := true } else some o }

def Live (s : NamedRun n α) (name : CString) (i : Fin n) : Prop :=
  ∃ o, s.objects i = some o ∧ o.name = name ∧ o.unlinked = false

/-- A name is that of one object, and the entries that are free are those without an object. -/
structure Lawful (s : NamedRun n α) : Prop where
  unique : ∀ name i j, s.Live name i → s.Live name j → i = j
  available : ∀ i, (s.table i).name = [] ↔ s.objects i = none
  last : ∀ i o, s.objects i = some o → o.unlinked = true → 0 < o.opens
  distinct : ∀ i j o p, s.objects i = some o → s.objects j = some p → o.serial = p.serial → i = j

/-- The entry that a call to open gives is that of the object of the name; if there is none it is a free one, and if
there is none either or the call is not to make an object it fails. -/
def Answers (s : NamedRun n α) (name : CString) (oflag : Word) (slot : Option (Fin n)) : Prop :=
  (∀ i, s.Live name i → slot = if oflag &&& oCreat ≠ 0 ∧ oflag &&& oExcl ≠ 0 then none else some i) ∧
    ((∀ i, ¬ s.Live name i) →
      match slot with
      | some i => oflag &&& oCreat ≠ 0 ∧ s.objects i = none
      | none => oflag &&& oCreat = 0 ∨ ∀ i, s.objects i ≠ none)

/-- A call to open makes an object. -/
def Makes (s : NamedRun n α) (name : CString) (oflag : Word) : Prop :=
  oflag &&& oCreat ≠ 0 ∧ s.table.lookup name = none ∧ s.table.freeSlot ≠ none

/-- The name of an object that is made has 63 characters at most; one that is found is not unlinked, and is not open
2^31 - 1 times. -/
def MeetsOpen (s : NamedRun n α) (name : CString) (oflag : Word) : Prop :=
  (s.Makes name oflag → name.length ≤ 63) ∧
    ∀ i ∈ s.table.lookup name, (s.table i).unlinked = false ∧ (s.table i).refCount.toInt < 2 ^ 31 - 1

/-- What is closed is open, or there is nothing at the entry. -/
def MeetsClose (s : NamedRun n α) (i : Fin n) : Prop := (s.table i).name = [] ∨ 0 < (s.table i).refCount.toInt

instance (s : NamedRun n α) (name : CString) (oflag : Word) : Decidable (s.Makes name oflag) :=
  inferInstanceAs (Decidable (_ ∧ _ ∧ _))

instance (s : NamedRun n α) (name : CString) (oflag : Word) : Decidable (s.MeetsOpen name oflag) :=
  inferInstanceAs (Decidable (_ ∧ _))

instance (s : NamedRun n α) (i : Fin n) : Decidable (s.MeetsClose i) := inferInstanceAs (Decidable (_ ∨ _))

/-- An entry and its object agree; the references are counted down where there is a call to close. -/
def Agree (closes : Bool) (made : ℕ) (e : Named α) : Option NamedObject → Prop
  | none => e.name = []
  | some o =>
    e.name = o.name ∧ o.name ≠ [] ∧ e.unlinked = o.unlinked ∧ (o.unlinked = true → 0 < o.opens) ∧ o.serial < made ∧
      if closes then e.refCount.toInt = o.opens else 0 < e.refCount.toInt

structure Inv (closes : Bool) (s : NamedRun n α) : Prop where
  entries : ∀ i, Agree closes s.made (s.table i) (s.objects i)
  names : ∀ i j, (s.table i).name ≠ [] → (s.table i).name = (s.table j).name → i = j
  serials : ∀ i j o p, s.objects i = some o → s.objects j = some p → o.serial = p.serial → i = j

variable {closes : Bool} {s t : NamedRun n α} {f : NamedFamily α} {table : NamedTable n α} {name : CString} {oflag : Word}
  {i j : Fin n} {o p : NamedObject} {e : Named α} {made : ℕ} {new : Option NamedObject}

theorem Inv.entry (h : s.Inv closes) (hi : s.objects i = some o) : Agree closes s.made (s.table i) (some o) := hi ▸ h.entries i

theorem Inv.available (h : s.Inv closes) (i : Fin n) : (s.table i).name = [] ↔ s.objects i = none := by
  cases hi : s.objects i with
  | none =>
    have hentry := h.entries i
    rw [hi] at hentry
    exact iff_of_true hentry rfl
  | some o =>
    obtain ⟨hname, hne, -⟩ := h.entry hi
    exact iff_of_false (fun hz => hne (hname ▸ hz)) (Option.some_ne_none o)

theorem Inv.live_name (h : s.Inv closes) (hi : s.Live name i) : (s.table i).name = name ∧ (s.table i).name ≠ [] ∧ (s.table i).unlinked = false := by
  obtain ⟨o, ho, rfl, hun⟩ := hi
  obtain ⟨hname, hne, hun', -⟩ := h.entry ho
  exact ⟨hname, hname ▸ hne, hun'.trans hun⟩

theorem Inv.lawful (h : s.Inv closes) : s.Lawful where
  unique name i j hi hj := by
    obtain ⟨hi, hne, -⟩ := h.live_name hi
    exact h.names i j hne (hi.trans (h.live_name hj).1.symm)
  available := h.available
  last i o ho := by
    obtain ⟨-, -, -, hlast, -⟩ := h.entry ho
    exact hlast
  distinct := h.serials

theorem Inv.lookup_iff (h : s.Inv closes) (hne : name ≠ []) : s.table.lookup name = some i ↔ (s.table i).name = name := by
  refine ⟨fun hl => (NamedTable.lookup_some hl).2, fun hi => ?_⟩
  cases hl : s.table.lookup name with
  | none => exact absurd (NamedTable.lookup_none hl hi) hne
  | some j =>
    obtain ⟨hj, hname⟩ := NamedTable.lookup_some hl
    rw [h.names j i hj (hname.trans hi.symm)]

theorem Agree.mono {o : Option NamedObject} (h : Agree closes made e o) {made' : ℕ} (hle : made ≤ made') : Agree closes made' e o := by
  cases o with
  | none => exact h
  | some o =>
    obtain ⟨hname, hne, hun, hlast, hserial, hcount⟩ := h
    exact ⟨hname, hne, hun, hlast, hserial.trans_le hle, hcount⟩

theorem Inv.update (h : s.Inv closes) (hmade : s.made ≤ made) (hnew : Agree closes made e new)
    (hname : ∀ j ≠ i, e.name ≠ [] → (s.table j).name ≠ e.name)
    (hserial : ∀ j ≠ i, ∀ o p, new = some o → s.objects j = some p → p.serial ≠ o.serial) :
    Inv closes { table := s.table.setEntry i e, objects := Function.update s.objects i new, made } where
  entries j := by
    by_cases hj : j = i
    · subst hj
      simpa using hnew
    · simp only [NamedTable.setEntry_other hj, Function.update_of_ne hj]
      exact (h.entries j).mono hmade
  names j k := by
    by_cases hj : j = i <;> by_cases hk : k = i
    · exact fun _ _ => hj.trans hk.symm
    · subst hj
      simp only [NamedTable.setEntry_self, NamedTable.setEntry_other hk]
      exact fun hne heq => absurd heq.symm (hname k hk hne)
    · subst hk
      simp only [NamedTable.setEntry_self, NamedTable.setEntry_other hj]
      exact fun hne heq => absurd heq (hname j hj (heq ▸ hne))
    · simp only [NamedTable.setEntry_other hj, NamedTable.setEntry_other hk]
      exact h.names j k
  serials j k o p := by
    by_cases hj : j = i <;> by_cases hk : k = i
    · exact fun _ _ _ => hj.trans hk.symm
    · subst hj
      simp only [Function.update_self, Function.update_of_ne hk]
      exact fun ho hp heq => absurd heq.symm (hserial k hk o p ho hp)
    · subst hk
      simp only [Function.update_self, Function.update_of_ne hj]
      exact fun ho hp heq => absurd heq (hserial j hj p o hp ho)
    · simp only [Function.update_of_ne hj, Function.update_of_ne hk]
      exact h.serials j k o p

theorem Inv.modify (h : s.Inv closes) (ho : s.objects i = some o) (hnew : Agree closes s.made e new)
    (hname : e.name ≠ [] → e.name = (s.table i).name) (hserial : ∀ p ∈ new, p.serial = o.serial) :
    Inv closes { s with table := s.table.setEntry i e, objects := Function.update s.objects i new } := by
  refine h.update (Nat.le_refl _) hnew (fun j hj hne heq => ?_) fun j hj p q hp hq heq => ?_
  · rw [hname hne] at heq
    exact hj (h.names j i (heq ▸ hname hne ▸ hne) heq)
  · exact hj (h.serials j i q o hq ho (heq.trans (hserial p hp)))

theorem openObject_cases (t : NamedTable n α) (f : NamedFamily α) (name : CString) (oflag : Word) (hs : name.head? = some NamedTable.slash) :
    (∃ i, t.lookup name = some i ∧ oflag &&& oCreat ≠ 0 ∧ oflag &&& oExcl ≠ 0 ∧ t.openObject f (some name) oflag = (t, none)) ∨
      (∃ i, t.lookup name = some i ∧ ¬(oflag &&& oCreat ≠ 0 ∧ oflag &&& oExcl ≠ 0) ∧
        t.openObject f (some name) oflag = (t.setEntry i { t i with refCount := (t i).refCount + 1 }, some i)) ∨
      (t.lookup name = none ∧ (oflag &&& oCreat = 0 ∨ t.freeSlot = none) ∧ t.openObject f (some name) oflag = (t, none)) ∨
      ∃ i, t.lookup name = none ∧ oflag &&& oCreat ≠ 0 ∧ t.freeSlot = some i ∧
        t.openObject f (some name) oflag = (t.create f i name, some i) := by
  simp only [NamedTable.openObject, hs, ne_eq, not_true_eq_false, if_false]
  cases hl : t.lookup name with
  | some i =>
    dsimp only
    split_ifs with hexcl
    · exact .inl ⟨i, rfl, hexcl.1, hexcl.2, rfl⟩
    · exact .inr (.inl ⟨i, rfl, hexcl, rfl⟩)
  | none =>
    dsimp only
    split_ifs with hcreat
    · exact .inr (.inr (.inl ⟨rfl, .inl hcreat, rfl⟩))
    · cases hfree : t.freeSlot with
      | none => exact .inr (.inr (.inl ⟨rfl, .inr rfl, rfl⟩))
      | some i => exact .inr (.inr (.inr ⟨i, rfl, hcreat, rfl, rfl⟩))

theorem openObject_refused {name : Option CString} (t : NamedTable n α) (f : NamedFamily α)
    (h : ∀ s ∈ name, s.head? ≠ some NamedTable.slash) : t.openObject f name oflag = (t, none) := by
  cases name with
  | none => rfl
  | some name =>
    rw [NamedTable.openObject, if_pos (h name rfl)]

theorem Inv.opened (h : s.Inv closes) (f : NamedFamily α) (hs : name.head? = some NamedTable.slash) (hm : s.MeetsOpen name oflag) :
    let r := s.table.openObject f (some name) oflag
    (s.opened r.1 (some name) r.2).Inv closes ∧ s.Answers name oflag r.2 := by
  have hne : name ≠ [] := by
    rintro rfl
    cases hs
  have hlive : ∀ i, s.table.lookup name = some i → s.Live name i := by
    intro i hl
    obtain ⟨hi, hname⟩ := NamedTable.lookup_some hl
    cases ho : s.objects i with
    | none => exact absurd ((h.available i).mpr ho) hi
    | some o =>
      obtain ⟨hstored, -, hun, -⟩ := h.entry ho
      exact ⟨o, ho, hstored ▸ hname, hun ▸ (hm.2 i hl).1⟩
  have hfound : ∀ i j, s.table.lookup name = some i → s.Live name j → j = i := by
    intro i j hl hj
    have hlook := (h.lookup_iff hne).mpr (h.live_name hj).1
    exact Option.some.inj (hlook.symm.trans hl)
  have hnone : s.table.lookup name = none → ∀ i, ¬ s.Live name i := by
    intro hl i hi
    rw [(h.lookup_iff hne).mpr (h.live_name hi).1] at hl
    cases hl
  rcases openObject_cases s.table f name oflag hs with
    ⟨i, hl, hcreat, hexcl, heq⟩ | ⟨i, hl, hexcl, heq⟩ | ⟨hl, hno, heq⟩ | ⟨i, hl, hcreat, hfree, heq⟩
  · rw [heq]
    refine ⟨h, fun j hj => (if_pos ⟨hcreat, hexcl⟩).symm, fun hno => absurd (hlive i hl) (hno i)⟩
  · rw [heq]
    refine ⟨?_, fun j hj => ?_, fun hno => absurd (hlive i hl) (hno i)⟩
    · obtain ⟨o, ho, -, -⟩ := hlive i hl
      obtain ⟨hname, hne', hun, -, hserial, hcount⟩ := h.entry ho
      have hroom := toInt_succ (hm.2 i hl).2
      simp only [NamedRun.opened, ho]
      refine h.modify ho ⟨hname, hne', hun, fun _ => Nat.succ_pos _, hserial, ?_⟩ (fun _ => rfl) ?_
      · simp only [hroom]
        cases closes
        · simp only [Bool.false_eq_true, if_false] at hcount ⊢
          omega
        · simp only [if_true] at hcount ⊢
          rw [hcount]
          rfl
      · intro p hp
        rw [← Option.some.inj hp]
    · rw [if_neg hexcl, hfound i j hl hj]
  · rw [heq]
    refine ⟨h, fun j hj => absurd hj (hnone hl j), fun _ => hno.imp_right fun hfree i hi => ?_⟩
    exact NamedTable.freeSlot_none hfree i ((h.available i).mpr hi)
  · rw [heq]
    have hempty := (h.available i).mp (NamedTable.freeSlot_some hfree)
    refine ⟨?_, fun j hj => absurd hj (hnone hl j), fun _ => ⟨hcreat, hempty⟩⟩
    have hshort := hm.1 ⟨hcreat, hl, by rw [hfree]; exact Option.some_ne_none i⟩
    simp only [NamedRun.opened, hempty, NamedTable.create, List.take_of_length_le hshort]
    refine h.update (Nat.le_succ _) ⟨rfl, hne, rfl, fun _ => Nat.one_pos, Nat.lt_succ_self _, ?_⟩ (fun j _ _ hj => ?_) ?_
    · cases closes
      · exact Int.one_pos
      · rfl
    · have hlook := (h.lookup_iff hne).mpr hj
      rw [hl] at hlook
      cases hlook
    · intro j _ o p ho hp
      obtain ⟨-, -, -, -, hserial, -⟩ := h.entry hp
      rw [← Option.some.inj ho]
      exact hserial.ne

def settled (f : NamedFamily α) (e : Named α) : Named α :=
  if e.refCount.toInt ≤ 0 ∧ e.unlinked then { e with name := [], object := f.release e.object } else e

private theorem settle_set (t : NamedTable n α) (f : NamedFamily α) (i : Fin n) (e : Named α) :
    (t.setEntry i e).settle f i = t.setEntry i (settled f e) := by
  rw [NamedTable.settle, NamedTable.setEntry_self, settled]
  split_ifs
  · exact Function.update_idem ..
  · rfl

private theorem settled_name (f : NamedFamily α) (e : Named α) : (settled f e).name ≠ [] → (settled f e).name = e.name := by
  rw [settled]
  split_ifs
  · exact fun hne => absurd rfl hne
  · exact fun _ => rfl

private theorem kept_serial (ho : o.kept = some p) : p.serial = o.serial := by
  rw [NamedObject.kept] at ho
  split_ifs at ho
  rw [← Option.some.inj ho]

private theorem agree_kept (hname : e.name = o.name) (hne : o.name ≠ []) (hun : e.unlinked = o.unlinked) (hserial : o.serial < made)
    (hcount : if closes then e.refCount.toInt = o.opens else 0 < e.refCount.toInt)
    (hopen : closes = false → o.unlinked = true → 0 < o.opens) (f : NamedFamily α) : Agree closes made (settled f e) o.kept := by
  have hend : e.refCount.toInt ≤ 0 ∧ e.unlinked = true ↔ o.unlinked = true ∧ o.opens = 0 := by
    rw [hun]
    cases closes with
    | false =>
      exact iff_of_false (fun hz => hcount.not_ge hz.1) fun hz => (hopen rfl hz.1).ne' hz.2
    | true =>
      rw [hcount]
      constructor
      · exact fun hz => ⟨hz.2, by omega⟩
      · exact fun hz => ⟨by omega, hz.1⟩
  rw [NamedObject.kept, settled, if_congr hend rfl rfl]
  split_ifs with hz
  · rfl
  · exact ⟨hname, hne, hun, fun ho => Nat.pos_of_ne_zero fun h0 => hz ⟨ho, h0⟩, hserial, hcount⟩

theorem Inv.settle (h : s.Inv closes) (ho : s.objects i = some o) (hname : e.name = (s.table i).name) (hp : p.name = o.name)
    (hserial : p.serial = o.serial) (hun : e.unlinked = p.unlinked)
    (hcount : if closes then e.refCount.toInt = p.opens else 0 < e.refCount.toInt)
    (hopen : closes = false → p.unlinked = true → 0 < p.opens) (f : NamedFamily α) :
    Inv closes { s with table := (s.table.setEntry i e).settle f i, objects := Function.update s.objects i p.kept } := by
  obtain ⟨hstored, hne, -, -, hmade, -⟩ := h.entry ho
  rw [settle_set]
  refine h.modify ho (agree_kept ?_ (hp ▸ hne) hun (hserial ▸ hmade) hcount hopen f) ?_ fun q hq => (kept_serial hq).trans hserial
  · rw [hname, hstored, hp]
  · exact fun hne => (settled_name f e hne).trans hname

theorem Inv.settle_free (h : s.Inv closes) (ho : s.objects i = none) (he : e.name = []) (f : NamedFamily α) :
    Inv closes { s with table := (s.table.setEntry i e).settle f i } := by
  have hempty : (settled f e).name = [] := by
    by_contra hne
    exact hne ((settled_name f e hne).trans he)
  have hnew : Agree closes s.made (settled f e) none := hempty
  have hupdate := h.update (i := i) (Nat.le_refl _) hnew (fun j _ hne => absurd hempty hne) fun j _ o p ho => nomatch ho
  rwa [← ho, update_eq_self, ← settle_set] at hupdate

theorem Inv.closed (h : s.Inv true) (f : NamedFamily α) (hm : s.MeetsClose i) : (s.closed (s.table.closeObject f i) i).Inv true := by
  rw [closeObject]
  cases ho : s.objects i with
  | none =>
    rw [NamedRun.closed, ho, Option.bind_none, ← ho, Function.update_eq_self]
    exact h.settle_free (e := { s.table i with refCount := (s.table i).refCount - 1 }) ho ((h.available i).mpr ho) f
  | some o =>
    obtain ⟨hname, hne, hun, -, -, hcount⟩ := h.entry ho
    rw [if_pos rfl] at hcount
    have hpos := hm.resolve_left fun hz => hne (hname ▸ hz)
    rw [NamedRun.closed, ho, Option.bind_some]
    refine h.settle (e := { s.table i with refCount := (s.table i).refCount - 1 }) (p := { o with opens := o.opens - 1 }) ho rfl rfl
      rfl hun ?_ (fun hz => absurd hz Bool.noConfusion) f
    simp only [toInt_pred hpos, hcount, if_true]
    omega

private theorem unlinked_of_one {name : CString} (hi : ∀ j o, s.objects j = some o → name = o.name → j = i) :
    s.unlinked table (some name) =
      { s with
        table
        objects := update s.objects i
          ((s.objects i).bind fun o => if some name = some o.name then NamedObject.kept { o with unlinked := true } else some o) } := by
  rw [NamedRun.unlinked]
  congr 1
  funext j
  by_cases hj : j = i
  · subst hj
    rw [update_self]
  · rw [update_of_ne hj]
    cases ho : s.objects j with
    | none => rfl
    | some o => exact if_neg fun heq => hj (hi j o ho (some.inj heq))

private theorem unlinked_of_none {name : Option CString} (hno : ∀ i o, s.objects i = some o → name ≠ some o.name) :
    s.unlinked table name = { s with table } := by
  have hobjects : (fun i => (s.objects i).bind fun o => if name = some o.name then NamedObject.kept { o with unlinked := true } else some o) =
      s.objects := by
    funext i
    cases ho : s.objects i with
    | none => rfl
    | some o => exact if_neg (hno i o ho)
  rw [NamedRun.unlinked, hobjects]

theorem Inv.unlinked (h : s.Inv closes) (f : NamedFamily α) (name : Option CString)
    (hopen : closes = false → ∀ i o, s.objects i = some o → name = some o.name → 0 < o.opens) :
    (s.unlinked (s.table.unlinkObject f name).1 name).Inv closes := by
  rw [unlinkObject]
  cases hfind : name.bind s.table.toUnlink with
  | none =>
    rw [unlinked_of_none]
    · exact h
    · rintro i o ho rfl
      exact toUnlink_none hfind i (h.entry ho).1
  | some i =>
    obtain ⟨name, rfl, hfound⟩ := bind_eq_some_iff.mp hfind
    have hname := toUnlink_some hfound
    cases ho : s.objects i with
    | none =>
      have hempty := (h.available i).mpr ho
      rw [unlinked_of_none]
      · exact h.settle_free (e := { s.table i with unlinked := true }) ho hempty f
      · rintro j o hj heq
        obtain ⟨-, hne, -⟩ := h.entry hj
        exact hne (Option.some.inj heq ▸ hname.symm.trans hempty)
    | some o =>
      obtain ⟨hstored, -, -, -, -, hcount⟩ := h.entry ho
      have hgiven : name = o.name := hname.symm.trans hstored
      have honly : ∀ j p, s.objects j = some p → name = p.name → j = i := by
        intro j p hj heq
        obtain ⟨hp, hne, -⟩ := h.entry hj
        exact h.names j i (hp ▸ hne) (hp.trans (heq.symm.trans hname.symm))
      have hsettle := h.settle (e := { s.table i with unlinked := true }) (p := { o with unlinked := true }) ho rfl rfl rfl rfl
        hcount (fun hz _ => hopen hz i o ho (congrArg some hgiven)) f
      rw [unlinked_of_one honly, ho, bind_some, if_pos (congrArg some hgiven)]
      exact hsettle

/-- What a call to open gives is right by the objects there are. -/
def Opens (s : NamedRun n α) (name : Option CString) (oflag : Word) (slot : Option (Fin n)) : Prop :=
  (∀ nm ∈ name, nm.head? = some slash → s.Answers nm oflag slot) ∧
    ((∀ nm ∈ name, nm.head? ≠ some slash) → slot = none)

theorem Inv.opens (h : s.Inv closes) (f : NamedFamily α) {name : Option CString}
    (hm : ∀ nm ∈ name, nm.head? = some slash → s.MeetsOpen nm oflag) :
    let r := s.table.openObject f name oflag
    (s.opened r.1 name r.2).Inv closes ∧ s.Opens name oflag r.2 := by
  by_cases hs : ∃ nm ∈ name, nm.head? = some slash
  · obtain ⟨nm, rfl, hslash⟩ := hs
    obtain ⟨hinv, hanswers⟩ := h.opened f hslash (hm nm rfl hslash)
    refine ⟨hinv, fun nm' hnm _ => ?_, fun hno => absurd hslash (hno nm rfl)⟩
    rwa [← some.inj hnm]
  · have hno : ∀ nm ∈ name, nm.head? ≠ some slash := fun nm hnm heq => hs ⟨nm, hnm, heq⟩
    rw [openObject_refused s.table f hno]
    exact ⟨h, fun nm hnm hslash => absurd hslash (hno nm hnm), fun _ => rfl⟩

theorem unlinked_not_live (s : NamedRun n α) (table : NamedTable n α) (name : CString) (i : Fin n) :
    ¬ (s.unlinked table (some name)).Live name i := by
  rintro ⟨o, ho, hname, hun⟩
  obtain ⟨p, -, hp⟩ := bind_eq_some_iff.mp ho
  split_ifs at hp with heq
  · rw [NamedObject.kept] at hp
    split_ifs at hp
    rw [← some.inj hp] at hun
    cases hun
  · cases hp
    exact heq (congrArg some hname.symm)

section
variable {P : α → Prop} {t : NamedTable n α}

theorem setEntry_object (h : P (t j).object) (he : P (t i).object → P e.object) : P (t.setEntry i e j).object := by
  by_cases hj : j = i
  · subst hj
    rw [setEntry_self]
    exact he h
  · rwa [setEntry_other hj]

variable (hf : ∀ o, P o → P (f.release o))
include hf

private theorem settle_object (h : P (t j).object) : P (t.settle f i j).object := by
  rw [settle]
  split_ifs
  · exact setEntry_object h (hf _)
  · exact h

private theorem closeObject_object (h : P (t j).object) : P (t.closeObject f i j).object := settle_object hf (setEntry_object h id)

private theorem unlinkObject_object {name : Option CString} (h : P (t j).object) : P ((t.unlinkObject f name).1 j).object := by
  rw [unlinkObject]
  cases name.bind t.toUnlink with
  | none => exact h
  | some i => exact settle_object hf (setEntry_object h id)

end

private theorem openObject_object {P : α → Prop} {t : NamedTable n α} {name : Option CString} (hf : ∀ o, P o → P (f.create o))
    (h : P (t j).object) : P ((t.openObject f name oflag).1 j).object := by
  by_cases hs : ∃ nm ∈ name, nm.head? = some slash
  · obtain ⟨nm, rfl, hslash⟩ := hs
    rcases openObject_cases t f nm oflag hslash with ⟨i, -, -, -, heq⟩ | ⟨i, -, -, heq⟩ | ⟨-, -, heq⟩ | ⟨i, -, -, -, heq⟩ <;> rw [heq]
    · exact h
    · exact setEntry_object h id
    · exact h
    · exact setEntry_object h (hf _)
  · rw [openObject_refused t f fun nm hnm heq => hs ⟨nm, hnm, heq⟩]
    exact h

end NamedRun

/-- The objects that the calls of all three families work on. -/
structure IpcObjects where
  sems : NamedRun maxNamedSems Sem
  queues : NamedRun maxMessageQueues MessageQueue
  messages : ℕ → Option Message
  shm : NamedRun maxShmObjects ShmObject
  nextShmFd : Word

/-- There is no call to close a shared memory object; that a process gives up its use of one leaves the table as it
is. -/
inductive ObjectCall where
  | semOpen (name : Option CString) (oflag : Word)
  | semClose (sem : Option (Fin maxNamedSems))
  | semUnlink (name : Option CString)
  | mqOpen (name : Option CString) (oflag : Word)
  | mqClose (mqdes : Int)
  | mqUnlink (name : Option CString)
  | shmOpen (name : Option CString) (oflag : Word)
  | shmClose (i : Fin maxShmObjects)
  | shmUnlink (name : Option CString)

namespace IpcObjects

def mqueues (s : IpcObjects) : MessageQueues := { table := s.queues.table, messages := s.messages }

def shmObjects (s : IpcObjects) : ShmObjects := { table := s.shm.table, nextShmFd := s.nextShmFd }

/-- The entry of the object with that descriptor. -/
def shmSlot (t : NamedTable maxShmObjects ShmObject) (fd : Word) : Option (Fin maxShmObjects) :=
  (finRange maxShmObjects).find? fun i => (t i).name ≠ [] ∧ (t i).object.fd = fd

def setQueues (s : IpcObjects) (q : MessageQueues) (queues : NamedRun maxMessageQueues MessageQueue) : IpcObjects :=
  { s with queues, messages := q.messages }

def setShm (s : IpcObjects) (o : ShmObjects) (shm : NamedRun maxShmObjects ShmObject) : IpcObjects := { s with shm, nextShmFd := o.nextShmFd }

def exec (s : IpcObjects) : ObjectCall → Option IpcObjects
  | .semOpen name oflag =>
    let r := Kernel.semOpen s.sems.table name oflag
    some { s with sems := s.sems.opened r.1 name r.2 }
  | .semClose sem =>
    some { s with sems := sem.elim s.sems fun i => s.sems.closed (Kernel.semClose s.sems.table sem).1 i }
  | .semUnlink name => some { s with sems := s.sems.unlinked (Kernel.semUnlink s.sems.table name).1 name }
  | .mqOpen name oflag =>
    let r := s.mqueues.mqOpen name oflag
    some (s.setQueues r.1 (s.queues.opened r.1.table name (slot r.2)))
  | .mqClose mqdes =>
    (s.mqueues.mqClose mqdes).map fun r =>
      s.setQueues r.1 ((slot mqdes).elim s.queues fun i => s.queues.closed r.1.table i)
  | .mqUnlink name => (s.mqueues.mqUnlink name).map fun r => s.setQueues r.1 (s.queues.unlinked r.1.table name)
  | .shmOpen name oflag =>
    let r := s.shmObjects.shmOpen name oflag
    some (s.setShm r.1 (s.shm.opened r.1.table name (shmSlot r.1.table r.2)))
  | .shmClose i => some { s with shm := s.shm.closed s.shm.table i }
  | .shmUnlink name =>
    let r := s.shmObjects.shmUnlink name
    some (s.setShm r.1 (s.shm.unlinked r.1.table name))

/-- A step meets the conditions of its table. A shared memory object that is unlinked stays open, and the descriptors have
not run out where one is needed. -/
def Meets (s : IpcObjects) : ObjectCall → Prop
  | .semOpen name oflag => ∀ nm ∈ name, nm.head? = some slash → s.sems.MeetsOpen nm oflag
  | .semClose sem => ∀ i ∈ sem, s.sems.MeetsClose i
  | .semUnlink _ => True
  | .mqOpen name oflag => ∀ nm ∈ name, nm.head? = some slash → s.queues.MeetsOpen nm oflag
  | .mqClose mqdes => ∀ i ∈ slot mqdes, s.queues.MeetsClose i
  | .mqUnlink _ => True
  | .shmOpen name oflag => ∀ nm ∈ name, nm.head? = some slash →
      s.shm.MeetsOpen nm oflag ∧ (s.shm.Makes nm oflag → s.nextShmFd.toInt < 2 ^ 31 - 1)
  | .shmClose i => ∀ o ∈ s.shm.objects i, o.unlinked = true → 1 < o.opens
  | .shmUnlink name => ∀ i, ∀ o ∈ s.shm.objects i, name = some o.name → 0 < o.opens

instance (s : IpcObjects) : ∀ c, Decidable (s.Meets c)
  | .semOpen name oflag => inferInstanceAs (Decidable (∀ nm ∈ name, nm.head? = some slash → s.sems.MeetsOpen nm oflag))
  | .semClose sem => inferInstanceAs (Decidable (∀ i ∈ sem, s.sems.MeetsClose i))
  | .semUnlink _ => instDecidableTrue
  | .mqOpen name oflag => inferInstanceAs (Decidable (∀ nm ∈ name, nm.head? = some slash → s.queues.MeetsOpen nm oflag))
  | .mqClose mqdes => inferInstanceAs (Decidable (∀ i ∈ slot mqdes, s.queues.MeetsClose i))
  | .mqUnlink _ => instDecidableTrue
  | .shmOpen name oflag => inferInstanceAs (Decidable (∀ nm ∈ name, nm.head? = some slash →
      s.shm.MeetsOpen nm oflag ∧ (s.shm.Makes nm oflag → s.nextShmFd.toInt < 2 ^ 31 - 1)))
  | .shmClose i => inferInstanceAs (Decidable (∀ o ∈ s.shm.objects i, o.unlinked = true → 1 < o.opens))
  | .shmUnlink name => inferInstanceAs (Decidable (∀ i, ∀ o ∈ s.shm.objects i, name = some o.name → 0 < o.opens))

def Answered (s t : IpcObjects) : ObjectCall → Prop
  | .semOpen name oflag => s.sems.Opens name oflag (Kernel.semOpen s.sems.table name oflag).2
  | .mqOpen name oflag =>
    ∃ slot, s.queues.Opens name oflag slot ∧ (s.mqueues.mqOpen name oflag).2 = slot.elim (-1 : Int) fun i => i.val
  | .shmOpen name oflag =>
    ∃ slot, s.shm.Opens name oflag slot ∧ (s.shmObjects.shmOpen name oflag).2 = slot.elim (-1) fun i => (t.shm.table i).object.fd
  | .semUnlink name => ∀ nm ∈ name, ∀ i, ¬ t.sems.Live nm i
  | .mqUnlink name => ∀ nm ∈ name, ∀ i, ¬ t.queues.Live nm i
  | .shmUnlink name => ∀ nm ∈ name, ∀ i, ¬ t.shm.Live nm i
  | _ => True

/-- The objects of each family are lawful, and those of shared memory have descriptors of their own. -/
structure Lawful (s : IpcObjects) : Prop where
  sems : s.sems.Lawful
  queues : s.queues.Lawful
  shm : s.shm.Lawful
  descriptors : ∀ i j, s.shm.objects i ≠ none → s.shm.objects j ≠ none →
    (s.shm.table i).object.fd = (s.shm.table j).object.fd → i = j
  valid : ∀ i, s.shm.objects i ≠ none → (s.shm.table i).object.fd ≠ -1

/-- The descriptors are given out in order. -/
structure InOrder (s : NamedRun maxShmObjects ShmObject) (nextShmFd : Word) : Prop where
  fds : ∀ i o, s.objects i = some o → (s.table i).object.fd.toInt = 100 + o.serial
  next : nextShmFd.toInt = 100 + s.made

structure Inv (s : IpcObjects) : Prop where
  sems : s.sems.Inv true
  queues : s.queues.Inv true
  shm : s.shm.Inv false
  heads : ∀ i, (s.queues.table i).object.head = 0
  inOrder : InOrder s.shm s.nextShmFd

/-- The tables as they are before any call. -/
def start : IpcObjects where
  sems := { table := fun _ => ⟨[], 0, false, ⟨0, 0⟩⟩, objects := fun _ => none, made := 0 }
  queues := { table := fun _ => ⟨[], 0, false, ⟨0, 0, 0, 0, 0⟩⟩, objects := fun _ => none, made := 0 }
  messages _ := none
  shm := { table := fun _ => ⟨[], 0, false, ⟨0, 0, 0⟩⟩, objects := fun _ => none, made := 0 }
  nextShmFd := 100

variable {s t : IpcObjects} {c : ObjectCall} {cs : List ObjectCall}

theorem start_inv : start.Inv where
  sems := ⟨fun _ => rfl, fun _ _ hne => absurd rfl hne, fun _ _ _ _ ho => nomatch ho⟩
  queues := ⟨fun _ => rfl, fun _ _ hne => absurd rfl hne, fun _ _ _ _ ho => nomatch ho⟩
  shm := ⟨fun _ => rfl, fun _ _ hne => absurd rfl hne, fun _ _ _ _ ho => nomatch ho⟩
  heads _ := rfl
  inOrder := ⟨(fun _ _ ho => nomatch ho), rfl⟩

theorem Inv.lawful (h : s.Inv) : s.Lawful where
  sems := h.sems.lawful
  queues := h.queues.lawful
  shm := h.shm.lawful
  descriptors i j hi hj heq := by
    obtain ⟨o, ho⟩ := ne_none_iff_exists'.mp hi
    obtain ⟨p, hp⟩ := ne_none_iff_exists'.mp hj
    have := h.inOrder.fds i o ho
    have := h.inOrder.fds j p hp
    rw [heq] at *
    exact h.shm.serials i j o p ho hp (by omega)
  valid i hi heq := by
    obtain ⟨o, ho⟩ := ne_none_iff_exists'.mp hi
    have hfd := h.inOrder.fds i o ho
    rw [heq, show (-1 : Word).toInt = -1 from rfl] at hfd
    omega

private theorem freed_empty {q : MessageQueues} {i : Fin maxMessageQueues} (hq : (q.table i).object.head = 0)
    (table : NamedTable maxMessageQueues MessageQueue) : q.freed table i = some { q with table } := by
  have hfree : freeMessages messageFuel q.messages 0 = some q.messages := by
    obtain ⟨fuel, hfuel⟩ : ∃ fuel, messageFuel = fuel + 1 := ⟨2 ^ 32 - 1, by norm_num [messageFuel]⟩
    rw [hfuel, freeMessages, if_pos rfl]
  rw [freed, queue, hq, hfree]
  split_ifs <;> rfl

private theorem slot_none : slot (-1) = none := by decide

private theorem shmSlot_some (h : s.Inv) {i : Fin maxShmObjects} (hi : s.shm.objects i ≠ none) :
    shmSlot s.shm.table (s.shm.table i).object.fd = some i := by
  have hname : (s.shm.table i).name ≠ [] := fun hz => hi ((h.shm.available i).mp hz)
  cases hfind : shmSlot s.shm.table (s.shm.table i).object.fd with
  | none =>
    have := find?_eq_none.mp hfind i (mem_finRange i)
    simp [hname] at this
  | some j =>
    obtain ⟨hj, hfd⟩ : (s.shm.table j).name ≠ [] ∧ (s.shm.table j).object.fd = (s.shm.table i).object.fd := by
      simpa using find?_some hfind
    rw [h.lawful.descriptors j i (fun hz => hj ((h.shm.available j).mpr hz)) hi hfd]

private theorem shmSlot_none (h : s.Inv) : shmSlot s.shm.table (-1) = none := by
  refine find?_eq_none.mpr fun i _ hi => ?_
  obtain ⟨hname, hfd⟩ : (s.shm.table i).name ≠ [] ∧ (s.shm.table i).object.fd = -1 := by simpa using hi
  exact h.lawful.valid i (fun hz => hname ((h.shm.available i).mpr hz)) hfd

theorem Inv.semOpen (h : s.Inv) {name : Option CString} {oflag : Word} (hm : s.Meets (.semOpen name oflag)) :
    ∃ t, s.exec (.semOpen name oflag) = some t ∧ t.Inv ∧ s.Answered t (.semOpen name oflag) := by
  obtain ⟨hinv, hopens⟩ := h.sems.opens semFamily hm
  exact ⟨_, rfl, ⟨hinv, h.queues, h.shm, h.heads, h.inOrder⟩, hopens⟩

theorem Inv.setQueues (h : s.Inv) {queues : NamedRun maxMessageQueues MessageQueue} {q : MessageQueues} (hq : queues.Inv true)
    (hheads : ∀ i, (queues.table i).object.head = 0) : (s.setQueues q queues).Inv :=
  ⟨h.sems, hq, h.shm, hheads, h.inOrder⟩

theorem opened_table {n : ℕ} {α : Type} (s : NamedRun n α) (table : NamedTable n α) (name : Option CString) (slot : Option (Fin n)) :
    (s.opened table name slot).table = table := by
  cases slot with
  | none => rfl
  | some i =>
    rw [NamedRun.opened]
    cases s.objects i <;> rfl

theorem Inv.mqOpen (h : s.Inv) {name : Option CString} {oflag : Word} (hm : s.Meets (.mqOpen name oflag)) :
    ∃ t, s.exec (.mqOpen name oflag) = some t ∧ t.Inv ∧ s.Answered t (.mqOpen name oflag) := by
  obtain ⟨hinv, hopens⟩ := h.queues.opens mqFamily hm
  have hslot : slot (s.mqueues.mqOpen name oflag).2 = (s.queues.table.openObject mqFamily name oflag).2 := by
    change slot ((s.queues.table.openObject mqFamily name oflag).2.elim (-1) fun i => (i.val : Int)) = _
    cases (s.queues.table.openObject mqFamily name oflag).2 with
    | none => exact slot_none
    | some i => exact slot_cast i
  refine ⟨s.setQueues (s.mqueues.mqOpen name oflag).1 (s.queues.opened (s.mqueues.mqOpen name oflag).1.table name
    (slot (s.mqueues.mqOpen name oflag).2)), rfl, h.setQueues ?_ fun i => ?_, _, hopens, rfl⟩
  · rw [hslot]
    exact hinv
  · rw [opened_table]
    exact NamedRun.openObject_object (P := fun q : MessageQueue => q.head = 0) (fun _ _ => rfl) (h.heads i)

theorem Inv.mqClose (h : s.Inv) {mqdes : Int} (hm : s.Meets (.mqClose mqdes)) :
    ∃ t, s.exec (.mqClose mqdes) = some t ∧ t.Inv := by
  rw [exec, MessageQueues.mqClose]
  cases hslot : slot mqdes with
  | none => exact ⟨_, rfl, h.setQueues h.queues h.heads⟩
  | some i =>
    dsimp only
    rw [freed_empty (h.heads i)]
    refine ⟨_, rfl, h.setQueues (h.queues.closed mqFamily (hm i hslot)) fun j => ?_⟩
    exact NamedRun.closeObject_object (P := fun q : MessageQueue => q.head = 0) (fun _ _ => rfl) (h.heads j)

theorem Inv.mqUnlink (h : s.Inv) (name : Option CString) : ∃ t, s.exec (.mqUnlink name) = some t ∧ t.Inv := by
  have hunlink : s.mqueues.mqUnlink name =
      some ({ s.mqueues with table := (s.queues.table.unlinkObject mqFamily name).1 }, (s.queues.table.unlinkObject mqFamily name).2) := by
    cases hfind : name.bind s.queues.table.toUnlink with
    | none =>
      have hfind' : name.bind s.mqueues.table.toUnlink = none := hfind
      simp only [MessageQueues.mqUnlink, NamedTable.unlinkObject, hfind, hfind']
      rfl
    | some i =>
      have hfind' : name.bind s.mqueues.table.toUnlink = some i := hfind
      simp only [MessageQueues.mqUnlink, NamedTable.unlinkObject, hfind, hfind']
      rw [freed_empty (h.heads i)]
      rfl
  rw [exec, hunlink]
  refine ⟨_, rfl, h.setQueues (h.queues.unlinked mqFamily name (fun hz => absurd hz Bool.noConfusion)) fun j => ?_⟩
  exact NamedRun.unlinkObject_object (P := fun q : MessageQueue => q.head = 0) (fun _ _ => rfl) (h.heads j)

theorem shmOpen_eq (s : ShmObjects) (name : Option CString) (oflag : Word) :
    s.shmOpen name oflag =
      let r := s.table.openObject (shmFamily s.nextShmFd) name oflag
      ({ table := r.1, nextShmFd := r.2.elim s.nextShmFd fun i => if (s.table i).name = [] then s.nextShmFd + 1 else s.nextShmFd },
        r.2.elim (-1) fun i => (r.1 i).object.fd) := by
  rw [ShmObjects.shmOpen]
  dsimp only
  cases (s.table.openObject (shmFamily s.nextShmFd) name oflag).2 <;> rfl

theorem InOrder.update {shm : NamedRun maxShmObjects ShmObject} {fd fd' : Word} (h : InOrder shm fd) {i : Fin maxShmObjects}
    {e : Named ShmObject} {o : NamedObject} {made : ℕ} (he : e.object.fd.toInt = 100 + o.serial) (hfd : fd'.toInt = 100 + made) :
    InOrder { table := shm.table.setEntry i e, objects := update shm.objects i (some o), made } fd' where
  fds j p hp := by
    by_cases hj : j = i
    · subst hj
      obtain rfl : o = p := by simpa using hp
      simpa using he
    · simp only [update_of_ne hj] at hp
      simp only [setEntry_other hj]
      exact h.fds j p hp
  next := hfd

theorem Inv.inOrder_opened (h : s.Inv) {name : Option CString} {oflag : Word} (hm : s.Meets (.shmOpen name oflag)) :
    let r := s.shm.table.openObject (shmFamily s.nextShmFd) name oflag
    InOrder (s.shm.opened r.1 name r.2) (s.shmObjects.shmOpen name oflag).1.nextShmFd := by
  rw [shmOpen_eq]
  by_cases hs : ∃ nm ∈ name, nm.head? = some slash
  · obtain ⟨nm, rfl, hslash⟩ := hs
    rcases NamedRun.openObject_cases s.shm.table (shmFamily s.nextShmFd) nm oflag hslash with
      ⟨i, -, -, -, heq⟩ | ⟨i, hl, -, heq⟩ | ⟨-, -, heq⟩ | ⟨i, hl, hcreat, hfree, heq⟩
    · simp only [shmObjects, heq]
      exact h.inOrder
    · obtain ⟨hname, -⟩ := lookup_some hl
      obtain ⟨o, ho⟩ := ne_none_iff_exists'.mp (hname ∘ (h.shm.available i).mpr)
      simp only [shmObjects, heq, NamedRun.opened, ho, elim_some]
      change InOrder _ (if (s.shm.table i).name = [] then s.nextShmFd + 1 else s.nextShmFd)
      rw [if_neg hname]
      exact h.inOrder.update (h.inOrder.fds i o ho) h.inOrder.next
    · simp only [shmObjects, heq]
      exact h.inOrder
    · have hname := freeSlot_some hfree
      have hempty := (h.shm.available i).mp hname
      have hroom := (hm nm rfl hslash).2 ⟨hcreat, hl, by rw [hfree]; exact some_ne_none i⟩
      simp only [shmObjects, heq, NamedRun.opened, hempty, elim_some]
      change InOrder _ (if (s.shm.table i).name = [] then s.nextShmFd + 1 else s.nextShmFd)
      rw [if_pos hname]
      refine h.inOrder.update h.inOrder.next ?_
      rw [toInt_succ hroom, h.inOrder.next, Nat.cast_succ]
      omega
  · have hrefused : s.shm.table.openObject (shmFamily s.nextShmFd) name oflag = (s.shm.table, none) :=
      NamedRun.openObject_refused _ _ fun nm hnm heq => hs ⟨nm, hnm, heq⟩
    simp only [shmObjects, hrefused]
    exact h.inOrder

theorem Inv.shmOpen (h : s.Inv) {name : Option CString} {oflag : Word} (hm : s.Meets (.shmOpen name oflag)) :
    ∃ t, s.exec (.shmOpen name oflag) = some t ∧ t.Inv ∧ s.Answered t (.shmOpen name oflag) := by
  obtain ⟨hinv, hopens⟩ := h.shm.opens (shmFamily s.nextShmFd) fun nm hnm hslash => (hm nm hnm hslash).1
  set r := s.shm.table.openObject (shmFamily s.nextShmFd) name oflag with hr
  have ht : (s.setShm (s.shmObjects.shmOpen name oflag).1 (s.shm.opened r.1 name r.2)).Inv :=
    ⟨h.sems, h.queues, hinv, h.heads, h.inOrder_opened hm⟩
  have heq : s.shmObjects.shmOpen name oflag = ((s.shmObjects.shmOpen name oflag).1, r.2.elim (-1) fun i => (r.1 i).object.fd) := by
    rw [shmOpen_eq]
    rfl
  have htable : (s.shmObjects.shmOpen name oflag).1.table = r.1 := by
    rw [shmOpen_eq]
    rfl
  have hslot : shmSlot r.1 (r.2.elim (-1) fun i => (r.1 i).object.fd) = r.2 := by
    have hshm : (s.shm.opened r.1 name r.2).table = r.1 := opened_table ..
    cases hr2 : r.2 with
    | none =>
      have hnone := shmSlot_none ht
      change shmSlot (s.shm.opened r.1 name r.2).table (-1) = none at hnone
      rwa [hshm] at hnone
    | some i =>
      have hi : (s.shm.opened r.1 name r.2).objects i ≠ none := by
        rw [hr2, NamedRun.opened]
        cases s.shm.objects i <;> simp
      have hsome := shmSlot_some ht hi
      change shmSlot (s.shm.opened r.1 name r.2).table ((s.shm.opened r.1 name r.2).table i).object.fd = some i at hsome
      rwa [hshm] at hsome
  refine ⟨s.setShm (s.shmObjects.shmOpen name oflag).1 (s.shm.opened r.1 name r.2), ?_, ht, r.2, hopens, ?_⟩
  · rw [exec, heq]
    rw [htable, hslot]
  · rw [heq]
    change _ = r.2.elim (-1) fun i => ((s.shm.opened r.1 name r.2).table i).object.fd
    rw [opened_table]

theorem Inv.semClose (h : s.Inv) {sem : Option (Fin maxNamedSems)} (hm : s.Meets (.semClose sem)) :
    ∃ t, s.exec (.semClose sem) = some t ∧ t.Inv := by
  cases sem with
  | none => exact ⟨_, rfl, h⟩
  | some i => exact ⟨_, rfl, h.sems.closed semFamily (hm i rfl), h.queues, h.shm, h.heads, h.inOrder⟩

theorem Inv.shmClose (h : s.Inv) {i : Fin maxShmObjects} (hm : s.Meets (.shmClose i)) :
    ∃ t, s.exec (.shmClose i) = some t ∧ t.Inv := by
  suffices hshm : (s.shm.closed s.shm.table i).Inv false ∧ InOrder (s.shm.closed s.shm.table i) s.nextShmFd from
    ⟨_, rfl, h.sems, h.queues, hshm.1, h.heads, hshm.2⟩
  cases ho : s.shm.objects i with
  | none =>
    rw [NamedRun.closed, ho, bind_none, ← ho, update_eq_self]
    exact ⟨h.shm, h.inOrder⟩
  | some o =>
    obtain ⟨hname, hne, hun, -, hserial, hcount⟩ := h.shm.entry ho
    have hstays : o.unlinked = true → 0 < o.opens - 1 := fun hz => Nat.sub_pos_of_lt (hm o ho hz)
    have hkept : NamedObject.kept { o with opens := o.opens - 1 } = some { o with opens := o.opens - 1 } :=
      if_neg fun hz => (hstays hz.1).ne' hz.2
    have htable : s.shm.table.setEntry i (s.shm.table i) = s.shm.table := update_eq_self i s.shm.table
    rw [NamedRun.closed, ho, bind_some, hkept]
    constructor
    · have hnew : NamedRun.Agree false s.shm.made (s.shm.table i) (some { o with opens := o.opens - 1 }) :=
        ⟨hname, hne, hun, hstays, hserial, hcount⟩
      have hmodify := h.shm.modify ho hnew (fun _ => rfl) fun p hp => by rw [← some.inj hp]
      rwa [htable] at hmodify
    · have hupdate := h.inOrder.update (e := s.shm.table i) (i := i) (o := { o with opens := o.opens - 1 })
        (h.inOrder.fds i o ho) h.inOrder.next
      rwa [htable] at hupdate

theorem Inv.shmUnlink (h : s.Inv) {name : Option CString} (hm : s.Meets (.shmUnlink name)) :
    ∃ t, s.exec (.shmUnlink name) = some t ∧ t.Inv := by
  refine ⟨_, rfl, h.sems, h.queues, h.shm.unlinked (shmFamily s.nextShmFd) name fun _ => hm, h.heads, fun i o ho => ?_, h.inOrder.next⟩
  obtain ⟨p, hp, hkept⟩ := bind_eq_some_iff.mp ho
  have hserial : o.serial = p.serial := by
    split_ifs at hkept
    · exact NamedRun.kept_serial (o := { p with unlinked := true }) hkept
    · rw [some.inj hkept]
  have hfd : ((s.shm.table.unlinkObject (shmFamily s.nextShmFd) name).1 i).object.fd = (s.shm.table i).object.fd :=
    NamedRun.unlinkObject_object (P := fun x : ShmObject => x.fd = (s.shm.table i).object.fd) (fun _ hx => hx) rfl
  rw [hserial, ← h.inOrder.fds i p hp]
  exact congrArg BitVec.toInt hfd

theorem Inv.exec (h : s.Inv) (hm : s.Meets c) : ∃ t, s.exec c = some t ∧ t.Inv ∧ s.Answered t c := by
  cases c with
  | semOpen name oflag => exact h.semOpen hm
  | mqOpen name oflag => exact h.mqOpen hm
  | shmOpen name oflag => exact h.shmOpen hm
  | semClose sem =>
    obtain ⟨t, ht, hinv⟩ := h.semClose hm
    exact ⟨t, ht, hinv, trivial⟩
  | mqClose mqdes =>
    obtain ⟨t, ht, hinv⟩ := h.mqClose hm
    exact ⟨t, ht, hinv, trivial⟩
  | shmClose i =>
    obtain ⟨t, ht, hinv⟩ := h.shmClose hm
    exact ⟨t, ht, hinv, trivial⟩
  | semUnlink name =>
    refine ⟨_, rfl, ⟨h.sems.unlinked semFamily name (fun hz => absurd hz Bool.noConfusion), h.queues, h.shm, h.heads, h.inOrder⟩, ?_⟩
    rintro nm rfl i
    exact NamedRun.unlinked_not_live _ _ nm i
  | mqUnlink name =>
    obtain ⟨t, ht, hinv⟩ := h.mqUnlink name
    refine ⟨t, ht, hinv, ?_⟩
    rintro nm rfl i
    obtain ⟨r, -, rfl⟩ := map_eq_some_iff.mp ht
    exact NamedRun.unlinked_not_live _ _ nm i
  | shmUnlink name =>
    obtain ⟨t, ht, hinv⟩ := h.shmUnlink hm
    refine ⟨t, ht, hinv, ?_⟩
    rintro nm rfl i
    rw [← some.inj ht]
    exact NamedRun.unlinked_not_live _ _ nm i

/-- In every run whose steps meet the conditions a name is that of one object at most and an entry is free just when no
object of use is in it; and each further call that meets them gives what is right. -/
theorem ipc_runs (hrun : Trace (fun s c t => s.Meets c ∧ s.exec c = some t) start cs s) :
    s.Lawful ∧ ∀ c, s.Meets c → ∃ t, s.exec c = some t ∧ s.Answered t c := by
  have h : s.Inv := by
    induction hrun with
    | nil => exact start_inv
    | snoc _ hs ih =>
      obtain ⟨t, ht, hinv, -⟩ := ih.exec hs.1
      cases hs.2.symm.trans ht
      exact hinv
  refine ⟨h.lawful, fun c hc => ?_⟩
  obtain ⟨t, ht, -, hanswered⟩ := h.exec hc
  exact ⟨t, ht, hanswered⟩

def firstSem : Fin maxNamedSems := ⟨0, by decide⟩

/-- A queue that is made, opened again and unlinked, and a name that goes to a second semaphore. -/
def someCalls : List ObjectCall :=
  [.mqOpen (some (.ofString "/q")) oCreat, .mqOpen (some (.ofString "/q")) 0, .mqUnlink (some (.ofString "/q")), .mqClose 0,
    .semOpen (some (.ofString "/s")) oCreat, .semClose (some firstSem), .semUnlink (some (.ofString "/s")),
    .semOpen (some (.ofString "/s")) oCreat]

theorem someCalls_lawful : ∃ s, Trace (fun s c t => s.Meets c ∧ s.exec c = some t) start someCalls s ∧ s.Lawful := by
  have hrun : (someCalls.foldlM (fun s c => if Meets s c then exec s c else none) start).isSome := by decide
  obtain ⟨s, hs⟩ := isSome_iff_exists.mp hrun
  exact ⟨s, trace_of_checked hs, (ipc_runs (trace_of_checked hs)).1⟩

theorem unlinked_found :
    ¬ ∀ cs s, Trace (fun s c t => s.exec c = some t) start cs s → ∀ c t, s.exec c = some t → s.Answered t c := by
  intro h
  let made := { start with sems := start.sems.opened (semOpen start.sems.table (some (.ofString "/a")) oCreat).1 (some (.ofString "/a")) (some firstSem) }
  let gone := { made with sems := made.sems.unlinked (semUnlink made.sems.table (some (.ofString "/a"))).1 (some (.ofString "/a")) }
  have hmade : start.exec (.semOpen (some (.ofString "/a")) oCreat) = some made := rfl
  have hgone : made.exec (.semUnlink (some (.ofString "/a"))) = some gone := rfl
  have hanswered := h _ gone ((Trace.nil.snoc hmade).snoc hgone) (.semOpen (some (.ofString "/a")) 0) _ rfl
  have hopen : (semOpen gone.sems.table (some (.ofString "/a")) 0).2 = some firstSem := by decide
  have hnone := (hanswered.1 _ rfl (by decide)).2 fun i => NamedRun.unlinked_not_live _ _ _ i
  exact hnone.1 (by decide)

end IpcObjects
end RetroOs.Kernel
