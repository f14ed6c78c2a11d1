import RetroOs.Kernel.Scheduling

/-! The ring and the parents of the processes over any run of forks, spawns, exits and waits. Each
process has the number of its birth, so that a record made at the address of an earlier one is told apart. -/
namespace RetroOs.Kernel
open Lib List Option Function
namespace ProcessTable

variable {t t' : ProcessTable} {l xs ys : List Nat} {c child p : Nat} {q : Process}

private theorem link_spec (h : InRing t (xs ++ t.currentProcess :: ys)) (hnew : child ∉ xs ++ t.currentProcess :: ys)
    (h0 : child ≠ 0) (hlt : child < 2 ^ 32) (q : Process) :
    InRing (t.link child q) (xs ++ t.currentProcess :: child :: ys) ∧
      (t.link child q).currentProcess = t.currentProcess ∧
      ((t.link child q).procs child).parent = q.parent ∧
      ∀ p ≠ child, ((t.link child q).procs p).parent = (t.procs p).parent := by
  have hne : t.currentProcess ≠ child := fun he => hnew (he ▸ h.current)
  have hchild := link_self hne.symm q
  have hother : ∀ p, p ≠ t.currentProcess → p ≠ child → (t.link child q).procs p = t.procs p :=
    fun p hp hpc => link_other hp hpc q
  have hnext : (t.link child q).next t.currentProcess = child := by
    rw [link]
    exact setNext_next ..
  have hin : t.currentProcess ∈ xs ++ t.currentProcess :: child :: ys := by simp
  refine ⟨⟨?_, ?_, hin⟩, rfl, by rw [hchild], ?_⟩
  · refine h.ring.insert hnew hnext (by rw [next, hchild]; rfl) fun p hp => ?_
    have hd := (nodup_cons.mp (perm_middle.nodup_iff.mp h.ring.nodup)).1
    have hpl : p ∈ xs ++ t.currentProcess :: ys := by
      simp only [mem_append, mem_cons] at hp ⊢
      tauto
    rw [next, hother p (fun he => hd (he ▸ hp)) fun he => hnew (he ▸ hpl)]
    rfl
  · intro p hp
    have hcases : p ∈ xs ++ t.currentProcess :: ys ∨ p = child := by
      simp only [mem_append, mem_cons] at hp ⊢
      tauto
    rcases hcases with hp | rfl
    · exact h.addr p hp
    · exact ⟨h0, hlt⟩
  · exact fun p hp => link_field Process.parent (fun _ _ => rfl) hp q

private theorem unlink_spec (h : InRing t (xs ++ c :: ys)) (hc : c ≠ t.currentProcess) :
    ∃ t', t.unlink c = some t' ∧ InRing t' (xs ++ ys) ∧ t'.currentProcess = t.currentProcess ∧
      ∀ p, (t'.procs p).parent = (t.procs p).parent := by
  have hcl : c ∈ xs ++ c :: ys := by simp
  have hcur : t.currentProcess ∈ xs ++ ys := by
    have := h.current
    simp only [mem_append, mem_cons] at this ⊢
    exact this.imp id fun h => h.resolve_left fun he => hc he.symm
  have hself : t.next c ≠ c := by
    intro he
    have hone := h.ring.next_self hcl he
    have hlen := congrArg length hone
    simp only [length_append, length_cons, length_nil] at hlen
    have hnil : xs ++ ys = [] := eq_nil_of_length_eq_zero (by rw [length_append]; omega)
    rw [hnil] at hcur
    cases hcur
  -- The walk from `ready_queue` finds the process before `c`.
  obtain ⟨b, hbl, hb⟩ := h.ring.pred hcl
  cases hf : (xs ++ c :: ys).find? fun p => t.next p == c with
  | none => exact absurd (beq_iff_eq.mpr hb) (find?_eq_none.mp hf b hbl)
  | some b =>
    have hbt := find?_some hf
    have hb : t.next b = c := beq_iff_eq.mp hbt
    have hbc : b ≠ c := fun he => hself (he ▸ hb)
    have hbm : b ∈ xs ++ ys := by
      have := mem_of_find?_eq_some hf
      simp only [mem_append, mem_cons] at this ⊢
      exact this.imp id fun h => h.resolve_left hbc
    let u := t.setNext b (t.next c)
    have hub : u.next b = t.next c := setNext_next ..
    have huo : ∀ p ≠ b, u.next p = t.next p := fun p hp => congrArg Process.next (setNext_other _ _ hp)
    have hrq : t.unlink c = some { u with readyQueue := if t.readyQueue = c then u.next c else t.readyQueue } := by
      rw [unlink, if_neg hself, h.ring.path.seek hf _ h.length_le, map_some]
    refine ⟨_, hrq, ⟨?_, fun p hp => h.addr p ?_, hcur⟩, rfl, setNext_parent t b _⟩
    · have hrem := h.ring.remove hbm hb hub fun p _ hpb => huo p hpb
      rw [← huo c hbc.symm] at hrem
      exact hrem
    · simp only [mem_append, mem_cons] at hp ⊢
      exact hp.imp id Or.inr

/-- What a round of waiting comes to: the first zombie the test lets through is out of the ring, or
the ring is as it was. -/
inductive Waited (t : ProcessTable) (l : List Nat) (test : Nat → Bool) : ProcessTable → WaitResult → Prop where
  | reaped {t' : ProcessTable} {c : Nat} {pid status : Word}
      (hf : (l.find? fun p => test p && (t.procs p).state == .zombie) = some c) (hr : InRing t' (l.erase c))
      (hc : t'.currentProcess = t.currentProcess) (hp : ∀ p, (t'.procs p).parent = (t.procs p).parent) :
      Waited t l test t' (.reaped c pid status)
  | kept {t' : ProcessTable} {r : WaitResult} (hk : Keeps t t') (hc : t'.currentProcess = t.currentProcess)
      (hr : ∀ c pid status, r ≠ .reaped c pid status) : Waited t l test t' r

theorem InRing.find (h : InRing t l) (test : Nat → Bool) :
    ringFind t.next (· == t.readyQueue) test ringFuel t.readyQueue = some (l.find? test) :=
  h.ring.find (fun _ _ => beq_iff_eq) h.length_le

private theorem unlink_waited {u : ProcessTable} {test : Nat → Bool} (h : InRing t l) (hk : Keeps t u)
    (hcur : u.currentProcess = t.currentProcess)
    (hf : (l.find? fun p => test p && (t.procs p).state == .zombie) = some c) (hc : c ≠ t.currentProcess)
    (pid status : Word) :
    ∃ t', u.unlink c = some t' ∧ Waited t l test t' (.reaped c pid status) := by
  obtain ⟨xs, ys, hl⟩ := append_of_mem (mem_of_find?_eq_some hf)
  have hnd := (nodup_cons.mp (perm_middle.nodup_iff.mp (hl ▸ h.ring.nodup))).1
  have herase : l.erase c = xs ++ ys := by
    rw [hl]
    exact erase_of_not_mem fun hm => hnd (mem_append_left _ hm)
  have hu : InRing u (xs ++ c :: ys) := hl ▸ hk.inRing h (hcur ▸ h.current)
  obtain ⟨t', ht, hr, hcu, hp⟩ := unlink_spec hu (hcur ▸ hc)
  exact ⟨t', ht, .reaped hf (herase ▸ hr) (hcu.trans hcur) fun p => (hp p).trans (hk.parent p)⟩

theorem waitProcess_spec (h : InRing t l) (hself : t.current.parent ≠ t.currentProcess) :
    ∃ t' r, t.waitProcess = some (t', r) ∧ Waited t l (fun p => (t.procs p).parent == t.currentProcess) t' r := by
  rw [waitProcess, h.find, bind_some]
  cases hf : l.find? fun p => (t.procs p).parent == t.currentProcess && (t.procs p).state == .zombie with
  | some c =>
    have hc : c ≠ t.currentProcess := by
      rintro rfl
      have ht := find?_some hf
      rw [Bool.and_eq_true, beq_iff_eq] at ht
      exact hself ht.1
    obtain ⟨t', ht, hw⟩ := unlink_waited h .refl rfl hf hc (t.procs c).id (t.procs c).exitCode
    exact ⟨t', _, by simp only [ht, map_some], hw⟩
  | none =>
    rw [h.find, map_some]
    cases l.find? fun p => (t.procs p).parent == t.currentProcess with
    | none => exact ⟨t, _, rfl, .kept .refl rfl fun _ _ _ h => by cases h⟩
    | some p => exact ⟨_, _, rfl, .kept (setState_keeps t _ _) rfl fun _ _ _ h => by cases h⟩

theorem sysWaitpid_spec (h : InRing t l) (hself : t.current.parent ≠ t.currentProcess) (pid : Int) (nohang : Bool) :
    ∃ t' r, t.sysWaitpid pid nohang = some (t', r) ∧ Waited t l (t.waitMatches pid) t' r := by
  rw [sysWaitpid, if_neg h.readyQueue_ne]
  dsimp only
  rw [h.find, bind_some]
  cases hf : l.find? fun p => t.waitMatches pid p && (t.procs p).state == .zombie with
  | some c =>
    have hc : c ≠ t.currentProcess := by
      rintro rfl
      have ht := find?_some hf
      rw [Bool.and_eq_true, waitMatches, Bool.and_eq_true, beq_iff_eq] at ht
      exact hself ht.1.1
    have hk : Keeps t (t.setCurrent { t.current with
        cutime := t.current.cutime + ((t.procs c).utime + (t.procs c).cutime)
        cstime := t.current.cstime + ((t.procs c).stime + (t.procs c).cstime) }) := keeps_setCurrent rfl
    obtain ⟨t', ht, hw⟩ := unlink_waited h hk rfl hf hc (t.procs c).id ((t.procs c).exitCode <<< 8)
    exact ⟨t', _, by simp only [ht, map_some], hw⟩
  | none =>
    rw [h.find, map_some]
    cases l.find? (t.waitMatches pid) with
    | none => exact ⟨t, _, rfl, .kept .refl rfl fun _ _ _ h => by cases h⟩
    | some p =>
      cases nohang with
      | true => exact ⟨t, _, rfl, .kept .refl rfl fun _ _ _ h => by cases h⟩
      | false => exact ⟨_, _, rfl, .kept (setState_keeps t _ _) rfl fun _ _ _ h => by cases h⟩

end ProcessTable

/-- The process table with what is told of the processes: the ring in order, the number of the birth
of the process last made at each address, the birth of each process's parent by the process's own,
how many there have been, and which have been reaped. -/
structure Family where
  table : ProcessTable
  ring : List Nat
  birth : Nat → Nat
  parentBirth : Nat → Nat
  births : Nat
  reaped : List Nat

inductive FamilyEvent where
  | fork (newPd child childKstack : Nat)
  | spawn (pd : Nat) (entry topAddr : Word) (newProc kstack : Nat)
  | exitProcess (status : Int)
  | sysExit (status : Int)
  | waitProcess
  | sysWaitpid (pid : Int) (nohang : Bool)
  | kill (pid : Word) (signum : Int)
  | schedule
  | sleep
  | wake (p : Nat)

namespace Family
open ProcessTable

def bear (s : Family) (t : ProcessTable) (child : Nat) : Family where
  table := t
  ring := insertAfter s.table.currentProcess child s.ring
  birth := update s.birth child s.births
  parentBirth := update s.parentBirth s.births (s.birth s.table.currentProcess)
  births := s.births + 1
  reaped := s.reaped

def wait (s : Family) (t : ProcessTable) : WaitResult → Family
  | .reaped child _ _ =>
    { s with table := t, ring := s.ring.erase child, reaped := s.birth child :: s.reaped }
  | _ => { s with table := t }

def exec (s : Family) : FamilyEvent → Option Family
  | .fork newPd child childKstack =>
    let t := (s.table.forkProcess newPd child childKstack).1
    some (if newPd = 0 then { s with table := t } else s.bear t child)
  | .spawn pd entry topAddr newProc kstack =>
    let t := (s.table.sysPosixSpawn pd entry topAddr newProc kstack).1
    some (if pd = 0 ∨ entry = 0 ∨ newProc = 0 then { s with table := t } else s.bear t newProc)
  | .exitProcess status => (s.table.exitProcess status).map fun t => { s with table := t }
  | .sysExit status => (s.table.sysExit status).map fun t => { s with table := t }
  | .waitProcess => s.table.waitProcess.map fun (t, r) => s.wait t r
  | .sysWaitpid pid nohang => (s.table.sysWaitpid pid nohang).map fun (t, r) => s.wait t r
  | .kill pid signum => (s.table.sysKill pid signum).map fun (t, _) => { s with table := t }
  | .schedule => s.table.schedule.map fun (t, _) => { s with table := t }
  | .sleep => some { s with table := s.table.setState s.table.currentProcess .sleeping }
  | .wake p => some { s with table := s.table.setState p .ready }

def Childless (s : Family) (test : Nat → Bool) : Prop :=
  ∀ z ∈ s.ring.find? fun p => test p && (s.table.procs p).state == .zombie, ∀ p ∈ s.ring, (s.table.procs p).parent ≠ z

/-- Memory for a record is not that of a process in the ring. -/
def Fresh (s : Family) (p : Nat) : Prop := p ∉ s.ring ∧ p < 2 ^ 32

/-- `fork_process` gets memory for the record, and a zombie is reaped only after all its children. -/
def Regular (s : Family) : FamilyEvent → Prop
  | .fork newPd child _ => newPd ≠ 0 → child ≠ 0
  | .waitProcess => s.Childless fun p => (s.table.procs p).parent == s.table.currentProcess
  | .sysWaitpid pid _ => s.Childless (s.table.waitMatches pid)
  | _ => True

/-- What `kmalloc` promises of the memory for new records. -/
def Allocates (s : Family) : FamilyEvent → Prop
  | .fork _ child _ => s.Fresh child
  | .spawn _ _ _ newProc _ => s.Fresh newProc
  | _ => True

def Step (s : Family) (e : FamilyEvent) (t : Family) : Prop := Regular s e ∧ Allocates s e ∧ s.exec e = some t

/-- The ring holds every process not yet reaped, once, and none is reaped twice; and a parent pointer
is null or still points to the parent. -/
structure Ok (s : Family) : Prop where
  ring : InRing s.table s.ring
  account : (s.ring.map s.birth ++ s.reaped).Perm (range s.births)
  parent : ∀ p ∈ s.ring, (s.table.procs p).parent = 0 ∨ (s.table.procs p).parent ∈ s.ring ∧
    s.birth (s.table.procs p).parent = s.parentBirth (s.birth p)
  older : ∀ p ∈ s.ring, (s.table.procs p).parent ≠ 0 → s.parentBirth (s.birth p) < s.birth p

variable {s t : Family} {e : FamilyEvent} {es : List FamilyEvent} {u : ProcessTable} {child c : Nat}

theorem Ok.birth_lt (h : Ok s) {p : Nat} (hp : p ∈ s.ring) : s.birth p < s.births := by
  have hm := h.account.mem_iff.mp (mem_append_left _ (mem_map_of_mem hp))
  exact mem_range.mp hm

theorem Ok.keeps (h : Ok s) (hk : Keeps s.table u) (hc : u.currentProcess ∈ s.ring) : Ok { s with table := u } := by
  refine ⟨hk.inRing h.ring hc, h.account, fun p hp => ?_, fun p hp hne => ?_⟩
  · rw [hk.parent]
    exact h.parent p hp
  · rw [hk.parent] at hne
    exact h.older p hp hne

theorem Ok.bear (h : Ok s) {q : Process} {v : ProcessTable} (hf : s.Fresh child) (h0 : child ≠ 0)
    (hv : v.procs = s.table.procs ∧ v.currentProcess = s.table.currentProcess ∧ v.readyQueue = s.table.readyQueue)
    (hq : q.parent = s.table.currentProcess) : Ok (s.bear (v.link child q) child) := by
  obtain ⟨hprocs, hcur, hrq⟩ := hv
  have hvr : InRing v s.ring := by
    refine ⟨?_, h.ring.addr, hcur ▸ h.ring.current⟩
    rw [hrq, show v.next = s.table.next by funext p; rw [ProcessTable.next, hprocs, ProcessTable.next]]
    exact h.ring.ring
  obtain ⟨xs, ys, hl⟩ := append_of_mem hvr.current
  have hnd := (nodup_cons.mp (perm_middle.nodup_iff.mp (hl ▸ h.ring.ring.nodup))).1
  have hins : insertAfter s.table.currentProcess child s.ring = xs ++ v.currentProcess :: child :: ys := by
    rw [hl, ← hcur]
    exact insertAfter_of_not_mem fun hm => hnd (mem_append_left _ hm)
  obtain ⟨hring, hlc, hpc, hpo⟩ := link_spec (hl ▸ hvr) (hl ▸ hf.1) h0 hf.2 q
  have hmem : ∀ p, p ∈ xs ++ v.currentProcess :: child :: ys ↔ p ∈ s.ring ∨ p = child := by
    intro p
    rw [hl]
    simp only [mem_append, mem_cons]
    tauto
  have hne : ∀ p ∈ s.ring, p ≠ child := fun p hp he => hf.1 (he ▸ hp)
  have hbirth : ∀ p ∈ s.ring, update s.birth child s.births p = s.birth p :=
    fun p hp => update_of_ne (hne p hp) ..
  have hpb : ∀ p ∈ s.ring, update s.parentBirth s.births (s.birth s.table.currentProcess) (s.birth p) =
      s.parentBirth (s.birth p) := fun p hp => update_of_ne (h.birth_lt hp).ne ..
  refine ⟨?_, ?_, fun p hp => ?_, fun p hp hp0 => ?_⟩
  · rw [Family.bear, hins]
    exact hring
  · have hperm : (xs ++ v.currentProcess :: child :: ys).Perm (child :: s.ring) := by
      rw [hl, show xs ++ v.currentProcess :: child :: ys = (xs ++ [v.currentProcess]) ++ child :: ys by simp,
        show xs ++ v.currentProcess :: ys = (xs ++ [v.currentProcess]) ++ ys by simp]
      exact perm_middle
    simp only [Family.bear, hins]
    refine ((hperm.map _).append_right _).trans ?_
    rw [map_cons, update_self, map_congr_left hbirth, range_succ, cons_append]
    exact (h.account.cons _).trans (perm_append_singleton _ _).symm
  · simp only [Family.bear, hins] at hp ⊢
    rcases (hmem p).mp hp with hp | rfl
    · rw [hpo p (hne p hp), hprocs, hbirth p hp, hpb p hp]
      refine (h.parent p hp).imp_right fun hborn => ⟨(hmem _).mpr (Or.inl hborn.1), ?_⟩
      rw [hbirth _ hborn.1, hborn.2]
    · rw [hpc, hq, update_self, update_self]
      exact Or.inr ⟨(hmem _).mpr (Or.inl h.ring.current), hbirth _ h.ring.current⟩
  · simp only [Family.bear, hins] at hp hp0 ⊢
    rcases (hmem p).mp hp with hp | rfl
    · rw [hpo p (hne p hp), hprocs] at hp0
      rw [hbirth p hp, hpb p hp]
      exact h.older p hp hp0
    · rw [update_self, update_self]
      exact h.birth_lt h.ring.current

theorem Ok.waited (h : Ok s) {test : Nat → Bool} {r : WaitResult} (hc : s.Childless test)
    (hw : Waited s.table s.ring test u r) : Ok (s.wait u r) := by
  cases hw with
  | kept hk hcur hr =>
    have hkeep := h.keeps hk (hcur ▸ h.ring.current)
    cases r with
    | reaped c pid status => exact absurd rfl (hr c pid status)
    | returned n => exact hkeep
    | blocked => exact hkeep
  | @reaped c pid status hf hring hcur hpar =>
    have hnone : ∀ p ∈ s.ring, (s.table.procs p).parent ≠ c := hc c hf
    have hcl := mem_of_find?_eq_some hf
    have hmem : ∀ p, p ∈ s.ring.erase c ↔ p ≠ c ∧ p ∈ s.ring := fun p => h.ring.ring.nodup.mem_erase_iff
    refine ⟨hring, ?_, fun p hp => ?_, fun p hp hne => ?_⟩
    · have hperm := ((perm_cons_erase hcl).map s.birth).append_right s.reaped
      exact perm_middle.trans (hperm.symm.trans h.account)
    · have hp' := ((hmem p).mp hp).2
      simp only [Family.wait, hpar]
      exact (h.parent p hp').imp_right fun ⟨hm, hb⟩ => ⟨(hmem _).mpr ⟨hnone p hp', hm⟩, hb⟩
    · rw [show ((s.wait u (.reaped c pid status)).table.procs p).parent = (s.table.procs p).parent from hpar p] at hne
      exact h.older p ((hmem p).mp hp).2 hne

theorem Ok.parent_ne (h : Ok s) {p : Nat} (hp : p ∈ s.ring) : (s.table.procs p).parent ≠ p := by
  intro he
  have h0 : (s.table.procs p).parent ≠ 0 := by
    rw [he]
    exact (h.ring.addr p hp).1
  have hlt := h.older p hp h0
  have hb := ((h.parent p hp).resolve_left h0).2
  rw [he] at hb
  omega

theorem Ok.fork (h : Ok s) {newPd childKstack : Nat} (hr : newPd ≠ 0 → child ≠ 0) (hf : s.Fresh child) :
    ∃ t, s.exec (.fork newPd child childKstack) = some t ∧ Ok t := by
  refine ⟨_, rfl, ?_⟩
  by_cases hpd : newPd = 0
  · simp only [hpd, forkProcess, if_true]
    exact h
  · simp only [if_neg hpd, forkProcess]
    exact h.bear hf (hr hpd) (shareFiles_kept { s.table with nextPid := s.table.nextPid + 1 } _) rfl

theorem Ok.spawn (h : Ok s) {pd newProc kstack : Nat} {entry topAddr : Word} (hf : s.Fresh newProc) :
    ∃ t, s.exec (.spawn pd entry topAddr newProc kstack) = some t ∧ Ok t := by
  refine ⟨_, rfl, ?_⟩
  by_cases hpd : pd = 0
  · simp only [hpd, sysPosixSpawn, if_true, true_or]
    exact h
  · by_cases he : entry = 0
    · simp only [hpd, he, sysPosixSpawn, if_true, if_false, true_or, or_true]
      exact h
    · by_cases hn : newProc = 0
      · simp only [hpd, he, hn, sysPosixSpawn, if_true, if_false, or_true]
        exact h
      · simp only [hpd, he, hn, sysPosixSpawn, if_false, or_false]
        exact h.bear hf hn (shareFiles_kept { s.table with nextPid := s.table.nextPid + 1 } _) rfl

private theorem exec_ok (h : Ok s) (hr : Regular s e) (ha : Allocates s e) : ∃ t, s.exec e = some t ∧ Ok t := by
  cases e with
  | fork newPd child childKstack => exact h.fork hr ha
  | spawn pd entry topAddr newProc kstack => exact h.spawn ha
  | exitProcess status =>
    obtain ⟨u, hu, hx⟩ := exitProcess_spec h.ring status
    exact ⟨_, by rw [exec, hu, map_some], h.keeps hx.keeps (hx.currentProcess ▸ h.ring.current)⟩
  | sysExit status =>
    obtain ⟨u, hu, hx⟩ := sysExit_spec h.ring status
    exact ⟨_, by rw [exec, hu, map_some], h.keeps hx.keeps (hx.currentProcess ▸ h.ring.current)⟩
  | waitProcess =>
    obtain ⟨u, r, hu, hw⟩ := waitProcess_spec h.ring (h.parent_ne h.ring.current)
    exact ⟨_, by rw [exec, hu, map_some], h.waited hr hw⟩
  | sysWaitpid pid nohang =>
    obtain ⟨u, r, hu, hw⟩ := sysWaitpid_spec h.ring (h.parent_ne h.ring.current) pid nohang
    exact ⟨_, by rw [exec, hu, map_some], h.waited hr hw⟩
  | kill pid signum =>
    obtain ⟨u, r, hu, hs⟩ := sysKill_spec h.ring pid signum
    exact ⟨_, by rw [exec, hu, map_some], h.keeps hs.keeps (hs.currentProcess ▸ h.ring.current)⟩
  | schedule =>
    obtain ⟨u, sw, hu, hk, hc⟩ := schedule_keeps h.ring
    exact ⟨_, by rw [exec, hu, map_some], h.keeps hk hc⟩
  | sleep => exact ⟨_, rfl, h.keeps (setState_keeps _ _ _) h.ring.current⟩
  | wake p => exact ⟨_, rfl, h.keeps (setState_keeps _ _ _) h.ring.current⟩

private theorem run_ok (h : Ok s) (hr : Trace Step s es t) : Ok t := by
  induction hr with
  | nil => exact h
  | snoc _ hs ih =>
    obtain ⟨hreg, hal, he⟩ := hs
    obtain ⟨v, hv, hok⟩ := exec_ok ih hreg hal
    cases hv.symm.trans he
    exact hok

/-- Only the first process, with no parent. -/
def boot : Family := ⟨bootTable, [0xC1001000], fun _ => 0, fun _ => 0, 1, []⟩

private theorem boot_ok : Ok boot := by
  refine ⟨⟨⟨by decide, by decide, rfl, id, rfl⟩, by decide, by decide⟩, List.Perm.refl _, ?_, ?_⟩
  · intro p hp
    obtain rfl := mem_singleton.mp hp
    exact Or.inl rfl
  · intro p hp hne
    obtain rfl := mem_singleton.mp hp
    exact absurd rfl hne

/-- In every run whose forks get memory for the record and in which no process is reaped before its
children, each state has the ring and the parents in order, no parent of a process in the ring has
been reaped, and the next call returns. -/
theorem family_runs (h : Ok s) (hr : Trace Step s es t) :
    Ok t ∧ (∀ p ∈ t.ring, (t.table.procs p).parent ≠ 0 → t.birth (t.table.procs p).parent ∉ t.reaped) ∧
      ∀ e, Regular t e → Allocates t e → ∃ u, t.exec e = some u := by
  have hok := run_ok h hr
  refine ⟨hok, fun p hp h0 hm => ?_, fun e hreg hal => ?_⟩
  · have hin := ((hok.parent p hp).resolve_left h0).1
    have hnd := hok.account.nodup_iff.mpr nodup_range
    exact (nodup_append.mp hnd).2.2 _ (mem_map_of_mem hin) _ hm rfl
  · obtain ⟨u, hu, -⟩ := exec_ok hok hreg hal
    exact ⟨u, hu⟩

/-- A child is forked, and the first process finds no zombie to wait for. -/
theorem boot_forks : ∃ t, Trace Step boot [.fork 5 0xC1002000 0xC1003000] t ∧
    Ok t ∧ (∀ p ∈ t.ring, (t.table.procs p).parent ≠ 0 → t.birth (t.table.procs p).parent ∉ t.reaped) ∧
      ∀ e, Regular t e → Allocates t e → ∃ u, t.exec e = some u := by
  have hr : Trace Step boot [.fork 5 0xC1002000 0xC1003000]
      (boot.bear (bootTable.forkProcess 5 0xC1002000 0xC1003000).1 0xC1002000) :=
    .snoc (l := []) .nil ⟨fun _ => by decide, ⟨by decide, by decide⟩, rfl⟩
  exact ⟨_, hr, family_runs boot_ok hr⟩

/-- A child forks and exits; its parent reaps it, and the grandchild is left with a parent that is gone,
which it reads when it exits. -/
def orphaning : List FamilyEvent :=
  [.fork 5 0xC1002000 0xC1003000, .schedule, .fork 6 0xC1004000 0xC1005000, .exitProcess 0, .schedule, .sleep,
    .schedule, .waitProcess, .wake 0xC1004000, .schedule]

/-- The child of a reaped zombie keeps its freed parent. -/
theorem reaping_leaves_orphan : ∃ t, Trace (fun s e t => exec s e = some t) boot orphaning t ∧
    t.table.currentProcess = 0xC1004000 ∧ t.table.current.parent = 0xC1002000 ∧ t.ring = [0xC1001000, 0xC1004000] ∧
      t.birth 0xC1002000 ∈ t.reaped := by
  have hrun : (orphaning.foldlM exec boot).map (fun t => (t.table.currentProcess, t.table.current.parent, t.ring,
      decide (t.birth 0xC1002000 ∈ t.reaped))) = some (0xC1004000, 0xC1002000, [0xC1001000, 0xC1004000], true) := by
    decide +kernel
  obtain ⟨t, ht, he⟩ := map_eq_some_iff.mp hrun
  simp only [Prod.mk.injEq, decide_eq_true_eq] at he
  exact ⟨t, trace_of_foldlM ht, he⟩

end Family
end RetroOs.Kernel
