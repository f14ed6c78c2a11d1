import RetroOs.Kernel.Unveil
import Mathlib.Logic.Equiv.List

/-! When the two calls that open a path give no more than the unveiled paths and the pledges. -/
namespace RetroOs.Kernel
open Lib PathName Option OpenFiles List Nat

namespace Vfs
variable {v : Vfs} {current n : ℕ} {path : List Char} {token : Name} {b p : List Name} {base : ℕ} {dirfd : Int}

private theorem next_leads (htok : token ≠ []) (hsep : '/' ∉ token) (h : v.next current token = some n) (hn : n ≠ 0) :
    Leads dotName dotDotName (v.path current) token (v.path n) := by
  rw [next] at h
  split at h
  · next f _ hf =>
    cases h
    exact v.finddir_leads hf hn
  · next f _ hf =>
    cases h
    exact v.lookup_leads hf hn
  · split at h
    · next hroot =>
      obtain ⟨-, ht⟩ := v.phase_target h hn
      rw [components_single '/' htok hsep] at ht
      rw [hroot, v.root_path]
      cases ht with
      | cons hl ht =>
        cases ht
        exact hl
    · cases h
      exact (hn rfl).elim

private theorem walk_target {fuel : ℕ} (h : v.walk fuel current path = some n) (hn : n ≠ 0) :
    (∀ c ∈ components '/' path, c.length < tokenSize) ∧
      Target dotName dotDotName (v.path current) (components '/' path) (v.path n) := by
  induction fuel generalizing current path with
  | zero => cases h
  | succ fuel ih =>
    rw [walk] at h
    split at h
    · next hend =>
      cases h
      rw [components_of_token_nil _ _ hend]
      exact ⟨fun _ hc => (not_mem_nil hc).elim, .nil _⟩
    · next htok =>
      split at h
      · cases h
      · next hlen =>
        split at h
        · cases h
        · next next hnext =>
          split at h
          · cases h
            exact (hn rfl).elim
          · next hne =>
            obtain ⟨hfit, ht⟩ := ih h
            rw [components_of_token _ _ htok]
            refine ⟨fun c hc => ?_, .cons (next_leads htok (sep_notMem_token '/' path) hnext hne) ht⟩
            rcases mem_cons.mp hc with rfl | hc
            · exact Nat.lt_of_not_le hlen
            · exact hfit c hc

private theorem start_root (v : Vfs) : v.start v.root = v.root := if_neg v.root_ne

private theorem resolve_target (h : v.resolvePathRelative base path = some n) (hn : n ≠ 0) :
    (∀ c ∈ components '/' path, c.length < tokenSize) ∧
      Target dotName dotDotName (if IsAbsolute path then [] else v.path (v.start base)) (components '/' path) (v.path n) := by
  rw [resolvePathRelative] at h
  split at h
  · next habs =>
    rw [if_pos habs, ← v.root_path]
    split at h
    · next hroot =>
      cases h
      rw [hroot]
      exact ⟨fun _ hc => (not_mem_nil hc).elim, .nil _⟩
    · split at h
      · cases h
      · next m hm =>
        split at h
        · cases h
          rw [v.root_path]
          exact v.phase_target hm hn
        · exact walk_target h hn
  · next habs =>
    rw [if_neg habs]
    exact walk_target h hn

end Vfs

namespace OpenFiles
variable {v : Vfs} {s t : OpenFiles} {node desc : ℕ} {flags : Word} {fd : Int}

private theorem openNode_opened (h : s.openNode node flags desc = (t, fd)) (hfd : 0 ≤ fd) :
    node ≠ 0 ∧ (∃ i, s.slot i = 0) ∧ (t.table.files desc).node = node := by
  rw [openNode] at h
  split at h
  · obtain ⟨-, rfl⟩ := Prod.mk.inj h
    cases hfd
  · next hnode =>
    dsimp only at h
    split at h
    · obtain ⟨-, rfl⟩ := Prod.mk.inj h
      cases hfd
    · next i hi =>
      obtain ⟨rfl, -⟩ := Prod.mk.inj h
      have hslot := List.find?_some hi
      refine ⟨hnode, ⟨i, (of_decide_eq_true hslot).2⟩, ?_⟩
      split <;> simp [setSlot, ProcessTable.setFile, ProcessTable.setCurrent, ProcessTable.set]

private theorem openNode_succeeds (hnode : node ≠ 0) (hfree : ∃ i, s.slot i = 0) : ∃ t fd, s.openNode node flags desc = (t, fd) ∧ 0 ≤ fd := by
  obtain ⟨i, hi⟩ := hfree
  rw [openNode, if_neg hnode]
  dsimp only
  split
  · next hnone =>
    have hall := find?_eq_none.mp hnone i (mem_finRange i)
    exact (hall (decide_eq_true ⟨zero_le _, hi⟩)).elim
  · exact ⟨_, _, rfl, Int.natCast_nonneg _⟩

private theorem checkUnveil_iff {path : String} {perms : Word} : s.table.checkUnveil path perms = true ↔
    s.table.current.unveils = [] ∨ ∃ u ∈ s.table.current.unveils,
      u.path.toList <+: path.toList ∧ u.permissions &&& perms = perms := by
  simp [ProcessTable.checkUnveil]

private theorem dirs_eq_none {i : Fin maxProcessFiles} (h : s.slot i = 0) : (s.rights v).dirs i = none := if_pos h

private theorem grants_of_opened {c : OpenCall} {base : ℕ} {b : List Name} (h : c.Confined (s.rights v)) (hck : c.Checked (s.rights v))
    (hb : c.base (s.rights v) = some b) (hbase : (if Vfs.IsAbsolute c.path.toList then [] else v.path (v.start base)) = b)
    (hopen : (v.resolvePathRelative base c.path.toList).map (fun node => s.openNode node flags desc) = some (t, fd)) (hfd : 0 ≤ fd) :
    (s.rights v).Grants c.flags (v.path (t.table.files desc).node) := by
  obtain ⟨n, hn, hnode⟩ := map_eq_some_iff.mp hopen
  obtain ⟨hne, ⟨i, hi⟩, hobj⟩ := openNode_opened hnode hfd
  obtain ⟨hfit, ht⟩ := Vfs.resolve_target hn hne
  rw [hobj]
  exact h hck ⟨i, dirs_eq_none hi⟩ hfit b hb _ (hbase ▸ ht)

private theorem base_of_dirNode {path : String} (h : s.dirNode? v dirfd = some base) :
    (OpenCall.sysOpenat dirfd path flags).base (s.rights v) =
      some (if Vfs.IsAbsolute path.toList then [] else v.path (v.start base)) := by
  rw [dirNode?] at h
  rw [OpenCall.base]
  split at h
  · next hcwd =>
    cases h
    rw [if_pos hcwd, Vfs.start_root, v.root_path]
    rfl
  · next hcwd =>
    rw [if_neg hcwd]
    split at h
    · cases h
    · next i hi =>
      split at h
      · cases h
      · next hslot =>
        cases h
        simp [hi, rights, hslot]

private theorem lawful_of_confined {c : OpenCall} (h : c.Confined (s.rights v)) : s.Lawful v c := by
  intro desc t fd hexec hfd
  cases c with
  | sysOpen path flags =>
    rw [OpenCall.exec, sysOpen] at hexec
    split at hexec
    · obtain ⟨-, rfl⟩ := Prod.mk.inj (some.inj hexec)
      cases hfd
    · next hck =>
      split at hexec
      · obtain ⟨-, rfl⟩ := Prod.mk.inj (some.inj hexec)
        cases hfd
      · next hpl =>
        refine grants_of_opened (b := []) h ⟨checkUnveil_iff.mp (not_not.mp hck), hpl⟩ rfl ?_ hexec hfd
        rw [Vfs.start_root, v.root_path, ite_self]
  | sysOpenat dirfd path flags =>
    rw [OpenCall.exec, sysOpenat] at hexec
    split at hexec
    · obtain ⟨-, rfl⟩ := Prod.mk.inj (some.inj hexec)
      cases hfd
    · next base hbase => exact grants_of_opened h trivial (base_of_dirNode hbase) rfl hexec hfd

end OpenFiles

/-! A file system that leads where it is wanted: each node is a place and what its lookups will find. -/

instance encodableChar : Encodable Char := Encodable.ofLeftInverse Char.toNat Char.ofNat Char.ofNat_toNat

abbrev ScriptNode := List Name × List (Name × List Name)

def code (x : ScriptNode) : ℕ := Encodable.encode x + 1

def decode? (a : ℕ) : Option ScriptNode := if a = 0 then none else Encodable.decode (a - 1)

@[simp] theorem decode_code (x : ScriptNode) : decode? (code x) = some x := by
  rw [decode?, code, if_neg (Nat.succ_ne_zero _), Nat.add_sub_cancel, Encodable.encodek]

def scripted (a : ℕ) (c : Name) : ℕ :=
  match decode? a with
  | some (d, (c', e) :: rest) => if c = c' ∧ Leads dotName dotDotName d c e then code (e, rest) else 0
  | _ => 0

def placeOf (a : ℕ) : List Name := ((decode? a).map Prod.fst).getD []

@[simp] theorem placeOf_code (x : ScriptNode) : placeOf (code x) = x.1 := by
  rw [placeOf, decode_code]
  rfl

private theorem scripted_leads {a : ℕ} {c : Name} (h : scripted a c ≠ 0) : Leads dotName dotDotName (placeOf a) c (placeOf (scripted a c)) := by
  revert h
  rw [scripted]
  split
  · next d c' e rest ha =>
    split
    · next hl =>
      intro _
      rw [placeOf_code, placeOf, ha]
      exact hl.2
    · exact fun h => (h rfl).elim
  · exact fun h => (h rfl).elim

def scriptVfs (script : List (Name × List Name)) : Vfs where
  root := code ([], script)
  finddir a := some (scripted a)
  lookup _ := none
  phase _ := some 0
  path := placeOf
  root_ne := succ_ne_zero _
  root_path := placeOf_code _
  finddir_leads h hn := by
    cases h
    exact scripted_leads hn
  lookup_leads h := nomatch h
  phase_target h hn := (hn (some.inj h).symm).elim

private theorem walk_scripted {path : List Char} (ht : Target dotName dotDotName b (components '/' path) p)
    (hfit : ∀ c ∈ components '/' path, c.length < tokenSize) :
    ∃ script, ∀ (v : Vfs), v.finddir = (fun a => some (scripted a)) → ∀ fuel, path.length < fuel →
      v.walk fuel (code (b, script)) path = some (code (p, [])) := by
  generalize hcs : components '/' path = cs at ht hfit
  induction ht generalizing path with
  | nil d =>
    refine ⟨[], fun v _ fuel hf => ?_⟩
    cases fuel with
    | zero => exact absurd hf (not_lt_zero _)
    | succ fuel =>
      have htok : token '/' path = [] := by
        by_contra htok
        rw [components_of_token _ _ htok] at hcs
        cases hcs
      rw [Vfs.walk, if_pos htok]
  | @cons d e p c cs hl _ ih =>
    have htok : token '/' path ≠ [] := by
      intro htok
      rw [components_of_token_nil _ _ htok] at hcs
      cases hcs
    rw [components_of_token _ _ htok] at hcs
    obtain ⟨rfl, hrest⟩ := cons.inj hcs
    obtain ⟨script, hs⟩ := ih hrest fun c hc => hfit c (.tail _ hc)
    refine ⟨(token '/' path, e) :: script, fun v hv fuel hf => ?_⟩
    cases fuel with
    | zero => exact absurd hf (not_lt_zero _)
    | succ fuel =>
      have hnext : v.next (code (d, (token '/' path, e) :: script)) (token '/' path) = some (code (e, script)) := by
        rw [Vfs.next, hv]
        simp only [scripted, decode_code, true_and, if_pos hl]
      have hlen := afterToken_length '/' path htok
      rw [Vfs.walk, if_neg htok, if_neg (Nat.not_le_of_lt (hfit _ (List.mem_cons_self ..))), hnext]
      simp only [code, succ_ne_zero, if_false]
      exact hs v hv fuel (by omega)

theorem code_ne (x : ScriptNode) : code x ≠ 0 := succ_ne_zero _

private theorem resolve_scripted {path : List Char} (ht : Target dotName dotDotName b (components '/' path) p)
    (hfit : ∀ c ∈ components '/' path, c.length < tokenSize) :
    ∃ script, ∀ base, (if Vfs.IsAbsolute path then b = [] else base = code (b, script)) →
      ∃ node, node ≠ 0 ∧ placeOf node = p ∧ (scriptVfs script).resolvePathRelative base path = some node := by
  obtain ⟨script, hwalk⟩ := walk_scripted ht hfit
  have hw := hwalk (scriptVfs script) rfl (path.length + 1) (lt_succ_self _)
  refine ⟨script, fun base hbase => ?_⟩
  rw [Vfs.resolvePathRelative]
  split at hbase
  · next habs =>
    subst hbase
    rw [if_pos habs]
    split
    · next hroot =>
      rw [hroot] at ht
      refine ⟨code ([], script), code_ne _, ?_, rfl⟩
      rw [placeOf_code]
      cases ht
      rfl
    · exact ⟨_, code_ne _, placeOf_code _, hw⟩
  · next habs =>
    rw [if_neg habs, hbase, Vfs.start, if_neg (code_ne _)]
    exact ⟨_, code_ne _, placeOf_code _, hw⟩

def holder (r : OpenRights) (script : List (Name × List Name)) : OpenFiles where
  table :=
    { procs := fun _ =>
        { Process.zero with
          unveils := r.unveils
          pledges := r.pledges
          fdTable := fun i => if (r.dirs i).isNone then 0 else code ((r.dirs i).getD [], script) }
      files := fun a => { node := a, offset := 0, flags := 0, refCount := 1 }
      currentProcess := 1
      readyQueue := 1
      nextPid := 2
      tick := 0 }
  procs := {1}
  live := ∅
  opened := []
  released := []

theorem holder_slot (r : OpenRights) (script : List (Name × List Name)) (i : Fin maxProcessFiles) :
    (holder r script).slot i = if (r.dirs i).isNone then 0 else code ((r.dirs i).getD [], script) := rfl

private theorem holder_rights (r : OpenRights) (script : List (Name × List Name)) :
    (holder r script).rights (scriptVfs script) = r := by
  have hdirs : ((holder r script).rights (scriptVfs script)).dirs = r.dirs := by
    funext i
    have hslot := holder_slot r script i
    cases hi : r.dirs i with
    | none =>
      rw [hi] at hslot
      exact if_pos hslot
    | some d =>
      rw [hi] at hslot
      have hne : (holder r script).slot i ≠ 0 := hslot ▸ code_ne (d, script)
      have hnode : ((holder r script).table.files ((holder r script).slot i)).node = code (d, script) := hslot
      refine (if_neg hne).trans ?_
      rw [hnode, Vfs.start, if_neg (code_ne _)]
      exact congrArg some (placeOf_code _)
  rw [OpenRights.mk.injEq]
  exact ⟨rfl, rfl, hdirs⟩

private theorem holder_dirNode {r : OpenRights} (script : List (Name × List Name)) {path : String} {flags : Word}
    (hb : (OpenCall.sysOpenat dirfd path flags).base r = some b) :
    ∃ base, (holder r script).dirNode? (scriptVfs script) dirfd = some base ∧
      (if Vfs.IsAbsolute path.toList then b = [] else base = code (b, script)) := by
  rw [OpenCall.base] at hb
  obtain ⟨d, hd, rfl⟩ := map_eq_some_iff.mp hb
  have hplace : if Vfs.IsAbsolute path.toList then (if Vfs.IsAbsolute path.toList then [] else d) = []
      else code (d, script) = code (if Vfs.IsAbsolute path.toList then [] else d, script) := by
    split <;> rfl
  rw [dirNode?]
  split at hd
  · next hcwd =>
    cases hd
    exact ⟨_, if_pos hcwd, hplace⟩
  · next hcwd =>
    rw [if_neg hcwd]
    obtain ⟨i, hi, hdir⟩ := bind_eq_some_iff.mp hd
    have hslot : (holder r script).slot i = code (d, script) := by
      rw [holder_slot, hdir]
      rfl
    have hnode : ((holder r script).table.files ((holder r script).slot i)).node = code (d, script) := hslot
    refine ⟨code (d, script), ?_, hplace⟩
    rw [hi]
    exact (if_neg (hslot ▸ code_ne _)).trans (congrArg some hnode)

namespace OpenCall

private theorem opens_target {r : OpenRights} {c : OpenCall} {b p : List Name} (hck : c.Checked r) (hfree : ∃ i, r.dirs i = none)
    (hfit : ∀ n ∈ components '/' c.path.toList, n.length < tokenSize) (hb : c.base r = some b)
    (ht : Target dotName dotDotName b (components '/' c.path.toList) p) :
    ∃ (v : Vfs) (s t : OpenFiles) (fd : Int), s.rights v = r ∧ c.exec v s 1 = some (t, fd) ∧ 0 ≤ fd ∧
      v.path (t.table.files 1).node = p := by
  obtain ⟨script, hres⟩ := resolve_scripted ht hfit
  have hrights := holder_rights r script
  have hfree' : ∃ i, (holder r script).slot i = 0 := by
    obtain ⟨i, hi⟩ := hfree
    exact ⟨i, by rw [holder_slot, hi]; rfl⟩
  -- whatever the node is that the path is resolved to, if it is at the place
  have hend (node : ℕ) (hnode : node ≠ 0) (hp : placeOf node = p)
      (hexec : c.exec (scriptVfs script) (holder r script) 1 = some ((holder r script).openNode node c.flags 1)) :
      ∃ (v : Vfs) (s t : OpenFiles) (fd : Int), s.rights v = r ∧ c.exec v s 1 = some (t, fd) ∧ 0 ≤ fd ∧
        v.path (t.table.files 1).node = p := by
    obtain ⟨t, fd, ho, hfd⟩ : ∃ t fd, (holder r script).openNode node c.flags 1 = (t, fd) ∧ 0 ≤ fd :=
      openNode_succeeds hnode hfree'
    obtain ⟨-, -, hobj⟩ := openNode_opened ho hfd
    exact ⟨_, _, t, fd, hrights, ho ▸ hexec, hfd, by rw [hobj]; exact hp⟩
  cases c with
  | sysOpen path flags =>
    obtain rfl : [] = b := some.inj hb
    obtain ⟨node, hnode, hp, hn⟩ := hres (code ([], script)) (by split <;> rfl)
    apply hend node hnode hp
    have hun : (holder r script).table.checkUnveil path (neededPerms flags) = true := checkUnveil_iff.mpr hck.1
    have hpl : ¬ (holder r script).table.current.pledges &&& neededPledge flags = 0 := hck.2
    rw [exec, OpenFiles.sysOpen, if_neg (not_not.mpr hun), if_neg hpl]
    exact congrArg (Option.map _) hn
  | sysOpenat dirfd path flags =>
    obtain ⟨base, hd, hbase⟩ := holder_dirNode script hb
    obtain ⟨node, hnode, hp, hn⟩ := hres base hbase
    apply hend node hnode hp
    rw [exec, OpenFiles.sysOpenat, hd]
    exact congrArg (Option.map _) hn

/-- A call opens only what the unveiled paths and the pledges grant, on every file system, exactly if its
path leads only there or the call cannot succeed. -/
theorem lawful_iff (r : OpenRights) (c : OpenCall) :
    (∀ (v : Vfs) (s : OpenFiles), s.rights v = r → s.Lawful v c) ↔ c.Confined r := by
  constructor
  · intro h hck hfree hfit b hb p ht
    obtain ⟨v, s, t, fd, hr, hexec, hfd, hobj⟩ := opens_target hck hfree hfit hb ht
    have hlaw := h v s hr 1 t fd hexec hfd
    rwa [hr, hobj] at hlaw
  · rintro h v s rfl
    exact lawful_of_confined h

def oneHome : OpenRights where
  unveils := [⟨"/home/user", 4⟩]
  pledges := pledgeAll
  dirs _ := none

def user2 : List Name := ["home".toList, "user2".toList]

private theorem user2_not_granted : ¬ oneHome.Grants 0 user2 := by
  rintro ⟨⟨u, hu, hpre, -⟩, -⟩
  obtain rfl := mem_singleton.mp hu
  exact absurd hpre (by decide)

theorem opens_other_home :
    (∃ (v : Vfs) (s t : OpenFiles) (fd : Int), s.rights v = oneHome ∧ s.sysOpen v "/home/user2" 0 1 = some (t, fd) ∧ 0 ≤ fd ∧
      v.path (t.table.files 1).node = user2 ∧ ¬ s.Lawful v (.sysOpen "/home/user2" 0)) ∧
    ∃ (v : Vfs) (s t : OpenFiles) (fd : Int), s.rights v = oneHome ∧ s.sysOpenat v atFdcwd "home/user2" 0 1 = some (t, fd) ∧
      0 ≤ fd ∧ v.path (t.table.files 1).node = user2 ∧ ¬ s.Lawful v (.sysOpenat atFdcwd "home/user2" 0) := by
  have hopens (c : OpenCall) (hflags : c.flags = 0) (hck : c.Checked oneHome) (hfit : ∀ n ∈ components '/' c.path.toList, n.length < tokenSize)
      (hb : c.base oneHome = some []) (hcs : components '/' c.path.toList = user2) :
      ∃ (v : Vfs) (s t : OpenFiles) (fd : Int), s.rights v = oneHome ∧ c.exec v s 1 = some (t, fd) ∧ 0 ≤ fd ∧
        v.path (t.table.files 1).node = user2 ∧ ¬ s.Lawful v c := by
    have ht : Target dotName dotDotName [] (components '/' c.path.toList) user2 := by
      rw [hcs]
      exact (target_iff (by decide) (by decide)).mpr rfl
    obtain ⟨v, s, t, fd, hr, hexec, hfd, hobj⟩ := opens_target hck ⟨0, rfl⟩ hfit hb ht
    refine ⟨v, s, t, fd, hr, hexec, hfd, hobj, fun hlaw => user2_not_granted ?_⟩
    have hgrant := hlaw 1 t fd hexec hfd
    rwa [hr, hobj, hflags] at hgrant
  exact ⟨hopens (.sysOpen "/home/user2" 0) rfl ⟨Or.inr ⟨_, mem_singleton_self _, by decide, by decide⟩, by decide⟩ (by decide) rfl (by decide),
    hopens (.sysOpenat atFdcwd "home/user2" 0) rfl trivial (by decide) (by decide) (by decide)⟩

end OpenCall
end RetroOs.Kernel
