import RetroOs.Drivers.Fat16Additions
import RetroOs.Kernel.VfsCreate

/-! The two layers under `vfs_create` over runs of creations: on which calls a path that is there is left alone, and
what is created is in one of the layers only. -/
namespace RetroOs.Kernel
open Lib Drivers PathName Option Nat
namespace PhaseA

variable {b : Bpb} {d : Disk} {s t : PhaseA} {path c : CString} {p : Nat × CString} {sync buf ok : Bool} {x : Nat}

/-- Past its checks `vfs_mkdir_phase_a` makes the directory. -/
theorem mkdir_makes (h : p ∈ creates s path) (htype : (s.inodes p.1).type = .dir) (e : s.mkdir path = some (t, ok)) :
    ok = true := by
  obtain ⟨parent, hsp, hres, hmissing, hcount⟩ := creates_spec h
  obtain ⟨s₁, hs₁, -⟩ := allocInode_block .dir hcount
  simp [mkdir, hsp, hres, htype, hmissing, hs₁] at e
  obtain ⟨u, -, hret⟩ := bind_eq_some_iff.mp e
  exact (Prod.mk.inj (some.inj hret)).2.symm

private theorem createFile_makes (h : p ∈ creates s path) {r : Option Nat} (e : s.createFile path = some (t, r)) : r.isSome := by
  obtain ⟨parent, hsp, hres, hmissing, hcount⟩ := creates_spec h
  obtain ⟨s₁, hs₁, -⟩ := allocInode_block .file hcount
  simp [createFile, hsp, hres, hmissing, hs₁] at e
  obtain ⟨u, -, hret⟩ := bind_eq_some_iff.mp e
  rw [← (Prod.mk.inj (some.inj hret)).2]
  rfl

private theorem vfsSync_skipped (h : ¬ (sync = true ∧ buf = true)) : s.vfsSync b d sync buf = d := by
  cases sync
  · rfl
  · cases buf
    · rfl
    · exact absurd ⟨rfl, rfl⟩ h

private theorem vfsSync_root (hg : Fat16.Geometry b) (hs : 1 ≤ b.sectorsPerCluster) (hroot : Fat16.Directory b d 0 [])
    (hfile : ∀ a, Fat16.findEntry b d 0 truthDat = some (some a) → Fat16.HasSpace b d (Fat16.firstCluster d a) totalSize)
    (hnew : Fat16.AddsEntry b d 0 truthDat → Fat16.HasSpace b d 0 totalSize)
    (h : Fat16.findEntry b (s.vfsSync b d true true) 0 c = some (some x)) :
    (∃ y, Fat16.findEntry b d 0 c = some (some y)) ∨
      Fat16.AddsEntry b d 0 truthDat ∧ Fat16.foldString truthDat = Fat16.foldString c := by
  rw [← image_length s] at hfile hnew
  rcases hroot.search truthDat with ⟨hnone, -⟩ | ⟨a, -, -, hfound⟩
  · have hsync : s.vfsSync b d true true = (Fat16.writeFile b (Fat16.createVfs b d 0 truthDat).1 truthDat s.image).1 := by
      simp only [vfsSync, hnone]
      rfl
    rw [hsync, Fat16.createVfs, Fat16.addEntry, hnone, hroot.dirSlots.findFree] at h
    cases hfree : Fat16.freeSlot d.bytes (Fat16.slotsOf b 0 []) with
    | none =>
      rw [hfree] at h
      dsimp only at h
      rw [Fat16.writeFile, hnone] at h
      exact .inl ⟨x, h⟩
    | some a =>
      rw [hfree] at h
      dsimp only at h
      have hadds : Fat16.AddsEntry b d 0 truthDat := ⟨hnone, a, by rw [hroot.dirSlots.findFree, hfree]⟩
      have hslot := hroot.slot (List.mem_of_find?_eq_some hfree)
      have hent := Fat16.patchSector_entered (d := d) hg hslot truthDat Fat16.attrArchive 0
      have hfound := hent.found hroot hfree (.inl rfl) truthDat_findable hnone
      have hspace := (hnew hadds).congr hent.fat
      rw [Fat16.writeFile_root hg hs hfound (image_ne_nil s) (by rwa [hent.first])] at h
      have hback := ((Fat16.findable_iff truthDat).mp truthDat_findable).2
      exact (hent.root hfree hback hroot h).imp_right fun hname => ⟨hadds, hname.2⟩
  · have hsync : s.vfsSync b d true true = (Fat16.writeFile b d truthDat s.image).1 := by
      simp only [vfsSync, hfound]
      rfl
    rw [hsync, Fat16.writeFile_root hg hs hfound (image_ne_nil s) (hfile a hfound)] at h
    exact .inl ⟨x, h⟩

end PhaseA

namespace FileSystems
open PhaseA

section
variable (b : Bpb) (slaves : CString → Bool) (v : FileSystems)

/-! ### Which calls meet the contract -/

/-- The lookup of a token that has room in its buffer. -/
def look (n : VfsNode) (t : CString) : Option (Option VfsNode) := if nameSize ≤ t.length then none else v.next b slaves n t

def PhaseName (t : CString) : Prop := ∃ i, resolveToken v.tables 0 t = some (some i)

def RootName (t : CString) : Prop := ∃ n, v.look b slaves (.fat 0) t = some (some n)

def phaseMakes (c : CreateCall) : Option (Nat × CString) :=
  (creates v.tables c.path).filter fun p => c.type ≠ vfsDirectory ∨ (v.tables.inodes p.1).type = .dir

def cleared (c : CreateCall) : Option Nat := if c.type = vfsDirectory then some (allocBlock v.tables).2 else none

structure SaveInOrder (p : Nat × CString) : Prop where
  root : Fat16.Directory b v.disk 0 []
  file : ∀ a, Fat16.findEntry b v.disk 0 truthDat = some (some a) →
    Fat16.HasSpace b v.disk (Fat16.firstCluster v.disk a) totalSize
  space : Fat16.AddsEntry b v.disk 0 truthDat → Fat16.HasSpace b v.disk 0 totalSize
  names : Fat16.AddsEntry b v.disk 0 truthDat → ∀ t ∈ Names, v.PhaseName t ∨ p.1 = 0 ∧ t = p.2 →
    Fat16.foldString truthDat ≠ Fat16.foldString t

/-- The entry that Phase A makes is one that lookups find, it is not in `vfs_root`, and the save changes nothing else. -/
structure PhaseOrderly (c : CreateCall) (p : Nat × CString) : Prop where
  noSlash : c.path.getLast? ≠ some slash
  undisturbed : Undisturbed v.tables c.path (v.cleared c)
  rootFree : p.1 = 0 → ¬ v.RootName b slaves p.2
  save : v.sync = true → c.buf = true → v.SaveInOrder b p

/-- The directories that the walk comes through. -/
def Passes (path : CString) (cluster : Nat) : Prop :=
  ∃ front, front <+: components slash path ∧ nameWalk (v.look b slaves) (.fat 0) front = some (some (.fat cluster))

def Existing (c : CreateCall) (cluster : Nat) : Prop :=
  if c.type = vfsDirectory then ∀ e, ¬ Fat16.ReadsFree b v.disk.bytes e else ¬ Fat16.AddsEntry b v.disk cluster c.name

/-- The name can be found again, and Phase A has it not, neither as the path nor up to the case of letters in its root. -/
structure NewName (c : CreateCall) (cluster : Nat) : Prop where
  nonempty : c.name ≠ []
  eightThree : Fat16.EightThree c.name
  phase : resolve v.tables c.path = some none
  root : cluster = 0 → ∀ t ∈ Names, v.PhaseName t → Fat16.foldString c.name ≠ Fat16.foldString t

structure Fresh (c : CreateCall) (cluster : Nat) : Prop where
  directory : ∀ e, v.Passes b slaves c.parentPath e → ∃ l, Fat16.Directory b v.disk e l
  scan : c.type = vfsDirectory → Fat16.ScanInside b v.disk.bytes
  name : Fat16.AddsEntry b v.disk cluster c.name → (c.type = vfsDirectory → ∃ e, Fat16.ReadsFree b v.disk.bytes e) →
    v.NewName c cluster

def ParentOrderly (c : CreateCall) : VfsNode → Prop
  | .phase i => (v.tables.inodes i).type = .dir → findEntry v.tables i c.name = some none → maxInodes ≤ v.tables.inodeCount
  | .dev _ => True
  | .fat cluster =>
    (v.Resolves b slaves c.path → v.Existing b c cluster) ∧ (¬ v.Resolves b slaves c.path → v.Fresh b slaves c cluster)

/-- What a call has to find for the contract to hold. -/
structure Orderly (c : CreateCall) : Prop where
  absolute : c.path.head? = some slash
  phase : ∀ p ∈ v.phaseMakes c, v.PhaseOrderly b slaves c p
  parent : v.phaseMakes c = none → ∀ n, v.parentNode b slaves c = some (some n) → v.ParentOrderly b slaves c n

end

def OrderlyStep (b : Bpb) (slaves : CString → Bool) (v : FileSystems) (c : CreateCall) (v' : FileSystems) : Prop :=
  v.Orderly b slaves c ∧ ∃ r, v.create b slaves c = some (v', r)

variable {b : Bpb} {slaves : CString → Bool} {v v' : FileSystems} {c : CreateCall} {path t : CString} {p : Nat × CString}
  {n : VfsNode} {k cluster : Nat} {r : Int}

/-! ### Walks and names -/

private theorem walk_eq (h : path.length < k) : v.walk b slaves k n path = nameWalk (v.look b slaves) n (components slash path) := by
  induction k generalizing n path with
  | zero => cases h
  | succ k ih =>
    rw [walk]
    split
    · next hnil =>
      rw [components_of_token_nil slash path hnil]
      rfl
    · next hne =>
      have hshort := afterToken_length slash path hne
      rw [components_of_token slash path hne, nameWalk, look]
      split
      · rfl
      · split
        · next x hx =>
          rw [hx]
          exact ih (by omega)
        · next hstop =>
          split
          · next x hx => exact absurd hx (hstop x)
          · rfl

theorem walkRoot_eq (v : FileSystems) (path : CString) :
    v.walkRoot b slaves path = nameWalk (v.look b slaves) (.fat 0) (components slash path) := walk_eq (lt_succ_self _)

theorem components_tail (h : path.head? = some slash) : components slash path.tail = components slash path := by
  cases path with
  | nil => cases h
  | cons x path =>
    cases h
    simp [components, componentsFrom, flush]

theorem components_ne_nil {cs : List CString} (h : components slash path = cs ++ [t]) : components slash path ≠ [] := by
  rw [h]
  exact List.append_ne_nil_of_right_ne_nil _ (List.cons_ne_nil _ _)

theorem resolve_walk (h : path.head? = some slash) (s : PhaseA) :
    resolve s path = nameWalk (resolveToken s) 0 (components slash path) := by
  rw [resolve_eq s h, components_tail h]

theorem separate_iff : v.Separate b slaves ↔ ∀ t ∈ Names, v.PhaseName t → ¬ v.RootName b slaves t := by
  constructor
  · rintro h t ⟨hne, hslash⟩ ⟨i, hi⟩ ⟨n, hn⟩
    have hsingle := components_single slash hne hslash
    refine h (slash :: t) rfl (by rw [hsingle]; exact List.cons_ne_nil _ _) ⟨⟨i, ?_⟩, n, ?_⟩
    · rw [resolve_walk rfl, hsingle, nameWalk_cons hi]
      rfl
    · rw [walkRoot_eq, hsingle, nameWalk_cons hn]
      rfl
  · rintro h path habs hne ⟨⟨i, hi⟩, n, hn⟩
    rw [resolve_walk habs] at hi
    rw [walkRoot_eq] at hn
    cases hc : components slash path with
    | nil => exact hne hc
    | cons t rest =>
      rw [hc] at hi hn
      obtain ⟨j, hj, -⟩ := nameWalk_cons_some hi
      obtain ⟨m, hm, -⟩ := nameWalk_cons_some hn
      exact h t (components_names path t (hc ▸ (.head _))) ⟨j, hj⟩ ⟨m, hm⟩

theorem next_devfs (h : t = .ofString "dev" ∧ cluster = 0) : v.next b slaves (.fat cluster) t = some (some (.dev .root)) := by
  rw [next, Fat16.finddirVfs, if_pos h]

theorem next_fat (h : ¬ (t = .ofString "dev" ∧ cluster = 0)) :
    v.next b slaves (.fat cluster) t =
      (Fat16.findEntry b v.disk cluster t).map fun r => r.map fun a => .fat (Fat16.firstCluster v.disk a) := by
  rw [next, Fat16.finddirVfs, if_neg h]
  cases Fat16.findEntry b v.disk cluster t with
  | none => rfl
  | some r => cases r <;> rfl

theorem rootName_iff : v.RootName b slaves t ↔
    t.length < nameSize ∧ (t = .ofString "dev" ∨ ∃ a, Fat16.findEntry b v.disk 0 t = some (some a)) := by
  rw [RootName, look]
  split
  · next hlong => exact ⟨fun ⟨n, hn⟩ => (nomatch hn), fun h => absurd h.1 (not_lt.mpr hlong)⟩
  · next hshort =>
    rw [and_iff_right (not_le.mp hshort)]
    by_cases hdev : t = .ofString "dev"
    · rw [next_devfs ⟨hdev, rfl⟩]
      exact ⟨fun _ => .inl hdev, fun _ => ⟨_, rfl⟩⟩
    · rw [next_fat fun h => hdev h.1, or_iff_right hdev]
      cases hfind : Fat16.findEntry b v.disk 0 t with
      | none => simp
      | some a => cases a <;> simp

theorem Separate.names (h : v.Separate b slaves) (hphase : ∀ t ∈ Names, v'.PhaseName t → v.PhaseName t)
    (hroot : ∀ t a, Fat16.findEntry b v'.disk 0 t = some (some a) → ∃ e, Fat16.findEntry b v.disk 0 t = some (some e)) :
    v'.Separate b slaves := by
  rw [separate_iff] at h ⊢
  intro t ht hp hr
  obtain ⟨hlen, hr⟩ := rootName_iff.mp hr
  exact h t ht (hphase t ht hp) (rootName_iff.mpr ⟨hlen, hr.imp_right fun ⟨a, ha⟩ => hroot t a ha⟩)

private theorem resolvePath_phase (habs : path.head? = some slash) (hne : components slash path ≠ []) {i : Nat}
    (h : resolve v.tables path = some (some i)) : v.resolvePath b slaves path = some (some (.phase i)) := by
  have hroot : path ≠ [slash] := by
    rintro rfl
    exact hne rfl
  rw [resolvePath, if_neg (not_not.mpr habs), if_neg hroot, h]

private theorem resolvePath_missing (habs : path.head? = some slash) (hne : components slash path ≠ [])
    (h : resolve v.tables path = some none) : v.resolvePath b slaves path = v.walkRoot b slaves path := by
  have hroot : path ≠ [slash] := by
    rintro rfl
    exact hne rfl
  rw [resolvePath, if_neg (not_not.mpr habs), if_neg hroot, h]

/-! ### What Phase A makes -/

theorem mem_phaseMakes : p ∈ v.phaseMakes c ↔
    p ∈ creates v.tables c.path ∧ (c.type ≠ vfsDirectory ∨ (v.tables.inodes p.1).type = .dir) := by
  rw [phaseMakes, mem_filter_iff, decide_eq_true_iff]

private theorem tryPhaseA_cases (habs : c.path.head? = some slash) {t : PhaseA} {ok : Bool} (e : v.tryPhaseA c = some (t, ok)) :
    t = v.tables ∧ ok = false ∧ v.phaseMakes c = none ∨
      ok = true ∧ ∃ p ∈ v.phaseMakes c, ∃ i, Creation v.tables c.path (v.cleared c) t i := by
  rw [tryPhaseA, if_neg (not_not.mpr habs)] at e
  split at e
  · next hdir =>
    rcases mkdir_steps e with ⟨rfl, rfl⟩ | ⟨rfl, -, p, hp, htype, -⟩
    · refine .inl ⟨rfl, rfl, eq_none_iff_forall_not_mem.mpr fun p hp => ?_⟩
      obtain ⟨hp, htype⟩ := mem_phaseMakes.mp hp
      exact Bool.noConfusion (mkdir_makes hp (htype.resolve_left (not_not.mpr hdir)) e)
    · refine .inr ⟨rfl, p, mem_phaseMakes.mpr ⟨hp, .inr htype⟩, v.tables.inodeCount, ?_⟩
      rw [cleared, if_pos hdir]
      exact .mkdir e
  · next hfile =>
    obtain ⟨⟨t, i⟩, he, hret⟩ := map_eq_some_iff.mp e
    cases hret
    rcases createFile_steps he with ⟨rfl, rfl⟩ | ⟨rfl, -, p, hp, -⟩
    · refine .inl ⟨rfl, rfl, eq_none_iff_forall_not_mem.mpr fun p hp => ?_⟩
      exact Bool.noConfusion (createFile_makes (mem_phaseMakes.mp hp).1 he)
    · refine .inr ⟨rfl, p, mem_phaseMakes.mpr ⟨hp, .inl hfile⟩, v.tables.inodeCount, ?_⟩
      rw [cleared, if_neg hfile]
      exact .createFile he

theorem creates_missing {s : PhaseA} (habs : path.head? = some slash) (hlast : path.getLast? ≠ some slash)
    (hp : p ∈ creates s path) :
    resolve s path = some none ∧ ∃ cs, components slash path = cs ++ [p.2] ∧ nameWalk (resolveToken s) 0 cs = some (some p.1) := by
  obtain ⟨parent, hsp, hres, hmissing, -⟩ := creates_spec hp
  obtain ⟨hparent, hname, hcomp⟩ := splitPath_components habs hlast hsp
  have hnone : resolveToken s p.1 p.2 = some none := by
    rw [resolveToken, if_neg (not_le.mpr (splitPath_name hsp)), if_neg hname.1, hmissing]
  rw [components_tail habs, components_tail hparent] at hcomp
  rw [resolve_walk hparent] at hres
  refine ⟨?_, _, hcomp, hres⟩
  rw [resolve_walk habs, hcomp, nameWalk_append hres, nameWalk_stop (by rw [hnone]; exact fun k hk => by cases hk), hnone]

section
variable (hsep : v.Separate b slaves) (habs : c.path.head? = some slash) (hp : p ∈ v.phaseMakes c)
  (ho : v.PhaseOrderly b slaves c p)
include hsep habs hp ho

theorem PhaseOrderly.missing : ¬ v.Resolves b slaves c.path := by
  rintro ⟨n, hn⟩
  obtain ⟨hnone, cs, hcomp, hdir⟩ := creates_missing habs ho.noSlash (mem_phaseMakes.mp hp).1
  have hne := components_ne_nil hcomp
  rw [resolvePath_missing habs hne hnone, walkRoot_eq, hcomp] at hn
  cases cs with
  | nil =>
    obtain ⟨m, hm, -⟩ := nameWalk_cons_some hn
    exact ho.rootFree (some.inj (some.inj hdir)).symm ⟨m, hm⟩
  | cons t rest =>
    obtain ⟨i, hi, -⟩ := nameWalk_cons_some hdir
    obtain ⟨m, hm, -⟩ := nameWalk_cons_some hn
    have ht : t ∈ Names := components_names c.path t (hcomp ▸ (.head _))
    exact separate_iff.mp hsep t ht ⟨i, hi⟩ ⟨m, hm⟩

theorem PhaseOrderly.step (hg : Fat16.Geometry b) (hs : 1 ≤ b.sectorsPerCluster) {t : PhaseA} {i : Nat}
    (hc : Creation v.tables c.path (v.cleared c) t i)
    (hv : v' = { v with tables := t, disk := t.vfsSync b v.disk v.sync c.buf }) :
    v'.Separate b slaves ∧ v.CreateContract b slaves c.path v' 0 := by
  obtain ⟨rfl, q, hq, -, -, hother⟩ := hc.lookups ho.undisturbed
  obtain rfl := Option.mem_unique hq (mem_phaseMakes.mp hp).1
  have hfound := (hc.createdAt habs ho.noSlash ho.undisturbed).found
  obtain ⟨-, cs, hcomp, -⟩ := creates_missing habs ho.noSlash hq
  have hne := components_ne_nil hcomp
  have hphase : ∀ t ∈ Names, v'.PhaseName t → v.PhaseName t ∨ q.1 = 0 ∧ t = q.2 := by
    rintro t ht ⟨j, hj⟩
    by_cases hnew : q.1 = 0 ∧ t = q.2
    · exact .inr hnew
    · have hsame := hother 0 .refl t ht fun h0 hname => hnew ⟨h0.symm, hname⟩
      rw [hv] at hj
      exact .inl ⟨j, hsame.symm.trans hj⟩
  have hroot : ∀ t, v'.RootName b slaves t → v.RootName b slaves t ∨
      v.SaveInOrder b q ∧ Fat16.AddsEntry b v.disk 0 truthDat ∧ Fat16.foldString truthDat = Fat16.foldString t := by
    intro t ht
    obtain ⟨hlen, ht⟩ := rootName_iff.mp ht
    rcases ht with hdev | ⟨a, ha⟩
    · exact .inl (rootName_iff.mpr ⟨hlen, .inl hdev⟩)
    · rw [hv] at ha
      by_cases hsave : v.sync = true ∧ c.buf = true
      · have hord := ho.save hsave.1 hsave.2
        rw [hsave.1, hsave.2] at ha
        rcases vfsSync_root hg hs hord.root hord.file hord.space ha with hold | hnew
        · exact .inl (rootName_iff.mpr ⟨hlen, .inr hold⟩)
        · exact .inr ⟨hord, hnew⟩
      · rw [vfsSync_skipped hsave] at ha
        exact .inl (rootName_iff.mpr ⟨hlen, .inr ⟨a, ha⟩⟩)
  have hafter : v'.Separate b slaves := by
    rw [separate_iff]
    intro t ht hpt hrt
    rcases hroot t hrt with hold | ⟨hord, hadds, hfold⟩
    · rcases hphase t ht hpt with hpo | ⟨h0, rfl⟩
      · exact separate_iff.mp hsep t ht hpo hold
      · exact ho.rootFree h0 hold
    · exact hord.names hadds t ht (hphase t ht hpt) hfold
  have hresolves : v'.Resolves b slaves c.path := ⟨_, resolvePath_phase habs hne (by rw [hv]; exact hfound)⟩
  exact ⟨hafter, fun hres => absurd hres (ho.missing hsep habs hp), fun _ => ⟨hresolves, hafter c.path habs hne⟩⟩

end

/-! ### What the FAT16 volume makes -/

private theorem cut_spec (habs : c.path.head? = some slash) : c.path = c.parentPath ++ slash :: c.name ∧ slash ∉ c.name := by
  obtain ⟨k, hk, hskip, hat, hrest⟩ := skipName_spec habs (c.path.length - 1)
  have hne : c.path ≠ [] := by
    intro hnil
    rw [hnil] at habs
    cases habs
  have hcut : c.cut = some k := by rw [CreateCall.cut, if_neg hne, hskip]
  obtain ⟨hlt, hget⟩ := List.getElem?_eq_some_iff.mp hat
  rw [CreateCall.parentPath, CreateCall.name, hcut]
  constructor
  · show c.path = c.path.take k ++ slash :: c.path.drop (k + 1)
    conv_lhs => rw [← List.take_append_drop k c.path, List.drop_eq_getElem_cons hlt, hget]
  · intro hmem
    obtain ⟨x, hx, hxs⟩ := List.getElem_of_mem hmem
    rw [Option.elim, List.length_drop] at hx
    have hat' : c.path[k + 1 + x]? = some slash := by
      rw [List.getElem?_eq_getElem (by omega), ← hxs]
      exact congrArg some (List.getElem_drop ..).symm
    exact hrest (k + 1 + x) (by omega) (by omega) hat'

private theorem components_cut (habs : c.path.head? = some slash) (hname : c.name ≠ []) :
    components slash c.path = components slash c.parentPath ++ [c.name] := by
  obtain ⟨hpath, hslash⟩ := cut_spec habs
  conv_lhs => rw [hpath, components_append, components_name slash hname hslash]

private theorem parentNode_fat (h : v.parentNode b slaves c = some (some (.fat cluster))) :
    nameWalk (v.look b slaves) (.fat 0) (components slash c.parentPath) = some (some (.fat cluster)) := by
  rw [parentNode] at h
  rw [CreateCall.parentPath]
  split at h
  · next k hcut =>
    rw [hcut]
    split at h
    · show nameWalk _ _ (components slash (c.path.take (k + 1))) = _
      rw [← walkRoot_eq]
      rw [resolvePath] at h
      split at h
      · exact h
      · split at h
        · next hroot =>
          rw [hroot, walkRoot_eq]
          exact h
        · split at h
          · cases h
          · cases h
          · exact h
    · cases h
  · next hcut =>
    obtain hnil : c.cut.elim [] c.path.take = [] := by
      cases hc : c.cut with
      | none => rfl
      | some k =>
        cases k with
        | zero => rfl
        | succ k => exact absurd hc (hcut k)
    rw [hnil]
    exact h

private theorem look_stays {d : Disk} {r : Option Int} {name : CString} {x : VfsNode} (hv : v' = { v with disk := d })
    (hout : Fat16.Outcome b v.disk d cluster name r)
    (hback : r = some 0 → Fat16.folded (Fat16.stored name) = Fat16.foldString name)
    (hdir : ∀ e, n = .fat e → ∃ l, Fat16.Directory b v.disk e l) (h : v.look b slaves n t = some (some x)) :
    v'.look b slaves n t = some (some x) := by
  subst hv
  rw [look] at h ⊢
  split at h
  · cases h
  · next hlen =>
    rw [if_neg hlen]
    cases n with
    | phase i => exact h
    | dev m => exact h
    | fat e =>
      obtain ⟨l, he⟩ := hdir e rfl
      by_cases hdev : t = .ofString "dev" ∧ e = 0
      · rw [next_devfs hdev] at h ⊢
        exact h
      · rw [next_fat hdev] at h ⊢
        rcases he.search t with ⟨hnone, -⟩ | ⟨a, -, -, hfound⟩
        · rw [hnone] at h
          cases h
        · obtain ⟨hsame, hagree⟩ := hout.stays hback he hfound
          rw [hfound] at h
          rw [hsame]
          refine Eq.trans ?_ h
          simp only [map_some, Fat16.firstCluster, Fat16.entryAt_congr hagree]

private theorem look_found {a : Nat} (hlen : t.length < nameSize) (h : Fat16.findEntry b v.disk cluster t = some (some a)) :
    ∃ n, v.look b slaves (.fat cluster) t = some (some n) := by
  rw [look, if_neg (not_le.mpr hlen)]
  by_cases hdev : t = .ofString "dev" ∧ cluster = 0
  · exact ⟨_, next_devfs hdev⟩
  · exact ⟨_, by rw [next_fat hdev, h]; rfl⟩

section
variable {d : Disk} {i : Int}

theorem Separate.disk (hsep : v.Separate b slaves) (hv : v' = { v with disk := d }) (h : d.bytes = v.disk.bytes) :
    v'.Separate b slaves := by
  subst hv
  refine hsep.names (fun _ _ hp => hp) fun t a ha => ⟨a, ?_⟩
  rw [Fat16.findEntry_root] at ha ⊢
  rwa [h] at ha

theorem Existing.nothing (h : v.Existing b c cluster) (hcall : (d, some i) =
      if c.type = vfsDirectory then Fat16.mkdirVfs b v.disk cluster c.name else Fat16.createVfs b v.disk cluster c.name) :
    i < 0 ∧ d.bytes = v.disk.bytes := by
  rw [Existing] at h
  split at hcall
  · next hdir =>
    rw [if_pos hdir] at h
    obtain ⟨hbytes, hret⟩ := Fat16.mkdirVfs_nothing h cluster c.name
    rw [← hcall] at hbytes hret
    cases hret
    exact ⟨by decide, hbytes⟩
  · next hfile =>
    rw [if_neg hfile] at h
    have hret : (Fat16.createVfs b v.disk cluster c.name).2 = some i := by rw [← hcall]
    obtain ⟨hbytes, hneg⟩ := Fat16.addEntry_nothing h hret
    rw [← Fat16.createVfs, ← hcall] at hbytes
    exact ⟨hneg, by rw [← hbytes]⟩

theorem Fresh.outcome (hg : Fat16.Geometry b) (h : v.Fresh b slaves c cluster) {l : List Nat}
    (hdir : Fat16.Directory b v.disk cluster l) (hcall : (d, some i) =
      if c.type = vfsDirectory then Fat16.mkdirVfs b v.disk cluster c.name else Fat16.createVfs b v.disk cluster c.name) :
    Fat16.Outcome b v.disk d cluster c.name (some i) ∧ (i = 0 → v.NewName c cluster) := by
  have hout : Fat16.Outcome b v.disk d cluster c.name (some i) := by
    split at hcall
    · next htype =>
      have hmk := Fat16.mkdirVfs_outcome hg hdir (h.scan htype) c.name
      rwa [← hcall] at hmk
    · have hcr := Fat16.createVfs_outcome hg hdir c.name
      rwa [← hcall] at hcr
  refine ⟨hout, fun h0 => h.name (hout.adds hdir (congrArg some h0)) fun htype => ?_⟩
  rw [if_pos htype] at hcall
  by_contra hno
  have hret := (Fat16.mkdirVfs_nothing (not_exists.mp hno) cluster c.name).2
  rw [← hcall, some.injEq, h0] at hret
  cases hret

private theorem fat_step (hg : Fat16.Geometry b) (hsep : v.Separate b slaves) (habs : c.path.head? = some slash)
    (hparent : v.parentNode b slaves c = some (some (.fat cluster)))
    (ho : v.ParentOrderly b slaves c (.fat cluster)) (hlen : c.name.length < nameSize) (hcall : (d, some i) =
      if c.type = vfsDirectory then Fat16.mkdirVfs b v.disk cluster c.name else Fat16.createVfs b v.disk cluster c.name)
    (hv : v' = { v with disk := d }) : v'.Separate b slaves ∧ v.CreateContract b slaves c.path v' i := by
  by_cases hres : v.Resolves b slaves c.path
  · obtain ⟨hneg, hbytes⟩ := (ho.1 hres).nothing hcall
    refine ⟨hsep.disk hv hbytes, fun _ => ⟨hneg, by rw [hv], by rw [hv]; exact hbytes⟩, fun h0 => ?_⟩
    rw [h0] at hneg
    exact absurd hneg (Int.lt_irrefl 0)
  · have hfresh := ho.2 hres
    have hwalk := parentNode_fat hparent
    obtain ⟨l, hdir⟩ := hfresh.directory cluster ⟨_, List.prefix_refl _, hwalk⟩
    obtain ⟨l₀, hroot⟩ := hfresh.directory 0 ⟨[], List.nil_prefix, rfl⟩
    obtain ⟨hout, hname⟩ := hfresh.outcome hg hdir hcall
    have hback : some i = some 0 → Fat16.folded (Fat16.stored c.name) = Fat16.foldString c.name := fun h0 =>
      ((Fat16.findable_iff _).mp ((Fat16.findable_iff_eightThree _).mpr (hname (some.inj h0)).eightThree)).2
    have hphase : v'.tables = v.tables := by rw [hv]
    have hafter : v'.Separate b slaves := by
      rw [separate_iff]
      rintro t ht ⟨j, hj⟩ hrt
      rw [hphase] at hj
      obtain ⟨hshort, hrt⟩ := rootName_iff.mp hrt
      have hold := separate_iff.mp hsep t ht ⟨j, hj⟩
      rcases hrt with hdev | ⟨a, ha⟩
      · exact hold (rootName_iff.mpr ⟨hshort, .inl hdev⟩)
      · rw [hv] at ha
        rcases hout.root hback hroot ha with hthere | ⟨h0, hcl, hfold⟩
        · exact hold (rootName_iff.mpr ⟨hshort, .inr hthere⟩)
        · exact (hname (some.inj h0)).root hcl t ht ⟨j, hj⟩ hfold
    refine ⟨hafter, fun h => absurd h hres, fun h0 => ?_⟩
    have hnew := hname h0
    have hcomp := components_cut habs hnew.nonempty
    have hne := components_ne_nil hcomp
    have hthere : nameWalk (v'.look b slaves) (.fat 0) (components slash c.parentPath) = some (some (.fat cluster)) := by
      refine nameWalk_keep_along (fun front t rest n x heq hw hx => ?_) hwalk
      refine look_stays hv hout hback (fun e he => ?_) hx
      subst he
      exact hfresh.directory e ⟨front, heq ▸ List.prefix_append .., hw⟩
    obtain ⟨a, ha⟩ := hout.found ((Fat16.findable_iff_eightThree _).mpr hnew.eightThree) (congrArg some h0)
    obtain ⟨n, hn⟩ : ∃ n, v'.look b slaves (.fat cluster) c.name = some (some n) := look_found hlen (by rw [hv]; exact ha)
    have hresolves : v'.Resolves b slaves c.path := by
      refine ⟨n, ?_⟩
      rw [resolvePath_missing habs hne (by rw [hphase]; exact hnew.phase), walkRoot_eq, hcomp, nameWalk_append hthere,
        nameWalk_cons hn]
      rfl
    exact ⟨hresolves, hafter c.path habs hne⟩

end

/-! ### Runs -/

theorem CreateContract.failed : v.CreateContract b slaves path v (-1) :=
  ⟨fun _ => ⟨by decide, rfl, rfl⟩, fun h => absurd h (by decide)⟩

theorem Orderly.step (hg : Fat16.Geometry b) (hs : 1 ≤ b.sectorsPerCluster) (hsep : v.Separate b slaves) (ho : v.Orderly b slaves c)
    (e : v.create b slaves c = some (v', r)) : v'.Separate b slaves ∧ v.CreateContract b slaves c.path v' r := by
  have habs := ho.absolute
  obtain ⟨⟨t, ok⟩, htry, e⟩ := bind_eq_some_iff.mp e
  rcases tryPhaseA_cases habs htry with ⟨rfl, rfl, hmakes⟩ | ⟨rfl, p, hp, i, hc⟩
  · obtain ⟨parent, hparent, e⟩ := bind_eq_some_iff.mp e
    have hparent : v.parentNode b slaves c = some parent := hparent
    dsimp only at e
    split at e
    · cases e
    · next hlen =>
      have hlen := not_le.mp hlen
      cases parent with
      | none =>
        cases e
        exact ⟨hsep, .failed⟩
      | some node =>
        have hnode := ho.parent hmakes node hparent
        cases node with
        | phase i =>
          obtain ⟨⟨t, n⟩, hcall, e⟩ := bind_eq_some_iff.mp e
          rcases createInDir_steps hcall with ⟨rfl, rfl⟩ | ⟨hcount, j, hj, hdir, hmissing, -⟩
          · cases e
            exact ⟨hsep, .failed⟩
          · cases hj
            exact absurd hcount (not_lt.mpr (hnode hdir hmissing))
        | dev m =>
          cases e
          exact ⟨hsep, .failed⟩
        | fat cluster =>
          obtain ⟨i, hi, hret⟩ := map_eq_some_iff.mp e
          cases hret
          exact fat_step hg hsep habs hparent hnode hlen (Prod.ext rfl hi.symm) rfl
  · cases e
    exact (ho.phase p hp).step hsep habs hp hg hs hc rfl

/-- In runs whose calls are all such, the layers stay apart, and each call meets the contract. -/
theorem create_contract_run (hg : Fat16.Geometry b) (hs : 1 ≤ b.sectorsPerCluster) {v₀ : FileSystems} {cs : List CreateCall}
    (hsep : v₀.Separate b slaves) (hrun : Trace (OrderlyStep b slaves) v₀ cs v) :
    v.Separate b slaves ∧ ∀ c, v.Orderly b slaves c → ∀ v' r, v.create b slaves c = some (v', r) →
      v.CreateContract b slaves c.path v' r := by
  have hend : v.Separate b slaves := by
    induction hrun with
    | nil => exact hsep
    | snoc _ hstep ih =>
      obtain ⟨ho, r, e⟩ := hstep
      exact (ho.step hg hs ih e).1
  exact ⟨hend, fun c ho v' r e => (ho.step hg hs hend e).2⟩

def blankSystem (s : PhaseA) : FileSystems := { tables := s, sync := false, disk := Fat16.blankDisk }

/-- No terminal is there. -/
def noSlaves : CString → Bool := fun _ => false

def mkdirCall (path : String) : CreateCall := { path := .ofString path, type := vfsDirectory, buf := true }

private theorem bootRoot_separate : (blankSystem bootRoot).Separate (Fat16.init Fat16.blankDisk) noSlaves :=
  separate_iff.mpr fun _ ht ⟨i, hi⟩ => absurd hi (bootRoot_empty ht.1 i)

private theorem mkdir_a_orderly : (blankSystem bootRoot).Orderly (Fat16.init Fat16.blankDisk) noSlaves (mkdirCall "/a") where
  absolute := rfl
  phase p hp := by
    have hmakes : (blankSystem bootRoot).phaseMakes (mkdirCall "/a") = some (0, .ofString "a") := by decide +kernel
    cases hp
    refine ⟨by decide, bootRoot_undisturbed _ _, fun _ hroot => ?_, fun hsync => Bool.noConfusion hsync⟩
    rcases (rootName_iff.mp hroot).2 with hdev | ⟨a, ha⟩
    · exact absurd hdev (by decide)
    · have hnone : Fat16.findEntry (Fat16.init Fat16.blankDisk) Fat16.blankDisk 0 (.ofString "a") = some none := by
        decide +kernel
      exact absurd (hnone.symm.trans ha) (by simp)
  parent hmakes := by
    have hne : (blankSystem bootRoot).phaseMakes (mkdirCall "/a") ≠ none := by decide +kernel
    exact absurd hmakes hne

/-- A directory is made beside the volume. -/
theorem mkdir_a_contract : ∃ v,
    v.Separate (Fat16.init Fat16.blankDisk) noSlaves ∧
      (blankSystem bootRoot).CreateContract (Fat16.init Fat16.blankDisk) noSlaves (.ofString "/a") v 0 := by
  have hev : ∃ r ∈ (blankSystem bootRoot).create (Fat16.init Fat16.blankDisk) noSlaves (mkdirCall "/a"),
      r.2 = 0 := by decide +kernel
  obtain ⟨⟨v, r⟩, e, rfl⟩ := hev
  have hg := Fat16.blankDisk_formatted.geometry
  have hs := Fat16.blankDisk_formatted.cluster
  refine ⟨v, (create_contract_run hg hs bootRoot_separate (.snoc .nil ⟨mkdir_a_orderly, 0, e⟩)).1, ?_⟩
  exact (create_contract_run hg hs bootRoot_separate .nil).2 _ mkdir_a_orderly v 0 e

/-- The directory of the bootstrap is created again, on the volume. -/
theorem home_in_both : ∃ s v, bootstrap = some s ∧ (blankSystem s).Separate (Fat16.init Fat16.blankDisk) noSlaves ∧
    (blankSystem s).create (Fat16.init Fat16.blankDisk) noSlaves (mkdirCall "/home") = some (v, 0) ∧
    (blankSystem s).Resolves (Fat16.init Fat16.blankDisk) noSlaves (.ofString "/home") ∧
    v.PhaseHolds (.ofString "/home") ∧ v.RootHolds (Fat16.init Fat16.blankDisk) noSlaves (.ofString "/home") ∧
    ¬ (blankSystem s).CreateContract (Fat16.init Fat16.blankDisk) noSlaves (.ofString "/home") v 0 := by
  have hev : (bootstrap.bind fun s =>
      ((blankSystem s).create (Fat16.init Fat16.blankDisk) noSlaves (mkdirCall "/home")).map fun r =>
        (r.2, resolve s (.ofString "/home"), resolve r.1.tables (.ofString "/home"),
          r.1.walkRoot (Fat16.init Fat16.blankDisk) noSlaves (.ofString "/home"))) =
      some (0, some (some 1), some (some 1), some (some (.fat 2))) := by decide +kernel
  obtain ⟨s, hb, hev⟩ := bind_eq_some_iff.mp hev
  obtain ⟨⟨v, r⟩, e, hret⟩ := map_eq_some_iff.mp hev
  obtain ⟨rfl, hold, hphase, hroot⟩ : r = 0 ∧ resolve s (.ofString "/home") = some (some 1) ∧
      resolve v.tables (.ofString "/home") = some (some 1) ∧
      v.walkRoot (Fat16.init Fat16.blankDisk) noSlaves (.ofString "/home") = some (some (.fat 2)) := by simpa using hret
  have hres : (blankSystem s).Resolves (Fat16.init Fat16.blankDisk) noSlaves (.ofString "/home") :=
    ⟨_, resolvePath_phase rfl (by decide) hold⟩
  refine ⟨s, v, hb, ?_, e, hres, ⟨1, hphase⟩, ⟨.fat 2, hroot⟩, fun h => absurd (h.existing hres).1 (by decide)⟩
  have hdev : (bootstrap.map fun s => resolveToken s 0 (.ofString "dev")) = some (some none) := by decide +kernel
  have hempty : Fat16.liveSlots Fat16.blankDisk.bytes (Fat16.rootSlots (Fat16.init Fat16.blankDisk)) = [] := by decide +kernel
  rw [separate_iff]
  rintro t - ⟨i, hi⟩ hrt
  rcases (rootName_iff.mp hrt).2 with rfl | ⟨a, ha⟩
  · rw [hb, map_some, show resolveToken s 0 (.ofString "dev") = some (some i) from hi] at hdev
    exact absurd hdev (by simp)
  · rw [Fat16.findEntry_root] at ha
    cases ha

end FileSystems
end RetroOs.Kernel
