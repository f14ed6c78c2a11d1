import RetroOs.Drivers.Fat16Dirs
import RetroOs.Lib.Rounds
import Mathlib.Data.Finite.Prod

/-! `fat16_iterate_dir` as it runs, sector by sector and cluster by cluster, on any image in a drive; and when
the calls built on it return. -/
namespace RetroOs.Drivers
open Lib Relation List Round Nat
namespace Fat16

/-- A disk in its drive: `ata_wait_drq` waits for ever for a sector that the drive does not answer. -/
structure Drive where
  disk : Disk
  answers : Nat → Bool

section
variable {σ ρ : Type}

/-- The slots of a sector that was read. -/
def visitSector (callback : σ → Nat → Nat → Round σ ρ) (sector : Nat) (s : σ) : Round σ ρ :=
  each (fun i s => callback s sector (i * 32)) (range 16) s

def visitSectors (v : Drive) (callback : σ → Nat → Nat → Round σ ρ) (sectors : List Nat) (s : σ) : Round σ ρ :=
  each (fun sector s => if v.answers sector then visitSector callback sector s else .waits) sectors s

def rootRound (v : Drive) (b : Bpb) (callback : σ → Nat → Nat → Round σ ρ) (s : σ) : Round σ (Option ρ) :=
  match visitSectors v callback ((range b.rootSectors).map fun i => b.rootDirStartSector + i) s with
  | .goes _ => .stops none
  | .stops r => .stops (some r)
  | .waits => .waits

/-- A round of the loop over the clusters of another directory. -/
def chainRound (v : Drive) (b : Bpb) (callback : σ → Nat → Nat → Round σ ρ) : Nat × σ → Round (Nat × σ) (Option ρ)
  | (cluster, s) =>
    if 2 ≤ cluster ∧ cluster < chainEnd then
      match visitSectors v callback ((range b.sectorsPerCluster).map fun i => b.clusterToSector cluster + i) s with
      | .goes s =>
        if v.answers (b.reservedSectors + cluster * 2 / 512) then .goes (getFatEntry b v.disk cluster, s) else .waits
      | .stops r => .stops (some r)
      | .waits => .waits
    else .stops none

def Iterates (v : Drive) (b : Bpb) (callback : σ → Nat → Nat → Round σ ρ) (dir : Nat) (s : σ) (r : Option ρ) : Prop :=
  if dir = 0 then rootRound v b callback s = .stops r else Returns (chainRound v b callback) (dir, s) r

/-- No sector on the way is one the drive does not answer, and the way comes to no cluster a second time with
the callback as it was. -/
def WayEnds (v : Drive) (b : Bpb) (callback : σ → Nat → Nat → Round σ ρ) (dir : Nat) (s : σ) : Prop :=
  if dir = 0 then rootRound v b callback s ≠ .waits else Straight (chainRound v b callback) (dir, s)

end

/-- A callback without a state. -/
def stateless {ρ : Type} (callback : Nat → Nat → Option ρ) (_ : Unit) (sector offset : Nat) : Round Unit ρ :=
  .ofOption (callback sector offset)

def attrVolumeIdBit : Nat := 3

def readdirCallback (m : Memory) (targetIndex currentIndex sector offset : Nat) : Round Nat (Option Nat) :=
  let a := 512 * sector + offset
  let entry := entryAt m a
  if m a = 0 then .stops none
  else if m a = 0xE5 then .goes currentIndex
  else if entry.attributes.testBit attrVolumeIdBit then .goes currentIndex
  else if currentIndex = targetIndex then .stops (some a)
  else .goes (currentIndex + 1)

/-- The fields of `struct dirent`. -/
structure Dirent where
  name : List UInt8
  ino : Nat
  isDir : Bool
  deriving DecidableEq

def direntOf (m : Memory) (a : Nat) : Dirent :=
  let entry := entryAt m a
  { name := toName entry.filename entry.ext, ino := entry.firstCluster, isDir := entry.attributes.testBit 4 }

/-! ### The calls, by what they return -/

variable (v : Drive) (b : Bpb) (dir : Nat)

def FindReturns (name : CString) (r : Option Nat) : Prop :=
  ∃ x, Iterates v b (stateless (findCallback v.disk.bytes name)) dir () x ∧ r = x.join

def FreeReturns (r : Option Nat) : Prop := Iterates v b (stateless (findFreeCallback v.disk.bytes)) dir () r

def FinddirReturns (name : CString) (r : Lookup) : Prop :=
  if name = .ofString "dev" ∧ dir = 0 then r = .devfs
  else ∃ x, FindReturns v b dir name x ∧ r =
    match x with
    | none => .missing
    | some a => .node
      { name, impl := (entryAt v.disk.bytes a).firstCluster, size := (entryAt v.disk.bytes a).fileSize
        directory := (entryAt v.disk.bytes a).attributes.testBit 4 }

/-- The entry found is copied out of the buffer it was read into. -/
def ReaddirReturns (index : Nat) (r : Option Dirent) : Prop :=
  ∃ x, Iterates v b (readdirCallback v.disk.bytes index) dir 0 x ∧ r = x.join.map (direntOf v.disk.bytes)

/-- A sector is read and written back. -/
def PatchReturns (a : Nat) (bytes : List UInt8) (d : Disk) : Prop :=
  v.answers (a / 512) = true ∧ d = patchSector v.disk a bytes

def AddEntryReturns (name : CString) (attr cluster : Nat) (r : Disk × Int) : Prop :=
  ∃ x, FindReturns v b dir name x ∧
    match x with
    | some _ => r = (v.disk, -1)
    | none => ∃ y, FreeReturns v b dir y ∧
      match y with
      | none => r = (v.disk, -2)
      | some a => PatchReturns v a (entryBytes name attr cluster) r.1 ∧ r.2 = 0

def CreateReturns (name : CString) (r : Disk × Int) : Prop := AddEntryReturns v b dir name attrArchive 0 r

def RenameReturns (oldName newName : CString) (r : Disk × Int) : Prop :=
  ∃ x, FindReturns v b dir oldName x ∧
    match x with
    | none => r = (v.disk, -1)
    | some a => PatchReturns v a (encodeName newName) r.1 ∧ r.2 = 0

/-! ### When they return -/

section
variable {v : Drive} {b : Bpb} {dir : Nat} {σ ρ : Type} {callback : σ → Nat → Nat → Round σ ρ} {s : σ} {I : Set σ}
  {a fuel : Nat} {sectors : List Nat}

private theorem visitSectors_goes {t : σ} (hI : ∀ s ∈ I, ∀ sector offset t, callback s sector offset = .goes t → t ∈ I)
    (hs : s ∈ I) (h : visitSectors v callback sectors s = .goes t) : t ∈ I := by
  refine each_goes (I := (· ∈ I)) (fun sector _ s t hs h => ?_) hs h
  split at h
  · exact each_goes (I := (· ∈ I)) (fun i _ s t hs h => hI s hs sector _ t h) hs h
  · cases h

private theorem getFatEntry_lt (b : Bpb) (d : Disk) (c : Nat) : getFatEntry b d c < 0x10000 := Memory.load16_lt _ _

private theorem chainRound_goes {x y : Nat × σ} (h : chainRound v b callback x = .goes y) :
    y.1 < 0x10000 ∧ ∃ sectors, visitSectors v callback sectors x.2 = .goes y.2 := by
  obtain ⟨c, s⟩ := x
  simp only [chainRound] at h
  split at h
  · split at h
    · next hv =>
      split at h
      · cases h
        exact ⟨getFatEntry_lt .., _, hv⟩
      · cases h
    · cases h
    · cases h
  · cases h

private theorem iterates_iff (hfin : I.Finite) (hI : ∀ s ∈ I, ∀ sector offset t, callback s sector offset = .goes t → t ∈ I)
    (hs : s ∈ I) : (∃ r, Iterates v b callback dir s r) ↔ WayEnds v b callback dir s := by
  simp only [Iterates, WayEnds]
  split
  · cases hr : rootRound v b callback s with
    | stops r => simp
    | waits => simp
    | goes t =>
      rw [rootRound] at hr
      split at hr <;> cases hr
  · refine returns_iff_straight (S := {x | x.1 < max (dir + 1) 0x10000 ∧ x.2 ∈ I}) ?_ ?_ ?_
    · exact (Set.Finite.prod (Set.finite_lt_nat _) hfin).subset fun x hx => hx
    · intro x hx y hy
      obtain ⟨hlt, sectors, hv⟩ := chainRound_goes hy
      exact ⟨lt_of_lt_of_le hlt (le_max_right ..), visitSectors_goes hI hx.2 hv⟩
    · exact ⟨lt_of_lt_of_le (lt_succ_self dir) (le_max_left ..), hs⟩

theorem stateless_iff {cb : Nat → Nat → Option ρ} :
    (∃ r, Iterates v b (stateless cb) dir () r) ↔ WayEnds v b (stateless cb) dir () :=
  iterates_iff (I := Set.univ) (Set.finite_univ) (fun _ _ _ _ _ _ => Set.mem_univ _) (Set.mem_univ _)

private theorem readdir_iff (m : Memory) (index : Nat) : (∃ r, Iterates v b (readdirCallback m index) dir 0 r) ↔
    WayEnds v b (readdirCallback m index) dir 0 := by
  refine iterates_iff (I := {k | k ≤ index}) (Set.finite_le_nat index) ?_ (zero_le index)
  intro k hk sector offset t h
  have hk : k ≤ index := hk
  simp only [readdirCallback] at h
  split at h
  · cases h
  split at h
  · cases h
    exact hk
  split at h
  · cases h
    exact hk
  split at h
  · cases h
  · next hne =>
    cases h
    exact lt_of_le_of_ne hk hne

private theorem visitSectors_stops {r : ρ} (h : visitSectors v callback sectors s = .stops r) :
    ∃ sector i t, v.answers sector = true ∧ i < 16 ∧ callback t sector (i * 32) = .stops r := by
  obtain ⟨sector, -, t, ht⟩ := each_stops h
  split at ht
  · next ha =>
    obtain ⟨i, hi, u, hu⟩ := each_stops ht
    exact ⟨sector, i, u, ha, mem_range.mp hi, hu⟩
  · cases ht

theorem Iterates.stopped {r : ρ} (h : Iterates v b callback dir s (some r)) :
    ∃ sector i t, v.answers sector = true ∧ i < 16 ∧ callback t sector (i * 32) = .stops r := by
  rw [Iterates] at h
  split at h
  · rw [rootRound] at h
    split at h
    · cases h
    · next hv =>
      cases h
      exact visitSectors_stops hv
    · cases h
  · generalize hx : (dir, s) = x at h
    generalize hy : some r = y at h
    clear hx
    induction h with
    | @stop x y hr =>
      subst hy
      simp only [chainRound] at hr
      split at hr
      · split at hr
        · split at hr <;> cases hr
        · next hv =>
          cases hr
          exact visitSectors_stops hv
        · cases hr
      · cases hr
    | go _ _ ih => exact ih hy

end

variable {v : Drive} {b : Bpb} {dir : Nat} {name : CString}

theorem Iterates.unique {σ ρ : Type} {callback : σ → Nat → Nat → Round σ ρ} {s : σ} {r r' : Option ρ}
    (h : Iterates v b callback dir s r) (h' : Iterates v b callback dir s r') : r = r' := by
  rw [Iterates] at h h'
  split at h
  · next h0 =>
    rw [if_pos h0] at h'
    exact stops.inj (h.symm.trans h')
  · next h0 =>
    rw [if_neg h0] at h'
    exact h.unique h'

theorem FindReturns.unique {r r' : Option Nat} (h : FindReturns v b dir name r) (h' : FindReturns v b dir name r') :
    r = r' := by
  obtain ⟨x, hx, rfl⟩ := h
  obtain ⟨y, hy, rfl⟩ := h'
  rw [hx.unique hy]

private theorem stateless_stops {ρ : Type} {cb : Nat → Nat → Option ρ} {t : Unit} {sector offset : Nat} {r : ρ}
    (h : stateless cb t sector offset = .stops r) : cb sector offset = some r := by
  rw [stateless] at h
  cases hc : cb sector offset with
  | some x =>
    rw [hc] at h
    cases h
    rfl
  | none =>
    rw [hc] at h
    cases h

private theorem find_answers (h : FindReturns v b dir name (some a)) : v.answers (a / 512) = true := by
  obtain ⟨x, hx, hj⟩ := h
  obtain rfl : x = some (some a) := Option.join_eq_some_iff.mp hj.symm
  obtain ⟨sector, i, t, ha, hi, hc⟩ := hx.stopped
  have hc := stateless_stops hc
  simp only [findCallback] at hc
  have ha' : a = 512 * sector + i * 32 := by
    split at hc
    · cases hc
    · split at hc
      · cases hc
      · split at hc
        · cases hc
        · split at hc
          · exact (Option.some.inj (Option.some.inj hc)).symm
          · cases hc
  rwa [show a / 512 = sector by omega]

private theorem free_answers (h : FreeReturns v b dir (some a)) : v.answers (a / 512) = true := by
  obtain ⟨sector, i, t, ha, hi, hc⟩ := Iterates.stopped h
  have hc := stateless_stops hc
  simp only [findFreeCallback] at hc
  have ha' : a = 512 * sector + i * 32 := by
    split at hc
    · exact (Option.some.inj hc).symm
    · cases hc
  rwa [show a / 512 = sector by omega]

def FindEnds (v : Drive) (b : Bpb) (dir : Nat) (name : CString) : Prop :=
  WayEnds v b (stateless (findCallback v.disk.bytes name)) dir ()

def FreeEnds (v : Drive) (b : Bpb) (dir : Nat) : Prop :=
  WayEnds v b (stateless (findFreeCallback v.disk.bytes)) dir ()

def ReaddirEnds (v : Drive) (b : Bpb) (dir index : Nat) : Prop :=
  WayEnds v b (readdirCallback v.disk.bytes index) dir 0

theorem find_iff : (∃ r, FindReturns v b dir name r) ↔ FindEnds v b dir name := by
  refine Iff.trans ?_ stateless_iff
  constructor
  · rintro ⟨r, x, hx, -⟩
    exact ⟨x, hx⟩
  · rintro ⟨x, hx⟩
    exact ⟨x.join, x, hx, rfl⟩

private theorem finddir_iff : (∃ r, FinddirReturns v b dir name r) ↔
    name = .ofString "dev" ∧ dir = 0 ∨ FindEnds v b dir name := by
  by_cases hdev : name = .ofString "dev" ∧ dir = 0
  · simp [FinddirReturns, hdev]
  · simp only [FinddirReturns, hdev, if_false, false_or]
    rw [← find_iff]
    constructor
    · rintro ⟨r, x, hx, -⟩
      exact ⟨x, hx⟩
    · rintro ⟨x, hx⟩
      exact ⟨_, x, hx, rfl⟩

private theorem readdir_returns_iff (index : Nat) : (∃ r, ReaddirReturns v b dir index r) ↔ ReaddirEnds v b dir index := by
  refine Iff.trans ?_ (readdir_iff v.disk.bytes index)
  constructor
  · rintro ⟨r, x, hx, -⟩
    exact ⟨x, hx⟩
  · rintro ⟨x, hx⟩
    exact ⟨_, x, hx, rfl⟩

private theorem addEntry_iff (attr cluster : Nat) : (∃ r, AddEntryReturns v b dir name attr cluster r) ↔
    FindEnds v b dir name ∧ (FindReturns v b dir name none → FreeEnds v b dir) := by
  constructor
  · rintro ⟨r, x, hx, hr⟩
    refine ⟨find_iff.mp ⟨x, hx⟩, fun hn => ?_⟩
    obtain rfl := hx.unique hn
    obtain ⟨y, hy, -⟩ := hr
    exact stateless_iff.mp ⟨y, hy⟩
  · rintro ⟨hf, hfree⟩
    obtain ⟨x, hx⟩ := find_iff.mpr hf
    cases x with
    | some a => exact ⟨_, some a, hx, rfl⟩
    | none =>
      obtain ⟨y, hy⟩ := stateless_iff.mpr (hfree hx)
      cases y with
      | none => exact ⟨_, none, hx, none, hy, rfl⟩
      | some a => exact ⟨⟨_, 0⟩, none, hx, some a, hy, ⟨free_answers hy, rfl⟩, rfl⟩

private theorem rename_iff (newName : CString) : (∃ r, RenameReturns v b dir name newName r) ↔ FindEnds v b dir name := by
  rw [← find_iff]
  constructor
  · rintro ⟨r, x, hx, -⟩
    exact ⟨x, hx⟩
  · rintro ⟨x, hx⟩
    cases x with
    | none => exact ⟨_, none, hx, rfl⟩
    | some a => exact ⟨⟨_, 0⟩, some a, hx, ⟨find_answers hx, rfl⟩, rfl⟩

/-- On any image the calls return exactly where the ways of the iterations they make come to an end: the drive
answers for each sector, and no cluster is met a second time with the callback as it was. -/
theorem iterations_return_iff (v : Drive) (b : Bpb) (dir : Nat) (name newName : CString) (index : Nat) :
    ((∃ r, FinddirReturns v b dir name r) ↔ name = .ofString "dev" ∧ dir = 0 ∨ FindEnds v b dir name) ∧
    ((∃ r, CreateReturns v b dir name r) ↔
      FindEnds v b dir name ∧ (FindReturns v b dir name none → FreeEnds v b dir)) ∧
    ((∃ r, ReaddirReturns v b dir index r) ↔ ReaddirEnds v b dir index) ∧
    ((∃ r, RenameReturns v b dir name newName r) ↔ FindEnds v b dir name) :=
  ⟨finddir_iff, addEntry_iff .., readdir_returns_iff index, rename_iff newName⟩

/-! ### The iteration of the other modules -/

section
variable {ρ : Type} {cb : Nat → Nat → Option ρ} {c : Nat} {r : Option ρ}

private theorem visitSectors_answered (h : ∀ s, v.answers s = true) (sectors : List Nat) :
    visitSectors v (stateless cb) sectors () = .ofOption (sectors.findSome? (iterateSector cb)) := by
  rw [← each_ofOption, visitSectors]
  refine each_congr (fun sector _ _ => ?_) ()
  rw [h, if_pos rfl, visitSector, iterateSector, ← each_ofOption]
  rfl

theorem chainRound_answered (h : ∀ s, v.answers s = true) (c : Nat) : chainRound v b (stateless cb) (c, ()) =
    if 2 ≤ c ∧ c < chainEnd then
      match iterateCluster b cb c with
      | some r => .stops (some r)
      | none => .goes (getFatEntry b v.disk c, ())
    else .stops none := by
  have hsectors : ((range b.sectorsPerCluster).map fun i => b.clusterToSector c + i).findSome? (iterateSector cb) =
      iterateCluster b cb c := by
    rw [findSome?_map]
    rfl
  rw [chainRound, visitSectors_answered h, hsectors]
  simp only [h, if_true]
  cases iterateCluster b cb c <;> rfl

private theorem iterateChain_mono (h : iterateChain b v.disk cb fuel c = some r) :
    iterateChain b v.disk cb (fuel + 1) c = some r := by
  induction fuel generalizing c with
  | zero => cases h
  | succ fuel ih =>
    rw [iterateChain] at h ⊢
    split at h
    · next hc =>
      rw [if_pos hc]
      split at h
      · next hi => simpa [hi] using h
      · next hi => simpa [hi] using ih h
    · next hc => simpa [hc] using h

private theorem iterateChain_returns (h : ∀ s, v.answers s = true) (hi : iterateChain b v.disk cb fuel c = some r) :
    Returns (chainRound v b (stateless cb)) (c, ()) r := by
  induction fuel generalizing c with
  | zero => cases hi
  | succ fuel ih =>
    rw [iterateChain] at hi
    have hround : chainRound v b (stateless cb) (c, ()) = _ := chainRound_answered h c
    split at hi
    · next hc =>
      rw [if_pos hc] at hround
      split at hi
      · next hs =>
        rw [hs] at hround
        cases hi
        exact .stop hround
      · next hs =>
        rw [hs] at hround
        exact .go hround (ih hi)
    · next hc =>
      rw [if_neg hc] at hround
      cases hi
      exact .stop hround

private theorem iterateChain_of_returns (h : ∀ s, v.answers s = true) {x : Nat × Unit}
    (hr : Returns (chainRound v b (stateless cb)) x r) :
    ∃ l : List Nat, l.Nodup ∧ (∀ e ∈ l, e < chainEnd ∧ ReflTransGen (Leads (chainRound v b (stateless cb))) x (e, ())) ∧
      iterateChain b v.disk cb (l.length + 1) x.1 = some r := by
  induction hr with
  | @stop x r hs =>
    refine ⟨[], nodup_nil, by simp, ?_⟩
    obtain ⟨c, ⟨⟩⟩ := x
    rw [chainRound_answered h] at hs
    rw [iterateChain]
    split at hs
    · next hc =>
      rw [if_pos hc]
      cases hi : iterateCluster b cb c with
      | some y =>
        rw [hi] at hs
        cases hs
        rfl
      | none =>
        rw [hi] at hs
        cases hs
    · next hc =>
      rw [if_neg hc]
      cases hs
      rfl
  | @go x y r hg ht ih =>
    obtain ⟨l, hnd, hl, hi⟩ := ih
    obtain ⟨c, ⟨⟩⟩ := x
    have hround : chainRound v b (stateless cb) (c, ()) = _ := chainRound_answered h c
    rw [hg] at hround
    split at hround
    · next hc =>
      cases hcl : iterateCluster b cb c with
      | some z =>
        rw [hcl] at hround
        cases hround
      | none =>
        rw [hcl] at hround
        cases hround
        refine ⟨c :: l, nodup_cons.mpr ⟨fun hm => ?_, hnd⟩, fun e he => ?_, ?_⟩
        · exact ((Returns.go hg ht).straight _ .refl).2 (TransGen.head' hg (hl c hm).2)
        · rcases mem_cons.mp he with rfl | he
          · exact ⟨hc.2, .refl⟩
          · exact ⟨(hl e he).1, .head hg (hl e he).2⟩
        · rw [iterateChain, if_pos hc, hcl]
          exact hi
    · cases hround

/-- On a drive that answers, an iteration returns exactly where the bounded one has a result, and with that result. -/
theorem iterates_iff_iterateDir (h : ∀ s, v.answers s = true) :
    Iterates v b (stateless cb) dir () r ↔ iterateDir b v.disk dir cb = some r := by
  rw [Iterates, iterateDir]
  split
  · rw [rootRound, visitSectors_answered h, findSome?_map]
    cases hf : findSome? (iterateSector cb ∘ fun i => b.rootDirStartSector + i) (range b.rootSectors) with
    | some x =>
      have hf' : (range b.rootSectors).findSome? (fun s => iterateSector cb (b.rootDirStartSector + s)) = some x := hf
      rw [hf']
      simp [ofOption]
    | none =>
      have hf' : (range b.rootSectors).findSome? (fun s => iterateSector cb (b.rootDirStartSector + s)) = none := hf
      rw [hf']
      simp [ofOption, eq_comm]
  · constructor
    · intro hr
      obtain ⟨l, hnd, hl, hi⟩ := iterateChain_of_returns h hr
      have hlen : l.length ≤ chainEnd := by
        have hsub := (hnd.subperm fun e he => mem_range.mpr (hl e he).1).length_le
        rwa [length_range] at hsub
      have hmono : ∀ k, iterateChain b v.disk cb (l.length + 1 + k) dir = some r := by
        intro k
        induction k with
        | zero => exact hi
        | succ k ih => exact iterateChain_mono ih
      have hbound : l.length + 1 ≤ 0x10000 := le_trans (succ_le_succ hlen) (by decide)
      rw [← Nat.add_sub_cancel' hbound]
      exact hmono _
    · exact iterateChain_returns h

end

/-! ### A directory that leads back to itself -/

/-- The cluster 2 of the volume follows itself in the table, and holds deleted entries alone. -/
def loopDisk : Disk where
  bytes x :=
    ([(12, 2), (13, 1), (14, 1), (16, 1), (17, 16), (19, 7), (22, 1), (516, 2)].lookup x).getD
      (if 1536 ≤ x ∧ x < 2048 then 0xE5 else 0)
  written := []
  allocs := []

def loopDrive : Drive := ⟨loopDisk, fun _ => true⟩

theorem iterates_loopDrive :
    Iterates loopDrive (init loopDisk) (stateless fun sector offset => if offset = 64 then some sector else none) 2 () (some 3) :=
  (iterates_iff_iterateDir fun _ => rfl).mpr (by decide +kernel)

private theorem not_wayEnds {σ ρ : Type} {callback : σ → Nat → Nat → Round σ ρ} {s : σ} (h0 : dir ≠ 0)
    (h : chainRound v b callback (dir, s) = .goes (dir, s)) : ¬ WayEnds v b callback dir s := by
  rw [WayEnds, if_neg h0]
  exact fun hs => (hs _ .refl).2 (.single h)

theorem loopDrive_never_returns :
    ¬ (∃ r, FinddirReturns loopDrive (init loopDisk) 2 (.ofString "a") r) ∧
    ¬ (∃ r, CreateReturns loopDrive (init loopDisk) 2 (.ofString "a") r) ∧
    ¬ (∃ r, ReaddirReturns loopDrive (init loopDisk) 2 0 r) ∧
    ¬ (∃ r, RenameReturns loopDrive (init loopDisk) 2 (.ofString "a") (.ofString "b") r) := by
  have hfind : ¬ FindEnds loopDrive (init loopDisk) 2 (.ofString "a") := not_wayEnds (by decide) (by decide +kernel)
  have hread : ¬ ReaddirEnds loopDrive (init loopDisk) 2 0 := not_wayEnds (by decide) (by decide +kernel)
  refine ⟨fun h => ?_, fun h => hfind (addEntry_iff _ _ |>.mp h).1, fun h => hread ((readdir_returns_iff 0).mp h),
    fun h => hfind ((rename_iff _).mp h)⟩
  rcases finddir_iff.mp h with ⟨-, h0⟩ | h
  · exact absurd h0 (by decide)
  · exact hfind h

end Fat16
end RetroOs.Drivers
