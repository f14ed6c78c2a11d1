import RetroOs.Drivers.Fat16Lookups
import RetroOs.Drivers.Fat16Walk

/-! The entries that readdir gives index by index, and the names that finddir finds, in the same directory. -/
namespace RetroOs.Drivers
open Lib List Round Returns Option
namespace Fat16

def answering (d : Disk) : Drive := ⟨d, fun _ => true⟩

/-- Where an iteration goes on behind the cluster: nowhere, if a slot of it was never used. -/
def wayNext (b : Bpb) (d : Disk) (c : Nat) : Nat := if ∃ a ∈ clusterSlots b c, d.bytes a = 0 then 0 else getFatEntry b d c

/-- The slots of a directory, up to the cluster with the first one never used. -/
inductive Covers (b : Bpb) (d : Disk) : Nat → List Nat → Prop where
  | root : Covers b d 0 (rootSlots b)
  | sub {dir : Nat} {l : List Nat} (h0 : dir ≠ 0) (h : Chain Ends (wayNext b d) dir l) :
    Covers b d dir (l.flatMap (clusterSlots b))

section
variable {σ ρ : Type} {b : Bpb} {d : Disk} {callback : σ → Nat → Nat → Round σ ρ} {dir c : Nat} {slots l : List Nat} {s : σ}
  {r : Option ρ}

def slotRound (callback : σ → Nat → Nat → Round σ ρ) (a : Nat) (s : σ) : Round σ ρ := callback s (a / 512) (a % 512)

private theorem visitSectors_slots (k first : Nat) (s : σ) :
    visitSectors (answering d) callback ((range k).map fun i => first + i) s =
      each (slotRound callback) ((range k).flatMap fun i => sectorSlots (first + i)) s := by
  rw [visitSectors, each_map, each_flatMap]
  refine each_congr (fun i _ s => ?_) s
  rw [if_pos (show (answering d).answers (first + i) = true from rfl), visitSector, sectorSlots, each_map]
  refine each_congr (fun j hj s => ?_) s
  have hj := mem_range.mp hj
  have hdiv : (512 * (first + i) + 32 * j) / 512 = first + i := by omega
  have hmod : (512 * (first + i) + 32 * j) % 512 = j * 32 := by omega
  rw [slotRound, hdiv, hmod]

theorem chainRound_slots (c : Nat) (s : σ) : chainRound (answering d) b callback (c, s) =
    if 2 ≤ c ∧ c < chainEnd then
      match each (slotRound callback) (clusterSlots b c) s with
      | .goes s => .goes (getFatEntry b d c, s)
      | .stops r => .stops (some r)
      | .waits => .waits
    else .stops none := by
  rw [chainRound, visitSectors_slots]
  rfl

def StopsAtEnd (d : Disk) (callback : σ → Nat → Nat → Round σ ρ) : Prop :=
  ∀ a s t, d.bytes a = 0 → slotRound callback a s ≠ .goes t

private theorem wayNext_goes (hstop : StopsAtEnd d callback) {t : σ} (h : each (slotRound callback) (clusterSlots b c) s = .goes t) :
    wayNext b d c = getFatEntry b d c := by
  rw [wayNext, if_neg]
  rintro ⟨a, ha, hzero⟩
  obtain ⟨u, w, hgo⟩ := each_goes_mem h ha
  exact hstop a u w hzero hgo

private theorem returns_slots (hstop : StopsAtEnd d callback) (h : Chain Ends (wayNext b d) c l) :
    Returns (chainRound (answering d) b callback) (c, s) r ↔
      (each (slotRound callback) (l.flatMap (clusterSlots b)) s).ended = some r := by
  induction l generalizing c s with
  | nil =>
    have hend : Ends c := chain_nil.mp h
    have hround : chainRound (answering d) b callback (c, s) = _ := chainRound_slots c s
    rw [if_neg (show ¬ (2 ≤ c ∧ c < chainEnd) from hend)] at hround
    rw [stops_iff hround]
    simp [each, ended, eq_comm]
  | cons x l ih =>
    obtain ⟨rfl, hgo, htail⟩ := chain_cons.mp h
    have hround : chainRound (answering d) b callback (c, s) = _ := chainRound_slots c s
    rw [if_pos (not_not.mp hgo)] at hround
    rw [flatMap_cons, each_append]
    cases hv : each (slotRound callback) (clusterSlots b c) s with
    | goes t =>
      rw [hv] at hround
      rw [wayNext_goes hstop hv] at htail
      rw [goes_iff hround]
      exact ih htail
    | stops y =>
      rw [hv] at hround
      rw [stops_iff hround]
      simp [andThen, ended, eq_comm]
    | waits =>
      rw [hv] at hround
      simp [not_waits hround, andThen, ended]

theorem Covers.iterates (hstop : StopsAtEnd d callback) (h : Covers b d dir slots) :
    Iterates (answering d) b callback dir s r ↔ (each (slotRound callback) slots s).ended = some r := by
  cases h with
  | root =>
    have hroot : rootRound (answering d) b callback s =
        match each (slotRound callback) (rootSlots b) s with
        | .goes _ => .stops none
        | .stops r => .stops (some r)
        | .waits => .waits := by
      rw [rootRound, visitSectors_slots]
      rfl
    rw [Iterates, if_pos rfl, hroot]
    cases each (slotRound callback) (rootSlots b) s <;> simp [ended]
  | sub h0 h =>
    rw [Iterates, if_neg h0]
    exact returns_slots hstop h

end

section
variable {b : Bpb} {d : Disk} {m : Memory} {dir c index k : Nat} {slots : List Nat} {name : CString}

private theorem findCallback_stops (d : Disk) (name : CString) : StopsAtEnd d (stateless (findCallback d.bytes name)) := by
  intro a s t hzero h
  simp [slotRound, stateless, findCallback, atSlot_address, hzero, ofOption] at h

theorem readdirCallback_slot (m : Memory) (index a k : Nat) : slotRound (readdirCallback m index) a k =
    if m a = 0 then .stops none
    else if m a = 0xE5 then .goes k
    else if (entryAt m a).attributes.testBit attrVolumeIdBit then .goes k
    else if k = index then .stops (some a)
    else .goes (k + 1) := by
  rw [slotRound, readdirCallback, atSlot_address]

private theorem readdirCallback_stops (d : Disk) (index : Nat) : StopsAtEnd d (readdirCallback d.bytes index) := by
  intro a s t hzero h
  rw [readdirCallback_slot, if_pos hzero] at h
  cases h

theorem Covers.find (h : Covers b d dir slots) (name : CString) (r : Option Nat) :
    FindReturns (answering d) b dir name r ↔ r = (liveSlots d.bytes slots).find? (hasName d.bytes name) := by
  have heach : each (slotRound (stateless (findCallback d.bytes name))) slots () =
      .ofOption (slots.findSome? (atSlot (findCallback d.bytes name))) := each_ofOption _ slots
  have hended : ∀ o : Option (Option Nat), (ofOption o).ended = some o := fun o => by cases o <;> rfl
  have hiff : ∀ x, Iterates (answering d) b (stateless (findCallback d.bytes name)) dir () x ↔
      slots.findSome? (atSlot (findCallback d.bytes name)) = x := by
    intro x
    rw [h.iterates (findCallback_stops d name), heach, hended, some.injEq]
  rw [← findSome?_find]
  constructor
  · rintro ⟨x, hx, rfl⟩
    rw [(hiff x).mp hx]
  · rintro rfl
    exact ⟨_, (hiff _).mpr rfl, rfl⟩

/-- An entry that readdir counts: neither deleted nor a volume label nor a part of a long name. -/
def Listed (m : Memory) (a : Nat) : Prop := m a ≠ 0xE5 ∧ ¬ (entryAt m a).attributes.testBit attrVolumeIdBit

instance (m : Memory) : DecidablePred (Listed m) := fun _ => inferInstanceAs (Decidable (_ ∧ _))

def listedSlots (m : Memory) (slots : List Nat) : List Nat := (slots.takeWhile (m · ≠ 0)).filter (Listed m)

private theorem listedSlots_cons (m : Memory) (a : Nat) (slots : List Nat) : listedSlots m (a :: slots) =
    if m a = 0 then [] else if Listed m a then a :: listedSlots m slots else listedSlots m slots := by
  rw [listedSlots, takeWhile_cons]
  by_cases h0 : m a = 0
  · simp [h0]
  · by_cases hl : Listed m a <;> simp [h0, hl, listedSlots]

/-- With `k` entries counted, the call gives the entry that is as many further on as are still missing. -/
theorem readdir_each (hk : k ≤ index) :
    ∃ x, (each (slotRound (readdirCallback m index)) slots k).ended = some x ∧
      x.join = (listedSlots m slots)[index - k]? := by
  induction slots generalizing k with
  | nil => exact ⟨none, rfl, rfl⟩
  | cons a slots ih =>
    rw [each_cons, readdirCallback_slot, listedSlots_cons]
    by_cases h0 : m a = 0
    · rw [if_pos h0, if_pos h0]
      exact ⟨some none, rfl, rfl⟩
    rw [if_neg h0, if_neg h0]
    by_cases hE5 : m a = 0xE5
    · have hno : ¬ Listed m a := fun h => h.1 hE5
      rw [if_pos hE5, if_neg hno]
      exact ih hk
    rw [if_neg hE5]
    by_cases hlabel : (entryAt m a).attributes.testBit attrVolumeIdBit
    · have hno : ¬ Listed m a := fun h => h.2 hlabel
      rw [if_pos hlabel, if_neg hno]
      exact ih hk
    have hlisted : Listed m a := ⟨hE5, hlabel⟩
    rw [if_neg hlabel, if_pos hlisted]
    by_cases heq : k = index
    · subst heq
      rw [if_pos rfl, Nat.sub_self]
      exact ⟨some (some a), rfl, rfl⟩
    · have hstep : index - k = (index - (k + 1)) + 1 := by omega
      rw [if_neg heq, hstep, getElem?_cons_succ]
      exact ih (by omega)

theorem Covers.readdir (h : Covers b d dir slots) (index : Nat) (r : Option Dirent) :
    ReaddirReturns (answering d) b dir index r ↔ r = (listedSlots d.bytes slots)[index]?.map (direntOf d.bytes) := by
  obtain ⟨x, hx, hjoin⟩ : ∃ x, (each (slotRound (readdirCallback d.bytes index)) slots 0).ended = some x ∧
      x.join = (listedSlots d.bytes slots)[index - 0]? := readdir_each (Nat.zero_le index)
  rw [Nat.sub_zero] at hjoin
  have hiff : ∀ y, Iterates (answering d) b (readdirCallback d.bytes index) dir 0 y ↔ x = y := by
    intro y
    rw [h.iterates (readdirCallback_stops d index), hx, some.injEq]
  rw [← hjoin]
  constructor
  · rintro ⟨y, hy, rfl⟩
    rw [(hiff y).mp hy]
    rfl
  · rintro rfl
    exact ⟨x, (hiff x).mpr rfl, rfl⟩

private theorem way_ends {x : Nat × Nat} {r : Option (Option Nat)}
    (h : Returns (chainRound (answering d) b (readdirCallback d.bytes index)) x r) (hnull : r.join = none) :
    ∃ l, Chain Ends (wayNext b d) x.1 l := by
  induction h with
  | @stop x r hr =>
    obtain ⟨c, k⟩ := x
    rw [chainRound_slots] at hr
    split at hr
    · next hgo =>
      split at hr
      · cases hr
      · next y hv =>
        cases hr
        obtain rfl : y = none := hnull
        obtain ⟨a, ha, t, hat⟩ := each_stops hv
        have hzero : d.bytes a = 0 := by
          rw [readdirCallback_slot] at hat
          split at hat
          · assumption
          · split at hat
            · cases hat
            · split at hat
              · cases hat
              · split at hat <;> cases hat
        have hnext : wayNext b d c = 0 := if_pos ⟨a, ha, hzero⟩
        refine ⟨[c], chain_cons.mpr ⟨rfl, not_not.mpr hgo, chain_nil.mpr ?_⟩⟩
        rw [hnext]
        exact ends_zero
      · cases hr
    · next hend => exact ⟨[], chain_nil.mpr hend⟩
  | @go x y r hx _ ih =>
    obtain ⟨c, k⟩ := x
    obtain ⟨l, hl⟩ := ih hnull
    rw [chainRound_slots] at hx
    split at hx
    · next hgo =>
      split at hx
      · next hv =>
        cases hx
        refine ⟨c :: l, chain_cons.mpr ⟨rfl, not_not.mpr hgo, ?_⟩⟩
        rwa [wayNext_goes (readdirCallback_stops d index) hv]
      · cases hx
      · cases hx
    · cases hx

private theorem readdir_null_iff : (∃ n, ReaddirReturns (answering d) b dir n none) ↔ ∃ slots, Covers b d dir slots := by
  constructor
  · rintro ⟨n, x, hx, hnull⟩
    by_cases h0 : dir = 0
    · subst h0
      exact ⟨_, .root⟩
    · rw [Iterates, if_neg h0] at hx
      obtain ⟨l, hl⟩ := way_ends hx (map_eq_none_iff.mp hnull.symm)
      exact ⟨_, .sub h0 hl⟩
  · rintro ⟨slots, h⟩
    refine ⟨(listedSlots d.bytes slots).length, (h.readdir _ _).mpr ?_⟩
    rw [getElem?_eq_none (Nat.le_refl _), map_none]

private theorem sectorSlots_nodup (sector : Nat) : (sectorSlots sector).Nodup := by
  refine List.Nodup.map (fun i j h => ?_) nodup_range
  omega

private theorem sectors_nodup (k first : Nat) : ((range k).flatMap fun i => sectorSlots (first + i)).Nodup := by
  refine nodup_flatMap.mpr ⟨fun i _ => sectorSlots_nodup _, nodup_range.imp ?_⟩
  intro i j hij a hi hj
  have hsector := (slot_aligned hi).1.symm.trans (slot_aligned hj).1
  omega

theorem Covers.nodup (h : Covers b d dir slots) : slots.Nodup := by
  cases h with
  | root => exact sectors_nodup ..
  | sub _ h =>
    refine nodup_flatMap.mpr ⟨fun c _ => sectors_nodup .., ?_⟩
    refine h.nodup.imp_of_mem ?_
    intro c e hc he hne a ha ha'
    apply hne
    exact clusterSlots_unique (not_not.mp (h.not_stop hc)).1 (not_not.mp (h.not_stop he)).1 ha ha'

end

/-! ### The two calls together -/

/-- Readdir gives an entry of the name, up to the case of letters. -/
def Yields (v : Drive) (b : Bpb) (dir : Nat) (name : CString) : Prop :=
  ∃ i e, ReaddirReturns v b dir i (some e) ∧ sameName e.name name

def Finds (v : Drive) (b : Bpb) (dir : Nat) (name : CString) : Prop := ∃ node, FinddirReturns v b dir name (.node node)

/-- Enumerating ends, every entry comes once and in the order on the disk, and a name comes if finddir of it succeeds. -/
structure Agree (b : Bpb) (d : Disk) (dir : Nat) : Prop where
  ends : ∃ n, ReaddirReturns (answering d) b dir n none
  entries : ∀ slots, Covers b d dir slots → (listedSlots d.bytes slots).Nodup ∧
    ∀ i r, ReaddirReturns (answering d) b dir i r ↔ r = (listedSlots d.bytes slots)[i]?.map (direntOf d.bytes)
  names : ∀ name, (dir = 0 → name ≠ .ofString "dev") → (Yields (answering d) b dir name ↔ Finds (answering d) b dir name)

/-- The upper-case characters of the displayed name. -/
def shownName (m : Memory) (a : Nat) : List UInt8 := folded (direntOf m a).name

/-- The directory has no volume label that finddir takes for a file: each has the name of a file. -/
def LabelsListed (m : Memory) (slots : List Nat) : Prop :=
  ∀ a ∈ liveSlots m slots, (entryAt m a).attributes.testBit attrVolumeIdBit →
    ∃ e ∈ listedSlots m slots, shownName m e = shownName m a

section
variable {b : Bpb} {d : Disk} {m : Memory} {dir a : Nat} {slots : List Nat} {name : CString}

theorem hasName_iff (m : Memory) (name : CString) (a : Nat) : hasName m name a ↔ shownName m a = foldString name :=
  sameName_iff _ _

private theorem mem_listedSlots_iff :
    a ∈ listedSlots m slots ↔ a ∈ liveSlots m slots ∧ ¬ (entryAt m a).attributes.testBit attrVolumeIdBit := by
  have hlfn : attrLfn.testBit attrVolumeIdBit = true := by decide
  rw [listedSlots, liveSlots, mem_filter, mem_filter, decide_eq_true_eq, decide_eq_true_eq, Listed, Live, and_assoc,
    and_assoc]
  refine and_congr_right fun _ => and_congr_right fun _ => ⟨fun hbit => ⟨fun heq => ?_, hbit⟩, And.right⟩
  rw [heq] at hbit
  exact hbit hlfn

theorem Covers.yields_iff (h : Covers b d dir slots) :
    Yields (answering d) b dir name ↔ ∃ e ∈ listedSlots d.bytes slots, shownName d.bytes e = foldString name := by
  constructor
  · rintro ⟨i, e, hr, hname⟩
    obtain ⟨a, ha, rfl⟩ := map_eq_some_iff.mp ((h.readdir i _).mp hr).symm
    exact ⟨a, mem_of_getElem? ha, (sameName_iff _ _).mp hname⟩
  · rintro ⟨a, ha, hname⟩
    obtain ⟨i, hi⟩ := mem_iff_getElem?.mp ha
    refine ⟨i, direntOf d.bytes a, (h.readdir i _).mpr ?_, (sameName_iff _ _).mpr hname⟩
    rw [hi, map_some]

theorem Covers.finds_iff (h : Covers b d dir slots) (hdev : dir = 0 → name ≠ .ofString "dev") :
    Finds (answering d) b dir name ↔ ∃ a ∈ liveSlots d.bytes slots, shownName d.bytes a = foldString name := by
  have hno : ¬ (name = .ofString "dev" ∧ dir = 0) := fun hand => hdev hand.2 hand.1
  simp only [Finds, FinddirReturns, if_neg hno, h.find]
  constructor
  · rintro ⟨node, x, rfl, hx⟩
    split at hx
    · cases hx
    · next hfind =>
      exact ⟨_, mem_of_find?_eq_some hfind, (hasName_iff ..).mp (find?_some hfind)⟩
  · rintro ⟨a, ha, hname⟩
    cases hfind : (liveSlots d.bytes slots).find? (hasName d.bytes name) with
    | none => exact absurd ((hasName_iff ..).mpr hname) (find?_eq_none.mp hfind a ha)
    | some e => exact ⟨_, some e, rfl, rfl⟩

private theorem exists_name (l : List UInt8) : ∃ name : CString, foldString name = folded l ∧ ∀ c ∈ name, upper c.val = c.val := by
  have hbytes : ∀ k : List UInt8, (∀ x ∈ k, x ≠ 0 ∧ upper x = x) →
      ∃ name : CString, foldString name = k ∧ ∀ c ∈ name, upper c.val = c.val := by
    intro k hk
    induction k with
    | nil => exact ⟨[], rfl, fun c hc => nomatch hc⟩
    | cons x k ih =>
      obtain ⟨⟨hx, hup⟩, hk⟩ := forall_mem_cons.mp hk
      obtain ⟨name, hname, hall⟩ := ih hk
      refine ⟨⟨x, hx⟩ :: name, ?_, forall_mem_cons.mpr ⟨hup, hall⟩⟩
      rw [foldString, map_cons, hup]
      exact congrArg (x :: ·) hname
  refine hbytes _ fun x hx => ?_
  obtain ⟨y, hy, rfl⟩ := mem_map.mp hx
  have hne := mem_takeWhile_imp hy
  exact ⟨upper_ne_zero (of_decide_eq_true hne), upper_upper y⟩

end

/-- The two calls agree on a directory that has an end, where each volume label has the name of an entry listed. -/
theorem readdir_finddir_agree_iff (b : Bpb) (d : Disk) (dir : Nat) :
    Agree b d dir ↔ ∃ slots, Covers b d dir slots ∧ LabelsListed d.bytes slots := by
  constructor
  · rintro ⟨hend, -, hnames⟩
    obtain ⟨slots, h⟩ := readdir_null_iff.mp hend
    refine ⟨slots, h, fun a ha _ => ?_⟩
    obtain ⟨name, hname, hupper⟩ := exists_name (direntOf d.bytes a).name
    have hdev : name ≠ .ofString "dev" := by
      rintro rfl
      exact absurd hupper (by decide)
    obtain ⟨e, he, hshown⟩ := h.yields_iff.mp ((hnames name fun _ => hdev).mpr ((h.finds_iff fun _ => hdev).mpr ⟨a, ha, hname.symm⟩))
    exact ⟨e, he, hshown.trans hname⟩
  · rintro ⟨slots, h, hlabels⟩
    refine ⟨readdir_null_iff.mpr ⟨slots, h⟩, fun slots' h' => ?_, fun name hdev => ?_⟩
    · exact ⟨(h'.nodup.sublist (takeWhile_sublist _)).filter _, fun i r => h'.readdir i r⟩
    · rw [h.yields_iff, h.finds_iff hdev]
      constructor
      · rintro ⟨e, he, hshown⟩
        exact ⟨e, (mem_listedSlots_iff.mp he).1, hshown⟩
      · rintro ⟨a, ha, hshown⟩
        by_cases hbit : (entryAt d.bytes a).attributes.testBit attrVolumeIdBit
        · obtain ⟨e, he, hsame⟩ := hlabels a ha hbit
          exact ⟨e, he, hsame.trans hshown⟩
        · exact ⟨a, mem_listedSlots_iff.mpr ⟨ha, hbit⟩, hshown⟩

/-- The volume of seven sectors, with the volume label `A` in place of the file. -/
def labelDisk : Disk := { smallDisk with bytes := fun x => if x = 1035 then 0x08 else smallDisk.bytes x }

theorem label_not_listed :
    Finds (answering labelDisk) (init labelDisk) 0 (.ofString "a") ∧
      ∀ i r, ReaddirReturns (answering labelDisk) (init labelDisk) 0 i r → r = none := by
  have hroot : Covers (init labelDisk) labelDisk 0 (rootSlots (init labelDisk)) := .root
  constructor
  · refine (hroot.finds_iff fun _ => by decide).mpr ⟨1024, ?_, ?_⟩
    · decide +kernel
    · decide +kernel
  · intro i r hr
    have hnone : listedSlots labelDisk.bytes (rootSlots (init labelDisk)) = [] := by decide +kernel
    rw [(hroot.readdir i r).mp hr, hnone]
    rfl

end Fat16
end RetroOs.Drivers
