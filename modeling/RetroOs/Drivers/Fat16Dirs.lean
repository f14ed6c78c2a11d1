import RetroOs.Drivers.Fat16Layout
import RetroOs.Lib.Chain
import RetroOs.Lib.Loop
import Mathlib.Data.List.Find
import Mathlib.Data.List.TakeWhile

/-! Directories as lists of slots: what the iteration over a directory sees, and what it depends on. -/
namespace RetroOs.Drivers
open Lib List Nat Memory UInt8
namespace Fat16

variable {b : Bpb} {d d' : Disk} {dir c a : Nat} {l slots : List Nat} {m m' : Memory} {name : CString} {α : Type}
  {n : NameBuffer}

def Ends (v : Nat) : Prop := ¬ (2 ≤ v ∧ v < chainEnd)

instance : DecidablePred Ends := fun v => inferInstanceAs (Decidable (¬ (2 ≤ v ∧ v < chainEnd)))

/-- The clusters of a chain in the table. -/
def FatChain (b : Bpb) (d : Disk) (first : Nat) (l : List Nat) : Prop := Chain Ends (getFatEntry b d) first l

/-- The addresses of the entries in a sector. -/
def sectorSlots (sector : Nat) : List Nat := (range 16).map fun i => 512 * sector + 32 * i

def rootSlots (b : Bpb) : List Nat := (range b.rootSectors).flatMap fun s => sectorSlots (b.rootDirStartSector + s)

def clusterSlots (b : Bpb) (cluster : Nat) : List Nat :=
  (range b.sectorsPerCluster).flatMap fun s => sectorSlots (b.clusterToSector cluster + s)

inductive DirSlots (b : Bpb) (d : Disk) : Nat → List Nat → Prop where
  | root : DirSlots b d 0 (rootSlots b)
  | sub {dir : Nat} {l : List Nat} (h : FatChain b d dir l) (hv : ∀ c ∈ l, InVolume b c) (h0 : dir ≠ 0) :
    DirSlots b d dir (l.flatMap (clusterSlots b))

def atSlot (callback : Nat → Nat → Option α) (a : Nat) : Option α := callback (a / 512) (a % 512)

private theorem iterateSector_eq (callback : Nat → Nat → Option α) (sector : Nat) :
    iterateSector callback sector = (sectorSlots sector).findSome? (atSlot callback) := by
  rw [iterateSector, sectorSlots, findSome?_map]
  apply findSome?_congr
  intro i hi
  have hi := mem_range.mp hi
  have hdiv : (512 * sector + 32 * i) / 512 = sector := by omega
  have hmod : (512 * sector + 32 * i) % 512 = i * 32 := by omega
  simp only [Function.comp, atSlot, hdiv, hmod]

theorem iterateCluster_eq (b : Bpb) (callback : Nat → Nat → Option α) (c : Nat) :
    iterateCluster b callback c = (clusterSlots b c).findSome? (atSlot callback) := by
  rw [iterateCluster, clusterSlots, findSome?_flatMap]
  exact findSome?_congr fun s _ => iterateSector_eq callback _

theorem FatChain.length_lt (h : FatChain b d c l) : l.length < 0x10000 := by
  have hsub : l ⊆ range chainEnd := by
    intro v hv
    exact mem_range.mpr (not_not.mp (h.not_stop hv)).2
  have hlen := (h.nodup.subperm hsub).length_le
  rw [length_range] at hlen
  exact lt_of_le_of_lt hlen (by decide)

private theorem iterateChain_eq (callback : Nat → Nat → Option α) (h : FatChain b d c l) {fuel : Nat}
    (hfuel : l.length < fuel) :
    iterateChain b d callback fuel c = some ((l.flatMap (clusterSlots b)).findSome? (atSlot callback)) := by
  induction l generalizing c fuel with
  | nil =>
    cases fuel with
    | zero => cases hfuel
    | succ fuel =>
      have hstop : Ends c := chain_nil.mp h
      rw [iterateChain, if_neg (show ¬ (2 ≤ c ∧ c < chainEnd) from hstop)]
      rfl
  | cons x l ih =>
    obtain ⟨rfl, hgo, htail⟩ := chain_cons.mp h
    cases fuel with
    | zero => cases hfuel
    | succ fuel =>
      have hih := ih htail (lt_of_succ_lt_succ hfuel)
      rw [iterateChain, if_pos (not_not.mp hgo), iterateCluster_eq, flatMap_cons, findSome?_append]
      cases (clusterSlots b c).findSome? (atSlot callback) with
      | some r => rfl
      | none => exact hih

theorem DirSlots.iterate (h : DirSlots b d dir slots) (callback : Nat → Nat → Option α) :
    iterateDir b d dir callback = some (slots.findSome? (atSlot callback)) := by
  cases h with
  | root =>
    rw [iterateDir, if_pos rfl, rootSlots, findSome?_flatMap]
    exact congrArg some (findSome?_congr fun s _ => iterateSector_eq callback _)
  | sub h hv h0 =>
    rw [iterateDir, if_neg h0]
    exact iterateChain_eq callback h h.length_lt

def Live (m : Memory) (a : Nat) : Prop := m a ≠ 0xE5 ∧ (entryAt m a).attributes ≠ attrLfn

instance (m : Memory) : DecidablePred (Live m) := fun _ => inferInstanceAs (Decidable (_ ∧ _))

/-- The entries of a directory, up to the first slot never used. -/
def liveSlots (m : Memory) (slots : List Nat) : List Nat := (slots.takeWhile (m · ≠ 0)).filter (Live m)

/-- The displayed name of a slot matches. -/
def hasName (m : Memory) (name : CString) (a : Nat) : Bool :=
  sameName (toName (entryAt m a).filename (entryAt m a).ext) name

def freeSlot (m : Memory) (slots : List Nat) : Option Nat := slots.find? fun a => m a = 0 ∨ m a = 0xE5

theorem atSlot_address (a : Nat) : 512 * (a / 512) + a % 512 = a := div_add_mod a 512

theorem findSome?_find (m : Memory) (name : CString) (slots : List Nat) :
    (slots.findSome? (atSlot (findCallback m name))).join = (liveSlots m slots).find? (hasName m name) := by
  induction slots with
  | nil => rfl
  | cons a slots ih =>
    rw [findSome?_cons]
    simp only [atSlot, findCallback, atSlot_address, liveSlots] at ih ⊢
    by_cases h0 : m a = 0
    · simp [h0]
    · by_cases he5 : m a = 0xE5
      · have hlive : ¬ Live m a := fun h => h.1 he5
        simpa [h0, he5, hlive] using ih
      · by_cases hlfn : (entryAt m a).attributes = attrLfn
        · have hlive : ¬ Live m a := fun h => h.2 hlfn
          simpa [h0, he5, hlfn, hlive] using ih
        · have hlive : Live m a := ⟨he5, hlfn⟩
          by_cases hname : hasName m name a
          · have hsame := hname
            simp only [hasName] at hsame
            simp [h0, he5, hlfn, hlive, hname, hsame]
          · have hsame := hname
            simp only [hasName] at hsame
            simpa [h0, he5, hlfn, hlive, hname, hsame] using ih

theorem DirSlots.findEntry (h : DirSlots b d dir slots) (name : CString) :
    findEntry b d dir name = some ((liveSlots d.bytes slots).find? (hasName d.bytes name)) := by
  rw [Fat16.findEntry, h.iterate, Option.map_some, findSome?_find]

theorem findSome?_free (m : Memory) (slots : List Nat) :
    slots.findSome? (atSlot (findFreeCallback m)) = freeSlot m slots := by
  rw [freeSlot, find?_eq_findSome?_guard]
  apply findSome?_congr
  intro a _
  simp [atSlot, findFreeCallback, atSlot_address, Option.guard]

theorem DirSlots.findFree (h : DirSlots b d dir slots) :
    iterateDir b d dir (findFreeCallback d.bytes) = some (freeSlot d.bytes slots) := by
  rw [h.iterate, findSome?_free]

theorem slot_aligned {sector : Nat} (ha : a ∈ sectorSlots sector) :
    a / 512 = sector ∧ a % 32 = 0 ∧ a % 512 + 32 ≤ 512 := by
  obtain ⟨i, hi, rfl⟩ := mem_map.mp ha
  have hi := mem_range.mp hi
  omega

theorem rootSlots_sector (ha : a ∈ rootSlots b) : ∃ s < b.rootSectors, a / 512 = b.rootDirStartSector + s := by
  obtain ⟨s, hs, ha⟩ := mem_flatMap.mp ha
  exact ⟨s, mem_range.mp hs, (slot_aligned ha).1⟩

theorem clusterSlots_sector (ha : a ∈ clusterSlots b c) : ∃ i < b.sectorsPerCluster, a / 512 = b.clusterToSector c + i := by
  obtain ⟨i, hi, ha⟩ := mem_flatMap.mp ha
  exact ⟨i, mem_range.mp hi, (slot_aligned ha).1⟩

theorem mem_rootSlots (ha : a ∈ rootSlots b) :
    a % 32 = 0 ∧ 512 * b.rootDirStartSector ≤ a ∧ a + 32 ≤ 512 * b.dataStartSector := by
  obtain ⟨s, hs, ha⟩ := mem_flatMap.mp ha
  have hs := mem_range.mp hs
  obtain ⟨hsec, halign, hfit⟩ := slot_aligned ha
  simp only [Bpb.dataStartSector]
  omega

theorem mem_clusterSlots (ha : a ∈ clusterSlots b c) :
    a % 32 = 0 ∧ 512 * b.clusterToSector c ≤ a ∧ a + 32 ≤ 512 * (b.clusterToSector c + b.sectorsPerCluster) := by
  obtain ⟨s, hs, ha⟩ := mem_flatMap.mp ha
  have hs := mem_range.mp hs
  obtain ⟨hsec, halign, hfit⟩ := slot_aligned ha
  omega

theorem DirSlots.aligned (h : DirSlots b d dir slots) (ha : a ∈ slots) : a % 32 = 0 := by
  cases h with
  | root => exact (mem_rootSlots ha).1
  | sub _ _ _ =>
    obtain ⟨c, _, ha⟩ := mem_flatMap.mp ha
    exact (mem_clusterSlots ha).1

theorem entryAt_congr (h : m.AgreeOn m' a 32) : entryAt m' a = entryAt m a := by
  have hattr : m' (a + 11) = m (a + 11) := h _ (by omega) (by omega)
  have hfile := (h.mono (b := a) (k := 8) (by omega) (by omega)).bytes
  have hext := (h.mono (b := a + 8) (k := 3) (by omega) (by omega)).bytes
  have hclus := (h.mono (b := a + 26) (k := 2) (by omega) (by omega)).load16
  have hsize := (h.mono (b := a + 28) (k := 4) (by omega) (by omega)).load32
  simp only [entryAt, hattr, hfile, hext, hclus, hsize]

theorem Live.congr_head (h : m.AgreeOn m' a 12) : Live m' a ↔ Live m a := by
  have hattr : (entryAt m' a).attributes = (entryAt m a).attributes := congrArg toNat (h _ (by omega) (by omega))
  rw [Live, Live, hattr, h a (by omega) (by omega)]

private theorem hasName_congr_head (h : m.AgreeOn m' a 12) : hasName m' name a = hasName m name a := by
  have hfile := (h.mono (b := a) (k := 8) (by omega) (by omega)).bytes
  have hext := (h.mono (b := a + 8) (k := 3) (by omega) (by omega)).bytes
  simp only [hasName, entryAt, hfile, hext]

private theorem liveSlots_congr_head (h : ∀ a ∈ slots, m.AgreeOn m' a 12) : liveSlots m' slots = liveSlots m slots := by
  induction slots with
  | nil => rfl
  | cons a slots ih =>
    have ha := h a (.head _)
    have h0 : m' a = m a := ha a (le_refl a) (by omega)
    have hih := ih fun x hx => h x (.tail _ hx)
    simp only [liveSlots] at hih ⊢
    rw [takeWhile_cons, takeWhile_cons, h0]
    split
    · rw [filter_cons, filter_cons, hih]
      simp only [Live.congr_head ha]
    · rfl

theorem head_agreeOn (h : m.AgreeOn m' a 32) : m.AgreeOn m' a 12 := h.mono (le_refl a) (by omega)

theorem Live.congr (h : m.AgreeOn m' a 32) : Live m' a ↔ Live m a := Live.congr_head (head_agreeOn h)

theorem hasName_congr (h : m.AgreeOn m' a 32) : hasName m' name a = hasName m name a := hasName_congr_head (head_agreeOn h)

theorem liveSlots_congr (h : ∀ a ∈ slots, m.AgreeOn m' a 32) : liveSlots m' slots = liveSlots m slots :=
  liveSlots_congr_head fun a ha => head_agreeOn (h a ha)

theorem mem_liveSlots (ha : a ∈ liveSlots m slots) : a ∈ slots ∧ m a ≠ 0 ∧ Live m a := by
  obtain ⟨htake, hlive⟩ := mem_filter.mp ha
  have hne := mem_takeWhile_imp htake
  exact ⟨(takeWhile_sublist _).subset htake, of_decide_eq_true hne, of_decide_eq_true hlive⟩

theorem find_congr_head (h : ∀ a ∈ slots, m.AgreeOn m' a 12) :
    (liveSlots m' slots).find? (hasName m' name) = (liveSlots m slots).find? (hasName m name) := by
  rw [liveSlots_congr_head h]
  exact find?_congr fun a ha => hasName_congr_head (h a (mem_liveSlots ha).1)

theorem find_congr (h : ∀ a ∈ slots, m.AgreeOn m' a 32) :
    (liveSlots m' slots).find? (hasName m' name) = (liveSlots m slots).find? (hasName m name) :=
  find_congr_head fun a ha => head_agreeOn (h a ha)

private theorem parseChar_lengths {ch : CChar} (h : n.filename.length ≤ 8 ∧ n.ext.length = 3) :
    (parseChar n ch).filename.length ≤ 8 ∧ (parseChar n ch).ext.length = 3 := by
  obtain ⟨hf, he⟩ := h
  simp only [parseChar]
  split
  · exact ⟨hf, he⟩
  · split
    · split
      · exact ⟨hf, by rw [length_set, he]⟩
      · exact ⟨hf, he⟩
    · split
      · next hlt => exact ⟨by rw [length_append, length_singleton]; exact hlt, he⟩
      · exact ⟨hf, he⟩

private theorem parse_lengths (name : CString) (h : n.filename.length ≤ 8 ∧ n.ext.length = 3) :
    (name.foldl parseChar n).filename.length ≤ 8 ∧ (name.foldl parseChar n).ext.length = 3 := by
  induction name generalizing n with
  | nil => exact h
  | cons ch name ih => exact ih (parseChar_lengths h)

@[simp] theorem encodeName_length (name : CString) : (encodeName name).length = 11 := by
  obtain ⟨hf, he⟩ := parse_lengths name
    (n := { filename := [], ext := [32, 32, 32], inExt := false, ei := 0 }) ⟨zero_le _, rfl⟩
  simp only [encodeName, length_append, length_replicate, he]
  omega

@[simp] theorem entryBytes_length (name : CString) (attr cluster : Nat) : (entryBytes name attr cluster).length = 32 := by
  simp [entryBytes]

theorem upper_ne_zero {c : UInt8} (h : c ≠ 0) : upper c ≠ 0 := by
  simp only [upper]
  split
  · next hlow =>
    intro h0
    have hc : c = 32 := by
      rw [← sub_add_cancel c 32, h0]
      rfl
    subst hc
    exact absurd hlow.1 (by decide)
  · exact h

private theorem parseChar_ne_zero (ch : CChar) (h : (∀ x ∈ n.filename, x ≠ 0) ∧ ∀ x ∈ n.ext, x ≠ 0) :
    (∀ x ∈ (parseChar n ch).filename, x ≠ 0) ∧ ∀ x ∈ (parseChar n ch).ext, x ≠ 0 := by
  obtain ⟨hf, he⟩ := h
  have hch := upper_ne_zero ch.property
  simp only [parseChar]
  split
  · exact ⟨hf, he⟩
  · split
    · split
      · refine ⟨hf, fun x hx => ?_⟩
        rcases mem_or_eq_of_mem_set hx with hx | rfl
        · exact he x hx
        · exact hch
      · exact ⟨hf, he⟩
    · split
      · refine ⟨fun x hx => ?_, he⟩
        rcases mem_append.mp hx with hx | hx
        · exact hf x hx
        · rw [mem_singleton.mp hx]
          exact hch
      · exact ⟨hf, he⟩

private theorem encodeName_ne_zero (name : CString) : ∀ x ∈ encodeName name, x ≠ 0 := by
  have hparse : ∀ {n : NameBuffer}, ((∀ x ∈ n.filename, x ≠ 0) ∧ ∀ x ∈ n.ext, x ≠ 0) →
      (∀ x ∈ (name.foldl parseChar n).filename, x ≠ 0) ∧ ∀ x ∈ (name.foldl parseChar n).ext, x ≠ 0 := by
    induction name with
    | nil => exact id
    | cons ch name ih => exact fun h => ih (parseChar_ne_zero ch h)
  obtain ⟨hf, he⟩ := hparse (n := { filename := [], ext := [32, 32, 32], inExt := false, ei := 0 })
    ⟨by simp, by simp⟩
  intro x hx
  rcases mem_append.mp hx with hx | hx
  · rcases mem_append.mp hx with hx | hx
    · exact hf x hx
    · rw [eq_of_mem_replicate hx]
      decide
  · exact he x hx

theorem memcpy_name_ne_zero (m : Memory) (a : Nat) (name : CString) (rest : List UInt8) :
    m.memcpy a (encodeName name ++ rest) a ≠ 0 := by
  have hlen := encodeName_length name
  have hne := encodeName_ne_zero name
  cases hname : encodeName name with
  | nil =>
    rw [hname] at hlen
    cases hlen
  | cons x l =>
    have hx := hne x (by rw [hname]; exact .head _)
    simpa [memcpy] using hx

theorem memcpy_name (m : Memory) (a : Nat) (name : CString) (rest : List UInt8) :
    (m.memcpy a (encodeName name ++ rest)).bytes a 11 = encodeName name := by
  rw [bytes_memcpy _ (by simp), take_left' (encodeName_length name)]

theorem entryBytes_eq (name : CString) (attr cluster : Nat) :
    entryBytes name attr cluster = encodeName name ++ (entryBytes name attr cluster).drop 11 := by
  have htake : (entryBytes name attr cluster).take 11 = encodeName name := by
    simp only [entryBytes, append_assoc]
    exact take_left' (encodeName_length name)
  rw [← htake, take_append_drop]

theorem entryBytes_getD (name : CString) (attr cluster : Nat) (v : UInt8) :
    (entryBytes name attr cluster).getD 11 v = ofNat attr ∧
      (entryBytes name attr cluster).getD 26 v = ofNat cluster ∧
      (entryBytes name attr cluster).getD 27 v = ofNat (cluster / 256) := by
  simp [entryBytes]

theorem memcpy_at (m : Memory) (a i : Nat) (bytes : List UInt8) : m.memcpy a bytes (a + i) = bytes.getD i (m (a + i)) := by
  rw [Memory.memcpy, if_pos (Nat.le_add_right ..), Nat.add_sub_cancel_left]

theorem entryAt_entryBytes (m : Memory) (a : Nat) (name : CString) (attr cluster : Nat) :
    (entryAt (m.memcpy a (entryBytes name attr cluster)) a).attributes = attr % 256 ∧
      (entryAt (m.memcpy a (entryBytes name attr cluster)) a).firstCluster = cluster % 2 ^ 16 := by
  constructor
  · simp only [entryAt]
    rw [memcpy_at, (entryBytes_getD ..).1, toNat_ofNat']
  · simp only [entryAt, load16]
    rw [memcpy_at, add_assoc a 26 1, memcpy_at, (entryBytes_getD ..).2.1, (entryBytes_getD ..).2.2,
      toNat_ofNat', toNat_ofNat']
    omega

theorem entryAt_memcpy_name (m : Memory) (a : Nat) {bytes : List UInt8} (h : bytes.length ≤ 11) :
    (entryAt (m.memcpy a bytes) a).attributes = (entryAt m a).attributes ∧
      (entryAt (m.memcpy a bytes) a).firstCluster = (entryAt m a).firstCluster := by
  have hkeep : ∀ {e n : Nat}, a + 11 ≤ e → m.AgreeOn (m.memcpy a bytes) e n :=
    fun he => memcpy_agreeOn m bytes (.inr (by omega))
  constructor
  · simp only [entryAt]
    rw [hkeep (n := 1) (le_refl _) (a + 11) (le_refl _) (lt_succ_self _)]
  · simp only [entryAt]
    rw [(hkeep (by omega)).load16]

theorem not_live_deleted (m : Memory) (a : Nat) : ¬ Live (m.memcpy a [0xE5]) a := by
  intro h
  apply h.1
  simp [memcpy]

end Fat16
end RetroOs.Drivers
