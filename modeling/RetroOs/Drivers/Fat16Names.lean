import RetroOs.Drivers.Fat16Contained

/-! The names in one directory under create, mkdir, rename and delete. -/
namespace RetroOs.Drivers
open Lib List Nat
namespace Fat16

variable {b : Bpb} {d d' : Disk} {a c e dir : Nat} {l slots : List Nat} {m m' buffer : Memory} {bytes : List UInt8}
  {name : CString}

def storedName (m : Memory) (a : Nat) : List UInt8 := m.bytes a 11

def Unique (m : Memory) (slots : List Nat) : Prop :=
  ∀ a ∈ liveSlots m slots, ∀ e ∈ liveSlots m slots, storedName m a = storedName m e → a = e

/-- An entry in use has this 8.3 name. -/
def Taken (m : Memory) (slots : List Nat) (n : List UInt8) : Prop := ∃ a ∈ liveSlots m slots, storedName m a = n

/-- A search of the string has a result. -/
def Found (m : Memory) (slots : List Nat) (name : CString) : Prop := ∃ a ∈ liveSlots m slots, hasName m name a

/-- No slot in use comes after one never used. -/
def Packed (m : Memory) (slots : List Nat) : Prop := ∀ a ∈ slots, m a ≠ 0 → a ∈ slots.takeWhile (m · ≠ 0)

instance (m : Memory) (slots : List Nat) : Decidable (Unique m slots) :=
  inferInstanceAs (Decidable (∀ a ∈ liveSlots m slots, ∀ e ∈ liveSlots m slots, storedName m a = storedName m e → a = e))

instance (m : Memory) (slots : List Nat) (n : List UInt8) : Decidable (Taken m slots n) :=
  inferInstanceAs (Decidable (∃ a ∈ liveSlots m slots, storedName m a = n))

instance (m : Memory) (slots : List Nat) : Decidable (Packed m slots) :=
  inferInstanceAs (Decidable (∀ a ∈ slots, m a ≠ 0 → a ∈ slots.takeWhile (m · ≠ 0)))

theorem Packed.mem_liveSlots (h : Packed m slots) (ha : a ∈ slots) (hne : m a ≠ 0) (hlive : Live m a) :
    a ∈ liveSlots m slots :=
  mem_filter.mpr ⟨h a ha hne, decide_eq_true hlive⟩

theorem takeWhile_mono {α : Type} {p q : α → Bool} {l : List α} (h : ∀ x ∈ l, p x → q x) :
    l.takeWhile p ⊆ l.takeWhile q := by
  induction l with
  | nil => exact List.Subset.refl _
  | cons x l ih =>
    have hih := ih fun y hy => h y (.tail _ hy)
    cases hp : p x with
    | false =>
      rw [takeWhile_cons, hp]
      exact nil_subset _
    | true =>
      rw [takeWhile_cons, takeWhile_cons, hp, h x (mem_cons_self ..) hp]
      exact cons_subset_cons x hih

theorem Packed.congr (h : Packed m slots) (hkeep : ∀ e ∈ slots, m' e = m e) : Packed m' slots := by
  intro a ha hne
  rw [hkeep a ha] at hne
  apply takeWhile_mono _ (h a ha hne)
  intro x hx hx0
  rwa [hkeep x hx]

theorem Packed.set (h : Packed m slots) (hkeep : ∀ e ∈ slots, e ≠ a → m' e = m e)
    (ha : a ∈ slots.takeWhile (m' · ≠ 0)) : Packed m' slots := by
  intro e he hne
  by_cases hea : e = a
  · rwa [hea]
  · rw [hkeep e he hea] at hne
    apply takeWhile_mono _ (h e he hne)
    intro x hx hx0
    by_cases hxa : x = a
    · subst hxa
      have hused := mem_takeWhile_imp ha
      exact hused
    · rwa [hkeep x hx hxa]

theorem Unique.set (hu : Unique m slots) (hp : Packed m slots) (hkeep : ∀ e ∈ slots, e ≠ a → m.AgreeOn m' e 32)
    (hnew : a ∈ liveSlots m' slots → ¬ Taken m slots (storedName m' a)) : Unique m' slots := by
  have hold : ∀ e ∈ liveSlots m' slots, e ≠ a → e ∈ liveSlots m slots ∧ storedName m' e = storedName m e := by
    intro e he hea
    obtain ⟨hes, hne, hlive⟩ := mem_liveSlots he
    have hagree := hkeep e hes hea
    rw [hagree e (le_refl e) (by omega)] at hne
    refine ⟨hp.mem_liveSlots hes hne ((Live.congr hagree).mp hlive), ?_⟩
    exact (hagree.mono (le_refl e) (by omega)).bytes
  intro x hx y hy hxy
  by_cases hxa : x = a
  · by_cases hya : y = a
    · rw [hxa, hya]
    · obtain ⟨hy', hname⟩ := hold y hy hya
      subst hxa
      exact absurd ⟨y, hy', by rw [hxy, hname]⟩ (hnew hx)
  · obtain ⟨hx', hname⟩ := hold x hx hxa
    by_cases hya : y = a
    · subst hya
      exact absurd ⟨x, hx', by rw [← hxy, hname]⟩ (hnew hy)
    · obtain ⟨hy', hname'⟩ := hold y hy hya
      rw [hname, hname'] at hxy
      exact hu x hx' y hy' hxy

/-- The slots of the directory whose chain is `l`. -/
def slotsOf (b : Bpb) (dir : Nat) (l : List Nat) : List Nat := if dir = 0 then rootSlots b else l.flatMap (clusterSlots b)

/-- A directory of a volume: the table marks its clusters as used, and its slots in use come first. -/
structure Directory (b : Bpb) (d : Disk) (dir : Nat) (l : List Nat) : Prop where
  chain : FatChain b d dir l
  inVolume : ∀ c ∈ l, InVolume b c
  used : ∀ c ∈ l, getFatEntry b d c ≠ 0
  packed : Packed d.bytes (slotsOf b dir l)

theorem Directory.dirSlots (h : Directory b d dir l) : DirSlots b d dir (slotsOf b dir l) := by
  rw [slotsOf]
  split
  · next h0 =>
    subst h0
    exact .root
  · next h0 => exact .sub h.chain h.inVolume h0

theorem Directory.slot (h : Directory b d dir l) (ha : a ∈ slotsOf b dir l) : Slot b a := by
  rw [slotsOf] at ha
  split at ha
  · exact .inl ha
  · obtain ⟨c, hc, ha⟩ := mem_flatMap.mp ha
    exact .inr ⟨c, h.inVolume c hc, ha⟩

theorem Directory.dir_inVolume (h : Directory b d dir l) : Ends dir ∨ InVolume b dir := by
  cases l with
  | nil => exact .inl (chain_nil.mp h.chain)
  | cons c l =>
    obtain ⟨rfl, -⟩ := chain_cons.mp h.chain
    exact .inr (h.inVolume dir (.head _))

/-- Nothing of the directory changes. -/
structure Beside (b : Bpb) (d d' : Disk) (dir : Nat) (l : List Nat) : Prop where
  fat : ∀ c ∈ l, getFatEntry b d' c = getFatEntry b d c
  slots : ∀ a ∈ slotsOf b dir l, d.bytes.AgreeOn d'.bytes a 32

theorem Beside.refl : Beside b d d dir l := ⟨fun _ _ => rfl, fun _ _ => .refl⟩

theorem Beside.trans {d₁ : Disk} (h : Beside b d d₁ dir l) (h' : Beside b d₁ d' dir l) : Beside b d d' dir l :=
  ⟨fun c hc => (h'.fat c hc).trans (h.fat c hc), fun a ha => (h.slots a ha).trans (h'.slots a ha)⟩

theorem Directory.beside (h : Directory b d dir l) (hb : Beside b d d' dir l) : Directory b d' dir l where
  chain := Chain.congr h.chain hb.fat
  inVolume := h.inVolume
  used := fun c hc => by rw [hb.fat c hc]; exact h.used c hc
  packed := h.packed.congr fun e he => hb.slots e he e (le_refl e) (by omega)

theorem Unique.beside (hu : Unique d.bytes (slotsOf b dir l)) (hb : Beside b d d' dir l) :
    Unique d'.bytes (slotsOf b dir l) := by
  rw [Unique, liveSlots_congr hb.slots]
  intro a ha e he hname
  have hkeep : ∀ x ∈ liveSlots d.bytes (slotsOf b dir l), storedName d'.bytes x = storedName d.bytes x :=
    fun x hx => ((hb.slots x (mem_liveSlots hx).1).mono (le_refl x) (by omega)).bytes
  rw [hkeep a ha, hkeep e he] at hname
  exact hu a ha e he hname

theorem Directory.fat_beside (hg : Geometry b) (h : Directory b d dir l) (hc : InVolume b c) (hcl : c ∉ l) (v : Nat) :
    Beside b d (setFatEntry b d c v) dir l where
  fat e he := getFatEntry_setFatEntry_other (h.inVolume e he).fat fun hec => hcl (hec ▸ he)
  slots _ ha := setFatEntry_above hg hc.fat (h.slot ha).above

theorem Directory.data_beside (hg : Geometry b) (h : Directory b d dir l) (hc : InVolume b c) (hcl : c ∉ l) {i : Nat}
    (hi : i < b.sectorsPerCluster) (buffer : Memory) :
    Beside b d (d.writeSector (b.clusterToSector c + i) buffer) dir l where
  fat e he := by
    have hroot := hg.rootDirStart_ge
    have hdata := dataStart_ge_root b
    have hge := (hc.sector hi).1
    exact writeSector_fat (by omega) (h.inVolume e he).fat
  slots a ha := by
    apply Disk.writeSector_agreeOn
    rw [slotsOf] at ha
    split at ha
    · have hle := (mem_rootSlots ha).2.2
      have hge := (hc.sector hi).1
      omega
    · obtain ⟨e, he, ha⟩ := mem_flatMap.mp ha
      obtain ⟨-, hlo, hhi⟩ := mem_clusterSlots ha
      have hne : e ≠ c := fun hec => hcl (hec ▸ he)
      rcases lt_or_gt_of_ne hne with hlt | hgt
      · have hadd := clusterToSector_add b (h.inVolume e he).two_le hlt
        omega
      · have hadd := clusterToSector_add b hc.two_le hgt
        omega

theorem Directory.clear_beside (hg : Geometry b) (h : Directory b d dir l) (hc : InVolume b c) (hcl : c ∉ l) :
    Beside b d (clearCluster b d c) dir l :=
  clearCluster_invariant (fun _ e => Beside b d e dir l) .refl fun _ _ hi hb => hb.trans ((h.beside hb).data_beside hg hc hcl hi fun _ => 0)

theorem Directory.alloc_beside (hg : Geometry b) (h : Directory b d dir l) (hscan : ScanInside b d.bytes) :
    Beside b d (allocCluster b d).1 dir l ∧
      ((allocCluster b d).2 = 0 ∨ InVolume b (allocCluster b d).2 ∧ (allocCluster b d).2 ∉ l) := by
  rcases allocCluster_cases b d with ⟨he, -⟩ | ⟨c, hfree, hfirst, he⟩
  · rw [he]
    exact ⟨⟨fun _ _ => rfl, fun _ _ => .refl⟩, .inl rfl⟩
  · rw [he]
    have hc := hscan.first hfree hfirst
    have hcl : c ∉ l := by
      intro hcl
      apply h.used c hcl
      rw [getFatEntry_eq, hfree.2.2]
    have hlog : Beside b d (d.logAlloc d.bytes c) dir l := ⟨fun _ _ => rfl, fun _ _ => .refl⟩
    exact ⟨hlog.trans ((h.beside hlog).fat_beside hg hc hcl _), .inr ⟨hc, hcl⟩⟩

theorem Directory.slotWrite (hg : Geometry b) (h : Directory b d dir l) (ha : Slot b a)
    (hb : ∀ i < 512, i < a % 512 ∨ a % 512 + 32 ≤ i → buffer i = d.bytes (512 * (a / 512) + i))
    (hused : a ∈ slotsOf b dir l → a ∈ (slotsOf b dir l).takeWhile ((d.writeSector (a / 512) buffer).bytes · ≠ 0)) :
    Directory b (d.writeSector (a / 512) buffer) dir l ∧
      ∀ e ∈ slotsOf b dir l, e ≠ a → d.bytes.AgreeOn (d.writeSector (a / 512) buffer).bytes e 32 := by
  have hkeep : ∀ e ∈ slotsOf b dir l, e ≠ a → d.bytes.AgreeOn (d.writeSector (a / 512) buffer).bytes e 32 :=
    fun e he hea => slotWrite_agreeOn ha.aligned (h.slot he).aligned hea hb
  have hfat : ∀ c ∈ l, getFatEntry b (d.writeSector (a / 512) buffer) c = getFatEntry b d c := by
    intro c hc
    have habove := ha.above
    have hroot := hg.rootDirStart_ge
    exact writeSector_fat (by omega) (h.inVolume c hc).fat
  have hfirst : ∀ e ∈ slotsOf b dir l, e ≠ a → (d.writeSector (a / 512) buffer).bytes e = d.bytes e :=
    fun e he hea => hkeep e he hea e (le_refl e) (by omega)
  refine ⟨⟨Chain.congr h.chain hfat, h.inVolume, fun c hc => ?_, ?_⟩, hkeep⟩
  · rw [hfat c hc]
    exact h.used c hc
  · by_cases has : a ∈ slotsOf b dir l
    · exact h.packed.set hfirst (hused has)
    · exact h.packed.congr fun e he => hfirst e he fun hea => has (hea ▸ he)

theorem Directory.patch (hg : Geometry b) (h : Directory b d dir l) (ha : a ∈ slotsOf b dir l) (hlen : bytes.length ≤ 32)
    (hused : a ∈ (slotsOf b dir l).takeWhile (d.bytes.memcpy a bytes · ≠ 0)) :
    Directory b (patchSector d a bytes) dir l ∧
      ∀ e ∈ slotsOf b dir l, e ≠ a → d.bytes.AgreeOn (patchSector d a bytes).bytes e 32 := by
  have halign := (h.slot ha).aligned
  rw [← patchSector_bytes (by omega)] at hused
  exact h.slotWrite hg (h.slot ha) (patch_buffer hlen) fun _ => hused

theorem Packed.mem_takeWhile (h : Packed m slots) (ha : a ∈ slots) (hne : m a ≠ 0) (hkeep : ∀ e ∈ slots, e ≠ a → m' e = m e)
    (hne' : m' a ≠ 0) : a ∈ slots.takeWhile (m' · ≠ 0) := by
  apply takeWhile_mono _ (h a ha hne)
  intro x hx hx0
  by_cases hxa : x = a
  · subst hxa
    exact decide_eq_true hne'
  · rwa [hkeep x hx hxa]

theorem freeSlot_takeWhile (h : freeSlot m slots = some a) (hkeep : ∀ e ∈ slots, e ≠ a → m' e = m e) (hne' : m' a ≠ 0) :
    a ∈ slots ∧ a ∈ slots.takeWhile (m' · ≠ 0) := by
  obtain ⟨-, before, after, rfl, hbefore⟩ := find?_eq_some_iff_append.mp h
  refine ⟨mem_append_right _ (.head _), ?_⟩
  rw [takeWhile_append_of_pos]
  · rw [takeWhile_cons, if_pos (decide_eq_true hne')]
    exact mem_append_right _ (.head _)
  · intro e he
    by_cases hea : e = a
    · subst hea
      exact decide_eq_true hne'
    · have hno := hbefore e he
      rw [hkeep e (mem_append_left _ he) hea]
      simp only [Bool.not_eq_true', decide_eq_false_iff_not, not_or] at hno
      exact decide_eq_true hno.1

theorem memcpy_other (m : Memory) {bytes : List UInt8} (hlen : bytes.length ≤ 32) (ha : a % 32 = 0) (he : e % 32 = 0)
    (hea : e ≠ a) : m.memcpy a bytes e = m e :=
  Memory.memcpy_agreeOn m bytes (a := e) (n := 1) (by omega) e (le_refl e) (lt_succ_self e)

theorem Directory.search (h : Directory b d dir l) (name : CString) :
    findEntry b d dir name = some none ∧ ¬ Found d.bytes (slotsOf b dir l) name ∨
      ∃ a ∈ liveSlots d.bytes (slotsOf b dir l), hasName d.bytes name a ∧ findEntry b d dir name = some (some a) := by
  have hfind := h.dirSlots.findEntry name
  cases hhit : (liveSlots d.bytes (slotsOf b dir l)).find? (hasName d.bytes name) with
  | none =>
    refine .inl ⟨by rw [hfind, hhit], ?_⟩
    rintro ⟨a, ha, hname⟩
    exact find?_eq_none.mp hhit a ha hname
  | some a =>
    exact .inr ⟨a, mem_of_find?_eq_some hhit, find?_some hhit, by rw [hfind, hhit]⟩

/-- A new entry with this string would not repeat a name. -/
def NameFree (m : Memory) (slots : List Nat) (name : CString) : Prop :=
  Found m slots name ∨ freeSlot m slots = none ∨ ¬ Taken m slots (encodeName name)

theorem Beside.found_iff (hb : Beside b d d' dir l) :
    Found d'.bytes (slotsOf b dir l) name ↔ Found d.bytes (slotsOf b dir l) name := by
  have hname : ∀ a ∈ liveSlots d.bytes (slotsOf b dir l), hasName d'.bytes name a = hasName d.bytes name a :=
    fun a ha => hasName_congr (hb.slots a (mem_liveSlots ha).1)
  rw [Found, Found, liveSlots_congr hb.slots]
  constructor
  · rintro ⟨a, ha, hn⟩
    exact ⟨a, ha, by rwa [← hname a ha]⟩
  · rintro ⟨a, ha, hn⟩
    exact ⟨a, ha, by rwa [hname a ha]⟩

theorem Beside.freeSlot_eq (hb : Beside b d d' dir l) :
    freeSlot d'.bytes (slotsOf b dir l) = freeSlot d.bytes (slotsOf b dir l) := by
  rw [freeSlot, freeSlot, find?_eq_findSome?_guard, find?_eq_findSome?_guard]
  apply findSome?_congr
  intro a ha
  rw [Option.guard, Option.guard, hb.slots a ha a (le_refl a) (by omega)]

theorem NameFree.beside (h : NameFree d.bytes (slotsOf b dir l) name) (hb : Beside b d d' dir l) :
    NameFree d'.bytes (slotsOf b dir l) name := by
  rcases h with hfound | hnone | hno
  · exact .inl (hb.found_iff.mpr hfound)
  · exact .inr (.inl (hb.freeSlot_eq.trans hnone))
  · refine .inr (.inr ?_)
    rintro ⟨a, ha, hname⟩
    rw [liveSlots_congr hb.slots] at ha
    apply hno
    refine ⟨a, ha, ?_⟩
    rw [← hname]
    exact (((hb.slots a (mem_liveSlots ha).1).mono (le_refl a) (by omega)).bytes).symm

theorem Directory.patch_unique (hg : Geometry b) (h : Directory b d dir l) (hu : Unique d.bytes (slotsOf b dir l))
    (ha : a ∈ slotsOf b dir l) (hlen : bytes.length ≤ 32)
    (hused : a ∈ (slotsOf b dir l).takeWhile (d.bytes.memcpy a bytes · ≠ 0))
    (hname : Live (d.bytes.memcpy a bytes) a → ¬ Taken d.bytes (slotsOf b dir l) (storedName (d.bytes.memcpy a bytes) a)) :
    Directory b (patchSector d a bytes) dir l ∧ Unique (patchSector d a bytes).bytes (slotsOf b dir l) := by
  obtain ⟨hdir, hkeep⟩ := h.patch hg ha hlen hused
  refine ⟨hdir, hu.set h.packed hkeep fun hin => ?_⟩
  have halign := (h.slot ha).aligned
  have hlive := (mem_liveSlots hin).2.2
  rw [patchSector_bytes (by omega)] at hlive ⊢
  exact hname hlive

theorem Directory.addEntry_unique (hg : Geometry b) (h : Directory b d dir l) (hu : Unique d.bytes (slotsOf b dir l))
    (hfree : NameFree d.bytes (slotsOf b dir l) name) (attr c : Nat) :
    Directory b (addEntry b d dir name attr c).1 dir l ∧ Unique (addEntry b d dir name attr c).1.bytes (slotsOf b dir l) := by
  rw [addEntry]
  rcases h.search name with ⟨hnone, hno⟩ | ⟨a, -, -, hsome⟩
  · rw [hnone, h.dirSlots.findFree]
    cases hslot : freeSlot d.bytes (slotsOf b dir l) with
    | none => exact ⟨h, hu⟩
    | some a =>
      have hname := (hfree.resolve_left hno).resolve_left (by rw [hslot]; exact Option.some_ne_none a)
      have ha : a ∈ slotsOf b dir l := mem_of_find?_eq_some hslot
      have hlen : (entryBytes name attr c).length ≤ 32 := le_of_eq (entryBytes_length ..)
      have hkeep : ∀ e ∈ slotsOf b dir l, e ≠ a → d.bytes.memcpy a (entryBytes name attr c) e = d.bytes e :=
        fun e he hea => memcpy_other _ hlen (h.slot ha).aligned (h.slot he).aligned hea
      have hne : d.bytes.memcpy a (entryBytes name attr c) a ≠ 0 := by
        rw [entryBytes_eq]
        apply memcpy_name_ne_zero
      apply h.patch_unique hg hu ha hlen (freeSlot_takeWhile hslot hkeep hne).2
      intro _
      rw [storedName, entryBytes_eq, memcpy_name]
      exact hname
  · rw [hsome]
    exact ⟨h, hu⟩

/-- The operations on the directory. -/
inductive DirOp where
  | create (name : CString)
  | mkdir (name : CString)
  | rename (old new : CString)
  | delete (name : CString)

namespace DirOp

def run (b : Bpb) (dir : Nat) (d : Disk) : DirOp → Disk
  | create name => (createVfs b d dir name).1
  | mkdir name => (mkdirVfs b d dir name).1
  | rename old new => (renameVfs b d dir old new).1
  | delete name => (unlinkVfs b d dir name).1

def NamesFree (b : Bpb) (dir : Nat) (l : List Nat) (d : Disk) : DirOp → Prop
  | create name => NameFree d.bytes (slotsOf b dir l) name
  | mkdir name => NameFree d.bytes (slotsOf b dir l) name ∧ ScanInside b d.bytes
  | rename old new =>
    ¬ Found d.bytes (slotsOf b dir l) old ∨ ¬ Taken d.bytes (slotsOf b dir l) (encodeName new)
  | delete _ => True

end DirOp

theorem Directory.rename_unique (hg : Geometry b) (h : Directory b d dir l) (hu : Unique d.bytes (slotsOf b dir l))
    {old new : CString} (hfree : (DirOp.rename old new).NamesFree b dir l d) :
    Directory b (renameVfs b d dir old new).1 dir l ∧ Unique (renameVfs b d dir old new).1.bytes (slotsOf b dir l) := by
  rw [renameVfs]
  rcases h.search old with ⟨hnone, -⟩ | ⟨a, ha, hold, hsome⟩
  · rw [hnone]
    exact ⟨h, hu⟩
  · rw [hsome]
    have hname := hfree.resolve_left fun hno => hno ⟨a, ha, hold⟩
    obtain ⟨has, hne, hlive⟩ := mem_liveSlots ha
    have hlen : (encodeName new).length ≤ 32 := by rw [encodeName_length]; decide
    have hkeep : ∀ e ∈ slotsOf b dir l, e ≠ a → d.bytes.memcpy a (encodeName new) e = d.bytes e :=
      fun e he hea => memcpy_other _ hlen (h.slot has).aligned (h.slot he).aligned hea
    have hne' := memcpy_name_ne_zero d.bytes a new []
    have hstored := memcpy_name d.bytes a new []
    rw [append_nil] at hne' hstored
    apply h.patch_unique hg hu has hlen (h.packed.mem_takeWhile has hne hkeep hne')
    intro _
    rw [storedName, hstored]
    exact hname

theorem Directory.mkdir_unique (hg : Geometry b) (h : Directory b d dir l) (hu : Unique d.bytes (slotsOf b dir l))
    (hfree : NameFree d.bytes (slotsOf b dir l) name) (hscan : ScanInside b d.bytes) :
    Directory b (mkdirVfs b d dir name).1 dir l ∧ Unique (mkdirVfs b d dir name).1.bytes (slotsOf b dir l) := by
  obtain ⟨hbeside, hc⟩ := h.alloc_beside hg hscan
  rw [mkdirVfs]
  dsimp only
  split
  · exact ⟨h.beside hbeside, hu.beside hbeside⟩
  · next hne =>
    obtain ⟨hv, hcl⟩ := hc.resolve_left hne
    have hclear := hbeside.trans ((h.beside hbeside).clear_beside hg hv hcl)
    exact (h.beside hclear).addEntry_unique hg (hu.beside hclear) (hfree.beside hclear) _ _

theorem Directory.freeChain_beside (hg : Geometry b) (hs : Sound b d) (h : Directory b d 0 []) (hc : Ends c ∨ InVolume b c)
    (fuel : Nat) : Beside b d (freeChain b d fuel c) 0 [] := by
  induction fuel generalizing d c with
  | zero => exact .refl
  | succ fuel ih =>
    rw [freeChain]
    split
    · next hgo =>
      have hv : InVolume b c := hc.resolve_left (not_not.mpr hgo)
      have hfree : Update b d (setFatEntry b d c 0) := .fat hv (.inl ends_zero) (by decide)
      have hb := h.fat_beside hg hv not_mem_nil 0
      exact hb.trans (ih (hfree.sound hg hs) (h.beside hb) (hs.fat c hv))
    · exact .refl

theorem Directory.delete_unique (hg : Geometry b) (hs : Sound b d) (h : Directory b d dir l)
    (hu : Unique d.bytes (slotsOf b dir l)) :
    Directory b (unlinkVfs b d dir name).1 dir l ∧ Unique (unlinkVfs b d dir name).1.bytes (slotsOf b dir l) := by
  rw [unlinkVfs]
  split
  · next h0 =>
    subst h0
    have hl : l = [] := h.chain.unique (chain_nil.mpr ends_zero)
    subst hl
    rw [deleteFile]
    rcases h.search name with ⟨hnone, -⟩ | ⟨a, ha, -, hsome⟩
    · rw [hnone]
      exact ⟨h, hu⟩
    · rw [hsome]
      obtain ⟨has, hne, hlive⟩ := mem_liveSlots ha
      have hb := h.freeChain_beside hg hs (hs.root a has hne hlive).ends 0x10000
      have hfreed := h.beside hb
      have hne' := hb.slots a has a (le_refl a) (by omega)
      dsimp only
      generalize freeChain b d 0x10000 (entryAt d.bytes a).firstCluster = d' at hb hfreed hne' ⊢
      have hkeep : ∀ e ∈ slotsOf b 0 [], e ≠ a → d'.bytes.memcpy a [0xE5] e = d'.bytes e :=
        fun e he hea => memcpy_other _ (by decide) (h.slot has).aligned (h.slot he).aligned hea
      have hmark : d'.bytes.memcpy a [0xE5] a ≠ 0 := by
        simp [Memory.memcpy]
      apply hfreed.patch_unique hg (hu.beside hb) has (by decide)
        (hfreed.packed.mem_takeWhile has (by rwa [hne']) hkeep hmark)
      exact fun hlive' => (not_live_deleted _ a hlive').elim
  · exact ⟨h, hu⟩

theorem DirOp.keeps_unique (hg : Geometry b) (hs : Sound b d) (h : Directory b d dir l)
    (hu : Unique d.bytes (slotsOf b dir l)) (op : DirOp) (hfree : op.NamesFree b dir l d) :
    Sound b (op.run b dir d) ∧ Directory b (op.run b dir d) dir l ∧ Unique (op.run b dir d).bytes (slotsOf b dir l) := by
  cases op with
  | create name => exact ⟨(createVfs_updates hs h.dir_inVolume).sound hg hs, h.addEntry_unique hg hu hfree _ _⟩
  | mkdir name =>
    exact ⟨(mkdirVfs_updates hg hs h.dir_inVolume hfree.2).sound hg hs, h.mkdir_unique hg hu hfree.1 hfree.2⟩
  | rename old new => exact ⟨(renameVfs_updates hs h.dir_inVolume old new).sound hg hs, h.rename_unique hg hu hfree⟩
  | delete name => exact ⟨(unlinkVfs_updates hg hs dir).sound hg hs, h.delete_unique hg hs hu⟩

/-- In a run that gives no entry a name in use the names stay distinct, and a rename to a name in use
fails and changes nothing. -/
theorem unique_names_run {d₀ : Disk} (hg : Geometry b) (hs : Sound b d₀) (h : Directory b d₀ dir l)
    (hu : Unique d₀.bytes (slotsOf b dir l)) (hr : Runs (DirOp.run b dir) (DirOp.NamesFree b dir l) d₀ d) :
    Unique d.bytes (slotsOf b dir l) ∧
      ∀ old new, (DirOp.rename old new).NamesFree b dir l d → Taken d.bytes (slotsOf b dir l) (encodeName new) →
        renameVfs b d dir old new = (d, some (-1)) := by
  have hinv : Sound b d ∧ Directory b d dir l ∧ Unique d.bytes (slotsOf b dir l) := by
    apply hr.invariant ⟨hs, h, hu⟩
    rintro d op ⟨hs, h, hu⟩ hfree
    exact op.keeps_unique hg hs h hu hfree
  obtain ⟨-, hdir, hunique⟩ := hinv
  refine ⟨hunique, fun old new hfree htaken => ?_⟩
  have hno := hfree.resolve_right fun hno => hno htaken
  rcases hdir.search old with ⟨hnone, -⟩ | ⟨a, ha, hold, -⟩
  · rw [renameVfs, hnone]
  · exact absurd ⟨a, ha, hold⟩ hno

private theorem smallDisk_directory : Directory (init smallDisk) smallDisk 0 [] where
  chain := chain_nil.mpr ends_zero
  inVolume _ hc := absurd hc not_mem_nil
  used _ hc := absurd hc not_mem_nil
  packed := by decide +kernel

private theorem smallDisk_unique : Unique smallDisk.bytes (slotsOf (init smallDisk) 0 []) := by decide +kernel

/-- A second name of eight letters is created beside the file `A`. -/
theorem smallDisk_create_unique :
    Unique ((DirOp.create (.ofString "longname")).run (init smallDisk) 0 smallDisk).bytes (slotsOf (init smallDisk) 0 []) :=
  (unique_names_run smallDisk_geometry smallDisk_sound smallDisk_directory smallDisk_unique
    (.single ⟨.create (.ofString "longname"), .inr (.inr (by decide +kernel)), rfl⟩)).1

/-- Two long names with the same first eight characters; a file renamed to the name of another. -/
theorem names_collide :
    ∃ d, Geometry (init d) ∧ Sound (init d) d ∧ Directory (init d) d 0 [] ∧ Unique d.bytes (slotsOf (init d) 0 []) ∧
      ¬ Unique ([DirOp.create (.ofString "longname1"), .create (.ofString "longname2")].foldl (DirOp.run (init d) 0) d).bytes
        (slotsOf (init d) 0 []) ∧
      Taken ((DirOp.create (.ofString "b")).run (init d) 0 d).bytes (slotsOf (init d) 0 []) (encodeName (.ofString "a")) ∧
      (renameVfs (init d) ((DirOp.create (.ofString "b")).run (init d) 0 d) 0 (.ofString "b") (.ofString "a")).2 = some 0 := by
  refine ⟨smallDisk, smallDisk_geometry, smallDisk_sound, smallDisk_directory, smallDisk_unique, ?_, ?_, ?_⟩
  · decide +kernel
  · decide +kernel
  · decide +kernel

end Fat16
end RetroOs.Drivers
