import RetroOs.Drivers.Fat16Dirs
import RetroOs.Lib.Runs

/-! The areas of the volume: what the operations change, one sector at a time, and what each change
keeps. -/
namespace RetroOs.Drivers
open Lib List Nat
namespace Fat16

variable {b : Bpb} {d d' : Disk} {a c e v n s i : Nat} {m : Memory} {buffer : Memory} {bytes : List UInt8}

/-- The geometry that the driver assumes. -/
structure Geometry (b : Bpb) : Prop where
  sector : b.bytesPerSector = 512
  fats : 1 ≤ b.fatsCount

def volumeSectors (b : Bpb) : Nat := if b.totalSectors16 ≠ 0 then b.totalSectors16 else b.totalSectors32

def InAreas (b : Bpb) (s : Nat) : Prop :=
  b.reservedSectors ≤ s ∧ s < b.rootDirStartSector ∨ b.rootDirStartSector ≤ s ∧ s < b.dataStartSector ∨
    b.dataStartSector ≤ s ∧ s < volumeSectors b

instance (b : Bpb) : DecidablePred (InAreas b) := fun _ => inferInstanceAs (Decidable (_ ∨ _ ∨ _))

/-- The first table and its copy. -/
def CopiesAgree (b : Bpb) (m : Memory) : Prop :=
  b.fatsCount > 1 → ∀ x < 512 * b.sectorsPerFat,
    m (512 * (b.reservedSectors + b.sectorsPerFat) + x) = m (512 * b.reservedSectors + x)

theorem InVolume.down (h : InVolume b c) (h2 : 2 ≤ e) (hle : e ≤ c) : InVolume b e where
  two_le := h2
  fat := Nat.lt_of_le_of_lt hle h.fat
  data := by
    have hmul := Nat.mul_le_mul_right b.sectorsPerCluster (Nat.sub_le_sub_right hle 2)
    have hdata := h.data
    simp only [Bpb.clusterToSector] at hdata ⊢
    omega

theorem InVolume.sector (h : InVolume b c) (hi : i < b.sectorsPerCluster) :
    b.dataStartSector ≤ b.clusterToSector c + i ∧ b.clusterToSector c + i < volumeSectors b := by
  have hge := clusterToSector_ge b c
  have hdata := h.data
  simp only [volumeSectors]
  omega

theorem Geometry.rootDirStart_ge (hg : Geometry b) : b.reservedSectors + b.sectorsPerFat ≤ b.rootDirStartSector := by
  have h := mul_le_mul_right b.sectorsPerFat hg.fats
  simp only [Bpb.rootDirStartSector]
  omega

theorem rootDirStart_ge_two (hf : b.fatsCount > 1) :
    b.reservedSectors + b.sectorsPerFat + b.sectorsPerFat ≤ b.rootDirStartSector := by
  have h := mul_le_mul_right b.sectorsPerFat hf
  simp only [Bpb.rootDirStartSector]
  omega

theorem dataStart_ge_root (b : Bpb) : b.rootDirStartSector ≤ b.dataStartSector := Nat.le_add_right ..

theorem setFatEntry_above (hg : Geometry b) (hc : c < 256 * b.sectorsPerFat) (ha : 512 * b.rootDirStartSector ≤ a) :
    d.bytes.AgreeOn (setFatEntry b d c v).bytes a n := by
  have hroot := hg.rootDirStart_ge
  apply setFatEntry_agreeOn
  · simp only [fatAddr]
    omega
  · intro hf
    have htwo := rootDirStart_ge_two hf
    omega

theorem writeSector_fat (hs : b.reservedSectors + b.sectorsPerFat ≤ s) (hc : c < 256 * b.sectorsPerFat) :
    getFatEntry b (d.writeSector s buffer) c = getFatEntry b d c := by
  rw [getFatEntry_eq, getFatEntry_eq]
  apply Memory.AgreeOn.load16
  apply Disk.writeSector_agreeOn
  simp only [fatAddr]
  omega

def ReadsFree (b : Bpb) (m : Memory) (c : Nat) : Prop := 2 ≤ c ∧ c < chainEnd ∧ m.load16 (fatAddr b c) = 0

def ScanInside (b : Bpb) (m : Memory) : Prop :=
  (∃ c, ReadsFree b m c ∧ InVolume b c) ∨ ∀ c, ReadsFree b m c → InVolume b c

theorem allocCluster_cases (b : Bpb) (d : Disk) :
    allocCluster b d = (d.logAlloc d.bytes 0, 0) ∧ (∀ c, ¬ ReadsFree b d.bytes c) ∨
      ∃ c, ReadsFree b d.bytes c ∧ (∀ e, ReadsFree b d.bytes e → c ≤ e) ∧
        allocCluster b d = (setFatEntry b (d.logAlloc d.bytes c) c 0xFFFF, c) := by
  rw [allocCluster]
  cases hfind : (range' 2 (chainEnd - 2)).find? fun c => getFatEntry b d c == 0 with
  | none =>
    refine .inl ⟨rfl, fun c hfree => ?_⟩
    obtain ⟨h2, hlt, h0⟩ := hfree
    have hnone := find?_eq_none.mp hfind c (mem_range'_1.mpr ⟨h2, hlt⟩)
    rw [getFatEntry_eq, h0] at hnone
    exact hnone rfl
  | some c =>
    obtain ⟨h0, hmem, hfirst⟩ := find?_range'_eq_some.mp hfind
    obtain ⟨h2, hlt⟩ := mem_range'_1.mp hmem
    rw [beq_iff_eq, getFatEntry_eq] at h0
    refine .inr ⟨c, ⟨h2, hlt, h0⟩, fun e hfree => ?_, rfl⟩
    by_contra hlt'
    have hno := hfirst e hfree.1 (not_le.mp hlt')
    rw [getFatEntry_eq, hfree.2.2] at hno
    cases hno

theorem ScanInside.first (h : ScanInside b m) (hc : ReadsFree b m c) (hfirst : ∀ e, ReadsFree b m e → c ≤ e) :
    InVolume b c := by
  rcases h with ⟨e, he, hv⟩ | h
  · exact hv.down hc.1 (hfirst e he)
  · exact h c hc

def NoneOrInVolume (b : Bpb) (v : Nat) : Prop := v < 2 ∨ InVolume b v

instance (b : Bpb) : DecidablePred (NoneOrInVolume b) := fun v => inferInstanceAs (Decidable (v < 2 ∨ InVolume b v))

structure Sound (b : Bpb) (d : Disk) : Prop where
  fat : ∀ c, InVolume b c → Ends (getFatEntry b d c) ∨ InVolume b (getFatEntry b d c)
  root : ∀ a ∈ rootSlots b, d.bytes a ≠ 0 → Live d.bytes a → NoneOrInVolume b (entryAt d.bytes a).firstCluster

/-- What an operation can do to the disk. -/
inductive Update (b : Bpb) (d : Disk) : Disk → Prop where
  | fat {c v : Nat} (hc : InVolume b c) (hv : Ends v ∨ InVolume b v) (hlt : v < 2 ^ 16) :
    Update b d (setFatEntry b d c v)
  | log {c : Nat} (hc : c = 0 ∨ InVolume b c) : Update b d (d.logAlloc d.bytes c)
  | data {c i : Nat} (hc : InVolume b c) (hi : i < b.sectorsPerCluster) (buffer : Memory) :
    Update b d (d.writeSector (b.clusterToSector c + i) buffer)
  | root {s : Nat} (hs : s < b.rootSectors) (buffer : Memory)
    (hroot : ∀ a ∈ rootSlots b, (d.writeSector (b.rootDirStartSector + s) buffer).bytes a ≠ 0 →
      Live (d.writeSector (b.rootDirStartSector + s) buffer).bytes a →
      NoneOrInVolume b (entryAt (d.writeSector (b.rootDirStartSector + s) buffer).bytes a).firstCluster) :
    Update b d (d.writeSector (b.rootDirStartSector + s) buffer)

abbrev Updates (b : Bpb) : Disk → Disk → Prop := Relation.ReflTransGen (Update b)

theorem Sound.root_congr (h : Sound b d) (he : ∀ a ∈ rootSlots b, d.bytes.AgreeOn d'.bytes a 32) :
    ∀ a ∈ rootSlots b, d'.bytes a ≠ 0 → Live d'.bytes a → NoneOrInVolume b (entryAt d'.bytes a).firstCluster := by
  intro a ha hne hlive
  have hagree := he a ha
  rw [hagree a (le_refl a) (by omega)] at hne
  rw [entryAt_congr hagree]
  exact h.root a ha hne ((Live.congr hagree).mp hlive)

theorem Update.sound (hg : Geometry b) (hu : Update b d d') (h : Sound b d) : Sound b d' := by
  have hroot := hg.rootDirStart_ge
  have hdata := dataStart_ge_root b
  cases hu with
  | @fat c v hc hv hlt =>
    constructor
    · intro e he
      by_cases hec : e = c
      · subst hec
        rw [getFatEntry_setFatEntry hlt he.fat]
        exact hv
      · rw [getFatEntry_setFatEntry_other he.fat hec]
        exact h.fat e he
    · exact h.root_congr fun a ha => setFatEntry_above hg hc.fat (mem_rootSlots ha).2.1
  | log _ => exact ⟨h.fat, h.root⟩
  | data hc hi buffer =>
    obtain ⟨hge, -⟩ := hc.sector hi
    constructor
    · intro e he
      rw [writeSector_fat (by omega) he.fat]
      exact h.fat e he
    · apply h.root_congr
      intro a ha
      have hle := (mem_rootSlots ha).2.2
      exact Disk.writeSector_agreeOn (by omega)
  | root hs buffer hroot' =>
    constructor
    · intro e he
      rw [writeSector_fat (by omega) he.fat]
      exact h.fat e he
    · exact hroot'

theorem Updates.sound (hg : Geometry b) (hu : Updates b d d') (h : Sound b d) : Sound b d' := by
  induction hu with
  | refl => exact h
  | tail _ hs ih => exact hs.sound hg ih

private theorem setFatEntry_written : ∀ s ∈ (setFatEntry b d c v).written,
    s = b.reservedSectors + c * 2 / 512 ∨ b.fatsCount > 1 ∧ s = b.reservedSectors + c * 2 / 512 + b.sectorsPerFat ∨
      s ∈ d.written := by
  intro s hs
  rw [setFatEntry] at hs
  split at hs
  · next hf =>
    rcases mem_cons.mp hs with rfl | hs
    · exact .inr (.inl ⟨hf, rfl⟩)
    · exact (mem_cons.mp hs).imp_right .inr
  · exact (mem_cons.mp hs).imp_right .inr

structure Contained (b : Bpb) (d : Disk) : Prop where
  allocs : ∀ p ∈ d.allocs, p.2 = 0 ∨ InVolume b p.2
  written : ∀ s ∈ d.written, InAreas b s

@[simp] theorem setFatEntry_allocs : (setFatEntry b d c v).allocs = d.allocs := by
  rw [setFatEntry]
  split <;> rfl

theorem Update.contained (hg : Geometry b) (hu : Update b d d') (h : Contained b d) : Contained b d' := by
  have hroot := hg.rootDirStart_ge
  cases hu with
  | fat hc hv hlt =>
    have hfat := hc.fat
    refine ⟨by rw [setFatEntry_allocs]; exact h.allocs, fun s hs => ?_⟩
    rcases setFatEntry_written s hs with rfl | ⟨hf, rfl⟩ | hs
    · exact .inl (by omega)
    · have htwo := rootDirStart_ge_two hf
      exact .inl (by omega)
    · exact h.written s hs
  | log hc =>
    refine ⟨fun p hp => ?_, h.written⟩
    rcases mem_cons.mp hp with rfl | hp
    · exact hc
    · exact h.allocs p hp
  | data hc hi buffer =>
    refine ⟨h.allocs, fun s hs => ?_⟩
    rcases mem_cons.mp hs with rfl | hs
    · exact .inr (.inr (hc.sector hi))
    · exact h.written s hs
  | root hlt buffer _ =>
    refine ⟨h.allocs, fun s hs => ?_⟩
    rcases mem_cons.mp hs with rfl | hs
    · exact .inr (.inl ⟨Nat.le_add_right .., Nat.add_lt_add_left hlt _⟩)
    · exact h.written s hs

theorem Updates.contained (hg : Geometry b) (hu : Updates b d d') (h : Contained b d) : Contained b d' := by
  induction hu with
  | refl => exact h
  | tail _ hs ih => exact hs.contained hg ih

theorem CopiesAgree.above (h : CopiesAgree b d.bytes) (hs : b.rootDirStartSector ≤ s) :
    CopiesAgree b (d.writeSector s buffer).bytes := by
  intro hf x hx
  have htwo := rootDirStart_ge_two hf
  have hkeep : ∀ y < 512 * b.rootDirStartSector, (d.writeSector s buffer).bytes y = d.bytes y := by
    intro y hy
    exact (Disk.writeSector_agreeOn (a := y) (n := 1) (by omega)) y (le_refl y) (lt_succ_self y)
  rw [hkeep _ (by omega), hkeep _ (by omega)]
  exact h hf x hx

theorem CopiesAgree.setFatEntry (h : CopiesAgree b d.bytes) (hc : c < 256 * b.sectorsPerFat) :
    CopiesAgree b (setFatEntry b d c v).bytes := by
  intro hf x hx
  have hold := h hf x hx
  rw [Fat16.setFatEntry, if_pos hf]
  generalize (d.readSector (b.reservedSectors + c * 2 / 512)).store16 (c * 2 % 512) v = buffer
  simp only [Disk.writeSector]
  by_cases hin : x / 512 = c * 2 / 512
  · rw [if_pos (by omega), if_neg (by omega), if_pos (by omega)]
    congr 1
    omega
  · rw [if_neg (by omega), if_neg (by omega), if_neg (by omega), if_neg (by omega)]
    exact hold

theorem Update.copies (hu : Update b d d') (h : CopiesAgree b d.bytes) : CopiesAgree b d'.bytes := by
  cases hu with
  | fat hc _ _ => exact h.setFatEntry hc.fat
  | log _ => exact h
  | data hc hi buffer => exact h.above ((dataStart_ge_root b).trans (hc.sector hi).1)
  | root _ buffer _ => exact h.above (Nat.le_add_right ..)

theorem Updates.copies (hu : Updates b d d') (h : CopiesAgree b d.bytes) : CopiesAgree b d'.bytes := by
  induction hu with
  | refl => exact h
  | tail _ hs ih => exact hs.copies ih

end Fat16
end RetroOs.Drivers
