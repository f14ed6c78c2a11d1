import RetroOs.Drivers.Fat16

/-! Where the driver's reads and writes go: the file allocation table and its copy, the root directory
and the data sectors of the clusters. -/
namespace RetroOs.Drivers
open Lib Nat Memory

namespace Disk

variable {d : Disk} {lba a n v : Nat} {buffer : Memory} {bytes : List UInt8}

theorem writeSector_agreeOn (h : a + n ≤ 512 * lba ∨ 512 * lba + 512 ≤ a) :
    d.bytes.AgreeOn (d.writeSector lba buffer).bytes a n := by
  intro x hl hu
  simp only [writeSector]
  rw [if_neg (by omega)]

theorem writeSector_at {i : Nat} (hi : i < 512) : (d.writeSector lba buffer).bytes (512 * lba + i) = buffer i := by
  simp only [writeSector]
  rw [if_pos ⟨Nat.le_add_right .., Nat.add_lt_add_left hi _⟩, Nat.add_sub_cancel_left]

theorem writeSector_load16 (h : n + 2 ≤ 512) : (d.writeSector lba buffer).bytes.load16 (512 * lba + n) = buffer.load16 n := by
  simp only [load16]
  rw [writeSector_at (by omega), add_assoc, writeSector_at (by omega)]

theorem writeSector_load32 (h : n + 4 ≤ 512) : (d.writeSector lba buffer).bytes.load32 (512 * lba + n) = buffer.load32 n := by
  simp only [load32, add_assoc]
  rw [writeSector_at (by omega), writeSector_at (by omega), writeSector_at (by omega), writeSector_at (by omega)]

private theorem writeSector_store16 (h : n + 2 ≤ 512) :
    (d.writeSector lba ((d.readSector lba).store16 n v)).bytes = d.bytes.store16 (512 * lba + n) v := by
  funext x
  simp only [writeSector, readSector, store16]
  by_cases hx : 512 * lba ≤ x ∧ x < 512 * lba + 512
  · have hsub : 512 * lba + (x - 512 * lba) = x := by omega
    have h0 : x - 512 * lba = n ↔ x = 512 * lba + n := by omega
    have h1 : x - 512 * lba = n + 1 ↔ x = 512 * lba + n + 1 := by omega
    simp only [if_pos hx, h0, h1, hsub]
  · rw [if_neg hx, if_neg (by omega), if_neg (by omega)]

theorem writeSector_memcpy (h : n + bytes.length ≤ 512) :
    (d.writeSector lba ((d.readSector lba).memcpy n bytes)).bytes = d.bytes.memcpy (512 * lba + n) bytes := by
  funext x
  simp only [writeSector, readSector, memcpy]
  by_cases hx : 512 * lba ≤ x ∧ x < 512 * lba + 512
  · have hsub : 512 * lba + (x - 512 * lba) = x := by omega
    have hle : n ≤ x - 512 * lba ↔ 512 * lba + n ≤ x := by omega
    have hidx : x - 512 * lba - n = x - (512 * lba + n) := by omega
    simp only [if_pos hx, hle, hidx, hsub]
  · rw [if_neg hx]
    split
    · rw [List.getD_eq_getElem?_getD, List.getElem?_eq_none (by omega), Option.getD_none]
    · rfl

end Disk

namespace Fat16

variable {b : Bpb} {d : Disk} {a c v n lba : Nat} {bytes : List UInt8}

/-- The address of a cluster's entry in the first table. -/
def fatAddr (b : Bpb) (cluster : Nat) : Nat := 512 * b.reservedSectors + 2 * cluster

theorem fatAddr_sector (b : Bpb) (c : Nat) :
    512 * (b.reservedSectors + c * 2 / 512) + c * 2 % 512 = fatAddr b c := by
  simp only [fatAddr]
  omega

theorem getFatEntry_eq (b : Bpb) (d : Disk) (c : Nat) : getFatEntry b d c = d.bytes.load16 (fatAddr b c) := by
  rw [← fatAddr_sector]
  rfl

/-- A cluster whose entry lies in the first table and whose sectors lie in the volume. -/
structure InVolume (b : Bpb) (cluster : Nat) : Prop where
  two_le : 2 ≤ cluster
  fat : cluster < 256 * b.sectorsPerFat
  data : b.clusterToSector cluster + b.sectorsPerCluster ≤
    if b.totalSectors16 ≠ 0 then b.totalSectors16 else b.totalSectors32

instance (b : Bpb) : DecidablePred (InVolume b) := fun _ =>
  decidable_of_iff (_ ∧ _ ∧ _) ⟨fun h => ⟨h.1, h.2.1, h.2.2⟩, fun h => ⟨h.two_le, h.fat, h.data⟩⟩

theorem dataStart_ge (hf : 1 ≤ b.fatsCount) : b.reservedSectors + b.sectorsPerFat ≤ b.dataStartSector := by
  have h := mul_le_mul_right b.sectorsPerFat hf
  simp only [Bpb.dataStartSector, Bpb.rootDirStartSector]
  omega

theorem clusterToSector_ge (b : Bpb) (c : Nat) : b.dataStartSector ≤ b.clusterToSector c := Nat.le_add_right ..

theorem clusterToSector_add (b : Bpb) {c e : Nat} (hc : 2 ≤ c) (h : c < e) :
    b.clusterToSector c + b.sectorsPerCluster ≤ b.clusterToSector e := by
  have hmul := mul_le_mul_right b.sectorsPerCluster (show c - 2 + 1 ≤ e - 2 by omega)
  rw [add_mul, one_mul] at hmul
  simp only [Bpb.clusterToSector]
  omega

theorem setFatEntry_agreeOn (h : a + n ≤ fatAddr b c ∨ fatAddr b c + 2 ≤ a)
    (hcopy : b.fatsCount > 1 → a + n ≤ 512 * (b.reservedSectors + b.sectorsPerFat + 2 * c / 512) ∨
      512 * (b.reservedSectors + b.sectorsPerFat + 2 * c / 512) + 512 ≤ a) :
    d.bytes.AgreeOn (setFatEntry b d c v).bytes a n := by
  have hstore : d.bytes.AgreeOn
      (d.writeSector (b.reservedSectors + c * 2 / 512)
        ((d.readSector (b.reservedSectors + c * 2 / 512)).store16 (c * 2 % 512) v)).bytes a n := by
    rw [Disk.writeSector_store16 (by omega), fatAddr_sector]
    exact store16_agreeOn _ _ h
  rw [setFatEntry]
  split
  · next hf =>
    exact hstore.trans (Disk.writeSector_agreeOn (by omega))
  · exact hstore

theorem getFatEntry_setFatEntry (hv : v < 2 ^ 16) (hc : c < 256 * b.sectorsPerFat) :
    getFatEntry b (setFatEntry b d c v) c = v := by
  rw [getFatEntry_eq, setFatEntry]
  have hself : (d.writeSector (b.reservedSectors + c * 2 / 512)
      ((d.readSector (b.reservedSectors + c * 2 / 512)).store16 (c * 2 % 512) v)).bytes.load16 (fatAddr b c) = v := by
    rw [Disk.writeSector_store16 (by omega), fatAddr_sector, load16_store16 _ _ hv]
  split
  · have hcopy : ∀ {t : Disk} {buffer : Memory}, t.bytes.AgreeOn
        (t.writeSector (b.reservedSectors + c * 2 / 512 + b.sectorsPerFat) buffer).bytes (fatAddr b c) 2 :=
      Disk.writeSector_agreeOn (by simp only [fatAddr]; omega)
    rw [hcopy.load16]
    exact hself
  · exact hself

theorem getFatEntry_setFatEntry_other {e : Nat} (he : e < 256 * b.sectorsPerFat) (hne : e ≠ c) :
    getFatEntry b (setFatEntry b d c v) e = getFatEntry b d e := by
  rw [getFatEntry_eq, getFatEntry_eq]
  apply (setFatEntry_agreeOn ?_ fun _ => ?_).load16
  · simp only [fatAddr]
    omega
  · simp only [fatAddr]
    omega

theorem clearCluster_invariant (I : Nat → Disk → Prop) (h0 : I 0 d)
    (hstep : ∀ d, ∀ i < b.sectorsPerCluster, I i d → I (i + 1) (d.writeSector (b.clusterToSector c + i) fun _ => 0)) :
    I b.sectorsPerCluster (clearCluster b d c) := by
  have hclear : ∀ n ≤ b.sectorsPerCluster,
      I n ((List.range n).foldl (fun d i => d.writeSector (b.clusterToSector c + i) fun _ => 0) d) := by
    intro n hn
    induction n with
    | zero => exact h0
    | succ n ih =>
      rw [List.range_succ, List.foldl_append]
      exact hstep _ n hn (ih (le_of_succ_le hn))
  exact hclear _ (le_refl _)

theorem clearCluster_zero (b : Bpb) (d : Disk) (c x : Nat) (hlo : 512 * b.clusterToSector c ≤ x)
    (hhi : x < 512 * (b.clusterToSector c + b.sectorsPerCluster)) : (clearCluster b d c).bytes x = 0 := by
  have hzero := clearCluster_invariant (b := b) (c := c) (d := d)
    (fun n e => ∀ x, 512 * b.clusterToSector c ≤ x → x < 512 * (b.clusterToSector c + n) → e.bytes x = 0)
    (fun x hlo hhi => absurd hhi (by omega)) fun e i _ ih x hlo hhi => by
      simp only [Disk.writeSector]
      split
      · rfl
      · exact ih x hlo (by omega)
  exact hzero x hlo hhi

theorem writeSectors_invariant (I : Disk → Prop) {data : List UInt8} {k i w : Nat} (h0 : I d)
    (hstep : ∀ d, I d → ∀ j, i ≤ j → j < i + k → ∀ buffer, I (d.writeSector (b.clusterToSector c + j) buffer)) :
    I (writeSectors d data k (b.clusterToSector c + i) w).1 := by
  induction k generalizing d i w with
  | zero => exact h0
  | succ k ih =>
    rw [writeSectors]
    split
    · have hfirst := hstep d h0 i (le_refl i) (by omega)
      have hrest := fun e he w => ih (d := e) (i := i + 1) (w := w) he fun t ht j hlo hhi => hstep t ht j (by omega) (by omega)
      exact hrest _ (hfirst _) _
    · exact h0

end Fat16
end RetroOs.Drivers
