import RetroOs.Drivers.Fat16Dirs

/-! Reading a file back after a write. -/
namespace RetroOs.Drivers
open Lib List Nat
namespace Fat16

variable {b : Bpb} {d d' : Disk} {c a s k w n x size fuel : Nat} {l : List Nat} {data : List UInt8} {buffer : Memory}

def clusterSize (b : Bpb) : Nat := 512 * b.sectorsPerCluster

def clusterAddr (b : Bpb) (cluster : Nat) : Nat := 512 * b.clusterToSector cluster

/-- Where the byte `x` of a file lies. -/
def fileAddr (b : Bpb) : List Nat → Nat → Nat
  | [], _ => 0
  | c :: l, x => if x < clusterSize b then clusterAddr b c + x else fileAddr b l (x - clusterSize b)

private theorem getD_chunk (data : List UInt8) (w k i : Nat) (v : UInt8) :
    ((data.drop w).take k).getD i v = if i < k then data.getD (w + i) v else v := by
  rw [getD_eq_getElem?_getD, getD_eq_getElem?_getD, getElem?_take]
  split
  · rw [getElem?_drop]
  · rfl

theorem getD_past (v : UInt8) (h : data.length ≤ n) : data.getD n v = v := by
  rw [getD_eq_getElem?_getD, getElem?_eq_none h, Option.getD_none]

theorem writeSectors_spec (d : Disk) (data : List UInt8) (k s w : Nat) :
    (writeSectors d data k s w).2 = max w (min data.length (w + 512 * k)) ∧
      ∀ x, (writeSectors d data k s w).1.bytes x =
        if 512 * s ≤ x ∧ x < 512 * s + 512 * k then data.getD (w + (x - 512 * s)) (d.bytes x) else d.bytes x := by
  induction k generalizing d s w with
  | zero =>
    refine ⟨by simp only [writeSectors]; omega, fun x => ?_⟩
    rw [writeSectors, if_neg (by omega)]
  | succ k ih =>
    rw [writeSectors]
    by_cases hw : w < data.length
    · rw [if_pos hw]
      have hchunk : ((data.drop w).take (min 512 (data.length - w))).length = min 512 (data.length - w) := by
        rw [length_take, length_drop]
        omega
      have hfit : 0 + ((data.drop w).take (min 512 (data.length - w))).length ≤ 512 := by omega
      have hbytes : (d.writeSector s ((d.readSector s).memcpy 0 ((data.drop w).take (min 512 (data.length - w))))).bytes =
          d.bytes.memcpy (512 * s + 0) ((data.drop w).take (min 512 (data.length - w))) := Disk.writeSector_memcpy hfit
      obtain ⟨hcount, hmem⟩ := ih (d.writeSector s ((d.readSector s).memcpy 0
        ((data.drop w).take (min 512 (data.length - w))))) (s + 1) (w + min 512 (data.length - w))
      refine ⟨by rw [hcount]; omega, fun x => ?_⟩
      rw [hmem x, hbytes]
      simp only [Memory.memcpy, add_zero, getD_chunk]
      by_cases hlo : 512 * s ≤ x
      · rw [if_pos hlo]
        by_cases hfirst : x < 512 * s + 512
        · -- The byte lies in the first sector.
          rw [if_neg (show ¬ (512 * (s + 1) ≤ x ∧ x < 512 * (s + 1) + 512 * k) by omega),
            if_pos (show 512 * s ≤ x ∧ x < 512 * s + 512 * (k + 1) by omega)]
          split
          · rfl
          · rw [getD_past _ (by omega)]
        · rw [if_neg (show ¬ x - 512 * s < min 512 (data.length - w) by omega)]
          by_cases hhi : x < 512 * s + 512 * (k + 1)
          · rw [if_pos (show 512 * (s + 1) ≤ x ∧ x < 512 * (s + 1) + 512 * k by omega), if_pos ⟨hlo, hhi⟩]
            by_cases hfull : 512 ≤ data.length - w
            · rw [show w + min 512 (data.length - w) + (x - 512 * (s + 1)) = w + (x - 512 * s) by omega]
            · rw [getD_past _ (by omega), getD_past _ (by omega)]
          · rw [if_neg (show ¬ (512 * (s + 1) ≤ x ∧ x < 512 * (s + 1) + 512 * k) by omega),
              if_neg fun h => hhi h.2]
      · rw [if_neg hlo, if_neg (by omega), if_neg fun h => hlo h.1]
    · rw [if_neg hw]
      refine ⟨by omega, fun x => ?_⟩
      split
      · rw [getD_past _ (by omega)]
      · rfl

/-- The address lies in a cluster. -/
def InCluster (b : Bpb) (c a : Nat) : Prop := clusterAddr b c ≤ a ∧ a < clusterAddr b c + clusterSize b

private theorem clusterAddr_add (b : Bpb) {c e : Nat} (hc : 2 ≤ c) (h : c < e) :
    clusterAddr b c + clusterSize b ≤ clusterAddr b e := by
  have hadd := clusterToSector_add b hc h
  simp only [clusterAddr, clusterSize]
  omega

theorem InCluster.unique {e : Nat} (hc : InVolume b c) (he : InVolume b e) (h : InCluster b c a)
    (h' : InCluster b e a) : c = e := by
  rcases lt_trichotomy c e with hlt | heq | hgt
  · have := clusterAddr_add b hc.two_le hlt
    exact absurd h.2 (not_lt.mpr (this.trans h'.1))
  · exact heq
  · have := clusterAddr_add b he.two_le hgt
    exact absurd h'.2 (not_lt.mpr (this.trans h.1))

theorem fileAddr_inCluster (h : x < l.length * clusterSize b) : ∃ c ∈ l, InCluster b c (fileAddr b l x) := by
  induction l generalizing x with
  | nil =>
    rw [length_nil, zero_mul] at h
    cases h
  | cons c l ih =>
    rw [fileAddr]
    split
    · next hx => exact ⟨c, List.mem_cons_self .., Nat.le_add_right .., Nat.add_lt_add_left hx _⟩
    · next hx =>
      rw [length_cons, succ_mul] at h
      obtain ⟨e, he, hin⟩ := ih (x := x - clusterSize b) (by omega)
      exact ⟨e, .tail _ he, hin⟩

/-- The bytes of the file from its start are those of the data from `w` on, and nothing else changes. -/
structure Wrote (b : Bpb) (d d' : Disk) (l : List Nat) (data : List UInt8) (w : Nat) : Prop where
  inside : ∀ x < l.length * clusterSize b,
    d'.bytes (fileAddr b l x) = data.getD (w + x) (d.bytes (fileAddr b l x))
  outside : ∀ a, (∀ c ∈ l, ¬ InCluster b c a) → d'.bytes a = d.bytes a

theorem Wrote.refl (h : data.length ≤ w) : Wrote b d d l data w :=
  ⟨fun _ _ => (getD_past _ (by omega)).symm, fun _ _ => rfl⟩

theorem Wrote.low (h : Wrote b d d' l data w) (ha : a + n ≤ 512 * b.dataStartSector) :
    d.bytes.AgreeOn d'.bytes a n := by
  intro x hl hu
  apply h.outside x
  intro c _ hin
  have hge := mul_le_mul_left 512 (clusterToSector_ge b c)
  have hlow : clusterAddr b c ≤ x := hin.1
  simp only [clusterAddr] at hlow
  omega

private theorem fatAddr_low (hf : 1 ≤ b.fatsCount) (hc : c < 256 * b.sectorsPerFat) :
    fatAddr b c + 2 ≤ 512 * b.dataStartSector := by
  have := dataStart_ge hf
  simp only [fatAddr]
  omega

theorem Wrote.fat (h : Wrote b d d' l data w) (hf : 1 ≤ b.fatsCount) (hc : c < 256 * b.sectorsPerFat) :
    getFatEntry b d' c = getFatEntry b d c := by
  rw [getFatEntry_eq, getFatEntry_eq]
  exact (h.low (fatAddr_low hf hc)).load16

theorem writeSectors_wrote (d : Disk) (data : List UInt8) (c w : Nat) :
    Wrote b d (writeSectors d data b.sectorsPerCluster (b.clusterToSector c) w).1 [c] data w := by
  obtain ⟨-, hmem⟩ := writeSectors_spec d data b.sectorsPerCluster (b.clusterToSector c) w
  constructor
  · intro x hx
    rw [List.length_singleton, Nat.one_mul] at hx
    rw [hmem, fileAddr, if_pos hx]
    simp only [clusterSize] at hx
    rw [if_pos (by simp only [clusterAddr]; omega)]
    simp only [clusterAddr, Nat.add_sub_cancel_left]
  · intro a hno
    rw [hmem]
    exact if_neg (hno c (List.mem_singleton_self c))

theorem Wrote.cons {e : Disk} (h : Wrote b d e [c] data w) (h' : Wrote b e d' l data (w + clusterSize b))
    (hv : ∀ x ∈ c :: l, InVolume b x) (hc : c ∉ l) : Wrote b d d' (c :: l) data w := by
  have hcv := hv c (.head _)
  have hlv : ∀ x ∈ l, InVolume b x := fun x hx => hv x (.tail _ hx)
  constructor
  · intro x hx
    rw [length_cons, succ_mul] at hx
    by_cases hlt : x < clusterSize b
    · have haddr : fileAddr b (c :: l) x = fileAddr b [c] x := by
        rw [fileAddr, fileAddr, if_pos hlt, if_pos hlt]
      have hin : InCluster b c (fileAddr b [c] x) := by
        rw [fileAddr, if_pos hlt]
        exact ⟨Nat.le_add_right .., Nat.add_lt_add_left hlt _⟩
      rw [haddr, h'.outside _ fun y hy hyin => hc (hin.unique hcv (hlv y hy) hyin ▸ hy)]
      exact h.inside x (by rwa [length_singleton, one_mul])
    · have haddr : fileAddr b (c :: l) x = fileAddr b l (x - clusterSize b) := by rw [fileAddr, if_neg hlt]
      have hx' : x - clusterSize b < l.length * clusterSize b := by omega
      obtain ⟨y, hy, hyin⟩ := fileAddr_inCluster hx'
      have hno : ∀ z ∈ [c], ¬ InCluster b z (fileAddr b l (x - clusterSize b)) := by
        intro z hz hzin
        rw [mem_singleton.mp hz] at hzin
        exact hc (hzin.unique hcv (hlv y hy) hyin ▸ hy)
      rw [haddr, h'.inside _ hx', h.outside _ hno]
      congr 1
      omega
  · intro a hno
    rw [h'.outside a fun y hy => hno y (.tail _ hy),
      h.outside a fun y hy => hno y (mem_singleton.mp hy ▸ mem_cons_self ..)]

private theorem writeClusters_done (hw : ¬ w < data.length) : writeClusters b d data fuel c w = (d, w) := by
  cases fuel with
  | zero => rfl
  | succ fuel => rw [writeClusters, if_neg fun h => hw h.2]

theorem writeClusters_wrote {e : Nat} (hp : Path Ends (getFatEntry b d) c l e) (hv : ∀ x ∈ l, InVolume b x)
    (hnd : l.Nodup) (hf : 1 ≤ b.fatsCount) (hs : 1 ≤ b.sectorsPerCluster)
    (hroom : data.length ≤ w + l.length * clusterSize b) (hfuel : data.length < w + fuel) :
    Wrote b d (writeClusters b d data fuel c w).1 l data w ∧
      (writeClusters b d data fuel c w).2 = max w data.length ∧ (writeClusters b d data fuel c w).1.allocs = d.allocs := by
  induction l generalizing d c w fuel with
  | nil =>
    rw [length_nil, zero_mul] at hroom
    rw [writeClusters_done (by omega)]
    exact ⟨.refl (by omega), by dsimp only; omega, rfl⟩
  | cons x l ih =>
    obtain ⟨rfl, hgo, hp⟩ := hp
    obtain ⟨hcl, hnd⟩ := nodup_cons.mp hnd
    have hcv := hv c (.head _)
    have hlv : ∀ x ∈ l, InVolume b x := fun x hx => hv x (.tail _ hx)
    by_cases hw : w < data.length
    · cases fuel with
      | zero => exact absurd hfuel (by omega)
      | succ fuel =>
        have hfirst := writeSectors_wrote (b := b) d data c w
        have hallocs : (writeSectors d data b.sectorsPerCluster (b.clusterToSector c) w).1.allocs = d.allocs :=
          writeSectors_invariant (i := 0) (fun e => e.allocs = d.allocs) rfl fun _ h _ _ _ _ => h
        obtain ⟨hcount, -⟩ := writeSectors_spec d data b.sectorsPerCluster (b.clusterToSector c) w
        rw [writeClusters, if_pos ⟨hcv.two_le, hw⟩]
        cases hws : writeSectors d data b.sectorsPerCluster (b.clusterToSector c) w with
        | mk d₁ w₁ =>
          rw [hws] at hfirst hcount hallocs
          dsimp only at hfirst hcount hallocs ⊢
          rw [length_cons, succ_mul] at hroom
          have hsize : 512 * b.sectorsPerCluster = clusterSize b := rfl
          rw [hsize] at hcount
          by_cases hmore : w₁ < data.length
          · -- The next cluster of the chain is there, since the data do not fit yet.
            have hw₁ : w₁ = w + clusterSize b := by omega
            have hnext : getFatEntry b d₁ c = getFatEntry b d c := hfirst.fat hf hcv.fat
            rw [if_pos hmore, hnext]
            cases l with
            | nil =>
              rw [length_nil, zero_mul] at hroom
              exact absurd hmore (by omega)
            | cons y l =>
              obtain ⟨hy, hygo, hprest⟩ := hp
              have hygo' := not_not.mp hygo
              have hno : ¬ (getFatEntry b d c ≥ chainEnd ∨ getFatEntry b d c = 0) := by omega
              rw [if_neg hno]
              have hp₁ : Path Ends (getFatEntry b d₁) (getFatEntry b d c) (y :: l) e :=
                Path.congr ⟨hy, hygo, hprest⟩ fun z hz => hfirst.fat hf (hlv z hz).fat
              have hroom₁ : data.length ≤ w₁ + (y :: l).length * clusterSize b := by omega
              have hfuel₁ : data.length < w₁ + fuel := by omega
              obtain ⟨hwrote, hret, hlog⟩ := ih hp₁ hlv hnd hroom₁ hfuel₁
              exact ⟨hfirst.cons (hw₁ ▸ hwrote) hv hcl, by rw [hret]; omega, hlog.trans hallocs⟩
          · rw [if_neg hmore]
            have hrest : Wrote b d₁ d₁ l data (w + clusterSize b) := .refl (by omega)
            exact ⟨hfirst.cons hrest hv hcl, by dsimp only; omega, hallocs⟩
    · rw [writeClusters_done hw]
      exact ⟨.refl (by omega), by dsimp only; omega, rfl⟩

theorem writeClusters_empty (b : Bpb) (d : Disk) (fuel c : Nat) : writeClusters b d [] fuel c 0 = (d, 0) := by
  cases fuel with
  | zero => rfl
  | succ fuel =>
    rw [writeClusters, if_neg]
    exact fun h => lt_irrefl 0 h.2

theorem writeClusters_ge (b : Bpb) (d : Disk) (data : List UInt8) (fuel c w : Nat) :
    w ≤ (writeClusters b d data fuel c w).2 := by
  induction fuel generalizing d c w with
  | zero => exact le_refl w
  | succ fuel ih =>
    rw [writeClusters]
    split
    · have hcount := (writeSectors_spec d data b.sectorsPerCluster (b.clusterToSector c) w).1
      generalize writeSectors d data b.sectorsPerCluster (b.clusterToSector c) w = p at hcount ⊢
      have hw : w ≤ p.2 := by omega
      dsimp only
      split
      · split
        · split
          · exact hw
          · exact hw.trans (ih ..)
        · exact hw.trans (ih ..)
      · exact hw
    · exact le_refl w

theorem writeClusters_pos (b : Bpb) (d : Disk) (hs : 1 ≤ b.sectorsPerCluster) (hc : 2 ≤ c) (hd : data ≠ []) (hfuel : 0 < fuel) :
    0 < (writeClusters b d data fuel c 0).2 := by
  have hlen := length_pos_of_ne_nil hd
  cases fuel with
  | zero => cases hfuel
  | succ fuel =>
    have hcount := (writeSectors_spec d data b.sectorsPerCluster (b.clusterToSector c) 0).1
    rw [writeClusters, if_pos ⟨hc, hlen⟩]
    generalize writeSectors d data b.sectorsPerCluster (b.clusterToSector c) 0 = p at hcount ⊢
    have hp : 0 < p.2 := by omega
    dsimp only
    split
    · split
      · split
        · exact hp
        · exact lt_of_lt_of_le hp (writeClusters_ge ..)
      · exact lt_of_lt_of_le hp (writeClusters_ge ..)
    · exact hp

theorem memcpy_readSector (d : Disk) (s w x : Nat) (buffer : Memory) (hx : x < 512) :
    buffer.memcpy w ((d.readSector s).bytes 0 512) (w + x) = d.bytes (512 * s + x) := by
  rw [Memory.memcpy, if_pos (Nat.le_add_right ..), Nat.add_sub_cancel_left, Memory.bytes_getD _ _ hx, Nat.zero_add]
  rfl

theorem memcpy_below {bytes : List UInt8} (h : x < w) : buffer.memcpy w bytes x = buffer x :=
  if_neg (not_le.mpr h)

private theorem readSectors_spec (d : Disk) (k s : Nat) (buffer : Memory) (hw : w < size) (hk : 1 ≤ k) :
    ((readSectors d size k s w buffer).2 = w + 512 * k ∨
        size ≤ (readSectors d size k s w buffer).2 ∧ (readSectors d size k s w buffer).2 ≤ w + 512 * k) ∧
      (∀ x < w, (readSectors d size k s w buffer).1 x = buffer x) ∧
      ∀ x < 512 * k, w + x < size → (readSectors d size k s w buffer).1 (w + x) = d.bytes (512 * s + x) := by
  induction k generalizing s w buffer with
  | zero => cases hk
  | succ k ih =>
    rw [readSectors]
    by_cases hlast : w + 512 ≥ size
    · rw [if_pos hlast]
      refine ⟨.inr ⟨hlast, by dsimp only; omega⟩, fun x hx => memcpy_below hx, fun x _ hx => ?_⟩
      exact memcpy_readSector d s w x buffer (by omega)
    · rw [if_neg hlast]
      cases k with
      | zero =>
        refine ⟨.inl rfl, fun x hx => memcpy_below hx, fun x hx _ => ?_⟩
        exact memcpy_readSector d s w x buffer hx
      | succ k =>
        have hrest := ih (s + 1) (buffer.memcpy w ((d.readSector s).bytes 0 512)) (not_le.mp hlast)
          (succ_pos k)
        generalize readSectors d size (k + 1) (s + 1) (w + 512) _ = r at hrest ⊢
        obtain ⟨hcount, hbelow, hin⟩ := hrest
        rw [mul_succ 512 (k + 1), add_comm (512 * (k + 1)), ← add_assoc]
        refine ⟨hcount, fun x hx => ?_, fun x hx hxs => ?_⟩
        · rw [hbelow x (Nat.lt_add_right 512 hx), memcpy_below hx]
        · by_cases hfirst : x < 512
          · rw [hbelow _ (by omega)]
            exact memcpy_readSector d s w x buffer hfirst
          · have hnext := hin (x - 512) (by omega) (by omega)
            rw [show w + 512 + (x - 512) = w + x by omega] at hnext
            rw [hnext, Nat.mul_succ, Nat.add_assoc, Nat.add_sub_cancel' (Nat.not_lt.mp hfirst)]

theorem readClusters_spec (h : FatChain b d c l) (buffer : Memory) (hs : 1 ≤ b.sectorsPerCluster)
    (hroom : size ≤ w + l.length * clusterSize b) (hfuel : size < w + fuel) :
    (∀ x < w, readClusters b d size fuel c w buffer x = buffer x) ∧
      ∀ x, w + x < size → readClusters b d size fuel c w buffer (w + x) = d.bytes (fileAddr b l x) := by
  induction l generalizing c w fuel buffer with
  | nil =>
    rw [length_nil, zero_mul] at hroom
    have hdone : readClusters b d size fuel c w buffer = buffer := by
      cases fuel with
      | zero => rfl
      | succ fuel => rw [readClusters, if_neg (by omega)]
    rw [hdone]
    exact ⟨fun _ _ => rfl, fun x hx => absurd hx (by omega)⟩
  | cons y l ih =>
    obtain ⟨rfl, hgo, htail⟩ := chain_cons.mp h
    have hgo := not_not.mp hgo
    cases fuel with
    | zero => exact ⟨by rw [readClusters]; exact fun _ _ => rfl, fun x hx => absurd hx (by omega)⟩
    | succ fuel =>
      rw [readClusters]
      by_cases hw : w < size
      · rw [if_pos ⟨hgo.1, hgo.2, hw⟩]
        obtain ⟨hcount, hbelow, hin⟩ := readSectors_spec d b.sectorsPerCluster (b.clusterToSector c) buffer hw hs
        cases hrs : readSectors d size b.sectorsPerCluster (b.clusterToSector c) w buffer with
        | mk buffer₁ w₁ =>
          rw [hrs] at hcount hbelow hin
          dsimp only at hcount hbelow hin ⊢
          have hsize : 512 * b.sectorsPerCluster = clusterSize b := rfl
          rw [hsize] at hcount hin
          rw [length_cons, succ_mul] at hroom
          have hcs : 512 ≤ clusterSize b := by simp only [clusterSize]; omega
          have hroom₁ : size ≤ w₁ + l.length * clusterSize b := by omega
          have hfuel₁ : size < w₁ + fuel := by omega
          obtain ⟨hbelow₁, hin₁⟩ := ih htail buffer₁ hroom₁ hfuel₁
          refine ⟨fun x hx => ?_, fun x hx => ?_⟩
          · rw [hbelow₁ x (by omega), hbelow x hx]
          · rw [fileAddr]
            split
            · next hfirst =>
              rw [hbelow₁ _ (by omega)]
              exact hin x hfirst hx
            · next hrest =>
              have hnext := hin₁ (x - clusterSize b) (by omega)
              rwa [show w₁ + (x - clusterSize b) = w + x by omega] at hnext
      · rw [if_neg fun h => hw h.2.2]
        exact ⟨fun _ _ => rfl, fun x hx => absurd hx (by omega)⟩

end Fat16
end RetroOs.Drivers
