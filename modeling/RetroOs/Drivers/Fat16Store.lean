import RetroOs.Drivers.Fat16TreeRuns

/-! A file stored by its name: the clusters that a write takes from the free ones, and what a read gives
back later. -/
namespace RetroOs.Drivers
open Lib Relation List Nat
namespace Fat16

variable {b : Bpb} {d d' d₁ d₂ : Disk} {a c e w n fuel : Nat} {k l : List Nat} {ch : Nat → List Nat} {name : CString}
  {data : List UInt8}

structure FreeClusters (b : Bpb) (d : Disk) (k : List Nat) : Prop where
  nodup : k.Nodup
  inVolume : ∀ c ∈ k, InVolume b c
  lt : ∀ c ∈ k, c < chainEnd
  free : ∀ c ∈ k, getFatEntry b d c = 0

theorem FreeClusters.congr (h : FreeClusters b d k) (he : ∀ c ∈ k, getFatEntry b d' c = getFatEntry b d c) :
    FreeClusters b d' k where
  nodup := h.nodup
  inVolume := h.inVolume
  lt := h.lt
  free c hc := (he c hc).trans (h.free c hc)

/-- The cluster `e` was free and is a chain of its own now. -/
structure Marked (b : Bpb) (d d' : Disk) (e : Nat) : Prop where
  inVolume : InVolume b e
  lt : e < chainEnd
  free : getFatEntry b d e = 0
  marked : getFatEntry b d' e = 0xFFFF
  fat : ∀ x < 256 * b.sectorsPerFat, x ≠ e → getFatEntry b d' x = getFatEntry b d x
  above : ∀ a, 512 * b.rootDirStartSector ≤ a → d'.bytes a = d.bytes a
  scans : ScansInside b d → ScansInside b d'

theorem FreeClusters.alloc (hg : Geometry b) (h : FreeClusters b d k) (hk : k ≠ []) :
    Marked b d (allocCluster b d).1 (allocCluster b d).2 := by
  obtain ⟨x, hx⟩ := exists_mem_of_ne_nil k hk
  have hread : ReadsFree b d.bytes x := ⟨(h.inVolume x hx).two_le, h.lt x hx, (getFatEntry_eq b d x).symm.trans (h.free x hx)⟩
  have hscan : ScanInside b d.bytes := .inl ⟨x, hread, h.inVolume x hx⟩
  have hres := (allocCluster_apart hg hscan []).2
  have hallocs := allocCluster_allocs b d
  obtain ⟨hv, hlt, hfree, hbytes⟩ := hres.resolve_left fun hnone => hnone.2.2 x hread
  generalize allocCluster b d = p at hv hlt hfree hbytes hallocs
  have hfat : ∀ y, getFatEntry b p.1 y = getFatEntry b (setFatEntry b d p.2 0xFFFF) y := by
    intro y
    rw [getFatEntry_eq, getFatEntry_eq, hbytes]
  constructor
  · exact hv
  · exact hlt
  · exact hfree
  · exact (hfat p.2).trans (getFatEntry_setFatEntry (by decide) hv.fat)
  · exact fun y hy hne => (hfat y).trans (getFatEntry_setFatEntry_other hy hne)
  · intro y hy
    rw [hbytes]
    exact setFatEntry_above (n := 1) hg hv.fat hy y (le_refl y) (lt_succ_self y)
  · intro hs q hq
    rw [hallocs] at hq
    cases hq with
    | head => exact hscan
    | tail _ hq => exact hs q hq

theorem FreeClusters.erase (h : FreeClusters b d k) (hm : Marked b d d' e) : FreeClusters b d' (k.erase e) where
  nodup := h.nodup.erase e
  inVolume c hc := h.inVolume c (mem_of_mem_erase hc)
  lt c hc := h.lt c (mem_of_mem_erase hc)
  free c hc := by
    obtain ⟨hne, hc⟩ := (List.Nodup.mem_erase_iff h.nodup).mp hc
    exact (hm.fat c (h.inVolume c hc).fat hne).trans (h.free c hc)

structure Grown (b : Bpb) (d d' : Disk) (c : Nat) (l : List Nat) (data : List UInt8) (w : Nat) : Prop where
  chain : FatChain b d' c (c :: l)
  inVolume : ∀ x ∈ l, InVolume b x
  free : ∀ x ∈ l, getFatEntry b d x = 0
  room : data.length ≤ w + (l.length + 1) * clusterSize b
  holds : ∀ x, w + x < data.length → d'.bytes (fileAddr b (c :: l) x) = data.getD (w + x) 0
  fat : ∀ x < 256 * b.sectorsPerFat, x ∉ c :: l → getFatEntry b d' x = getFatEntry b d x
  above : ∀ a, 512 * b.rootDirStartSector ≤ a → (∀ x ∈ c :: l, ¬ InCluster b x a) → d'.bytes a = d.bytes a
  scans : ScansInside b d → ScansInside b d'

theorem InVolume.ne_zero (h : InVolume b c) : c ≠ 0 := pos_iff_ne_zero.mp (lt_of_lt_of_le two_pos h.two_le)

theorem InCluster.above (h : InCluster b c a) : 512 * b.rootDirStartSector ≤ a := by
  apply le_trans _ h.1
  exact mul_le_mul_left 512 ((dataStart_ge_root b).trans (clusterToSector_ge b c))

private theorem fileAddr_first {x : Nat} (h : x < clusterSize b) : InCluster b c (fileAddr b (c :: l) x) := by
  rw [fileAddr, if_pos h]
  exact ⟨Nat.le_add_right .., Nat.add_lt_add_left h _⟩

theorem getD_inside (h : n < data.length) (u v : UInt8) : data.getD n u = data.getD n v := by
  rw [getD_eq_getElem?_getD, getD_eq_getElem?_getD, getElem?_eq_getElem h]
  rfl

theorem Grown.last (hg : Geometry b) (hw : Wrote b d d' [c] data w) (hc : InVolume b c) (hlt : c < chainEnd)
    (hend : chainEnd ≤ getFatEntry b d c) (hroom : data.length ≤ w + clusterSize b)
    (hscans : ScansInside b d → ScansInside b d') : Grown b d d' c [] data w where
  chain := by
    have hstop : Ends (getFatEntry b d' c) := by
      rw [hw.fat hg.fats hc.fat]
      exact fun hgo => absurd hgo.2 (not_lt.mpr hend)
    exact chain_cons.mpr ⟨rfl, not_not.mpr ⟨hc.two_le, hlt⟩, chain_nil.mpr hstop⟩
  inVolume _ hx := absurd hx not_mem_nil
  free _ hx := absurd hx not_mem_nil
  room := by rwa [length_nil, zero_add, one_mul]
  holds x hx := by
    have hxc : x < clusterSize b := by omega
    rw [hw.inside x (by rwa [length_singleton, one_mul])]
    exact getD_inside hx ..
  fat x hx _ := hw.fat hg.fats hx
  above a _ hno := hw.outside a hno
  scans := hscans

theorem Grown.link (hg : Geometry b) (hw : Wrote b d d₁ [c] data w) (hm : Marked b d₁ d₂ e)
    (h : Grown b (setFatEntry b d₂ c e) d' e l data (w + clusterSize b)) (hc : InVolume b c) (hlt : c < chainEnd)
    (hend : chainEnd ≤ getFatEntry b d c) (hallocs : d₁.allocs = d.allocs) : Grown b d d' c (e :: l) data w := by
  have hfat₁ : ∀ x < 256 * b.sectorsPerFat, getFatEntry b d₁ x = getFatEntry b d x := fun x hx => hw.fat hg.fats hx
  have hused : getFatEntry b d c ≠ 0 := pos_iff_ne_zero.mp (lt_of_lt_of_le (by decide) hend)
  have hce : c ≠ e := by
    rintro rfl
    exact hused ((hfat₁ c hc.fat).symm.trans hm.free)
  have hlinked : getFatEntry b (setFatEntry b d₂ c e) c = e :=
    getFatEntry_setFatEntry (lt_trans hm.lt (by decide)) hc.fat
  have hcl : c ∉ e :: l := by
    intro hmem
    cases hmem with
    | head => exact hce rfl
    | tail _ hmem => exact hm.inVolume.ne_zero (hlinked.symm.trans (h.free c hmem))
  have hel : e ∉ l := (nodup_cons.mp h.chain.nodup).1
  have hother : ∀ x < 256 * b.sectorsPerFat, x ≠ c → x ≠ e → getFatEntry b (setFatEntry b d₂ c e) x = getFatEntry b d x :=
    fun x hx hxc hxe => (getFatEntry_setFatEntry_other hx hxc).trans ((hm.fat x hx hxe).trans (hfat₁ x hx))
  have habove : ∀ y, 512 * b.rootDirStartSector ≤ y → (setFatEntry b d₂ c e).bytes y = d₁.bytes y := fun y hy =>
    (setFatEntry_above (n := 1) hg hc.fat hy y (le_refl y) (lt_succ_self y)).trans (hm.above y hy)
  have hcells : ∀ x ∈ e :: l, InVolume b x := by
    intro x hx
    cases hx with
    | head => exact hm.inVolume
    | tail _ hx => exact h.inVolume x hx
  constructor
  · have hnext : FatChain b d' (getFatEntry b d' c) (e :: l) := by
      rw [h.fat c hc.fat hcl, hlinked]
      exact h.chain
    exact chain_cons.mpr ⟨rfl, not_not.mpr ⟨hc.two_le, hlt⟩, hnext⟩
  · exact hcells
  · intro x hx
    cases hx with
    | head => exact (hfat₁ e hm.inVolume.fat).symm.trans hm.free
    | tail _ hx =>
      have hxc : x ≠ c := fun heq => hcl (heq ▸ mem_cons_of_mem e hx)
      have hxe : x ≠ e := fun heq => hel (heq ▸ hx)
      exact (hother x (h.inVolume x hx).fat hxc hxe).symm.trans (h.free x hx)
  · have hroom := h.room
    rwa [add_assoc, add_comm (clusterSize b), ← succ_mul] at hroom
  · intro x hx
    by_cases hfirst : x < clusterSize b
    · have hin := fileAddr_first (b := b) (c := c) (l := e :: l) hfirst
      have hno : ∀ y ∈ e :: l, ¬ InCluster b y (fileAddr b (c :: e :: l) x) :=
        fun y hy hyin => hcl (hin.unique hc (hcells y hy) hyin ▸ hy)
      have haddr : fileAddr b (c :: e :: l) x = fileAddr b [c] x := by
        rw [fileAddr, if_pos hfirst, fileAddr, if_pos hfirst]
      rw [h.above _ hin.above hno, habove _ hin.above, haddr, hw.inside x (by rwa [length_singleton, one_mul])]
      exact getD_inside hx ..
    · have hrest := h.holds (x - clusterSize b) (by omega)
      rw [fileAddr, if_neg hfirst]
      rwa [show w + clusterSize b + (x - clusterSize b) = w + x by omega] at hrest
  · intro x hx hno
    obtain ⟨hxc, hxl⟩ := ne_and_not_mem_of_not_mem_cons hno
    rw [h.fat x hx hxl]
    exact hother x hx hxc fun heq => hxl (heq ▸ (.head _))
  · intro y hy hno
    rw [h.above y hy fun x hx => hno x (mem_cons_of_mem c hx), habove y hy]
    exact hw.outside y fun x hx => hno x (mem_singleton.mp hx ▸ (.head _))
  · intro hs
    apply h.scans
    rw [ScansInside, setFatEntry_allocs]
    apply hm.scans
    rwa [ScansInside, hallocs]

def AllFree (b : Bpb) (d : Disk) (k : List Nat) : Prop := ∀ c, InVolume b c → c < chainEnd → getFatEntry b d c = 0 → c ∈ k

theorem AllFree.none_read (h : AllFree b d []) (hscan : ScanInside b d.bytes) : ∀ c, ¬ ReadsFree b d.bytes c := by
  have hno : ∀ c, ReadsFree b d.bytes c → ¬ InVolume b c := by
    intro c hread hv
    exact not_mem_nil (h c hv hread.2.1 ((getFatEntry_eq b d c).trans hread.2.2))
  intro c hread
  rcases hscan with ⟨e, he, hv⟩ | hall
  · exact hno e he hv
  · exact hno c hread (hall c hread)

theorem Wrote.take {v : Nat} (h : Wrote b d d' l data w) (hv : min data.length (w + l.length * clusterSize b) ≤ v) :
    Wrote b d d' l (data.take v) w := by
  by_cases hall : data.length ≤ v
  · rwa [take_of_length_le hall]
  · refine ⟨fun x hx => ?_, h.outside⟩
    have hxv : w + x < v := by omega
    rw [h.inside x hx, getD_eq_getElem?_getD, getD_eq_getElem?_getD, getElem?_take_of_lt hxv]

theorem Marked.allFree (hm : Marked b d d' e) (hall : AllFree b d k) :
    AllFree b d' (k.erase e) ∧ (k.erase e).length + 1 = k.length := by
  constructor
  · intro x hx hlt h0
    have hxe : x ≠ e := by
      rintro rfl
      rw [hm.marked] at h0
      cases h0
    rw [hm.fat x hx.fat hxe] at h0
    exact (mem_erase_of_ne hxe).mpr (hall x hx hlt h0)
  · have hmem := hall e hm.inVolume hm.lt hm.free
    have hpos := length_pos_of_mem hmem
    rw [length_erase_of_mem hmem]
    omega

theorem Marked.linked (hm : Marked b d d' e) (hc : InVolume b c) (hend : chainEnd ≤ getFatEntry b d c)
    (hfree : FreeClusters b d k) :
    FreeClusters b (setFatEntry b d' c e) (k.erase e) ∧ chainEnd ≤ getFatEntry b (setFatEntry b d' c e) e ∧
      (AllFree b d k → AllFree b (setFatEntry b d' c e) (k.erase e) ∧ (k.erase e).length + 1 = k.length) := by
  have hused : ∀ x, getFatEntry b d x = 0 → x ≠ c := by
    rintro x h0 rfl
    exact absurd hend (by rw [h0]; decide)
  have hkeep : ∀ x < 256 * b.sectorsPerFat, x ≠ c → getFatEntry b (setFatEntry b d' c e) x = getFatEntry b d' x :=
    fun x hx hxc => getFatEntry_setFatEntry_other hx hxc
  have hrest := hfree.erase hm
  refine ⟨hrest.congr fun x hx => ?_, ?_, fun hall => ⟨fun x hx hlt h0 => ?_, (hm.allFree hall).2⟩⟩
  · exact hkeep x (hrest.inVolume x hx).fat (hused x (hfree.free x (mem_of_mem_erase hx)))
  · rw [hkeep e hm.inVolume.fat (hused e hm.free), hm.marked]
    decide
  · have hxc : x ≠ c := by
      rintro rfl
      rw [getFatEntry_setFatEntry (lt_trans hm.lt (by decide)) hx.fat] at h0
      exact hm.inVolume.ne_zero h0
    rw [hkeep x hx.fat hxc] at h0
    exact (hm.allFree hall).1 x hx hlt h0

/-- From the last cluster of a chain on, with free clusters for the rest or with all that there are: the clusters
taken are those needed for what is written. -/
theorem writeClusters_fill (hg : Geometry b) (hs : 1 ≤ b.sectorsPerCluster) (hfree : FreeClusters b d k) (hc : InVolume b c)
    (hlt : c < chainEnd) (hend : chainEnd ≤ getFatEntry b d c) (hw : w < data.length)
    (hsupply : data.length ≤ w + (k.length + 1) * clusterSize b ∨
      AllFree b d k ∧ ScansInside b (writeClusters b d data fuel c w).1) (hfuel : data.length < w + fuel) :
    (∃ l, Grown b d (writeClusters b d data fuel c w).1 c l (data.take (writeClusters b d data fuel c w).2) w ∧
      (l = [] ∨ w + l.length * clusterSize b < (writeClusters b d data fuel c w).2)) ∧
        (writeClusters b d data fuel c w).2 = min data.length (w + (k.length + 1) * clusterSize b) := by
  induction fuel generalizing d c w k with
  | zero => exact absurd (lt_trans hw hfuel) (lt_irrefl w)
  | succ fuel ih =>
    have hwrote := writeSectors_wrote (b := b) d data c w
    have hallocs := writeSectors_allocs b d data c w
    have hcount := (writeSectors_spec d data b.sectorsPerCluster (b.clusterToSector c) w).1
    rw [writeClusters, if_pos ⟨hc.two_le, hw⟩] at hsupply ⊢
    generalize writeSectors d data b.sectorsPerCluster (b.clusterToSector c) w = p at hwrote hallocs hcount hsupply ⊢
    have hsize : 512 * b.sectorsPerCluster = clusterSize b := rfl
    dsimp only at hsupply ⊢
    by_cases hmore : p.2 < data.length
    · have hp : p.2 = w + clusterSize b := by omega
      have hlast : chainEnd ≤ getFatEntry b p.1 c := by rwa [hwrote.fat hg.fats hc.fat]
      have hfree₁ := hfree.congr fun x hx => hwrote.fat hg.fats (hfree.inVolume x hx).fat
      rw [if_pos hmore, if_pos (.inl hlast)] at hsupply ⊢
      by_cases hk : k = []
      · subst hk
        -- the allocator finds nothing, and the call ends with this cluster
        have hshort : ¬ data.length ≤ w + (([] : List Nat).length + 1) * clusterSize b := by
          rw [length_nil, zero_add, one_mul]
          omega
        obtain ⟨hall, hscan⟩ := hsupply.resolve_left hshort
        have hinside : ScanInside b p.1.bytes := by
          split at hscan
          · exact hscan.alloc
          · have hscan' := hscan.mono (writeClusters_allocs ..)
            rw [ScansInside, setFatEntry_allocs] at hscan'
            exact ScansInside.alloc hscan'
        have hall₁ : AllFree b p.1 [] := fun e he hlte h0 => hall e he hlte ((hwrote.fat hg.fats he.fat).symm.trans h0)
        obtain ⟨hzero, hbytes⟩ := allocCluster_none (hall₁.none_read hinside)
        rw [if_pos hzero]
        have htake := hwrote.take (v := p.2) (by rw [length_singleton]; omega)
        have hwrote' : Wrote b d (allocCluster b p.1).1 [c] (data.take p.2) w :=
          ⟨fun x hx => by rw [hbytes]; exact htake.inside x hx, fun x hx => by rw [hbytes]; exact htake.outside x hx⟩
        refine ⟨⟨[], Grown.last hg hwrote' hc hlt hend (by rw [length_take]; omega) fun h q hq => ?_, .inl rfl⟩, ?_⟩
        · rw [allocCluster_allocs] at hq
          rcases mem_cons.mp hq with rfl | hq
          · exact hinside
          · exact h q (hallocs ▸ hq)
        · rw [length_nil, zero_add, one_mul]
          omega
      · have hm := hfree₁.alloc hg hk
        generalize allocCluster b p.1 = q at hm hsupply ⊢
        rw [if_neg hm.inVolume.ne_zero] at hsupply ⊢
        obtain ⟨hfree₃, hend₃, hall₃⟩ := hm.linked hc hlast hfree₁
        have hall₁ : AllFree b d k → AllFree b p.1 k := fun hall e he hlte h0 =>
          hall e he hlte ((hwrote.fat hg.fats he.fat).symm.trans h0)
        have hlen : k.length ≤ (k.erase q.2).length + 1 := Nat.sub_le_iff_le_add.mp List.le_length_erase
        rw [hp] at hmore hsupply ⊢
        have hsupply₃ : data.length ≤ w + clusterSize b + ((k.erase q.2).length + 1) * clusterSize b ∨
            AllFree b (setFatEntry b q.1 c q.2) (k.erase q.2) ∧
              ScansInside b (writeClusters b (setFatEntry b q.1 c q.2) data fuel q.2 (w + clusterSize b)).1 := by
          refine hsupply.imp (fun hroom => ?_) fun hall => ⟨(hall₃ (hall₁ hall.1)).1, hall.2⟩
          have hmul := mul_le_mul_right (clusterSize b) hlen
          rw [succ_mul] at hroom
          omega
        obtain ⟨⟨l, hl, hneed⟩, hret⟩ := ih hfree₃ hm.inVolume hm.lt hend₃ hmore hsupply₃ (by omega)
        have hge : w + clusterSize b ≤ (writeClusters b (setFatEntry b q.1 c q.2) data fuel q.2 (w + clusterSize b)).2 :=
          writeClusters_ge ..
        generalize writeClusters b (setFatEntry b q.1 c q.2) data fuel q.2 (w + clusterSize b) = r at hl hneed hret hge hsupply ⊢
        have hgt : w + clusterSize b < r.2 := by
          rw [hret, succ_mul]
          omega
        refine ⟨⟨_, Grown.link hg (hwrote.take (by rw [length_singleton]; omega)) hm hl hc hlt hend hallocs, .inr ?_⟩, ?_⟩
        · rw [length_cons, succ_mul]
          rcases hneed with rfl | hneed
          · rw [length_nil, zero_mul]
            omega
          · omega
        · rw [hret, succ_mul, succ_mul]
          rcases hsupply with hroom | ⟨hall, -⟩
          · have hmul := mul_le_mul_right (clusterSize b) hlen
            rw [succ_mul] at hroom hmul
            omega
          · rw [← (hall₃ (hall₁ hall)).2, succ_mul]
            omega
    · rw [if_neg hmore]
      have hwrote' := hwrote.take (v := p.2) (by rw [length_singleton]; omega)
      refine ⟨⟨[], Grown.last hg hwrote' hc hlt hend (by rw [length_take]; omega) fun h => ?_, .inl rfl⟩, ?_⟩
      · rwa [ScansInside, hallocs]
      · rw [succ_mul]
        omega

structure Written (b : Bpb) (d d' : Disk) (c : Nat) (l : List Nat) (data : List UInt8) : Prop where
  chain : FatChain b d' c l
  inVolume : ∀ x ∈ l, InVolume b x
  room : data.length ≤ l.length * clusterSize b
  holds : ∀ x < data.length, d'.bytes (fileAddr b l x) = data.getD x 0
  root : ∀ a ∈ rootSlots b, d.bytes.AgreeOn d'.bytes a 32
  scans : ScansInside b d → ScansInside b d'

theorem rootSlots_outside {x : Nat} (ha : a ∈ rootSlots b) (hx : x < a + 32) : ¬ InCluster b c x := by
  intro hin
  have hlow := (mem_rootSlots ha).2.2
  have hge := mul_le_mul_left 512 (clusterToSector_ge b c)
  have haddr : 512 * b.clusterToSector c ≤ x := hin.1
  omega

/-- Where a file with this first cluster finds place for its bytes: in the chain that it has, or, if it
has none, in free clusters. -/
def HasRoom (b : Bpb) (d : Disk) (c n : Nat) : Prop :=
  (∃ l, FatChain b d c l ∧ (∀ x ∈ l, InVolume b x) ∧ n ≤ l.length * clusterSize b) ∨
    c = 0 ∧ ∃ k, FreeClusters b d k ∧ n ≤ k.length * clusterSize b

theorem writeClusters_written (hg : Geometry b) (hs : 1 ≤ b.sectorsPerCluster) (h : FatChain b d c l)
    (hv : ∀ x ∈ l, InVolume b x) (hroom : data.length ≤ l.length * clusterSize b) :
    Written b d (writeClusters b d data (data.length + 1) c 0).1 c l data ∧
      (writeClusters b d data (data.length + 1) c 0).2 = data.length := by
  obtain ⟨e, hend, hp⟩ := h
  have hroom₀ : data.length ≤ 0 + l.length * clusterSize b := by rwa [zero_add]
  have hfuel : data.length < 0 + (data.length + 1) := by omega
  obtain ⟨hw, hret, hallocs⟩ := writeClusters_wrote hp hv (Chain.nodup ⟨e, hend, hp⟩) hg.fats hs hroom₀ hfuel
  refine ⟨⟨?_, hv, hroom, fun x hx => ?_, fun a ha x _ hx => ?_, fun hscan => ?_⟩, hret.trans (zero_max _)⟩
  · exact Chain.congr ⟨e, hend, hp⟩ fun x hx => hw.fat hg.fats (hv x hx).fat
  · rw [hw.inside x (lt_of_lt_of_le hx hroom), zero_add]
    exact getD_inside hx ..
  · exact hw.outside x fun y _ => rootSlots_outside ha hx
  · rwa [ScansInside, hallocs]

/-- What a write to a file leaves: its chain is the old one, or longer by the clusters that were needed. -/
structure Filled (b : Bpb) (d : Disk) (l k : List Nat) (data : List UInt8) (r : Disk × Node × Nat) (l' : List Nat) : Prop where
  written : Written b d r.1 r.2.1.impl l' (data.take r.2.2)
  longer : l.length ≤ l'.length
  needed : l'.length = l.length ∨ (l'.length - 1) * clusterSize b < r.2.2
  count : r.2.2 = min data.length ((l.length + k.length) * clusterSize b)

def Supplied (b : Bpb) (d : Disk) (l k : List Nat) (data : List UInt8) (d' : Disk) : Prop :=
  data.length ≤ (l.length + k.length) * clusterSize b ∨ AllFree b d k ∧ ScansInside b d'

theorem writeVfs_filled_empty (hg : Geometry b) (hs : 1 ≤ b.sectorsPerCluster) (node : Node) (o : Nat) (h0 : node.impl = 0)
    (hd : data ≠ []) (hfree : FreeClusters b d k) (hk : k ≠ []) (hsupply : Supplied b d [] k data (writeVfs b d node o data).1) :
    ∃ l', Filled b d [] k data (writeVfs b d node o data) l' := by
  have hpos := length_pos_of_ne_nil hd
  have hm := hfree.alloc hg hk
  have hrest := hfree.erase hm
  have hlen : k.length ≤ (k.erase (allocCluster b d).2).length + 1 := Nat.sub_le_iff_le_add.mp List.le_length_erase
  rw [Supplied, length_nil, zero_add, writeVfs, if_pos h0] at hsupply
  rw [writeVfs, if_pos h0]
  dsimp only at hsupply ⊢
  generalize allocCluster b d = p at hm hrest hlen hsupply ⊢
  rw [if_neg hm.inVolume.ne_zero] at hsupply ⊢
  have hend : chainEnd ≤ getFatEntry b p.1 p.2 := by
    rw [hm.marked]
    decide
  have hsupply₁ : data.length ≤ 0 + ((k.erase p.2).length + 1) * clusterSize b ∨
      AllFree b p.1 (k.erase p.2) ∧ ScansInside b (writeClusters b p.1 data (data.length + 1) p.2 0).1 := by
    refine hsupply.imp (fun hroom => ?_) fun hall => ⟨(hm.allFree hall.1).1, hall.2⟩
    rw [zero_add]
    exact hroom.trans (mul_le_mul_right _ hlen)
  have hfuel : data.length < 0 + (data.length + 1) := by omega
  obtain ⟨⟨g, hgrown, hneed⟩, hret⟩ := writeClusters_fill hg hs hrest hm.inVolume hm.lt hend hpos hsupply₁ hfuel
  generalize writeClusters b p.1 data (data.length + 1) p.2 0 = r at hgrown hneed hret hsupply ⊢
  rw [zero_add] at hret
  have hroom := hgrown.room
  rw [zero_add] at hroom
  refine ⟨p.2 :: g, ⟨hgrown.chain, ?_, ?_, fun x hx => ?_, fun a ha x hlo hx => ?_, fun hscan => hgrown.scans (hm.scans hscan)⟩,
    zero_le _, .inr ?_, ?_⟩
  · exact forall_mem_cons.mpr ⟨hm.inVolume, hgrown.inVolume⟩
  · exact hroom
  · have := hgrown.holds x (by rwa [zero_add])
    rwa [zero_add] at this
  · have habove := (mem_rootSlots ha).2.1.trans hlo
    rw [hgrown.above x habove fun y _ => rootSlots_outside ha hx, hm.above x habove]
  · rw [List.length_cons, Nat.add_sub_cancel]
    rcases hneed with rfl | hneed
    · have hone : 1 ≤ clusterSize b := Nat.mul_pos (by decide) hs
      rw [succ_mul] at hret
      rw [length_nil, zero_mul]
      dsimp only
      omega
    · rwa [zero_add] at hneed
  · rw [length_nil, zero_add]
    rcases hsupply with hroom | ⟨hall, -⟩
    · have hmul := hroom.trans (mul_le_mul_right (clusterSize b) hlen)
      dsimp only
      omega
    · rw [← (hm.allFree hall).2]
      exact hret

private theorem writeVfs_new (hg : Geometry b) (hs : 1 ≤ b.sectorsPerCluster) (node : Node) (o : Nat) (h0 : node.impl = 0)
    (hfree : FreeClusters b d k) (hd : data ≠ []) (hroom : data.length ≤ k.length * clusterSize b) :
    (∃ l, Written b d (writeVfs b d node o data).1 (writeVfs b d node o data).2.1.impl l data) ∧
      (writeVfs b d node o data).2.2 = data.length := by
  have hk : k ≠ [] := by
    rintro rfl
    rw [length_nil, zero_mul] at hroom
    exact hd (length_eq_zero_iff.mp (le_zero.mp hroom))
  have hroom₀ : data.length ≤ (([] : List Nat).length + k.length) * clusterSize b := by
    rwa [length_nil, zero_add]
  obtain ⟨l, hl⟩ := writeVfs_filled_empty hg hs node o h0 hd hfree hk (.inl hroom₀)
  have hret := hl.count.trans (min_eq_left hroom₀)
  have hw := hl.written
  rw [hret, take_length] at hw
  exact ⟨⟨l, hw⟩, hret⟩

private theorem writeVfs_written (hg : Geometry b) (hs : 1 ≤ b.sectorsPerCluster) (node : Node) (o : Nat) (hd : data ≠ [])
    (hroom : HasRoom b d node.impl data.length) :
    (∃ l, Written b d (writeVfs b d node o data).1 (writeVfs b d node o data).2.1.impl l data) ∧
      (writeVfs b d node o data).2.2 = data.length := by
  have hpos := length_pos_of_ne_nil hd
  rcases hroom with ⟨l, hl, hv, hroom⟩ | ⟨h0, k, hfree, hroom⟩
  · have hne : node.impl ≠ 0 := by
      intro h0
      rw [h0] at hl
      rw [hl.unique (chain_nil.mpr ends_zero), length_nil, zero_mul] at hroom
      exact absurd hpos (not_lt.mpr hroom)
    obtain ⟨hw, hret⟩ := writeClusters_written hg hs hl hv hroom
    rw [writeVfs, if_neg hne]
    exact ⟨⟨l, hw⟩, hret⟩
  · exact writeVfs_new hg hs node o h0 hfree hd hroom

structure Stored (b : Bpb) (d : Disk) (name : CString) (data : List UInt8) (a : Nat) (l : List Nat) : Prop where
  found : (liveSlots d.bytes (rootSlots b)).find? (hasName d.bytes name) = some a
  file : ¬ IsDir d a
  size : (entryAt d.bytes a).fileSize = data.length
  chain : FatChain b d (firstCluster d a) l
  room : data.length ≤ l.length * clusterSize b
  holds : ∀ x < data.length, d.bytes (fileAddr b l x) = data.getD x 0

theorem findEntry_root (b : Bpb) (d : Disk) (name : CString) :
    findEntry b d 0 name = some ((liveSlots d.bytes (rootSlots b)).find? (hasName d.bytes name)) :=
  DirSlots.root.findEntry name

theorem readFile_holds (h : FatChain b d c l) (hs : 1 ≤ b.sectorsPerCluster) (hroom : data.length ≤ l.length * clusterSize b)
    (hholds : ∀ x < data.length, d.bytes (fileAddr b l x) = data.getD x 0) (buffer : Memory) :
    (readFile b d c data.length buffer).bytes 0 data.length = data := by
  have hroom : data.length ≤ 0 + l.length * clusterSize b := by rwa [zero_add]
  have hfuel : data.length < 0 + (data.length + 1) := by omega
  obtain ⟨-, hread⟩ := readClusters_spec h buffer hs hroom hfuel
  rw [readFile]
  apply ext_getElem
  · rw [Memory.bytes, length_map, length_range]
  · intro x _ hx
    have hbyte := hread x (by rwa [zero_add])
    rw [hholds x hx, getD_eq_getElem?_getD, getElem?_eq_getElem hx] at hbyte
    simpa [Memory.bytes] using hbyte

theorem Stored.read (h : Stored b d name data a l) (hs : 1 ≤ b.sectorsPerCluster) (buffer : Memory) :
    (readFile b d (firstCluster d a) (entryAt d.bytes a).fileSize buffer).bytes 0 data.length = data := by
  rw [h.size]
  exact readFile_holds h.chain hs h.room h.holds buffer

private theorem setEntry_fileSize (ha : a % 512 + 32 ≤ 512) (d : Disk) (c : Nat) (hn : n < 2 ^ 32) :
    (entryAt (setEntry d a n c).bytes a).fileSize = n := by
  have hagree : ((d.readSector (a / 512)).store32 (a % 512 + 28) n).AgreeOn
      (((d.readSector (a / 512)).store32 (a % 512 + 28) n).store16 (a % 512 + 26) c) (a % 512 + 28) 4 :=
    Memory.store16_agreeOn _ c (.inr (le_refl _))
  have hstored := hagree.load32
  rw [Memory.load32_store32 _ _ hn] at hstored
  have haddr : a + 28 = 512 * (a / 512) + (a % 512 + 28) := by omega
  simp only [entryAt, setEntry]
  rw [haddr, Disk.writeSector_load32 (by omega)]
  exact hstored

private theorem rootSlots_slot (ha : a ∈ rootSlots b) : Slot b a := .inl ha

private theorem writeFile_eq (node : Node)
    (hnode : node = { name, impl := firstCluster d a, size := (entryAt d.bytes a).fileSize, directory := false })
    (hfound : (liveSlots d.bytes (rootSlots b)).find? (hasName d.bytes name) = some a)
    (hroot : ∀ a ∈ rootSlots b, d.bytes.AgreeOn (writeVfs b d node 0 data).1.bytes a 32)
    (hpos : 0 < (writeVfs b d node 0 data).2.2) :
    (writeFile b d name data).1 =
      setEntry (writeVfs b d node 0 data).1 a data.length (writeVfs b d node 0 data).2.1.impl := by
  have hfound' : (liveSlots (writeVfs b d node 0 data).1.bytes (rootSlots b)).find?
      (hasName (writeVfs b d node 0 data).1.bytes name) = some a := (find_congr hroot).trans hfound
  rw [writeFile, findEntry_root, hfound]
  dsimp only
  have hsame : ({ name, impl := (entryAt d.bytes a).firstCluster, size := (entryAt d.bytes a).fileSize, directory := false } : Node) =
    node := hnode.symm
  rw [hsame]
  generalize writeVfs b d node 0 data = p at hpos hfound' ⊢
  rw [if_pos hpos, findEntry_root, hfound']
  rfl

structure FileAfter (b : Bpb) (d d' : Disk) (name : CString) (a n : Nat) (data : List UInt8) (l : List Nat) : Prop where
  found : (liveSlots d'.bytes (rootSlots b)).find? (hasName d'.bytes name) = some a
  attributes : (entryAt d'.bytes a).attributes = (entryAt d.bytes a).attributes
  size : (entryAt d'.bytes a).fileSize = n
  chain : FatChain b d' (firstCluster d' a) l
  room : data.length ≤ l.length * clusterSize b
  holds : ∀ x < data.length, d'.bytes (fileAddr b l x) = data.getD x 0

theorem Written.first_lt (hw : Written b d d' c l data) (hd : data ≠ []) : c < 2 ^ 16 := by
  have hpos := length_pos_of_ne_nil hd
  have hchain := hw.chain
  cases l with
  | nil =>
    have hroom := hw.room
    rw [length_nil, zero_mul] at hroom
    exact absurd hpos (not_lt.mpr hroom)
  | cons x l =>
    obtain ⟨rfl, hgo, -⟩ := chain_cons.mp hchain
    exact lt_trans (not_not.mp hgo).2 (by decide)

theorem Written.heads (hw : Written b d d₁ c l data) (ha : a ∈ rootSlots b) (n : Nat) :
    ∀ e ∈ rootSlots b, d.bytes.AgreeOn (Fat16.setEntry d₁ a n c).bytes e 12 := by
  intro e he
  have halign := (mem_rootSlots ha).1
  apply (head_agreeOn (hw.root e he)).trans
  by_cases hea : e = a
  · subst hea
    exact (setEntry_agreeOn halign d₁ _ _).mono (le_refl e) (by omega)
  · exact head_agreeOn (slotWrite_agreeOn halign (mem_rootSlots he).1 hea (setEntry_buffer d₁ a _ _))

theorem Written.setEntry (hg : Geometry b) (hw : Written b d d₁ c l data)
    (hfound : (liveSlots d.bytes (rootSlots b)).find? (hasName d.bytes name) = some a) (hd : data ≠ []) (hn : n < 2 ^ 32) :
    FileAfter b d (setEntry d₁ a n c) name a n data l := by
  have ha := (mem_liveSlots (mem_of_find?_eq_some hfound)).1
  have hslot := rootSlots_slot ha
  have halign := hslot.aligned
  have hhead := hw.heads ha n
  constructor
  · exact (find_congr_head hhead).trans hfound
  · rw [entryAt, hhead a ha (a + 11) (by omega) (by omega)]
    rfl
  · exact setEntry_fileSize (by omega) d₁ _ hn
  · rw [firstCluster, setEntry_firstCluster (by omega) d₁ _ (hw.first_lt hd)]
    exact Chain.congr hw.chain fun x hx => slotWrite_fat hg hslot (hw.inVolume x hx).fat
  · exact hw.room
  · intro x hx
    obtain ⟨c, -, hin⟩ := fileAddr_inCluster (lt_of_lt_of_le hx hw.room)
    have hlow := (mem_rootSlots ha).2.2
    have hge := mul_le_mul_left 512 (clusterToSector_ge b c)
    have haddr : 512 * b.clusterToSector c ≤ fileAddr b l x := hin.1
    rw [← hw.holds x hx]
    exact Disk.writeSector_agreeOn (n := 1) (.inr (by omega)) _ (le_refl _) (lt_succ_self _)

private theorem writeFile_stored (hg : Geometry b) (hs : 1 ≤ b.sectorsPerCluster) (h : TreeInv b d ch) (hscan : ScansInside b d)
    (hfound : (liveSlots d.bytes (rootSlots b)).find? (hasName d.bytes name) = some a) (hfile : ¬ IsDir d a) (hd : data ≠ [])
    (hlen : data.length < 2 ^ 32) (hroom : HasRoom b d (firstCluster d a) data.length) :
    ∃ l ch', TreeInv b (writeFile b d name data).1 ch' ∧ ScansInside b (writeFile b d name data).1 ∧
      Stored b (writeFile b d name data).1 name data a l := by
  have hlive := mem_of_find?_eq_some hfound
  have hpos := length_pos_of_ne_nil hd
  obtain ⟨node, hnode⟩ : ∃ node : Node, node =
    { name, impl := firstCluster d a, size := (entryAt d.bytes a).fileSize, directory := false } := ⟨_, rfl⟩
  have himpl : node.impl = firstCluster d a := by rw [hnode]
  obtain ⟨⟨l, hw⟩, hret⟩ := writeVfs_written hg hs node 0 hd (himpl ▸ hroom)
  have hcall := writeFile_eq node hnode hfound hw.root (hret ▸ hpos)
  have htree := (h.writeFile_found hg hlive hfile node himpl (.inr (.inl ⟨hs, hd⟩)) (hw.scans hscan)).2
  rw [if_pos (hret ▸ hpos)] at htree
  obtain ⟨ch', htree⟩ := htree
  have hafter := hw.setEntry hg hfound hd hlen
  rw [hcall]
  refine ⟨l, ch', htree, hw.scans hscan, ?_⟩
  constructor
  · exact hafter.found
  · rw [IsDir, hafter.attributes]
    exact hfile
  · exact hafter.size
  · exact hafter.chain
  · exact hafter.room
  · exact hafter.holds

/-- A search by the name that a file was created with finds its entry. -/
def Findable (name : CString) : Prop :=
  (encodeName name).head? ≠ some 0xE5 ∧ sameName (toName ((encodeName name).take 8) ((encodeName name).drop 8)) name

instance : DecidablePred Findable := fun _ => inferInstanceAs (Decidable (_ ∧ _))

private theorem hasName_of_bytes {m : Memory} (h : m.bytes a 11 = encodeName name) (hname : Findable name) : hasName m name a := by
  have hfile : (entryAt m a).filename = (m.bytes a 11).take 8 := rfl
  have hext : (entryAt m a).ext = (m.bytes a 11).drop 8 := rfl
  rw [hasName, hfile, hext, h]
  exact hname.2

structure Created (b : Bpb) (d d' : Disk) (name : CString) (a : Nat) : Prop where
  found : (liveSlots d'.bytes (rootSlots b)).find? (hasName d'.bytes name) = some a
  file : ¬ IsDir d' a
  first : firstCluster d' a = 0
  fat : ∀ c < 256 * b.sectorsPerFat, getFatEntry b d' c = getFatEntry b d c
  allocs : d'.allocs = d.allocs

theorem createVfs_created (hg : Geometry b) (h : TreeInv b d ch) (hname : Findable name)
    (hnone : (liveSlots d.bytes (rootSlots b)).find? (hasName d.bytes name) = none) (hslot : freeSlot d.bytes (rootSlots b) ≠ none) :
    ∃ a, Created b d (createVfs b d 0 name).1 name a := by
  have hroot : InTree b d (0, []) := .refl
  obtain ⟨a, hfree⟩ := Option.ne_none_iff_exists'.mp hslot
  have hallocs : (createVfs b d 0 name).1.allocs = d.allocs := addEntry_allocs ..
  have hcall : (createVfs b d 0 name).1 = patchSector d a (entryBytes name attrArchive 0) := by
    rw [createVfs, addEntry, findEntry_root, hnone, DirSlots.root.findFree, hfree]
  obtain ⟨hf, hdir, hfirst, hlive⟩ := h.new_entry hg name attrArchive 0 (fun _ _ => .refl) hroot hfree (by decide) (by decide)
  have hmem : a ∈ rootSlots b := mem_of_find?_eq_some hfree
  have hslot := rootSlots_slot hmem
  have halign := hslot.aligned
  have hstored : (patchSector d a (entryBytes name attrArchive 0)).bytes.bytes a 11 = encodeName name := by
    rw [patchSector_bytes (by rw [entryBytes_length]; omega), entryBytes_eq, memcpy_name]
  have hfat : ∀ c < 256 * b.sectorsPerFat, getFatEntry b (patchSector d a (entryBytes name attrArchive 0)) c = getFatEntry b d c :=
    fun c hc => slotWrite_fat hg hslot hc
  rw [hcall] at hallocs ⊢
  generalize patchSector d a (entryBytes name attrArchive 0) = d' at hallocs hf hdir hfirst hlive hstored hfat ⊢
  have hself : hasName d'.bytes name a := hasName_of_bytes hstored hname
  refine ⟨a, ?_, ?_, hfirst, hfat, hallocs⟩
  · cases hfind : (liveSlots d'.bytes (rootSlots b)).find? (hasName d'.bytes name) with
    | none => exact absurd hself (find?_eq_none.mp hfind a (hlive.mpr hname.1))
    | some e =>
      by_contra hne
      have hea : e ≠ a := fun heq => hne (congrArg some heq)
      have he := (hf.live_iff h hroot id hea).mp (mem_of_find?_eq_some hfind)
      have hagree := hf.slots _ hroot id e (mem_liveSlots he).1 hea
      have hsame := find?_some hfind
      rw [hasName_congr hagree] at hsame
      exact find?_eq_none.mp hnone e he hsame
  · rw [hdir]
    decide

theorem Created.store (hg : Geometry b) (hs : 1 ≤ b.sectorsPerCluster) (h : TreeInv b d' ch) (hscan : ScansInside b d)
    (hc : Created b d d' name a) (hfree : FreeClusters b d k) (hd : data ≠ []) (hlen : data.length < 2 ^ 32)
    (hroom : data.length ≤ k.length * clusterSize b) :
    ∃ l ch', TreeInv b (writeFile b d' name data).1 ch' ∧ ScansInside b (writeFile b d' name data).1 ∧
      Stored b (writeFile b d' name data).1 name data a l := by
  have hscan' : ScansInside b d' := by rwa [ScansInside, hc.allocs]
  have hfree' : FreeClusters b d' k := hfree.congr fun c hck => hc.fat c (hfree.inVolume c hck).fat
  exact writeFile_stored hg hs h hscan' hc.found hc.file hd hlen (.inr ⟨hc.first, k, hfree', hroom⟩)

theorem Stored.inVolume (h : TreeInv b d ch) (hst : Stored b d name data a l) : ∀ x ∈ l, InVolume b x := by
  have hlive : LiveEntry b d a := InTree.live .refl (mem_of_find?_eq_some hst.found)
  have hch : l = ch a := Chain.unique hst.chain (h.fatChain hlive)
  rw [hch]
  exact h.owned.cells a hlive

theorem Stored.store {old : List UInt8} (hg : Geometry b) (hs : 1 ≤ b.sectorsPerCluster) (h : TreeInv b d ch)
    (hscan : ScansInside b d) (hst : Stored b d name old a l) (hd : data ≠ []) (hlen : data.length < 2 ^ 32)
    (hle : data.length ≤ old.length) :
    ∃ l ch', TreeInv b (writeFile b d name data).1 ch' ∧ ScansInside b (writeFile b d name data).1 ∧
      Stored b (writeFile b d name data).1 name data a l := by
  exact writeFile_stored hg hs h hscan hst.found hst.file hd hlen
    (.inl ⟨l, hst.chain, hst.inVolume h, hle.trans hst.room⟩)

end Fat16
end RetroOs.Drivers
