import RetroOs.Drivers.Fat16Store

/-! A file written by its name, whatever it held before and however much space there is: the clusters that it has
afterwards and the size that its entry reports. -/
namespace RetroOs.Drivers
open Lib List Nat Option
namespace Fat16

variable {b : Bpb} {d d' d₁ : Disk} {a c e w n fuel : Nat} {g k l xs : List Nat} {name : CString} {data : List UInt8}

/-! ### Chains that were there and grew -/

theorem Wrote.nil (d : Disk) : Wrote b d d [] data w :=
  ⟨fun _ hx => absurd hx (by rw [length_nil, zero_mul]; exact not_lt_zero _), fun _ _ => rfl⟩

/-- The clusters in front of the last one are filled one after the other. -/
theorem writeClusters_walk (hp : Path Ends (getFatEntry b d) c xs e) (hgo : ¬ Ends e) (hv : ∀ x ∈ xs, InVolume b x)
    (hnd : xs.Nodup) (hf : 1 ≤ b.fatsCount) (hs : 1 ≤ b.sectorsPerCluster)
    (hlen : w + xs.length * clusterSize b < data.length) (hfuel : data.length < w + fuel) :
    ∃ d₁ fuel₁, writeClusters b d data fuel c w = writeClusters b d₁ data fuel₁ e (w + xs.length * clusterSize b) ∧
      Wrote b d d₁ xs data w ∧ d₁.allocs = d.allocs ∧ data.length < w + xs.length * clusterSize b + fuel₁ := by
  induction xs generalizing d c w fuel with
  | nil =>
    obtain rfl : c = e := hp
    rw [length_nil, zero_mul, add_zero]
    exact ⟨d, fuel, rfl, .nil d, rfl, hfuel⟩
  | cons x xs ih =>
    obtain ⟨rfl, hcgo, hp⟩ := hp
    obtain ⟨hcx, hnd⟩ := nodup_cons.mp hnd
    have hcv := hv c (.head _)
    have hxv : ∀ x ∈ xs, InVolume b x := fun x hx => hv x (.tail _ hx)
    rw [length_cons, succ_mul] at hlen ⊢
    cases fuel with
    | zero => exact absurd hfuel (by omega)
    | succ fuel =>
      have hwrote := writeSectors_wrote (b := b) d data c w
      have hallocs := writeSectors_allocs b d data c w
      have hcount := (writeSectors_spec d data b.sectorsPerCluster (b.clusterToSector c) w).1
      rw [writeClusters, if_pos ⟨hcv.two_le, by omega⟩]
      generalize writeSectors d data b.sectorsPerCluster (b.clusterToSector c) w = p at hwrote hallocs hcount ⊢
      rw [show 512 * b.sectorsPerCluster = clusterSize b from rfl] at hcount
      have hp₁ : p.2 = w + clusterSize b := by omega
      have hpos : 1 ≤ clusterSize b := Nat.mul_pos (by decide) hs
      have hnext : ¬ Ends (getFatEntry b d c) := by
        cases xs with
        | nil =>
          obtain rfl : getFatEntry b d c = e := hp
          exact hgo
        | cons y xs =>
          obtain ⟨rfl, hy, -⟩ := hp
          exact hy
      have hno : ¬ (getFatEntry b d c ≥ chainEnd ∨ getFatEntry b d c = 0) := by
        have hrange := not_not.mp hnext
        omega
      have hpath : Path Ends (getFatEntry b p.1) (getFatEntry b d c) xs e := hp.congr fun y hy => hwrote.fat hf (hxv y hy).fat
      dsimp only
      rw [if_pos (by omega), hwrote.fat hf hcv.fat, if_neg hno, hp₁]
      have hlen₁ : w + clusterSize b + xs.length * clusterSize b < data.length := by omega
      have hfuel₁ : data.length < w + clusterSize b + fuel := by omega
      obtain ⟨d₁, fuel₁, hcall, hrest, hlog, hfuel₁⟩ := ih hpath hxv hnd hlen₁ hfuel₁
      refine ⟨d₁, fuel₁, ?_, hwrote.cons hrest hv hcx, hlog.trans hallocs, by omega⟩
      rw [hcall, add_assoc, add_comm (clusterSize b)]

private theorem fileAddr_append (xs l : List Nat) (x : Nat) :
    fileAddr b (xs ++ l) x = if x < xs.length * clusterSize b then fileAddr b xs x else fileAddr b l (x - xs.length * clusterSize b) := by
  induction xs generalizing x with
  | nil => simp
  | cons c xs ih =>
    rw [cons_append, fileAddr, fileAddr, length_cons, succ_mul]
    split
    · next hx => rw [if_pos (by omega)]
    · next hx =>
      rw [ih]
      split
      · next hlt => rw [if_pos (by omega)]
      · next hge =>
        rw [if_neg (by omega)]
        congr 1
        omega

theorem Grown.behind (hg : Geometry b) (hp : Path Ends (getFatEntry b d) c xs e) (hv : ∀ x ∈ xs, InVolume b x) (hxe : e ∉ xs)
    (he : InVolume b e) (hw : Wrote b d d₁ xs data 0) (hallocs : d₁.allocs = d.allocs)
    (h : Grown b d₁ d' e g data (xs.length * clusterSize b)) : Written b d d' c (xs ++ e :: g) data := by
  have hfat : ∀ x ∈ xs, getFatEntry b d₁ x = getFatEntry b d x := fun x hx => hw.fat hg.fats (hv x hx).fat
  have hgv : ∀ x ∈ e :: g, InVolume b x := forall_mem_cons.mpr ⟨he, h.inVolume⟩
  -- the clusters taken were free, and those in front were not
  have hapart : ∀ x ∈ xs, x ∉ e :: g := by
    intro x hx hmem
    rcases mem_cons.mp hmem with rfl | hmem
    · exact hxe hx
    · obtain ⟨ys, zs, rfl⟩ := append_of_mem hx
      obtain ⟨m, -, hm⟩ := path_append.mp hp
      obtain ⟨rfl, -, hrest⟩ := hm
      have hzero : getFatEntry b d m = 0 := (hfat m hx).symm.trans (h.free m hmem)
      rw [hzero] at hrest
      cases zs with
      | nil =>
        obtain rfl : 0 = e := hrest
        exact he.ne_zero rfl
      | cons y zs =>
        obtain ⟨rfl, hgo, -⟩ := hrest
        exact hgo ends_zero
  have hpath : Path Ends (getFatEntry b d') c xs e :=
    hp.congr fun x hx => (h.fat x (hv x hx).fat (hapart x hx)).trans (hfat x hx)
  constructor
  · exact chain_append.mpr ⟨e, hpath, h.chain⟩
  · exact fun x hx => (mem_append.mp hx).elim (hv x) (hgv x)
  · have hroom := h.room
    rw [length_append, length_cons, add_mul]
    exact hroom
  · intro x hx
    rw [fileAddr_append]
    split
    · next hlt =>
      obtain ⟨y, hy, hin⟩ := fileAddr_inCluster hlt
      have hno : ∀ z ∈ e :: g, ¬ InCluster b z (fileAddr b xs x) :=
        fun z hz hzin => hapart y hy (hin.unique (hv y hy) (hgv z hz) hzin ▸ hz)
      rw [h.above _ hin.above hno, hw.inside x hlt, zero_add]
      exact getD_inside hx ..
    · next hge =>
      have hrest := h.holds (x - xs.length * clusterSize b) (by omega)
      rwa [Nat.add_sub_cancel' (Nat.not_lt.mp hge)] at hrest
  · intro s hs x hlo hx
    have habove := (mem_rootSlots hs).2.1.trans hlo
    rw [h.above x habove fun y _ => rootSlots_outside hs hx]
    exact hw.outside x fun y _ => rootSlots_outside hs hx
  · intro hscan
    apply h.scans
    rwa [ScansInside, hallocs]

private theorem writeVfs_filled_chain (hg : Geometry b) (hs : 1 ≤ b.sectorsPerCluster) (node : Node) (o : Nat)
    (hchain : LinkChain fatLinks (getFatEntry b d) node.impl l) (hl : l ≠ []) (hv : ∀ x ∈ l, InVolume b x)
    (hfree : FreeClusters b d k) (hsupply : Supplied b d l k data (writeVfs b d node o data).1) :
    ∃ l', Filled b d l k data (writeVfs b d node o data) l' := by
  have hfat : FatChain b d node.impl l := hchain.chain
  have hne : node.impl ≠ 0 := by
    intro h0
    rw [h0] at hfat
    exact hl (Chain.unique hfat (chain_nil.mpr ends_zero))
  rw [Supplied, writeVfs, if_neg hne] at hsupply
  rw [writeVfs, if_neg hne]
  by_cases hfits : data.length ≤ l.length * clusterSize b
  · obtain ⟨hw, hret⟩ := writeClusters_written hg hs hfat hv hfits
    generalize writeClusters b d data (data.length + 1) node.impl 0 = r at hw hret
    refine ⟨l, ?_, le_refl _, .inl rfl, ?_⟩
    · rwa [hret, take_length]
    · rw [add_mul]
      dsimp only
      omega
  · obtain ⟨xs, e, rfl⟩ : ∃ xs e, l = xs ++ [e] := ⟨l.dropLast, l.getLast hl, (dropLast_append_getLast hl).symm⟩
    have hend : chainEnd ≤ getFatEntry b d e := hchain.last
    obtain ⟨m, hp, hm⟩ := chain_append.mp hfat
    obtain ⟨rfl, hgo, -⟩ := chain_cons.mp hm
    have hev := hv m (mem_append_right _ (mem_singleton_self m))
    have hxv : ∀ x ∈ xs, InVolume b x := fun x hx => hv x (mem_append_left _ hx)
    obtain ⟨hnd, -, hdis⟩ := nodup_append.mp (Chain.nodup hfat)
    rw [length_append, length_singleton] at hfits hsupply
    rw [succ_mul] at hfits
    have hlen : 0 + xs.length * clusterSize b < data.length := by omega
    have hfuel : data.length < 0 + (data.length + 1) := by omega
    obtain ⟨d₁, fuel₁, hcall, hwrote, hlog, hfuel₁⟩ := writeClusters_walk hp hgo hxv hnd hg.fats hs hlen hfuel
    rw [zero_add] at hcall hfuel₁
    rw [hcall] at hsupply ⊢
    have hend₁ : chainEnd ≤ getFatEntry b d₁ m := by rwa [hwrote.fat hg.fats hev.fat]
    have hfree₁ := hfree.congr fun x hx => hwrote.fat hg.fats (hfree.inVolume x hx).fat
    have hsupply₁ : data.length ≤ xs.length * clusterSize b + (k.length + 1) * clusterSize b ∨
        AllFree b d₁ k ∧ ScansInside b (writeClusters b d₁ data fuel₁ m (xs.length * clusterSize b)).1 := by
      refine hsupply.imp (fun hroom => ?_) fun hall => ⟨fun x hx hlt h0 => ?_, hall.2⟩
      · rw [← add_mul, add_comm k.length, ← add_assoc]
        exact hroom
      · exact hall.1 x hx hlt ((hwrote.fat hg.fats hx.fat).symm.trans h0)
    obtain ⟨⟨g, hgrown, hneed⟩, hret⟩ := writeClusters_fill hg hs hfree₁ hev (not_not.mp hgo).2 hend₁ (by omega) hsupply₁ hfuel₁
    have hge : xs.length * clusterSize b ≤ (writeClusters b d₁ data fuel₁ m (xs.length * clusterSize b)).2 := writeClusters_ge ..
    generalize writeClusters b d₁ data fuel₁ m (xs.length * clusterSize b) = r at hgrown hneed hret hge ⊢
    have htake := hwrote.take (v := r.2) (by omega)
    have hxm : m ∉ xs := fun hmem => hdis m hmem m (mem_singleton_self m) rfl
    refine ⟨xs ++ m :: g, Grown.behind hg hp hxv hxm hev htake hlog hgrown, ?_, ?_, ?_⟩
    · simp
    · rw [length_append, length_append, length_cons, length_singleton]
      refine hneed.imp (fun hnil => by rw [hnil]; rfl) fun hlt => ?_
      rw [← Nat.add_assoc, Nat.add_sub_cancel, Nat.add_mul]
      exact hlt
    · rw [length_append, length_singleton, add_assoc, add_mul, add_comm 1]
      exact hret

/-! ### The entry afterwards -/

/-- The clusters that hold `n` bytes. -/
def clustersFor (b : Bpb) (n : Nat) : Nat := (n + clusterSize b - 1) / clusterSize b

theorem clustersFor_le_iff (hs : 1 ≤ b.sectorsPerCluster) {m : Nat} : clustersFor b n ≤ m ↔ n ≤ m * clusterSize b := by
  have hpos : 0 < clusterSize b := Nat.mul_pos (by decide) hs
  rw [clustersFor, ← Nat.lt_succ_iff, Nat.div_lt_iff_lt_mul hpos, Nat.succ_mul]
  omega

private theorem clustersFor_eq (hs : 1 ≤ b.sectorsPerCluster) {m : Nat} (hroom : n ≤ m * clusterSize b)
    (hneed : m ≤ clustersFor b n ∨ (m - 1) * clusterSize b < n) : m = clustersFor b n := by
  have hle := (clustersFor_le_iff hs).mpr hroom
  apply le_antisymm _ hle
  rcases hneed with hneed | hneed
  · exact hneed
  · have hnot := mt (clustersFor_le_iff hs).mp (not_le.mpr hneed)
    omega

def Reports (b : Bpb) (d : Disk) (name : CString) (data : List UInt8) (w : Nat) : Prop :=
  ∃ a l, findEntry b d 0 name = some (some a) ∧ (entryAt d.bytes a).fileSize = w ∧ FatChain b d (firstCluster d a) l ∧
    l.length = clustersFor b w ∧
      ∀ buffer, (readFile b d (firstCluster d a) (entryAt d.bytes a).fileSize buffer).bytes 0 w = data.take w

/-- What the call returns is what the entry reports. -/
def WriteReports (b : Bpb) (d : Disk) (name : CString) (data : List UInt8) : Prop :=
  ∀ w : Nat, (writeFile b d name data).2 = some (w : Int) → Reports b (writeFile b d name data).1 name data w

/-- The file has no more clusters than the data need, and there are free ones for the rest; or it is empty and the
allocator finds nothing. -/
def HasPlace (b : Bpb) (d : Disk) (a : Nat) (l : List Nat) (n : Nat) : Prop :=
  l.length ≤ clustersFor b n ∧ (∃ k, FreeClusters b d k ∧ clustersFor b n ≤ l.length + k.length) ∨
    l = [] ∧ (∀ c, ¬ ReadsFree b d.bytes c) ∧ (entryAt d.bytes a).fileSize = 0

def entryNode (d : Disk) (name : CString) (a : Nat) : Node :=
  { name, impl := firstCluster d a, size := (entryAt d.bytes a).fileSize, directory := false }

theorem writeFile_call (hfound : findEntry b d 0 name = some (some a))
    (hagain : findEntry b (writeVfs b d (entryNode d name a) 0 data).1 0 name = some (some a)) :
    writeFile b d name data =
      if 0 < (writeVfs b d (entryNode d name a) 0 data).2.2 then
        (setEntry (writeVfs b d (entryNode d name a) 0 data).1 a data.length (writeVfs b d (entryNode d name a) 0 data).2.1.impl,
          some ((writeVfs b d (entryNode d name a) 0 data).2.2 : Int))
      else ((writeVfs b d (entryNode d name a) 0 data).1, some 0) := by
  rw [writeFile, hfound]
  dsimp only
  have hnode : ({ name, impl := (entryAt d.bytes a).firstCluster, size := (entryAt d.bytes a).fileSize, directory := false } : Node) =
    entryNode d name a := rfl
  rw [hnode]
  generalize writeVfs b d (entryNode d name a) 0 data = r at hagain ⊢
  split
  · rw [hagain]
    rfl
  · rfl

private theorem exists_allFree (b : Bpb) (d : Disk) : ∃ k, FreeClusters b d k ∧ AllFree b d k := by
  classical
  refine ⟨(range chainEnd).filter fun c => InVolume b c ∧ getFatEntry b d c = 0, ?_, fun c hv hlt h0 => ?_⟩
  · constructor
    · exact nodup_range.filter _
    · exact fun c hc => (of_decide_eq_true (mem_filter.mp hc).2).1
    · exact fun c hc => mem_range.mp (mem_filter.mp hc).1
    · exact fun c hc => (of_decide_eq_true (mem_filter.mp hc).2).2
  · exact mem_filter.mpr ⟨mem_range.mpr hlt, decide_eq_true ⟨hv, h0⟩⟩

private theorem writeFile_nothing (hfound : findEntry b d 0 name = some (some a)) (h0 : firstCluster d a = 0)
    (hnone : ∀ c, ¬ ReadsFree b d.bytes c) :
    (writeFile b d name data).2 = some 0 ∧ (writeFile b d name data).1.bytes = d.bytes := by
  obtain ⟨hzero, hbytes⟩ := allocCluster_none hnone
  have hcall : writeVfs b d (entryNode d name a) 0 data = ((allocCluster b d).1, entryNode d name a, 0) := by
    rw [writeVfs, if_pos (show (entryNode d name a).impl = 0 from h0)]
    dsimp only
    rw [if_pos hzero]
  have hagain : findEntry b (writeVfs b d (entryNode d name a) 0 data).1 0 name = some (some a) := by
    rw [hcall, findEntry_root]
    rw [hbytes, ← findEntry_root]
    exact hfound
  rw [writeFile_call hfound hagain, hcall, if_neg (lt_irrefl 0)]
  exact ⟨rfl, hbytes⟩

private theorem writeFile_allocs (hfound : findEntry b d 0 name = some (some a)) :
    (writeFile b d name data).1.allocs = (writeVfs b d (entryNode d name a) 0 data).1.allocs := by
  rw [writeFile, hfound]
  dsimp only
  rw [show ({ name, impl := (entryAt d.bytes a).firstCluster, size := (entryAt d.bytes a).fileSize, directory := false } : Node) =
    entryNode d name a from rfl]
  split
  · split <;> rfl
  · rfl

private theorem writeVfs_scan (node : Node) (o : Nat) (h0 : node.impl = 0) (hscan : ScansInside b (writeVfs b d node o data).1) :
    ScanInside b d.bytes := by
  rw [writeVfs, if_pos h0] at hscan
  dsimp only at hscan
  split at hscan
  · exact hscan.alloc
  · exact ScansInside.alloc (hscan.mono (writeClusters_allocs ..))

theorem cluster_of_room (hd : data ≠ []) (hroom : data.length ≤ (l.length + k.length) * clusterSize b) : l ≠ [] ∨ k ≠ [] := by
  by_contra hno
  obtain ⟨hl, hk⟩ := not_or.mp hno
  rw [not_not.mp hl, not_not.mp hk, length_nil, add_zero, zero_mul] at hroom
  exact hd (length_eq_zero_iff.mp (le_zero.mp hroom))

theorem LinkChain.head_zero {next : Nat → Nat} (h : LinkChain fatLinks next c []) : c = 0 := by
  rcases h with ⟨-, hhead⟩ | ⟨hne, -⟩
  · exact hhead
  · exact absurd rfl hne

section
variable (hg : Geometry b) (hs : 1 ≤ b.sectorsPerCluster) (hfound : findEntry b d 0 name = some (some a))
  (hchain : LinkChain fatLinks (getFatEntry b d) (firstCluster d a) l) (hv : ∀ x ∈ l, InVolume b x) (hd : data ≠ [])
include hg hs hchain hv hd

theorem writeVfs_filled (hfree : FreeClusters b d k) (hsome : l ≠ [] ∨ k ≠ [])
    (hsupply : Supplied b d l k data (writeVfs b d (entryNode d name a) 0 data).1) :
    ∃ l', Filled b d l k data (writeVfs b d (entryNode d name a) 0 data) l' := by
  by_cases hl : l = []
  · subst hl
    exact writeVfs_filled_empty hg hs (entryNode d name a) 0 (LinkChain.head_zero hchain) hd hfree (hsome.resolve_left fun hne => hne rfl) hsupply
  · exact writeVfs_filled_chain hg hs (entryNode d name a) 0 hchain hl hv hfree hsupply

include hfound

private theorem writeFile_filled (hlen : data.length < 2 ^ 32) (hfree : FreeClusters b d k) (hsome : l ≠ [] ∨ k ≠ [])
    (hsupply : Supplied b d l k data (writeVfs b d (entryNode d name a) 0 data).1) :
    ∃ l' w, (writeFile b d name data).2 = some ((w : Nat) : Int) ∧
      FileAfter b d (writeFile b d name data).1 name a data.length (data.take w) l' ∧ l.length ≤ l'.length ∧
        (l'.length = l.length ∨ (l'.length - 1) * clusterSize b < w) ∧
          w = min data.length ((l.length + k.length) * clusterSize b) := by
  obtain ⟨l', hf⟩ := writeVfs_filled hg hs hchain hv hd hfree hsome hsupply
  rw [findEntry_root, some.injEq] at hfound
  have hagain := (find_congr hf.written.root).trans hfound
  have hpos : 0 < (writeVfs b d (entryNode d name a) 0 data).2.2 := by
    have hone : 0 < (l.length + k.length) * clusterSize b := by
      apply mul_pos _ (mul_pos (by decide) hs)
      rcases hsome with hne | hne <;> have := length_pos_of_ne_nil hne <;> omega
    rw [hf.count]
    exact Nat.lt_min.mpr ⟨List.length_pos_of_ne_nil hd, hone⟩
  rw [writeFile_call (by rw [findEntry_root, hfound]) (by rw [findEntry_root, hagain]), if_pos hpos]
  have htake : data.take (writeVfs b d (entryNode d name a) 0 data).2.2 ≠ [] := by
    intro hnil
    rcases take_eq_nil_iff.mp hnil with h0 | hempty
    · exact absurd h0 (pos_iff_ne_zero.mp hpos)
    · exact hd hempty
  exact ⟨l', _, rfl, hf.written.setEntry hg hfound htake hlen, hf.longer, hf.needed, hf.count⟩

theorem HasPlace.reports (hlen : data.length < 2 ^ 32) (hplace : HasPlace b d a l data.length) : WriteReports b d name data := by
  rcases hplace with ⟨hle, k, hfree, hk⟩ | ⟨rfl, hnone, hsize⟩
  · have hroom := (clustersFor_le_iff hs).mp hk
    obtain ⟨l', w, hret, hafter, -, hneed, hw⟩ :=
      writeFile_filled hg hs hfound hchain hv hd hlen hfree (cluster_of_room hd hroom) (.inl hroom)
    rw [min_eq_left hroom] at hw
    subst hw
    rw [take_length] at hafter
    intro w hw
    obtain rfl : data.length = w := Int.ofNat.inj (some.inj (hret.symm.trans hw))
    refine ⟨a, l', by rw [findEntry_root, hafter.found], hafter.size, hafter.chain, ?_, fun buffer => ?_⟩
    · exact clustersFor_eq hs hafter.room (hneed.imp (fun heq => heq.trans_le hle) id)
    · rw [hafter.size, take_length]
      exact readFile_holds hafter.chain hs hafter.room hafter.holds buffer
  · have hhead := LinkChain.head_zero hchain
    obtain ⟨hret, hbytes⟩ : (writeFile b d name data).2 = some 0 ∧ (writeFile b d name data).1.bytes = d.bytes :=
      writeFile_nothing hfound hhead hnone
    intro w hw
    obtain rfl : 0 = w := Int.ofNat.inj (some.inj (hret.symm.trans hw))
    have hsame : findEntry b (writeFile b d name data).1 0 name = some (some a) := by
      rw [findEntry_root, hbytes, ← findEntry_root]
      exact hfound
    refine ⟨a, [], hsame, ?_, ?_, ?_, fun buffer => rfl⟩
    · rw [hbytes]
      exact hsize
    · rw [firstCluster, hbytes]
      exact chain_nil.mpr (by rw [show (entryAt d.bytes a).firstCluster = 0 from hhead]; exact ends_zero)
    · exact clustersFor_eq hs (zero_le _) (.inl (zero_le _))

theorem WriteReports.hasPlace (hlen : data.length < 2 ^ 32) (hscan : ScansInside b (writeFile b d name data).1)
    (hreports : WriteReports b d name data) : HasPlace b d a l data.length := by
  obtain ⟨k, hfree, hall⟩ := exists_allFree b d
  have hscan' : ScansInside b (writeVfs b d (entryNode d name a) 0 data).1 := by rwa [ScansInside, ← writeFile_allocs hfound]
  by_cases hsome : l ≠ [] ∨ k ≠ []
  · obtain ⟨l', w, hret, hafter, hlonger, -, hw⟩ :=
      writeFile_filled hg hs hfound hchain hv hd hlen hfree hsome (.inr ⟨hall, hscan'⟩)
    obtain ⟨a', l'', hfound', hsize, hchain', hcount, -⟩ := hreports w hret
    rw [findEntry_root, hafter.found] at hfound'
    obtain rfl : a = a' := some.inj (some.inj hfound')
    obtain rfl : l' = l'' := Chain.unique hafter.chain hchain'
    have hwn : data.length = w := hafter.size.symm.trans hsize
    subst hwn
    refine .inl ⟨hcount ▸ hlonger, k, hfree, (clustersFor_le_iff hs).mpr ?_⟩
    omega
  · obtain ⟨hl, hk⟩ := not_or.mp hsome
    obtain rfl := not_not.mp hl
    obtain rfl := not_not.mp hk
    have hhead := LinkChain.head_zero hchain
    have hnone := hall.none_read (writeVfs_scan (entryNode d name a) 0 hhead hscan')
    obtain ⟨hret, hbytes⟩ : (writeFile b d name data).2 = some 0 ∧ (writeFile b d name data).1.bytes = d.bytes :=
      writeFile_nothing hfound hhead hnone
    obtain ⟨a', -, hfound', hsize, -⟩ := hreports 0 hret
    rw [findEntry_root, hbytes, ← findEntry_root, hfound] at hfound'
    obtain rfl : a = a' := some.inj (some.inj hfound')
    rw [hbytes] at hsize
    exact .inr ⟨rfl, hnone, hsize⟩

/-- The return value, the entry's size and its clusters agree where the file has place for the data; where every
scan of the allocator stays inside the volume, they agree only there. -/
theorem writeFile_reports (hlen : data.length < 2 ^ 32) :
    (HasPlace b d a l data.length → WriteReports b d name data) ∧
      (ScansInside b (writeFile b d name data).1 → WriteReports b d name data → HasPlace b d a l data.length) :=
  ⟨HasPlace.reports hg hs hfound hchain hv hd hlen, WriteReports.hasPlace hg hs hfound hchain hv hd hlen⟩

end

theorem smallDisk_write_reports : WriteReports (init smallDisk) smallDisk (.ofString "a") [99, 100] := by
  have hfirst : firstCluster smallDisk 1024 = 2 := by decide +kernel
  have hlast : chainEnd ≤ getFatEntry (init smallDisk) smallDisk 2 := by decide +kernel
  have hchain : LinkChain fatLinks (getFatEntry (init smallDisk) smallDisk) (firstCluster smallDisk 1024) [2] := by
    rw [hfirst]
    exact .single (show ¬ Ends 2 by decide) hlast
  have hv : ∀ c ∈ [2], InVolume (init smallDisk) c := by
    intro c hc
    rw [mem_singleton.mp hc]
    exact ⟨by decide, by decide +kernel, by decide +kernel⟩
  refine (writeFile_reports smallDisk_geometry (by decide) (by decide +kernel) hchain hv (cons_ne_nil _ _) (by decide)).1 ?_
  refine .inl ⟨by decide +kernel, [], ?_, by decide +kernel⟩
  constructor
  · exact .nil
  all_goals exact fun _ hx => absurd hx not_mem_nil

/-- The same volume, where the file has two clusters. -/
def twoDisk : Disk := { smallDisk with bytes := ((smallDisk.bytes.store16 516 3).store16 518 0xFFFF).store32 1052 600 }

theorem shorter_keeps_chain : ¬ WriteReports (init twoDisk) twoDisk (.ofString "a") [99] := by
  intro h
  obtain ⟨a, l, hfound, -, hchain, hcount, -⟩ := h 1 (by decide +kernel)
  have hat : findEntry (init twoDisk) (writeFile (init twoDisk) twoDisk (.ofString "a") [99]).1 0 (.ofString "a") =
      some (some 1024) := by decide +kernel
  rw [hat] at hfound
  obtain rfl : 1024 = a := some.inj (some.inj hfound)
  have htwo : FatChain (init twoDisk) (writeFile (init twoDisk) twoDisk (.ofString "a") [99]).1
      (firstCluster (writeFile (init twoDisk) twoDisk (.ofString "a") [99]).1 1024) [2, 3] :=
    chain_cons.mpr ⟨by decide +kernel, by decide, chain_cons.mpr ⟨by decide +kernel, by decide +kernel, chain_nil.mpr (by decide +kernel)⟩⟩
  rw [Chain.unique hchain htwo] at hcount
  revert hcount
  decide +kernel

end Fat16
end RetroOs.Drivers
