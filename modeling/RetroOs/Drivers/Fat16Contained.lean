import RetroOs.Drivers.Fat16Areas

/-! Each operation as a sequence of updates, and the runs whose operations stay inside the volume. -/
namespace RetroOs.Drivers
open Lib Nat Option Memory
namespace Fat16

variable {b : Bpb} {d d' : Disk} {a c e dir : Nat} {m buffer : Memory} {bytes : List UInt8} {name : CString}
  {α : Type} {r : α}

theorem slotWrite_agreeOn (ha : a % 32 = 0) (he : e % 32 = 0) (hne : e ≠ a)
    (hb : ∀ i < 512, i < a % 512 ∨ a % 512 + 32 ≤ i → buffer i = d.bytes (512 * (a / 512) + i)) :
    d.bytes.AgreeOn (d.writeSector (a / 512) buffer).bytes e 32 := by
  intro x hlo hhi
  simp only [Disk.writeSector]
  split
  · next hin =>
    rw [hb (x - 512 * (a / 512)) (by omega) (by omega)]
    congr 1
    omega
  · rfl

theorem patchSector_bytes (h : a % 512 + bytes.length ≤ 512) : (patchSector d a bytes).bytes = d.bytes.memcpy a bytes := by
  rw [patchSector, Disk.writeSector_memcpy h, div_add_mod]

theorem patch_buffer (h : bytes.length ≤ 32) :
    ∀ i < 512, i < a % 512 ∨ a % 512 + 32 ≤ i →
      (d.readSector (a / 512)).memcpy (a % 512) bytes i = d.bytes (512 * (a / 512) + i) := by
  intro i _ hi
  exact memcpy_agreeOn (d.readSector (a / 512)) bytes (a := i) (n := 1) (by omega) i (le_refl i)
    (lt_succ_self i)

def Slot (b : Bpb) (a : Nat) : Prop := a ∈ rootSlots b ∨ ∃ c, InVolume b c ∧ a ∈ clusterSlots b c

theorem Slot.aligned (h : Slot b a) : a % 32 = 0 := by
  rcases h with h | ⟨c, _, h⟩
  · exact (mem_rootSlots h).1
  · exact (mem_clusterSlots h).1

theorem Slot.above (h : Slot b a) : 512 * b.rootDirStartSector ≤ a := by
  have hdata := dataStart_ge_root b
  rcases h with h | ⟨c, _, h⟩
  · exact (mem_rootSlots h).2.1
  · have hge := (mem_clusterSlots h).2.1
    have hstart := clusterToSector_ge b c
    omega

theorem Update.slot (h : Sound b d) (ha : Slot b a)
    (hb : ∀ i < 512, i < a % 512 ∨ a % 512 + 32 ≤ i → buffer i = d.bytes (512 * (a / 512) + i))
    (hnew : a ∈ rootSlots b → Live (d.writeSector (a / 512) buffer).bytes a →
      NoneOrInVolume b (entryAt (d.writeSector (a / 512) buffer).bytes a).firstCluster) :
    Update b d (d.writeSector (a / 512) buffer) := by
  rcases ha with ha | ⟨c, hc, ha⟩
  · have hroot : ∀ e ∈ rootSlots b, (d.writeSector (a / 512) buffer).bytes e ≠ 0 →
        Live (d.writeSector (a / 512) buffer).bytes e →
        NoneOrInVolume b (entryAt (d.writeSector (a / 512) buffer).bytes e).firstCluster := by
      intro e he hne hlive
      by_cases hea : e = a
      · subst hea
        exact hnew he hlive
      · have hagree := slotWrite_agreeOn (mem_rootSlots ha).1 (mem_rootSlots he).1 hea hb
        rw [hagree e (le_refl e) (by omega)] at hne
        rw [entryAt_congr hagree]
        exact h.root e he hne ((Live.congr hagree).mp hlive)
    obtain ⟨s, hs, hsec⟩ := rootSlots_sector ha
    rw [hsec] at hroot ⊢
    exact .root hs buffer hroot
  · obtain ⟨i, hi, hsec⟩ := clusterSlots_sector ha
    rw [hsec]
    exact .data hc hi buffer

private theorem iterateChain_mem (h : Sound b d) (callback : Nat → Nat → Option α) (fuel : Nat) (hc : Ends c ∨ InVolume b c)
    (hit : iterateChain b d callback fuel c = some (some r)) :
    ∃ e, InVolume b e ∧ ∃ a ∈ clusterSlots b e, atSlot callback a = some r := by
  induction fuel generalizing c with
  | zero => cases hit
  | succ fuel ih =>
    rw [iterateChain] at hit
    split at hit
    · next hgo =>
      have hv : InVolume b c := hc.resolve_left (not_not.mpr hgo)
      rw [iterateCluster_eq] at hit
      split at hit
      · next hfind =>
        cases some.inj hit
        obtain ⟨a, ha, hr⟩ := List.exists_of_findSome?_eq_some hfind
        exact ⟨c, hv, a, ha, hr⟩
      · exact ih (h.fat c hv) hit
    · cases hit

private theorem iterateDir_mem (h : Sound b d) (callback : Nat → Nat → Option α) (hdir : Ends dir ∨ InVolume b dir)
    (hit : iterateDir b d dir callback = some (some r)) :
    ∃ a, Slot b a ∧ (dir = 0 → a ∈ rootSlots b) ∧ atSlot callback a = some r := by
  by_cases h0 : dir = 0
  · subst h0
    rw [DirSlots.root.iterate] at hit
    obtain ⟨a, ha, hr⟩ := List.exists_of_findSome?_eq_some (some.inj hit)
    exact ⟨a, .inl ha, fun _ => ha, hr⟩
  · rw [iterateDir, if_neg h0] at hit
    obtain ⟨e, he, a, ha, hr⟩ := iterateChain_mem h callback _ hdir hit
    exact ⟨a, .inr ⟨e, he, ha⟩, fun h => absurd h h0, hr⟩

private theorem findCallback_some (h : atSlot (findCallback m name) e = some (some a)) : a = e ∧ m a ≠ 0 ∧ Live m a := by
  simp only [atSlot, findCallback, atSlot_address] at h
  split at h
  · cases h
  · next h0 =>
    split at h
    · cases h
    · next he5 =>
      split at h
      · cases h
      · next hlfn =>
        split at h
        · cases some.inj h
          exact ⟨rfl, h0, he5, hlfn⟩
        · cases h

theorem findEntry_mem (h : Sound b d) (hdir : Ends dir ∨ InVolume b dir)
    (hit : findEntry b d dir name = some (some a)) :
    Slot b a ∧ (dir = 0 → a ∈ rootSlots b) ∧ d.bytes a ≠ 0 ∧ Live d.bytes a := by
  obtain ⟨r, hr, hjoin⟩ := map_eq_some_iff.mp hit
  cases r with
  | none => cases hjoin
  | some r =>
    subst hjoin
    obtain ⟨e, hslot, hroot, he⟩ := iterateDir_mem h _ hdir hr
    obtain ⟨rfl, hne, hlive⟩ := findCallback_some he
    exact ⟨hslot, hroot, hne, hlive⟩

theorem allocCluster_allocs (b : Bpb) (d : Disk) :
    (allocCluster b d).1.allocs = (d.bytes, (allocCluster b d).2) :: d.allocs := by
  rw [allocCluster]
  split
  · exact setFatEntry_allocs
  · rfl

/-- At every call of the allocator its scan stays inside the volume. -/
def ScansInside (b : Bpb) (d : Disk) : Prop := ∀ p ∈ d.allocs, ScanInside b p.1

theorem ScansInside.mono (h : ScansInside b d') (hsub : d.allocs ⊆ d'.allocs) : ScansInside b d :=
  fun p hp => h p (hsub hp)

theorem ScansInside.alloc (h : ScansInside b (allocCluster b d).1) : ScanInside b d.bytes := by
  apply h (d.bytes, (allocCluster b d).2)
  rw [allocCluster_allocs]
  exact .head _

theorem allocCluster_updates (h : ScanInside b d.bytes) :
    Updates b d (allocCluster b d).1 ∧
      ((allocCluster b d).2 = 0 ∨ InVolume b (allocCluster b d).2 ∧ (allocCluster b d).2 < chainEnd) := by
  rcases allocCluster_cases b d with ⟨he, -⟩ | ⟨c, hfree, hfirst, he⟩
  · rw [he]
    exact ⟨.single (.log (.inl rfl)), .inl rfl⟩
  · rw [he]
    have hc := h.first hfree hfirst
    have hends : Ends 0xFFFF := by decide
    exact ⟨.tail (.single (.log (.inr hc))) (.fat hc (.inl hends) (by decide)), .inr ⟨hc, hfree.2.1⟩⟩

theorem patchSector_root (h : Sound b d) (ha : Slot b a) (hlen : bytes.length ≤ 32)
    (hnew : a ∈ rootSlots b → Live (d.bytes.memcpy a bytes) a →
      NoneOrInVolume b (entryAt (d.bytes.memcpy a bytes) a).firstCluster) :
    Update b d (patchSector d a bytes) := by
  have halign := ha.aligned
  apply Update.slot h ha (patch_buffer hlen)
  rwa [← patchSector_bytes (by omega)] at hnew

private theorem addEntry_updates (h : Sound b d) (hdir : Ends dir ∨ InVolume b dir) (attr : Nat) (hc : NoneOrInVolume b c)
    (hlt : c < 2 ^ 16) : Updates b d (addEntry b d dir name attr c).1 := by
  rw [addEntry]
  split
  · exact .refl
  · exact .refl
  · split
    · exact .refl
    · exact .refl
    · next hit =>
      obtain ⟨a, hslot, -, ha⟩ := iterateDir_mem h _ hdir hit
      simp only [atSlot, findFreeCallback, atSlot_address] at ha
      split at ha
      · obtain rfl := Option.some.inj ha
        apply Relation.ReflTransGen.single
        apply patchSector_root h hslot (Nat.le_of_eq (entryBytes_length ..))
        intro _ _
        rwa [(entryAt_entryBytes d.bytes a name attr c).2, Nat.mod_eq_of_lt hlt]
      · cases ha

private theorem clearCluster_updates (hc : InVolume b c) (d : Disk) : Updates b d (clearCluster b d c) :=
  clearCluster_invariant (fun _ e => Updates b d e) .refl fun _ _ hi hup => hup.tail (.data hc hi fun _ => 0)

private theorem clearCluster_allocs (b : Bpb) (d : Disk) (c : Nat) : (clearCluster b d c).allocs = d.allocs :=
  clearCluster_invariant (fun _ e => e.allocs = d.allocs) rfl fun _ _ _ h => h

theorem addEntry_allocs (b : Bpb) (d : Disk) (dir : Nat) (name : CString) (attr c : Nat) :
    (addEntry b d dir name attr c).1.allocs = d.allocs := by
  rw [addEntry]
  split
  · rfl
  · rfl
  · split <;> rfl

theorem mkdirVfs_allocs (b : Bpb) (d : Disk) (dir : Nat) (name : CString) :
    (mkdirVfs b d dir name).1.allocs = (allocCluster b d).1.allocs := by
  rw [mkdirVfs]
  dsimp only
  split
  · rfl
  · rw [addEntry_allocs, clearCluster_allocs]

theorem mkdirVfs_updates (hg : Geometry b) (h : Sound b d) (hdir : Ends dir ∨ InVolume b dir)
    (hscan : ScanInside b d.bytes) : Updates b d (mkdirVfs b d dir name).1 := by
  obtain ⟨hup, hc⟩ := allocCluster_updates hscan
  rw [mkdirVfs]
  dsimp only
  split
  · exact hup
  · next hne =>
    obtain ⟨hv, hlt⟩ := hc.resolve_left hne
    have hclear : Updates b d _ := hup.trans (clearCluster_updates hv _)
    have hlt' : (allocCluster b d).2 < 2 ^ 16 := lt_trans hlt (by decide)
    exact hclear.trans (addEntry_updates (hclear.sound hg h) hdir _ (.inr hv) hlt')

private theorem freeChain_updates (hg : Geometry b) (h : Sound b d) (hc : Ends c ∨ InVolume b c) (fuel : Nat) :
    Updates b d (freeChain b d fuel c) := by
  induction fuel generalizing d c with
  | zero => exact .refl
  | succ fuel ih =>
    rw [freeChain]
    split
    · next hgo =>
      have hv : InVolume b c := hc.resolve_left (not_not.mpr hgo)
      have hends : Ends 0 := by decide
      have hfree : Update b d (setFatEntry b d c 0) := .fat hv (.inl hends) (by decide)
      exact .head hfree (ih (hfree.sound hg h) (h.fat c hv))
    · exact .refl

theorem NoneOrInVolume.ends (h : NoneOrInVolume b c) : Ends c ∨ InVolume b c :=
  h.imp_left fun hlt hgo => absurd hgo.1 (not_le.mpr hlt)

theorem ends_zero : Ends 0 := by decide

private theorem deleteFile_updates (hg : Geometry b) (h : Sound b d) : Updates b d (deleteFile b d name).1 := by
  rw [deleteFile]
  split
  · next a hit =>
    obtain ⟨hslot, hroot, hne, hlive⟩ := findEntry_mem h (.inl ends_zero) hit
    have hc := h.root a (hroot rfl) hne hlive
    have hfree := freeChain_updates hg h hc.ends 0x10000
    apply hfree.tail
    apply patchSector_root (hfree.sound hg h) hslot (by decide)
    exact fun _ hlive' => (not_live_deleted _ a hlive').elim
  · exact .refl

theorem unlinkVfs_updates (hg : Geometry b) (h : Sound b d) (dir : Nat) : Updates b d (unlinkVfs b d dir name).1 := by
  rw [unlinkVfs]
  split
  · exact deleteFile_updates hg h
  · exact .refl

theorem createVfs_updates (h : Sound b d) (hdir : Ends dir ∨ InVolume b dir) : Updates b d (createVfs b d dir name).1 :=
  addEntry_updates h hdir _ (.inl (by decide)) (by decide)

theorem renameVfs_updates (h : Sound b d) (hdir : Ends dir ∨ InVolume b dir) (old new : CString) :
    Updates b d (renameVfs b d dir old new).1 := by
  rw [renameVfs]
  split
  · exact .refl
  · exact .refl
  · next a hit =>
    obtain ⟨hslot, hroot, hne, hlive⟩ := findEntry_mem h hdir hit
    apply Relation.ReflTransGen.single
    apply patchSector_root h hslot (by rw [encodeName_length]; decide)
    intro ha hlive'
    rw [(entryAt_memcpy_name d.bytes a (le_of_eq (encodeName_length new))).2]
    exact h.root a ha hne hlive

private theorem writeSectors_updates (hc : InVolume b c) (d : Disk) (data : List UInt8) (w : Nat) :
    Updates b d (writeSectors d data b.sectorsPerCluster (b.clusterToSector c) w).1 :=
  writeSectors_invariant (i := 0) (fun e => Updates b d e) .refl fun _ hup _ _ hj buffer =>
    hup.tail (.data hc (by omega) buffer)

theorem writeSectors_allocs (b : Bpb) (d : Disk) (data : List UInt8) (c w : Nat) :
    (writeSectors d data b.sectorsPerCluster (b.clusterToSector c) w).1.allocs = d.allocs :=
  writeSectors_invariant (i := 0) (fun e => e.allocs = d.allocs) rfl fun _ h _ _ _ _ => h

theorem writeClusters_allocs (b : Bpb) (d : Disk) (data : List UInt8) (fuel c w : Nat) :
    d.allocs ⊆ (writeClusters b d data fuel c w).1.allocs := by
  induction fuel generalizing d c w with
  | zero => exact List.Subset.refl _
  | succ fuel ih =>
    rw [writeClusters]
    split
    · have hws := writeSectors_allocs b d data c w
      generalize writeSectors d data b.sectorsPerCluster (b.clusterToSector c) w = p at hws ⊢
      dsimp only
      rw [← hws]
      split
      · split
        · have halloc : p.1.allocs ⊆ (allocCluster b p.1).1.allocs := by
            rw [allocCluster_allocs]
            exact List.subset_cons_self ..
          split
          · exact halloc
          · have hlink := ih (setFatEntry b (allocCluster b p.1).1 c (allocCluster b p.1).2) (allocCluster b p.1).2 p.2
            rw [setFatEntry_allocs] at hlink
            exact List.Subset.trans halloc hlink
        · exact ih ..
      · exact List.Subset.refl _
    · exact List.Subset.refl _

private theorem writeClusters_updates (hg : Geometry b) (h : Sound b d) (data : List UInt8) (fuel w : Nat)
    (hc : NoneOrInVolume b c) (hscan : ScansInside b (writeClusters b d data fuel c w).1) :
    Updates b d (writeClusters b d data fuel c w).1 := by
  induction fuel generalizing d c w with
  | zero => exact .refl
  | succ fuel ih =>
    rw [writeClusters] at hscan ⊢
    split at hscan
    · next hgo =>
      rw [if_pos hgo]
      have hv : InVolume b c := hc.resolve_left (not_lt.mpr hgo.1)
      have hws := writeSectors_updates hv d data w
      generalize writeSectors d data b.sectorsPerCluster (b.clusterToSector c) w = p at hws hscan ⊢
      have hp : Sound b p.1 := hws.sound hg h
      dsimp only at hscan ⊢
      split at hscan
      · next hmore =>
        rw [if_pos hmore]
        split at hscan
        · next hend =>
          rw [if_pos hend]
          split at hscan
          · next hfull =>
            rw [if_pos hfull]
            exact hws.trans (allocCluster_updates hscan.alloc).1
          · next hnew =>
            rw [if_neg hnew]
            have hsub := hscan.mono (writeClusters_allocs ..)
            rw [ScansInside, setFatEntry_allocs] at hsub
            obtain ⟨halloc, hcv⟩ := allocCluster_updates (ScansInside.alloc hsub)
            obtain ⟨hcv, hlt⟩ := hcv.resolve_left hnew
            have hlink : Updates b p.1 _ := halloc.tail (.fat hv (.inr hcv) (lt_trans hlt (by decide)))
            exact (hws.trans hlink).trans (ih (hlink.sound hg hp) _ (.inr hcv) hscan)
        · next hend =>
          rw [if_neg hend]
          have hnext : NoneOrInVolume b (getFatEntry b p.1 c) := by
            rcases hp.fat c hv with hends | hin
            · simp only [Ends] at hends
              exact .inl (by omega)
            · exact .inr hin
          exact hws.trans (ih hp _ hnext hscan)
      · next hdone =>
        rw [if_neg hdone]
        exact hws
    · next hstop => rw [if_neg hstop]

private theorem writeVfs_updates (hg : Geometry b) (h : Sound b d) (node : Node) (o : Nat) (data : List UInt8)
    (hc : NoneOrInVolume b node.impl) (hscan : ScansInside b (writeVfs b d node o data).1) :
    Updates b d (writeVfs b d node o data).1 ∧ NoneOrInVolume b (writeVfs b d node o data).2.1.impl ∧
      (node.impl < 2 ^ 16 → (writeVfs b d node o data).2.1.impl < 2 ^ 16) := by
  rw [writeVfs] at hscan ⊢
  split at hscan
  · next h0 =>
    rw [if_pos h0]
    dsimp only at hscan ⊢
    split at hscan
    · next hfull =>
      rw [if_pos hfull]
      exact ⟨(allocCluster_updates hscan.alloc).1, hc, id⟩
    · next hnew =>
      rw [if_neg hnew]
      obtain ⟨halloc, hcv⟩ := allocCluster_updates (hscan.mono (writeClusters_allocs ..)).alloc
      obtain ⟨hcv, hlt⟩ := hcv.resolve_left hnew
      have hwrite := writeClusters_updates hg (halloc.sound hg h) data _ 0 (.inr hcv) hscan
      exact ⟨halloc.trans hwrite, .inr hcv, fun _ => lt_trans hlt (by decide)⟩
  · next h0 =>
    rw [if_neg h0]
    exact ⟨writeClusters_updates hg h data _ 0 hc hscan, hc, id⟩

def setEntry (d : Disk) (a size cluster : Nat) : Disk :=
  d.writeSector (a / 512) (((d.readSector (a / 512)).store32 (a % 512 + 28) size).store16 (a % 512 + 26) cluster)

theorem setEntry_buffer (d : Disk) (a size cluster : Nat) :
    ∀ i < 512, i < a % 512 ∨ a % 512 + 32 ≤ i →
      ((d.readSector (a / 512)).store32 (a % 512 + 28) size).store16 (a % 512 + 26) cluster i =
        d.bytes (512 * (a / 512) + i) := by
  intro i _ hi
  rw [store16_agreeOn _ cluster (a := i) (n := 1) (by omega) i (le_refl i) (lt_succ_self i),
    store32_agreeOn _ size (a := i) (n := 1) (by omega) i (le_refl i) (lt_succ_self i)]
  rfl

theorem setEntry_firstCluster (ha : a % 512 + 32 ≤ 512) (d : Disk) (size : Nat) (hlt : c < 2 ^ 16) :
    (entryAt (setEntry d a size c).bytes a).firstCluster = c := by
  have haddr : a + 26 = 512 * (a / 512) + (a % 512 + 26) := by omega
  simp only [entryAt, setEntry]
  rw [haddr, Disk.writeSector_load16 (by omega), load16_store16 _ _ hlt]

private theorem writeFile_updates (hg : Geometry b) (h : Sound b d) (data : List UInt8)
    (hscan : ScansInside b (writeFile b d name data).1) : Updates b d (writeFile b d name data).1 := by
  rw [writeFile] at hscan ⊢
  split
  · next a hit =>
    rw [hit] at hscan
    obtain ⟨-, hroot, hne, hlive⟩ := findEntry_mem h (.inl ends_zero) hit
    have hc := h.root a (hroot rfl) hne hlive
    have hlt : (entryAt d.bytes a).firstCluster < 2 ^ 16 := load16_lt _ _
    have hwrite := writeVfs_updates hg h
      { name, impl := (entryAt d.bytes a).firstCluster, size := (entryAt d.bytes a).fileSize, directory := false } 0 data hc
    dsimp only at hscan hwrite ⊢
    generalize writeVfs b d _ 0 data = p at hscan hwrite ⊢
    split at hscan
    · next hpos =>
      rw [if_pos hpos]
      split at hscan
      · next a' hit' =>
        obtain ⟨hup, himpl, hlt'⟩ := hwrite hscan
        have hp := hup.sound hg h
        obtain ⟨hslot, hroot', -, -⟩ := findEntry_mem hp (.inl ends_zero) hit'
        have halign := hslot.aligned
        refine hup.tail (.slot hp hslot (setEntry_buffer p.1 a' data.length p.2.1.impl) fun _ _ => ?_)
        have hcluster := setEntry_firstCluster (a := a') (by omega) p.1 data.length (hlt' hlt)
        rw [setEntry] at hcluster
        rwa [hcluster]
      · exact (hwrite hscan).1
    · next hpos =>
      rw [if_neg hpos]
      exact (hwrite hscan).1
  · exact .refl

/-- The operations on the volume that change it: the nodes are those that the file layer passes, `dir`
is the first cluster of a directory's node. -/
inductive Op where
  | create (dir : Nat) (name : CString)
  | mkdir (dir : Nat) (name : CString)
  | unlink (dir : Nat) (name : CString)
  | rename (dir : Nat) (old new : CString)
  | write (node : Node) (offset : Nat) (data : List UInt8)
  | writeFile (name : CString) (data : List UInt8)

namespace Op

def run (b : Bpb) (d : Disk) : Op → Disk
  | create dir name => (createVfs b d dir name).1
  | mkdir dir name => (mkdirVfs b d dir name).1
  | unlink dir name => (unlinkVfs b d dir name).1
  | rename dir old new => (renameVfs b d dir old new).1
  | write node offset data => (writeVfs b d node offset data).1
  | writeFile name data => (Fat16.writeFile b d name data).1

def NodesInside (b : Bpb) : Op → Prop
  | create dir _ => Ends dir ∨ InVolume b dir
  | mkdir dir _ => Ends dir ∨ InVolume b dir
  | unlink _ _ => True
  | rename dir _ _ => Ends dir ∨ InVolume b dir
  | write node _ _ => NoneOrInVolume b node.impl
  | writeFile _ _ => True

def Inside (b : Bpb) (d : Disk) (op : Op) : Prop := op.NodesInside b ∧ ScansInside b (op.run b d)

private theorem updates (hg : Geometry b) (h : Sound b d) (op : Op) (hin : op.Inside b d) : Updates b d (op.run b d) := by
  obtain ⟨hnodes, hscan⟩ := hin
  cases op with
  | create dir name => exact createVfs_updates h hnodes
  | mkdir dir name =>
    rw [run, ScansInside, mkdirVfs_allocs] at hscan
    exact mkdirVfs_updates hg h hnodes (ScansInside.alloc hscan)
  | unlink dir name => exact unlinkVfs_updates hg h dir
  | rename dir old new => exact renameVfs_updates h hnodes old new
  | write node offset data => exact (writeVfs_updates hg h node offset data hnodes hscan).1
  | writeFile name data => exact writeFile_updates hg h data hscan

end Op

/-- A node found in the root directory has its first cluster in the volume, or none. -/
theorem finddirVfs_root (h : Sound b d) {node : Node} (hfind : finddirVfs b d 0 name = some (.node node)) :
    NoneOrInVolume b node.impl := by
  rw [finddirVfs] at hfind
  split at hfind
  · cases hfind
  · split at hfind
    · cases hfind
    · cases hfind
    · next a hit =>
      obtain ⟨-, hroot, hne, hlive⟩ := findEntry_mem h (.inl ends_zero) hit
      obtain rfl := Lookup.node.inj (some.inj hfind)
      exact h.root a (hroot rfl) hne hlive

private theorem updates_run {d₀ : Disk} (hg : Geometry b) (h : Sound b d₀) (hr : Runs (Op.run b) (Op.Inside b) d₀ d) :
    Sound b d ∧ Updates b d₀ d := by
  apply hr.invariant ⟨h, .refl⟩
  rintro d op ⟨hs, hu⟩ hin
  have hstep := op.updates hg hs hin
  exact ⟨hstep.sound hg hs, hu.trans hstep⟩

/-- In a run whose nodes and scans stay inside the volume, so do the allocated clusters and the sectors
written, and copies of the table that agree at the start agree. -/
theorem contained_run {d₀ : Disk} (hg : Geometry b) (h : Sound b d₀) (hc : Contained b d₀)
    (hr : Runs (Op.run b) (Op.Inside b) d₀ d) : Contained b d ∧ (CopiesAgree b d₀.bytes → CopiesAgree b d.bytes) := by
  obtain ⟨-, hup⟩ := updates_run hg h hr
  exact ⟨hup.contained hg hc, hup.copies⟩

theorem smallDisk_geometry : Geometry (init smallDisk) := ⟨by decide +kernel, by decide +kernel⟩

theorem smallDisk_sound : Sound (init smallDisk) smallDisk := by
  have htable : ∀ c < 256 * (init smallDisk).sectorsPerFat, InVolume (init smallDisk) c →
      Ends (getFatEntry (init smallDisk) smallDisk c) ∨
        InVolume (init smallDisk) (getFatEntry (init smallDisk) smallDisk c) := by decide +kernel
  exact ⟨fun c hc => htable c hc.fat hc, by decide +kernel⟩

theorem Op.smallDisk_mkdir_inside : (Op.mkdir 0 (.ofString "b")).Inside (init smallDisk) smallDisk := by
  refine ⟨.inl ends_zero, fun p hp => ?_⟩
  have hlog : (mkdirVfs (init smallDisk) smallDisk 0 (.ofString "b")).1.allocs =
      [(smallDisk.bytes, (allocCluster (init smallDisk) smallDisk).2)] := by
    rw [mkdirVfs_allocs, allocCluster_allocs]
    rfl
  rw [List.mem_singleton.mp hp]
  exact .inl ⟨3, ⟨by decide, by decide, by decide +kernel⟩, by decide +kernel⟩

theorem smallDisk_contained : Contained (init smallDisk) ((Op.mkdir 0 (.ofString "b")).run (init smallDisk) smallDisk) :=
  (contained_run smallDisk_geometry smallDisk_sound ⟨by decide, by decide⟩
    (.single ⟨.mkdir 0 (.ofString "b"), Op.smallDisk_mkdir_inside, rfl⟩)).1

/-- The same volume, but with room for one cluster only, which is in use. -/
def tightDisk : Disk := { smallDisk with bytes := smallDisk.bytes.store8 19 4 }

theorem mkdir_leaves_volume :
    ∃ d, Geometry (init d) ∧ Sound (init d) d ∧ Contained (init d) d ∧ (Op.mkdir 0 (.ofString "b")).NodesInside (init d) ∧
      ¬ Contained (init d) ((Op.mkdir 0 (.ofString "b")).run (init d) d) := by
  have htable : ∀ c < 256 * (init tightDisk).sectorsPerFat, InVolume (init tightDisk) c →
      Ends (getFatEntry (init tightDisk) tightDisk c) ∨
        InVolume (init tightDisk) (getFatEntry (init tightDisk) tightDisk c) := by decide +kernel
  refine ⟨tightDisk, ⟨by decide +kernel, by decide +kernel⟩, ⟨fun c hc => htable c hc.fat hc, by decide +kernel⟩,
    ⟨by decide, by decide⟩, .inl ends_zero, fun h => ?_⟩
  have hwritten := h.written
  revert hwritten
  decide +kernel

end Fat16
end RetroOs.Drivers
