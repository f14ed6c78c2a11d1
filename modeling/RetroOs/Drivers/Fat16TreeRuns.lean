import RetroOs.Drivers.Fat16TreeSteps

/-! Runs of the operations from a formatted volume: which of them keep every cluster in use in the chain
of one entry. -/
namespace RetroOs.Drivers
open Lib Relation Function
namespace Fat16

variable {b : Bpb} {d d' : Disk} {a c : Nat} {ch ch' : Nat → List Nat} {name : CString} {data : List UInt8}

namespace TreeInv

private theorem apart_beside (h : TreeInv b d ch) (ha : LiveEntry b d a) (hdir : ¬ IsDir d a) (hap : Apart b d d' (ch a)) :
    ∀ x, InTree b d x → Beside b d d' x.1 x.2 :=
  fun _ hx => hap.beside _ _ (h.directory hx) (h.disjoint_dir ha hx fun hgone => hdir hgone.1)

private theorem same_bytes (h : TreeInv b d ch) (hbytes : d'.bytes = d.bytes) : TreeInv b d' ch := by
  have hfat : ∀ c, getFatEntry b d' c = getFatEntry b d c := by
    intro c
    rw [getFatEntry_eq, getFatEntry_eq, hbytes]
  apply h.beside (fun x _ => ⟨fun c _ => hfat c, fun a _ => by rw [hbytes]; exact .refl⟩)
    (OutsideFree.congr h.outside fun c _ _ => hfat c)
  exact h.owned.congr (fun c _ => hfat c) (fun _ => Iff.rfl) fun _ _ => rfl

end TreeInv

theorem allocCluster_none (hnone : ∀ c, ¬ ReadsFree b d.bytes c) :
    (allocCluster b d).2 = 0 ∧ (allocCluster b d).1.bytes = d.bytes := by
  rcases allocCluster_cases b d with ⟨he, -⟩ | ⟨c, hfree, -, -⟩
  · rw [he]
    exact ⟨rfl, rfl⟩
  · exact absurd hfree (hnone c)

private theorem writeVfs_tree (hg : Geometry b) (h : TreeInv b d ch) (node : Node) (o : Nat)
    (hscan : ScansInside b (writeVfs b d node o data).1)
    (hnode : (∃ a, LiveEntry b d a ∧ ¬ IsDir d a ∧ ∃ k, FatChain b d (firstCluster d a) k ∧ node.impl ∈ k) ∨
      node.impl ≠ 0 ∧ data = [] ∨ node.impl = 0 ∧ ∀ c, ¬ ReadsFree b d.bytes c) :
    ∃ ch', TreeInv b (writeVfs b d node o data).1 ch' := by
  rcases hnode with ⟨a, ha, hdir, k, hk, himpl⟩ | ⟨hne, hempty⟩ | ⟨h0, hnone⟩
  · rw [Chain.unique hk (h.fatChain ha)] at himpl
    obtain ⟨xs, ys, hch⟩ := List.append_of_mem himpl
    have hne : node.impl ≠ 0 := by
      have htwo := (h.owned.cells a ha _ himpl).two_le
      omega
    rw [writeVfs, if_neg hne] at hscan ⊢
    obtain ⟨⟨ch', howned⟩, hap⟩ := writeClusters_owned hg _ 0 h.owned ha hch hscan
    exact ⟨ch', h.beside (h.apart_beside ha hdir hap) (OutsideFree.congr h.outside hap.outside) howned⟩
  · rw [writeVfs, if_neg hne, hempty, writeClusters_empty]
    exact ⟨ch, h⟩
  · obtain ⟨hzero, hbytes⟩ := allocCluster_none hnone
    rw [writeVfs, if_pos h0]
    dsimp only
    rw [if_pos hzero]
    exact ⟨ch, h.same_bytes hbytes⟩

theorem TreeInv.first_cluster {p : Disk × Nat} (h : TreeInv b d ch) (ha : LiveEntry b d a) (h0 : firstCluster d a = 0)
    (hv : InVolume b p.2) (hlt : p.2 < chainEnd) (hfree : getFatEntry b d p.2 = 0)
    (hbytes : p.1.bytes = (setFatEntry b d p.2 0xFFFF).bytes) :
    FatOwned b p.1 (LiveEntry b d) (update (firstCluster d) a p.2) (update ch a [p.2]) := by
  have hfat : ∀ c, getFatEntry b p.1 c = getFatEntry b (setFatEntry b d p.2 0xFFFF) c := by
    intro c
    rw [getFatEntry_eq, getFatEntry_eq, hbytes]
  have hmark : chainEnd ≤ getFatEntry b p.1 p.2 := by
    rw [hfat p.2, getFatEntry_setFatEntry (by decide) hv.fat]
    decide
  exact h.owned.add (fun _ => h.chain_nil ha h0)
    (fun j => ⟨.inl, fun hj => hj.elim id fun heq => heq ▸ ha⟩)
    (fun j _ hne => update_of_ne hne _ _) hv hfree (not_not.mpr ⟨hv.two_le, hlt⟩)
    (fun e he hne => (hfat e).trans (getFatEntry_setFatEntry_other he.fat hne)) hmark (update_self ..)

private theorem writeVfs_owned (hg : Geometry b) (h : TreeInv b d ch) (ha : LiveEntry b d a) (hdir : ¬ IsDir d a) (node : Node) (o : Nat)
    (himpl : node.impl = firstCluster d a) (hscan : ScansInside b (writeVfs b d node o data).1) :
    (writeVfs b d node o data).1.bytes = d.bytes ∧ (writeVfs b d node o data).2.2 = 0 ∨
      ((∃ ch', FatOwned b (writeVfs b d node o data).1 (LiveEntry b d)
          (update (firstCluster d) a (writeVfs b d node o data).2.1.impl) ch') ∧
        (∀ x, InTree b d x → Beside b d (writeVfs b d node o data).1 x.1 x.2) ∧
        (∀ c < 256 * b.sectorsPerFat, ¬ InVolume b c →
          getFatEntry b (writeVfs b d node o data).1 c = getFatEntry b d c) ∧
        (writeVfs b d node o data).2.1.impl < 2 ^ 16 ∧
        ((writeVfs b d node o data).2.1.impl = firstCluster d a ∨
          (1 ≤ b.sectorsPerCluster → data ≠ [] → 0 < (writeVfs b d node o data).2.2))) := by
  rw [writeVfs] at hscan ⊢
  split at hscan
  · next h0 =>
    rw [if_pos h0]
    dsimp only at hscan ⊢
    split at hscan
    · next hfull =>
      rw [if_pos hfull]
      obtain ⟨-, hres⟩ := allocCluster_apart hg hscan.alloc []
      obtain ⟨-, hbytes, -⟩ := hres.resolve_right fun hin => absurd hfull (by have := hin.1.two_le; omega)
      exact .inl ⟨hbytes, rfl⟩
    · next hnew =>
      rw [if_neg hnew]
      obtain ⟨hap, hres⟩ := allocCluster_apart hg (hscan.mono (writeClusters_allocs ..)).alloc []
      obtain ⟨hv, hlt, hfree, hbytes⟩ := hres.resolve_left fun hin => hnew hin.1
      generalize allocCluster b d = p at hscan hap hv hlt hfree hbytes ⊢
      have hall : ∀ x, InTree b d x → Beside b d p.1 x.1 x.2 :=
        fun x hx => hap.beside _ _ (h.directory hx) fun _ hc => absurd hc List.not_mem_nil
      have hown := h.first_cluster ha (himpl.symm.trans h0) hv hlt hfree hbytes
      have hch : update ch a [p.2] a = [] ++ p.2 :: [] := update_self ..
      obtain ⟨⟨ch', howned⟩, hap'⟩ := writeClusters_owned hg _ 0 hown ha hch hscan
      rw [update_self] at hap'
      refine .inr ⟨⟨ch', howned⟩, fun x hx => (hall x hx).trans ?_, fun c hc hcv => ?_, Nat.lt_trans hlt (by decide), .inr ?_⟩
      · apply hap'.beside _ _ ((h.directory hx).beside (hall x hx))
        intro c hc hcx
        rw [List.mem_singleton.mp hc] at hcx
        exact (h.directory hx).used _ hcx hfree
      · exact (hap'.outside c hc hcv).trans (hap.outside c hc hcv)
      · exact fun hs hd => writeClusters_pos b p.1 hs hv.two_le hd (Nat.succ_pos _)
  · next h0 =>
    rw [if_neg h0]
    obtain ⟨ys, hch⟩ : ∃ ys, ch a = [] ++ node.impl :: ys := by
      rw [himpl] at h0 ⊢
      exact (h.owned.chain a ha).head_eq h0
    obtain ⟨⟨ch', howned⟩, hap⟩ := writeClusters_owned hg _ 0 h.owned ha hch hscan
    rw [himpl, update_eq_self]
    rw [himpl] at howned hap
    exact .inr ⟨⟨ch', howned⟩, h.apart_beside ha hdir hap, hap.outside, Memory.load16_lt _ _, .inl rfl⟩

theorem setEntry_agreeOn (halign : a % 32 = 0) (d : Disk) (size c : Nat) : d.bytes.AgreeOn (setEntry d a size c).bytes a 26 := by
  intro x hlo hhi
  have hx : x = 512 * (a / 512) + (x - 512 * (a / 512)) := by omega
  rw [setEntry, hx, Disk.writeSector_at (by omega)]
  rw [Memory.store16_agreeOn _ c (a := x - 512 * (a / 512)) (n := 1) (by omega) _ (Nat.le_refl _) (Nat.lt_succ_self _),
    Memory.store32_agreeOn _ size (a := x - 512 * (a / 512)) (n := 1) (by omega) _ (Nat.le_refl _) (Nat.lt_succ_self _)]
  rfl

theorem TreeInv.setEntry (hg : Geometry b) (h : TreeInv b d ch) (ha : a ∈ liveSlots d.bytes (rootSlots b)) (hdir : ¬ IsDir d a)
    (hb : ∀ x, InTree b d x → Beside b d d' x.1 x.2)
    (hout : ∀ c < 256 * b.sectorsPerFat, ¬ InVolume b c → getFatEntry b d' c = getFatEntry b d c) (size : Nat)
    (hlt : c < 2 ^ 16) (ho : FatOwned b d' (LiveEntry b d) (update (firstCluster d) a c) ch') :
    TreeInv b (Fat16.setEntry d' a size c) ch' := by
  have hroot : InTree b d (0, []) := .refl
  obtain ⟨hmem, hne, hlive⟩ := mem_liveSlots ha
  have hslot := h.slot hroot hmem
  have halign := hslot.aligned
  have hagree := ((hb _ hroot).slots a hmem |>.mono (k := 26) (Nat.le_refl a) (by omega)).trans
    (setEntry_agreeOn halign d' size c)
  have hfirst : (Fat16.setEntry d' a size c).bytes a = d.bytes a := hagree a (Nat.le_refl a) (by omega)
  have hattr : (entryAt (Fat16.setEntry d' a size c).bytes a).attributes = (entryAt d.bytes a).attributes := by
    simp only [entryAt]
    rw [hagree (a + 11) (by omega) (by omega)]
  have hkeep : ∀ e ∈ rootSlots b, e ≠ a → (Fat16.setEntry d' a size c).bytes e = d'.bytes e :=
    fun e he hea => slotWrite_agreeOn halign (mem_rootSlots he).1 hea (setEntry_buffer d' a size c) e (Nat.le_refl e) (by omega)
  have hused := ((h.directory hroot).beside (hb _ hroot)).packed.mem_takeWhile hmem
    (by rw [(hb _ hroot).slots a hmem a (Nat.le_refl a) (by omega)]; exact hne) hkeep (by rwa [hfirst])
  have hf : TreeFrame b d (Fat16.setEntry d' a size c) a (fun _ => False) :=
    h.frame_slotWrite hg (fun x hx _ => hb x hx) hroot hmem (setEntry_buffer d' a size c) hused
  have hfat : ∀ x < 256 * b.sectorsPerFat, getFatEntry b (Fat16.setEntry d' a size c) x = getFatEntry b d' x :=
    fun x hx => slotWrite_fat hg hslot hx
  have hlive' : a ∈ liveSlots (Fat16.setEntry d' a size c).bytes (slotsOf b 0 []) :=
    (hf.packed _ hroot id).mem_liveSlots hmem (by rwa [hfirst]) ⟨by rw [hfirst]; exact hlive.1, by rw [hattr]; exact hlive.2⟩
  apply h.rewrite hf hroot ha hlive' (by rw [IsDir, IsDir, hattr]) (fun hd => absurd hd hdir)
    (OutsideFree.congr h.outside fun x hx hxv => (hfat x hx).trans (hout x hx hxv))
  apply ho.congr (fun x hx => hfat x hx.fat) (fun _ => Iff.rfl)
  intro j hj
  by_cases hja : j = a
  · subst hja
    rw [update_self]
    exact setEntry_firstCluster (by omega) d' size hlt
  · rw [update_of_ne hja, firstCluster, hf.entry_live (fun _ hf => hf.elim) hj hja]
    rfl

theorem TreeInv.writeFile_found (hg : Geometry b) (h : TreeInv b d ch) (ha : a ∈ liveSlots d.bytes (rootSlots b))
    (hdir : ¬ IsDir d a) (node : Node) (himpl : node.impl = firstCluster d a)
    (hdata : firstCluster d a ≠ 0 ∨ 1 ≤ b.sectorsPerCluster ∧ data ≠ [] ∨ ∀ c, ¬ ReadsFree b d.bytes c)
    (hscan : ScansInside b (writeVfs b d node 0 data).1) :
    (∀ x, InTree b d x → Beside b d (writeVfs b d node 0 data).1 x.1 x.2) ∧
      (if 0 < (writeVfs b d node 0 data).2.2 then
        ∃ ch', TreeInv b (Fat16.setEntry (writeVfs b d node 0 data).1 a data.length (writeVfs b d node 0 data).2.1.impl) ch'
      else ∃ ch', TreeInv b (writeVfs b d node 0 data).1 ch') := by
  have hlive : LiveEntry b d a := InTree.live .refl ha
  rcases writeVfs_owned hg h hlive hdir node 0 himpl hscan with ⟨hbytes, hzero⟩ | ⟨⟨ch', howned⟩, hb, hout, hlt, hpos⟩
  · have hfat : ∀ c, getFatEntry b (writeVfs b d node 0 data).1 c = getFatEntry b d c := by
      intro c
      rw [getFatEntry_eq, getFatEntry_eq, hbytes]
    refine ⟨fun x _ => ⟨fun c _ => hfat c, fun e _ => by rw [hbytes]; exact .refl⟩, ?_⟩
    rw [hzero, if_neg (Nat.lt_irrefl 0)]
    exact ⟨ch, h.same_bytes hbytes⟩
  · refine ⟨hb, ?_⟩
    split
    · exact ⟨ch', h.setEntry hg ha hdir hb hout data.length hlt howned⟩
    · next hnone =>
      -- Nothing was written, so that the entry's cluster is the node's.
      have hsame : (writeVfs b d node 0 data).2.1.impl = firstCluster d a := by
        rcases hdata with hne | ⟨hs, hne⟩ | hfull
        · rw [writeVfs, if_neg (himpl ▸ hne)]
          exact himpl
        · exact hpos.resolve_right fun hw => hnone (hw hs hne)
        · rw [writeVfs]
          split
          · dsimp only
            rw [if_pos (allocCluster_none hfull).1]
            exact himpl
          · exact himpl
      rw [hsame, update_eq_self] at howned
      exact ⟨ch', h.beside hb (OutsideFree.congr h.outside hout) howned⟩

private theorem writeFile_tree (hg : Geometry b) (hs : 1 ≤ b.sectorsPerCluster) (h : TreeInv b d ch)
    (hscan : ScansInside b (writeFile b d name data).1)
    (hfile : ∀ a ∈ liveSlots d.bytes (rootSlots b), hasName d.bytes name a → firstCluster d a ≠ 0 ∧ data = [] ∨
      ¬ IsDir d a ∧ (firstCluster d a ≠ 0 ∨ data ≠ [] ∨ ∀ c, ¬ ReadsFree b d.bytes c)) :
    ∃ ch', TreeInv b (writeFile b d name data).1 ch' := by
  have hroot : InTree b d (0, []) := .refl
  rw [writeFile] at hscan ⊢
  rcases (h.directory hroot).search name with ⟨hnone, -⟩ | ⟨a, ha, hname, hsome⟩
  · rw [hnone]
    exact ⟨ch, h⟩
  · rw [hsome] at hscan ⊢
    dsimp only at hscan ⊢
    rcases hfile a ha hname with ⟨hne, hempty⟩ | ⟨hdir, hdata⟩
    · have hnode : (entryAt d.bytes a).firstCluster ≠ 0 := hne
      rw [writeVfs, if_neg hnode, hempty, writeClusters_empty]
      exact ⟨ch, h⟩
    have hwrite := h.writeFile_found hg ha hdir
      { name, impl := firstCluster d a, size := (entryAt d.bytes a).fileSize, directory := false } rfl
      (hdata.imp_right fun hd => hd.imp_left fun hne => ⟨hs, hne⟩)
    have hnode : (entryAt d.bytes a).firstCluster = firstCluster d a := rfl
    rw [hnode] at hscan ⊢
    generalize writeVfs b d _ 0 data = p at hscan hwrite ⊢
    split at hscan
    · next hpos =>
      rw [if_pos hpos]
      have hscan' : ScansInside b p.1 := by
        split at hscan
        · exact hscan
        · exact hscan
      obtain ⟨hb, hafter⟩ := hwrite hscan'
      have hfind : findEntry b p.1 0 name = some (some a) := by
        have hdir' := (h.directory hroot).beside (hb _ hroot)
        rw [hdir'.dirSlots.findEntry, find_congr (hb _ hroot).slots, ← (h.directory hroot).dirSlots.findEntry, hsome]
      rw [hfind]
      rwa [if_pos hpos] at hafter
    · next hpos =>
      rw [if_neg hpos]
      obtain ⟨-, hafter⟩ := hwrite hscan
      rwa [if_neg hpos] at hafter

structure Formatted (b : Bpb) (d : Disk) : Prop where
  geometry : Geometry b
  cluster : 1 ≤ b.sectorsPerCluster
  fat : ∀ c, 2 ≤ c → c < 256 * b.sectorsPerFat → getFatEntry b d c = 0
  packed : Packed d.bytes (rootSlots b)
  labels : ∀ a ∈ liveSlots d.bytes (rootSlots b), ¬ IsDir d a ∧ firstCluster d a = 0

structure ChainsExact (b : Bpb) (d : Disk) : Prop where
  chain : ∀ a, LiveEntry b d a → ∃ k, FatChain b d (firstCluster d a) k ∧ k.Nodup ∧ (∀ c ∈ k, InVolume b c) ∧
    (k = [] ∧ firstCluster d a = 0 ∨ ∃ c ∈ k.getLast?, chainEnd ≤ getFatEntry b d c)
  disjoint : ∀ a e, LiveEntry b d a → LiveEntry b d e → ∀ k l, FatChain b d (firstCluster d a) k →
    FatChain b d (firstCluster d e) l → ∀ c ∈ k, c ∈ l → a = e
  used : ∀ c, 2 ≤ c → c < 256 * b.sectorsPerFat → getFatEntry b d c ≠ 0 →
    ∃! a, LiveEntry b d a ∧ ∃ k, FatChain b d (firstCluster d a) k ∧ c ∈ k

private theorem liveEntry_root (h : ∀ a ∈ liveSlots d.bytes (rootSlots b), ¬ IsDir d a) :
    (∀ x, InTree b d x → x = (0, [])) ∧ ∀ a, LiveEntry b d a ↔ a ∈ liveSlots d.bytes (rootSlots b) := by
  have htree : ∀ x, InTree b d x → x = (0, []) := by
    intro x hx
    induction hx with
    | refl => rfl
    | tail _ he ih =>
      obtain ⟨a, hlive, hdir, -⟩ := he
      rw [ih] at hlive
      exact absurd hdir (h a hlive)
  refine ⟨htree, fun a => ⟨?_, InTree.live .refl⟩⟩
  rintro ⟨x, hx, hlive⟩
  rwa [htree x hx] at hlive

theorem Formatted.tree (h : Formatted b d) : TreeInv b d fun _ => [] := by
  obtain ⟨htree, hlive⟩ := liveEntry_root fun a ha => (h.labels a ha).1
  constructor
  · constructor
    · exact fun a ha => .inl ⟨rfl, (h.labels a ((hlive a).mp ha)).2⟩
    · exact fun _ _ _ hc => absurd hc List.not_mem_nil
    · exact fun _ _ _ _ _ hc => absurd hc List.not_mem_nil
    · exact fun c hc hne => absurd (h.fat c hc.two_le hc.fat) hne
  · intro x hx
    rw [htree x hx]
    exact h.packed
  · exact fun c h2 hlt _ => h.fat c h2 hlt
  · exact fun a ha hdir => absurd hdir (h.labels a ((hlive a).mp ha)).1

theorem TreeInv.exact (h : TreeInv b d ch) : ChainsExact b d := by
  have hone : ∀ a k, LiveEntry b d a → FatChain b d (firstCluster d a) k → k = ch a :=
    fun a k ha hk => Chain.unique hk (h.fatChain ha)
  constructor
  · intro a ha
    have hchain := h.owned.chain a ha
    refine ⟨ch a, h.fatChain ha, (h.fatChain ha).nodup, h.owned.cells a ha, ?_⟩
    cases hlast : (ch a).getLast? with
    | none =>
      have hnil := List.getLast?_eq_none_iff.mp hlast
      rcases hchain with hend | ⟨hne, -⟩
      · exact .inl hend
      · exact absurd hnil hne
    | some c =>
      obtain ⟨xs, hxs⟩ := List.getLast?_eq_some_iff.mp hlast
      rw [hxs] at hchain
      exact .inr ⟨c, rfl, hchain.last⟩
  · intro a e ha he k l hk hl c hck hcl
    rw [hone a k ha hk] at hck
    rw [hone e l he hl] at hcl
    exact h.owned.disjoint a e c ha he hck hcl
  · intro c h2 hlt hne
    have hv : InVolume b c := by
      by_contra hv
      exact hne (h.outside c h2 hlt hv)
    obtain ⟨a, ha, hc⟩ := h.owned.used c hv hne
    refine ⟨a, ⟨ha, ch a, h.fatChain ha, hc⟩, ?_⟩
    rintro e ⟨he, k, hk, hck⟩
    rw [hone e k he hk] at hck
    exact h.owned.disjoint e a c he ha hck hc

namespace Op

/-- The directories are those of the tree; a cluster allocated gets its entry, and no entry goes whose
clusters stay in use. -/
def Tidy (b : Bpb) (d : Disk) : Op → Prop
  | create dir _ => ∃ l, InTree b d (dir, l)
  | mkdir dir name => ∃ l, InTree b d (dir, l) ∧ ((∀ c, ¬ ReadsFree b d.bytes c) ∨
      ¬ Found d.bytes (slotsOf b dir l) name ∧ freeSlot d.bytes (slotsOf b dir l) ≠ none ∧
        (encodeName name).head? ≠ some 0xE5)
  | unlink dir name => dir = 0 → ∀ a ∈ liveSlots d.bytes (rootSlots b), hasName d.bytes name a → IsDir d a →
      ∀ k, FatChain b d (firstCluster d a) k → liveSlots d.bytes (slotsOf b (firstCluster d a) k) = []
  | rename dir old new => ∃ l, InTree b d (dir, l) ∧ ∀ a ∈ liveSlots d.bytes (slotsOf b dir l), hasName d.bytes old a →
      (encodeName new).head? ≠ some 0xE5 ∨ firstCluster d a = 0
  | write node _ data => (∃ a, LiveEntry b d a ∧ ¬ IsDir d a ∧ ∃ k, FatChain b d (firstCluster d a) k ∧ node.impl ∈ k) ∨
      node.impl ≠ 0 ∧ data = [] ∨ node.impl = 0 ∧ ∀ c, ¬ ReadsFree b d.bytes c
  | writeFile name data => ∀ a ∈ liveSlots d.bytes (rootSlots b), hasName d.bytes name a → firstCluster d a ≠ 0 ∧ data = [] ∨
      ¬ IsDir d a ∧ (firstCluster d a ≠ 0 ∨ data ≠ [] ∨ ∀ c, ¬ ReadsFree b d.bytes c)

def TidyInside (b : Bpb) (d : Disk) (op : Op) : Prop := op.Tidy b d ∧ ScansInside b (op.run b d)

private theorem keeps_tree (hg : Geometry b) (hs : 1 ≤ b.sectorsPerCluster) (h : TreeInv b d ch) (op : Op) (ht : op.TidyInside b d) :
    ∃ ch', TreeInv b (op.run b d) ch' := by
  obtain ⟨htidy, hscan⟩ := ht
  cases op with
  | create dir name =>
    obtain ⟨l, hx₀⟩ := htidy
    exact createVfs_tree hg h hx₀ name
  | mkdir dir name =>
    obtain ⟨l, hx₀, hroom⟩ := htidy
    rw [run, ScansInside, mkdirVfs_allocs] at hscan
    exact mkdirVfs_tree hg h hx₀ name (ScansInside.alloc hscan) hroom
  | unlink dir name =>
    by_cases h0 : dir = 0
    · exact unlinkVfs_tree hg h dir name (htidy h0)
    · rw [run, unlinkVfs, if_neg h0]
      exact ⟨ch, h⟩
  | rename dir old new =>
    obtain ⟨l, hx₀, hE5⟩ := htidy
    exact renameVfs_tree hg h hx₀ old new hE5
  | write node offset data => exact writeVfs_tree hg h node offset hscan htidy
  | writeFile name data => exact writeFile_tree hg hs h hscan htidy

end Op

/-- From a formatted volume, in a run whose steps are tidy, no cluster is lost and none is shared. -/
theorem chains_exact_run {d₀ : Disk} (h : Formatted b d₀) (hr : Runs (Op.run b) (Op.TidyInside b) d₀ d) :
    ChainsExact b d := by
  have hinv : ∃ ch, TreeInv b d ch := by
    apply hr.invariant ⟨_, h.tree⟩
    rintro d op ⟨ch, htree⟩ htidy
    exact op.keeps_tree h.geometry h.cluster htree htidy
  obtain ⟨ch, htree⟩ := hinv
  exact htree.exact

instance (d : Disk) : DecidablePred (IsDir d) := fun a => inferInstanceAs (Decidable ((entryAt d.bytes a).attributes.testBit 4 = true))

/-- The small volume after formatting. -/
def blankDisk : Disk where
  bytes x :=
    ([(12, 2), (13, 1), (14, 1), (16, 1), (17, 16), (19, 7), (22, 1), (512, 0xF8), (513, 0xFF), (514, 0xFF),
      (515, 0xFF)].lookup x).getD 0
  written := []
  allocs := []

theorem blankDisk_formatted : Formatted (init blankDisk) blankDisk where
  geometry := ⟨by decide +kernel, by decide +kernel⟩
  cluster := by decide +kernel
  fat c h2 hlt := by
    have htable : ∀ c < 256 * (init blankDisk).sectorsPerFat, 2 ≤ c → getFatEntry (init blankDisk) blankDisk c = 0 := by
      decide +kernel
    exact htable c hlt h2
  packed := by decide +kernel
  labels := by decide +kernel

/-- A directory is made in the empty root directory. -/
theorem blankDisk_mkdir_exact : ChainsExact (init blankDisk) ((Op.mkdir 0 (.ofString "b")).run (init blankDisk) blankDisk) := by
  apply chains_exact_run blankDisk_formatted (.single ⟨.mkdir 0 (.ofString "b"), ⟨⟨[], .refl, .inr ?_⟩, fun p hp => ?_⟩, rfl⟩)
  · exact ⟨by rw [Found]; decide +kernel, by decide +kernel, by decide +kernel⟩
  · rw [Op.run, mkdirVfs_allocs, allocCluster_allocs] at hp
    rw [List.mem_singleton.mp hp]
    exact .inl ⟨2, ⟨by decide, by decide, by decide +kernel⟩, by decide +kernel⟩

/-- A file is created and written through the node that a lookup gives. -/
def leakyOps : List Op :=
  [.create 0 (.ofString "a"), .write { name := .ofString "a", impl := 0, size := 0, directory := false } 0 [1]]

private theorem leakyOps_root :
    ∀ a ∈ liveSlots (leakyOps.foldl (Op.run (init blankDisk)) blankDisk).bytes (rootSlots (init blankDisk)),
      ¬ IsDir (leakyOps.foldl (Op.run (init blankDisk)) blankDisk) a ∧
        firstCluster (leakyOps.foldl (Op.run (init blankDisk)) blankDisk) a = 0 := by decide +kernel

theorem write_loses_cluster :
    ∃ d, Formatted (init d) d ∧ (∃ node,
      finddirVfs (init d) ((Op.create 0 (.ofString "a")).run (init d) d) 0 (.ofString "a") = some (.node node) ∧
        leakyOps = [.create 0 (.ofString "a"), .write node 0 [1]]) ∧
      ¬ ChainsExact (init d) (leakyOps.foldl (Op.run (init d)) d) := by
  refine ⟨blankDisk, blankDisk_formatted, ⟨_, by decide +kernel, rfl⟩, fun h => ?_⟩
  obtain ⟨a, ⟨ha, k, hk, hc⟩, -⟩ := h.used 2 (by decide) (by decide +kernel) (by decide +kernel)
  have ha := ((liveEntry_root fun a ha => (leakyOps_root a ha).1).2 a).mp ha
  rw [(leakyOps_root a ha).2] at hk
  have hnil : k = [] := Chain.unique hk (chain_nil.mpr ends_zero)
  rw [hnil] at hc
  cases hc

end Fat16
end RetroOs.Drivers
