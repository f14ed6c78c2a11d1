import RetroOs.Drivers.Fat16Chains
import RetroOs.Drivers.Fat16ReadWrite

/-! What each operation does to the tree of directories and the chains. -/
namespace RetroOs.Drivers
open Lib Relation
namespace Fat16

variable {b : Bpb} {d d' d₂ : Disk} {a a₀ c e : Nat} {k : List Nat} {ch ch' : Nat → List Nat} {x₀ : DirNode}
  {name : CString} {buffer : Memory} {gone : DirNode → Prop} {bytes : List UInt8}

theorem slotWrite_fat (hg : Geometry b) (ha : Slot b a) (hc : c < 256 * b.sectorsPerFat) :
    getFatEntry b (d.writeSector (a / 512) buffer) c = getFatEntry b d c := by
  have habove := ha.above
  have hroot := hg.rootDirStart_ge
  exact writeSector_fat (by omega) hc

theorem OutsideFree.congr (h : TreeInv.OutsideFree b d)
    (he : ∀ c < 256 * b.sectorsPerFat, ¬ InVolume b c → getFatEntry b d' c = getFatEntry b d c) : TreeInv.OutsideFree b d' :=
  fun c h2 hc hv => (he c hc hv).trans (h c h2 hc hv)

namespace TreeInv

theorem slot (h : TreeInv b d ch) (hx₀ : InTree b d x₀) (ha : a ∈ slotsOf b x₀.1 x₀.2) : Slot b a :=
  (h.directory hx₀).slot ha

theorem frame_slotWrite (hg : Geometry b) (h : TreeInv b d ch)
    (hb : ∀ x, InTree b d x → ¬ gone x → Beside b d d₂ x.1 x.2) (hx₀ : InTree b d x₀) (ha₀ : a₀ ∈ slotsOf b x₀.1 x₀.2)
    (hbuf : ∀ i < 512, i < a₀ % 512 ∨ a₀ % 512 + 32 ≤ i → buffer i = d₂.bytes (512 * (a₀ / 512) + i))
    (hused : a₀ ∈ (slotsOf b x₀.1 x₀.2).takeWhile ((d₂.writeSector (a₀ / 512) buffer).bytes · ≠ 0)) :
    TreeFrame b d (d₂.writeSector (a₀ / 512) buffer) a₀ gone := by
  have hslot := h.slot hx₀ ha₀
  have hwrite : ∀ x, InTree b d x → ¬ gone x → Directory b (d₂.writeSector (a₀ / 512) buffer) x.1 x.2 ∧
      ∀ e ∈ slotsOf b x.1 x.2, e ≠ a₀ → d₂.bytes.AgreeOn (d₂.writeSector (a₀ / 512) buffer).bytes e 32 := by
    intro x hx hgx
    apply ((h.directory hx).beside (hb x hx hgx)).slotWrite hg hslot hbuf
    intro hmem
    rwa [h.slot_unique hx hx₀ hmem ha₀]
  constructor
  · intro x hx hgx c hc
    have hv := (h.directory hx).inVolume c hc
    exact (slotWrite_fat hg hslot hv.fat).trans ((hb x hx hgx).fat c hc)
  · intro x hx hgx e he hne
    exact ((hb x hx hgx).slots e he).trans ((hwrite x hx hgx).2 e he hne)
  · exact fun x hx hgx => (hwrite x hx hgx).1.packed

theorem beside (h : TreeInv b d ch) (hb : ∀ x, InTree b d x → Beside b d d' x.1 x.2) (hout : OutsideFree b d')
    (ho : FatOwned b d' (LiveEntry b d) (firstCluster d) ch') : TreeInv b d' ch' := by
  -- No slot is at address 1.
  have hno : ∀ x m, InTree b d x → 1 ∉ liveSlots m (slotsOf b x.1 x.2) := by
    intro x m hx hmem
    have halign := (h.slot hx (mem_liveSlots hmem).1).aligned
    cases halign
  have hf : TreeFrame b d d' 1 fun _ => False :=
    ⟨fun x hx _ => (hb x hx).fat, fun x hx _ e he _ => (hb x hx).slots e he,
      fun x hx _ => ((h.directory hx).beside (hb x hx)).packed⟩
  apply h.unused hf _ (fun x hx => hno x _ hx) hout ho
  rintro ⟨x, hx, hmem⟩
  exact hno x _ hx hmem

end TreeInv

theorem free_not_live (hb : Beside b d d₂ x₀.1 x₀.2)
    (hfree : freeSlot d₂.bytes (slotsOf b x₀.1 x₀.2) = some a₀) : a₀ ∈ slotsOf b x₀.1 x₀.2 ∧ ¬ LiveEntry b d a₀ := by
  have ha₀ : a₀ ∈ slotsOf b x₀.1 x₀.2 := List.mem_of_find?_eq_some hfree
  refine ⟨ha₀, ?_⟩
  have hbyte := List.find?_some hfree
  rw [hb.slots a₀ ha₀ a₀ (Nat.le_refl a₀) (by omega)] at hbyte
  rintro ⟨x, hx, hlive⟩
  obtain ⟨-, hne, hlive⟩ := mem_liveSlots hlive
  exact (of_decide_eq_true hbyte).elim hne hlive.1

private theorem addEntry_cases {dir : Nat} {l : List Nat} (h : Directory b d dir l) (name : CString) (attr c : Nat) :
    (addEntry b d dir name attr c).1 = d ∧
        (Found d.bytes (slotsOf b dir l) name ∨ freeSlot d.bytes (slotsOf b dir l) = none) ∨
      ∃ a, freeSlot d.bytes (slotsOf b dir l) = some a ∧
        (addEntry b d dir name attr c).1 = patchSector d a (entryBytes name attr c) := by
  rw [addEntry]
  rcases h.search name with ⟨hnone, -⟩ | ⟨a, ha, hname, hsome⟩
  · rw [hnone, h.dirSlots.findFree]
    cases hslot : freeSlot d.bytes (slotsOf b dir l) with
    | none => exact .inl ⟨rfl, .inr rfl⟩
    | some a => exact .inr ⟨a, rfl, rfl⟩
  · rw [hsome]
    exact .inl ⟨rfl, .inl ⟨a, ha, hname⟩⟩

theorem TreeInv.new_entry (hg : Geometry b) (h : TreeInv b d ch) (name : CString) (attr c : Nat)
    (hb : ∀ x, InTree b d x → Beside b d d₂ x.1 x.2) (hx₀ : InTree b d x₀)
    (hfree : freeSlot d₂.bytes (slotsOf b x₀.1 x₀.2) = some a₀) (hattr : attr % 256 ≠ attrLfn)
    (hlt : c < 2 ^ 16) :
    TreeFrame b d (patchSector d₂ a₀ (entryBytes name attr c)) a₀ (fun _ => False) ∧
      (IsDir (patchSector d₂ a₀ (entryBytes name attr c)) a₀ ↔ (attr % 256).testBit 4) ∧
      firstCluster (patchSector d₂ a₀ (entryBytes name attr c)) a₀ = c ∧
      (a₀ ∈ liveSlots (patchSector d₂ a₀ (entryBytes name attr c)).bytes (slotsOf b x₀.1 x₀.2) ↔
        (encodeName name).head? ≠ some 0xE5) := by
  have hslot : Slot b a₀ := h.slot hx₀ (free_not_live (hb x₀ hx₀) hfree).1
  have halign := hslot.aligned
  have hlen : (entryBytes name attr c).length ≤ 32 := Nat.le_of_eq (entryBytes_length ..)
  have hbytes : (patchSector d₂ a₀ (entryBytes name attr c)).bytes = d₂.bytes.memcpy a₀ (entryBytes name attr c) :=
    patchSector_bytes (by omega)
  have hne : d₂.bytes.memcpy a₀ (entryBytes name attr c) a₀ ≠ 0 := by
    rw [entryBytes_eq]
    apply memcpy_name_ne_zero
  have hkeep : ∀ e ∈ slotsOf b x₀.1 x₀.2, e ≠ a₀ → d₂.bytes.memcpy a₀ (entryBytes name attr c) e = d₂.bytes e :=
    fun e he hea => memcpy_other _ hlen halign (h.slot hx₀ he).aligned hea
  obtain ⟨hmem, hused⟩ := freeSlot_takeWhile hfree hkeep hne
  rw [← hbytes] at hused
  have hf : TreeFrame b d (patchSector d₂ a₀ (entryBytes name attr c)) a₀ (fun _ => False) :=
    h.frame_slotWrite hg (fun x hx _ => hb x hx) hx₀ hmem (patch_buffer hlen) hused
  obtain ⟨hat, hfc⟩ := entryAt_entryBytes d₂.bytes a₀ name attr c
  rw [← hbytes] at hat hfc hne
  refine ⟨hf, by rw [IsDir, hat], by rw [firstCluster, hfc, Nat.mod_eq_of_lt hlt], ?_⟩
  have hhead : (patchSector d₂ a₀ (entryBytes name attr c)).bytes a₀ = 0xE5 ↔ (encodeName name).head? = some 0xE5 := by
    have hname : (patchSector d₂ a₀ (entryBytes name attr c)).bytes.bytes a₀ 11 = encodeName name := by
      rw [hbytes, entryBytes_eq, memcpy_name]
    rw [← hname, Memory.bytes_head, Option.some.injEq]
  constructor
  · intro hlive hE5
    exact (mem_liveSlots hlive).2.2.1 (hhead.mpr hE5)
  · intro hE5
    apply (hf.packed x₀ hx₀ id).mem_liveSlots hmem hne
    refine ⟨fun h => hE5 (hhead.mp h), ?_⟩
    rwa [hat]

theorem createVfs_tree (hg : Geometry b) (h : TreeInv b d ch) (hx₀ : InTree b d x₀) (name : CString) :
    ∃ ch', TreeInv b (createVfs b d x₀.1 name).1 ch' := by
  have hdir := h.directory hx₀
  rw [createVfs]
  rcases addEntry_cases hdir name attrArchive 0 with ⟨he, -⟩ | ⟨a, hfree, he⟩
  · rw [he]
    exact ⟨ch, h⟩
  · rw [he]
    obtain ⟨hmem, hno⟩ := free_not_live (d := d) .refl hfree
    have hslot := h.slot hx₀ hmem
    obtain ⟨hf, hisdir, hfc, hlive⟩ := h.new_entry hg name attrArchive 0 (fun _ _ => .refl) hx₀
      hfree (by decide) (by decide)
    have hfat : ∀ c, InVolume b c → getFatEntry b (patchSector d a (entryBytes name attrArchive 0)) c = getFatEntry b d c :=
      fun c hc => slotWrite_fat hg hslot hc.fat
    have hout : TreeInv.OutsideFree b (patchSector d a (entryBytes name attrArchive 0)) :=
      OutsideFree.congr h.outside fun c hc _ => slotWrite_fat hg hslot hc
    by_cases hE5 : (encodeName name).head? = some 0xE5
    · refine ⟨ch, h.unused hf hno (fun x hx hmem' => ?_) hout (h.owned.congr hfat (fun _ => Iff.rfl) fun _ _ => rfl)⟩
      obtain rfl := h.slot_unique hx hx₀ (mem_liveSlots hmem').1 hmem
      exact hlive.mp hmem' hE5
    · have hnodir : ¬ IsDir (patchSector d a (entryBytes name attrArchive 0)) a := by
        rw [hisdir]
        decide
      refine ⟨_, h.add hf hno hx₀ (hlive.mpr hE5) (fun hd => absurd hd hnodir) hout
        (h.owned.add_empty hno (fun _ => Iff.rfl) ?_ hfat hfc)⟩
      intro j hj hne
      rw [firstCluster, hf.entry_live (fun _ hf => hf.elim) hj hne]
      rfl

private theorem liveSlots_zero {m : Memory} {slots : List Nat} (h : ∀ e ∈ slots, m e = 0) :
    liveSlots m slots = [] ∧ Packed m slots := by
  constructor
  · apply List.eq_nil_iff_forall_not_mem.mpr
    intro e he
    obtain ⟨hes, hne, -⟩ := mem_liveSlots he
    exact hne (h e hes)
  · exact fun e he hne => absurd (h e he) hne

private theorem clearCluster_fat (hg : Geometry b) (hc : InVolume b c) (d : Disk) (he : e < 256 * b.sectorsPerFat) :
    getFatEntry b (clearCluster b d c) e = getFatEntry b d e := by
  have hroot := hg.rootDirStart_ge
  have hdata := dataStart_ge_root b
  apply clearCluster_invariant (fun _ t => getFatEntry b t e = getFatEntry b d e) rfl
  intro t i hi ht
  have hge := (hc.sector hi).1
  rw [writeSector_fat (by omega) he]
  exact ht

theorem TreeInv.new_directory (hg : Geometry b) (h : TreeInv b d ch) (hb : ∀ x, InTree b d x → Beside b d d₂ x.1 x.2)
    (hx₀ : InTree b d x₀) (hslot : freeSlot d₂.bytes (slotsOf b x₀.1 x₀.2) = some a) (hE5 : (encodeName name).head? ≠ some 0xE5)
    (hv : InVolume b c) (hlt : c < chainEnd) (hfree : getFatEntry b d c = 0)
    (hfat : ∀ e < 256 * b.sectorsPerFat, getFatEntry b d₂ e = getFatEntry b (setFatEntry b d c 0xFFFF) e)
    (hzero : ∀ x, 512 * b.clusterToSector c ≤ x → x < 512 * (b.clusterToSector c + b.sectorsPerCluster) → d₂.bytes x = 0) :
    ∃ ch', TreeInv b (patchSector d₂ a (entryBytes name attrDirectory c)) ch' := by
  obtain ⟨hmem, hno⟩ := free_not_live (hb x₀ hx₀) hslot
  have ha := h.slot hx₀ hmem
  have hlt16 : c < 2 ^ 16 := Nat.lt_trans hlt (by decide)
  obtain ⟨hf, -, hfc, hlive⟩ := h.new_entry hg name attrDirectory c hb hx₀ hslot (by decide) hlt16
  have hlen : (entryBytes name attrDirectory c).length ≤ 32 := Nat.le_of_eq (entryBytes_length ..)
  have hkeep : ∀ e, e % 32 = 0 → e ≠ a → (patchSector d₂ a (entryBytes name attrDirectory c)).bytes e = d₂.bytes e :=
    fun e he hne => slotWrite_agreeOn ha.aligned he hne (patch_buffer hlen) e (Nat.le_refl e) (by omega)
  have hfat' : ∀ e < 256 * b.sectorsPerFat, getFatEntry b (patchSector d₂ a (entryBytes name attrDirectory c)) e =
      getFatEntry b (setFatEntry b d c 0xFFFF) e := fun e he => (slotWrite_fat hg ha he).trans (hfat e he)
  have hother : ∀ e < 256 * b.sectorsPerFat, e ≠ c →
      getFatEntry b (patchSector d₂ a (entryBytes name attrDirectory c)) e = getFatEntry b d e :=
    fun e he hne => (hfat' e he).trans (getFatEntry_setFatEntry_other he hne)
  have hself : getFatEntry b (patchSector d₂ a (entryBytes name attrDirectory c)) c = 0xFFFF :=
    (hfat' c hv.fat).trans (getFatEntry_setFatEntry (by decide) hv.fat)
  have hgo : ¬ Ends c := not_not.mpr ⟨hv.two_le, hlt⟩
  have hchain : FatChain b (patchSector d₂ a (entryBytes name attrDirectory c)) c [c] :=
    chain_cons.mpr ⟨rfl, hgo, chain_nil.mpr (by rw [hself]; decide)⟩
  -- The slot of the entry is not in the new cluster, which no directory has.
  have hnot : a ∉ clusterSlots b c := by
    intro hac
    rcases ha with hroot | ⟨e, he, hae⟩
    · exact not_rootSlots hac hroot
    · rw [slotsOf] at hmem
      split at hmem
      · exact not_rootSlots hac hmem
      · obtain ⟨e, hel, hae⟩ := List.mem_flatMap.mp hmem
        have hev := (h.directory hx₀).inVolume e hel
        obtain rfl := clusterSlots_unique hev.two_le hv.two_le hae hac
        exact (h.directory hx₀).used e hel hfree
  have hempty : ∀ e ∈ clusterSlots b c, (patchSector d₂ a (entryBytes name attrDirectory c)).bytes e = 0 := by
    intro e he
    obtain ⟨halign, hlo, hhi⟩ := mem_clusterSlots he
    rw [hkeep e halign fun hea => hnot (hea ▸ he)]
    exact hzero e hlo (by omega)
  have hne : c ≠ 0 := by have := hv.two_le; omega
  refine ⟨_, h.add hf hno hx₀ (hlive.mpr hE5) (fun _ => ⟨by rwa [hfc], fun k hk => ?_⟩)
    (OutsideFree.congr h.outside fun e he hev => hother e he fun hec => hev (hec ▸ hv))
    (h.owned.add (fun hl => absurd hl hno) (fun _ => Iff.rfl) ?_ hv hfree hgo (fun e he hne => hother e he.fat hne) ?_ hfc)⟩
  · rw [hfc] at hk ⊢
    obtain rfl := hk.unique hchain
    rw [slotsOf, if_neg hne, List.flatMap_singleton]
    exact liveSlots_zero hempty
  · intro j hj hne
    rw [firstCluster, hf.entry_live (fun _ hf => hf.elim) hj hne]
    rfl
  · show chainEnd ≤ _
    rw [hself]
    decide

theorem mkdirVfs_tree (hg : Geometry b) (h : TreeInv b d ch) (hx₀ : InTree b d x₀) (name : CString)
    (hscan : ScanInside b d.bytes)
    (hroom : (∀ c, ¬ ReadsFree b d.bytes c) ∨ ¬ Found d.bytes (slotsOf b x₀.1 x₀.2) name ∧
      freeSlot d.bytes (slotsOf b x₀.1 x₀.2) ≠ none ∧ (encodeName name).head? ≠ some 0xE5) :
    ∃ ch', TreeInv b (mkdirVfs b d x₀.1 name).1 ch' := by
  obtain ⟨hap, hres⟩ := allocCluster_apart hg hscan []
  have hall : ∀ x, InTree b d x → Beside b d (allocCluster b d).1 x.1 x.2 :=
    fun x hx => hap.beside _ _ (h.directory hx) fun _ hc => absurd hc List.not_mem_nil
  rw [mkdirVfs]
  dsimp only
  generalize allocCluster b d = p at hap hres hall ⊢
  rcases hres with ⟨h0, hbytes, -⟩ | ⟨hv, hlt, hfree, hbytes⟩
  · rw [if_pos h0]
    refine ⟨ch, h.beside hall (OutsideFree.congr h.outside hap.outside) (h.owned.congr ?_ (fun _ => Iff.rfl) fun _ _ => rfl)⟩
    intro c _
    rw [getFatEntry_eq, getFatEntry_eq, hbytes]
  · have hne : p.2 ≠ 0 := by have := hv.two_le; omega
    rw [if_neg hne]
    have hfat : ∀ e < 256 * b.sectorsPerFat, getFatEntry b (clearCluster b p.1 p.2) e =
        getFatEntry b (setFatEntry b d p.2 0xFFFF) e := by
      intro e he
      rw [clearCluster_fat hg hv p.1 he, getFatEntry_eq, getFatEntry_eq, hbytes]
    have hb : ∀ x, InTree b d x → Beside b d (clearCluster b p.1 p.2) x.1 x.2 := fun x hx =>
      (hall x hx).trans (((h.directory hx).beside (hall x hx)).clear_beside hg hv fun hmem =>
        (h.directory hx).used _ hmem hfree)
    have hzero := clearCluster_zero b p.1 p.2
    generalize clearCluster b p.1 p.2 = d₂ at hfat hb hzero ⊢
    have hb₀ := hb x₀ hx₀
    have hread : ReadsFree b d.bytes p.2 := ⟨hv.two_le, hlt, by rw [← getFatEntry_eq, hfree]⟩
    obtain ⟨hnofound, hslot, hE5⟩ := hroom.resolve_left fun hno => hno _ hread
    rcases addEntry_cases ((h.directory hx₀).beside hb₀) name attrDirectory p.2 with ⟨-, hfail⟩ | ⟨a, hfreeSlot, he⟩
    · rw [hb₀.found_iff, hb₀.freeSlot_eq] at hfail
      exact absurd hfail (not_or.mpr ⟨hnofound, hslot⟩)
    · rw [he]
      exact h.new_directory hg hb hx₀ hfreeSlot hE5 hv hlt hfree hfat hzero

private theorem freeChain_spec (hg : Geometry b) {fuel : Nat} (hk : FatChain b d c k) (hv : ∀ x ∈ k, InVolume b x)
    (hfuel : k.length < fuel) :
    (∀ x ∈ k, getFatEntry b (freeChain b d fuel c) x = 0) ∧
      (∀ x < 256 * b.sectorsPerFat, x ∉ k → getFatEntry b (freeChain b d fuel c) x = getFatEntry b d x) ∧
      ∀ dir l, Directory b d dir l → (∀ x ∈ k, x ∉ l) → Beside b d (freeChain b d fuel c) dir l := by
  induction k generalizing d c fuel with
  | nil =>
    cases fuel with
    | zero => cases hfuel
    | succ fuel =>
      have hstop : Ends c := chain_nil.mp hk
      rw [freeChain, if_neg (show ¬ (2 ≤ c ∧ c < chainEnd) from hstop)]
      exact ⟨fun x hx => absurd hx List.not_mem_nil, fun _ _ _ => rfl, fun _ _ _ _ => .refl⟩
  | cons y k ih =>
    have hnd := Chain.nodup hk
    obtain ⟨rfl, hgo, htail⟩ := chain_cons.mp hk
    obtain ⟨hck, -⟩ := List.nodup_cons.mp hnd
    cases fuel with
    | zero => cases hfuel
    | succ fuel =>
      have hcv := hv c (.head _)
      have hkv : ∀ x ∈ k, InVolume b x := fun x hx => hv x (.tail _ hx)
      have htail' : FatChain b (setFatEntry b d c 0) (getFatEntry b d c) k :=
        Chain.congr htail fun x hx => getFatEntry_setFatEntry_other (hkv x hx).fat fun hxc => hck (hxc ▸ hx)
      obtain ⟨hfreed, hkeep, hbeside⟩ := ih htail' hkv (Nat.lt_of_succ_lt_succ hfuel)
      rw [freeChain, if_pos (not_not.mp hgo)]
      refine ⟨fun x hx => ?_, fun x hlt hx => ?_, fun dir l hdir hdis => ?_⟩
      · rcases List.mem_cons.mp hx with rfl | hx
        · rw [hkeep x hcv.fat hck]
          exact getFatEntry_setFatEntry (by decide) hcv.fat
        · exact hfreed x hx
      · rw [hkeep x hlt fun hxk => hx (.tail _ hxk)]
        exact getFatEntry_setFatEntry_other hlt fun hxc => hx (hxc ▸ (.head _))
      · have hb := hdir.fat_beside hg hcv (hdis c (.head _)) 0
        exact hb.trans (hbeside dir l (hdir.beside hb) fun x hx => hdis x (.tail _ hx))

theorem TreeInv.disjoint_dir (h : TreeInv b d ch) (ha : LiveEntry b d a) {x : DirNode} (hx : InTree b d x)
    (hg : ¬ TreeFrame.Gone d ch a x) : ∀ c ∈ ch a, c ∉ x.2 := by
  intro c hc hcx
  rcases h.owner hx with rfl | ⟨e, he, hdir, rfl⟩
  · cases hcx
  · obtain rfl := h.owned.disjoint a e c ha he hc hcx
    exact hg ⟨hdir, rfl⟩

/-- The name of an entry that looks deleted, or its mark. -/
theorem TreeInv.drop_entry (hg : Geometry b) (h : TreeInv b d ch) (hx₀ : InTree b d x₀)
    (ha : a ∈ liveSlots d.bytes (slotsOf b x₀.1 x₀.2)) (hempty : ∀ x, TreeFrame.Gone d ch a x → liveSlots d.bytes (slotsOf b x.1 x.2) = [])
    (hb : ∀ x, InTree b d x → ¬ TreeFrame.Gone d ch a x → Beside b d d₂ x.1 x.2)
    (hfreed : ∀ x ∈ ch a, getFatEntry b d₂ x = 0)
    (hkeep : ∀ x < 256 * b.sectorsPerFat, x ∉ ch a → getFatEntry b d₂ x = getFatEntry b d x) (hlen : bytes.length ≤ 32)
    (hfirst : d₂.bytes.memcpy a bytes a = 0xE5) : ∃ ch', TreeInv b (patchSector d₂ a bytes) ch' := by
  have hmem := (mem_liveSlots ha).1
  have hlive := hx₀.live ha
  have hslot := h.slot hx₀ hmem
  have halign := hslot.aligned
  have hg₀ : ¬ TreeFrame.Gone d ch a x₀ := by
    intro hgone
    rw [hempty x₀ hgone] at ha
    cases ha
  have hbytes : (patchSector d₂ a bytes).bytes = d₂.bytes.memcpy a bytes := patchSector_bytes (by omega)
  have hdir₂ := (h.directory hx₀).beside (hb x₀ hx₀ hg₀)
  have hne₂ : d₂.bytes a ≠ 0 := by
    rw [(hb x₀ hx₀ hg₀).slots a hmem a (Nat.le_refl a) (by omega)]
    exact (mem_liveSlots ha).2.1
  have hkeep' : ∀ e ∈ slotsOf b x₀.1 x₀.2, e ≠ a → d₂.bytes.memcpy a bytes e = d₂.bytes e :=
    fun e he hea => memcpy_other _ hlen halign (h.slot hx₀ he).aligned hea
  have hused := hdir₂.packed.mem_takeWhile hmem hne₂ hkeep' (by rw [hfirst]; decide)
  rw [← hbytes] at hused hfirst
  have hf : TreeFrame b d (patchSector d₂ a bytes) a (TreeFrame.Gone d ch a) :=
    h.frame_slotWrite hg hb hx₀ hmem (patch_buffer hlen) hused
  have hfat : ∀ x < 256 * b.sectorsPerFat, getFatEntry b (patchSector d₂ a bytes) x = getFatEntry b d₂ x :=
    fun x hx => slotWrite_fat hg hslot hx
  refine ⟨_, h.remove hf hlive hempty (fun x _ _ hmem' => (mem_liveSlots hmem').2.2.1 hfirst)
    (OutsideFree.congr h.outside fun x hx hxv => ?_)
    (h.owned.remove hlive (fun _ => Iff.rfl) (fun j hj hne => ?_) (fun x hx => ?_) fun x hx hxa => ?_)⟩
  · rw [hfat x hx, hkeep x hx fun hxa => hxv (h.owned.cells a hlive x hxa)]
  · rw [firstCluster, hf.entry_live hempty hj hne]
    rfl
  · rw [hfat x (h.owned.cells a hlive x hx).fat]
    exact hfreed x hx
  · rw [hfat x hx.fat, hkeep x hx.fat hxa]

theorem unlinkVfs_tree (hg : Geometry b) (h : TreeInv b d ch) (dir : Nat) (name : CString)
    (hempty : ∀ a ∈ liveSlots d.bytes (rootSlots b), hasName d.bytes name a → IsDir d a →
      ∀ k, FatChain b d (firstCluster d a) k → liveSlots d.bytes (slotsOf b (firstCluster d a) k) = []) :
    ∃ ch', TreeInv b (unlinkVfs b d dir name).1 ch' := by
  rw [unlinkVfs]
  split
  · rw [deleteFile]
    have hroot : InTree b d (0, []) := .refl
    rcases (h.directory hroot).search name with ⟨hnone, -⟩ | ⟨a, ha, hname, hsome⟩
    · rw [hnone]
      exact ⟨ch, h⟩
    · rw [hsome]
      have hlive := hroot.live ha
      have hchain := h.fatChain hlive
      have hgone : ∀ x, TreeFrame.Gone d ch a x → liveSlots d.bytes (slotsOf b x.1 x.2) = [] := by
        rintro x ⟨hdir, rfl⟩
        exact hempty a ha hname hdir _ hchain
      obtain ⟨hfreed, hkeep, hbeside⟩ := freeChain_spec hg hchain (h.owned.cells a hlive) hchain.length_lt
      have hmark : (freeChain b d 0x10000 (firstCluster d a)).bytes.memcpy a [0xE5] a = 0xE5 := by
        simp [Memory.memcpy]
      exact h.drop_entry hg hroot ha hgone (fun x hx hgx => hbeside _ _ (h.directory hx) (h.disjoint_dir hlive hx hgx))
        hfreed hkeep (by decide) hmark
  · exact ⟨ch, h⟩

theorem TreeInv.chain_nil (h : TreeInv b d ch) (ha : LiveEntry b d a) (h0 : firstCluster d a = 0) : ch a = [] := by
  have hchain := h.fatChain ha
  rw [h0] at hchain
  exact hchain.unique (Lib.chain_nil.mpr ends_zero)

theorem renameVfs_tree (hg : Geometry b) (h : TreeInv b d ch) (hx₀ : InTree b d x₀) (old new : CString)
    (hE5 : ∀ a ∈ liveSlots d.bytes (slotsOf b x₀.1 x₀.2), hasName d.bytes old a →
      (encodeName new).head? ≠ some 0xE5 ∨ firstCluster d a = 0) :
    ∃ ch', TreeInv b (renameVfs b d x₀.1 old new).1 ch' := by
  rw [renameVfs]
  rcases (h.directory hx₀).search old with ⟨hnone, -⟩ | ⟨a, ha, hname, hsome⟩
  · rw [hnone]
    exact ⟨ch, h⟩
  · rw [hsome]
    dsimp only
    have hlive := hx₀.live ha
    obtain ⟨hmem, hne, hl⟩ := mem_liveSlots ha
    have hslot := h.slot hx₀ hmem
    have halign := hslot.aligned
    have hlen : (encodeName new).length ≤ 32 := by rw [encodeName_length]; decide
    have hbytes : (patchSector d a (encodeName new)).bytes = d.bytes.memcpy a (encodeName new) := patchSector_bytes (by omega)
    have hne' := memcpy_name_ne_zero d.bytes a new []
    have hstored := memcpy_name d.bytes a new []
    rw [List.append_nil] at hne' hstored
    have hfirst : (encodeName new).head? = some (d.bytes.memcpy a (encodeName new) a) := by
      rw [← Memory.bytes_head, hstored]
    by_cases hmark : (encodeName new).head? = some 0xE5
    · have h0 := (hE5 a ha hname).resolve_left (not_not.mpr hmark)
      have hch := h.chain_nil hlive h0
      have hgone : ∀ x, ¬ TreeFrame.Gone d ch a x := fun x hgx => h.dirHead a hlive hgx.1 h0
      rw [hfirst, Option.some.injEq] at hmark
      exact h.drop_entry hg hx₀ ha (fun x hgx => absurd hgx (hgone x)) (fun _ _ _ => .refl)
        (fun x hx => absurd hx (by rw [hch]; exact List.not_mem_nil)) (fun _ _ _ => rfl) hlen hmark
    · have hkeep : ∀ e ∈ slotsOf b x₀.1 x₀.2, e ≠ a → d.bytes.memcpy a (encodeName new) e = d.bytes e :=
        fun e he hea => memcpy_other _ hlen halign (h.slot hx₀ he).aligned hea
      have hused := (h.packed x₀ hx₀).mem_takeWhile hmem hne hkeep hne'
      obtain ⟨hattr, hfc⟩ := entryAt_memcpy_name d.bytes a (Nat.le_of_eq (encodeName_length new))
      rw [hfirst, Option.some.injEq] at hmark
      rw [← hbytes] at hused hattr hfc hne' hmark
      have hf : TreeFrame b d (patchSector d a (encodeName new)) a (fun _ => False) :=
        h.frame_slotWrite hg (fun _ _ _ => .refl) hx₀ hmem (patch_buffer hlen) hused
      have hfat : ∀ c < 256 * b.sectorsPerFat, getFatEntry b (patchSector d a (encodeName new)) c = getFatEntry b d c :=
        fun c hc => slotWrite_fat hg hslot hc
      have hlive' : a ∈ liveSlots (patchSector d a (encodeName new)).bytes (slotsOf b x₀.1 x₀.2) :=
        (hf.packed x₀ hx₀ id).mem_liveSlots hmem hne' ⟨hmark, by rw [hattr]; exact hl.2⟩
      refine ⟨ch, h.rewrite hf hx₀ ha hlive' (by rw [IsDir, IsDir, hattr]) (fun _ => hfc)
        (OutsideFree.congr h.outside fun c hc _ => hfat c hc)
        (h.owned.congr (fun c hc => hfat c hc.fat) (fun _ => Iff.rfl) fun j hj => ?_)⟩
      by_cases hja : j = a
      · rw [hja]
        exact hfc
      · rw [firstCluster, hf.entry_live (fun _ hf => hf.elim) hj hja]
        rfl

end Fat16
end RetroOs.Drivers
