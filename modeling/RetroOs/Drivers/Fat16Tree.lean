import RetroOs.Drivers.Fat16Names
import RetroOs.Lib.LinkTable

/-! The tree of directories, the entries in use in it, and the clusters that they own. -/
namespace RetroOs.Drivers
open Lib Relation Chain
namespace Fat16

variable {b : Bpb} {d d' : Disk} {a a₀ c e : Nat} {k slots : List Nat} {m : Memory} {ch : Nat → List Nat}

def firstCluster (d : Disk) (a : Nat) : Nat := (entryAt d.bytes a).firstCluster

def IsDir (d : Disk) (a : Nat) : Prop := (entryAt d.bytes a).attributes.testBit 4

/-- The first cluster of a directory and its chain. -/
abbrev DirNode := Nat × List Nat

/-- The entry at `a` in the directory `x` is the directory `y`. -/
def DirEntry (b : Bpb) (d : Disk) (a : Nat) (x y : DirNode) : Prop :=
  a ∈ liveSlots d.bytes (slotsOf b x.1 x.2) ∧ IsDir d a ∧ firstCluster d a = y.1 ∧ FatChain b d y.1 y.2

/-- The directories below the root. -/
def InTree (b : Bpb) (d : Disk) : DirNode → Prop := ReflTransGen (fun x y => ∃ a, DirEntry b d a x y) (0, [])

/-- The entries in use. -/
def LiveEntry (b : Bpb) (d : Disk) (a : Nat) : Prop := ∃ x, InTree b d x ∧ a ∈ liveSlots d.bytes (slotsOf b x.1 x.2)

/-- What the values in the table mean. -/
def fatLinks : Links Nat where
  stop := Ends
  mark v := chainEnd ≤ v
  free := 0
  mark_stop _ hv hgo := absurd hgo.2 (Nat.not_lt.mpr hv)
  free_stop := ends_zero
  free_mark := by decide

/-- The chains of the table with these owners. -/
abbrev FatOwned (b : Bpb) (d : Disk) (live : Nat → Prop) (head : Nat → Nat) (ch : Nat → List Nat) : Prop :=
  Owned fatLinks (InVolume b) (getFatEntry b d) live head ch

/-- The entries in use own the clusters in use, and the slots in use of each directory come first. -/
structure TreeInv (b : Bpb) (d : Disk) (ch : Nat → List Nat) : Prop where
  owned : FatOwned b d (LiveEntry b d) (firstCluster d) ch
  packed : ∀ x, InTree b d x → Packed d.bytes (slotsOf b x.1 x.2)
  outside : ∀ c, 2 ≤ c → c < 256 * b.sectorsPerFat → ¬ InVolume b c → getFatEntry b d c = 0
  dirHead : ∀ a, LiveEntry b d a → IsDir d a → firstCluster d a ≠ 0

theorem clusterSlots_unique (hc : 2 ≤ c) (he : 2 ≤ e) (ha : a ∈ clusterSlots b c) (ha' : a ∈ clusterSlots b e) : c = e := by
  obtain ⟨-, hlo, hhi⟩ := mem_clusterSlots ha
  obtain ⟨-, hlo', hhi'⟩ := mem_clusterSlots ha'
  rcases Nat.lt_trichotomy c e with hlt | heq | hgt
  · have hadd := clusterToSector_add b hc hlt
    omega
  · exact heq
  · have hadd := clusterToSector_add b he hgt
    omega

theorem not_rootSlots (ha : a ∈ clusterSlots b c) : a ∉ rootSlots b := by
  intro hroot
  have hlo := (mem_clusterSlots ha).2.1
  have hhi := (mem_rootSlots hroot).2.2
  have hge := clusterToSector_ge b c
  omega

theorem InTree.live {x : DirNode} (hx : InTree b d x) (ha : a ∈ liveSlots d.bytes (slotsOf b x.1 x.2)) : LiveEntry b d a :=
  ⟨x, hx, ha⟩

namespace TreeInv

theorem fatChain (h : TreeInv b d ch) (ha : LiveEntry b d a) : FatChain b d (firstCluster d a) (ch a) :=
  (h.owned.chain a ha).chain

theorem owner (h : TreeInv b d ch) {x : DirNode} (hx : InTree b d x) :
    x = (0, []) ∨ ∃ a, LiveEntry b d a ∧ IsDir d a ∧ x = (firstCluster d a, ch a) := by
  cases hx with
  | refl => exact .inl rfl
  | tail hy he =>
    obtain ⟨a, hlive, hdir, hhead, hchain⟩ := he
    have ha := InTree.live hy hlive
    refine .inr ⟨a, ha, hdir, ?_⟩
    have hch := h.fatChain ha
    rw [hhead] at hch ⊢
    rw [hch.unique hchain]

theorem directory (h : TreeInv b d ch) {x : DirNode} (hx : InTree b d x) : Directory b d x.1 x.2 := by
  have hpacked := h.packed x hx
  rcases h.owner hx with rfl | ⟨a, ha, -, rfl⟩
  · exact ⟨chain_nil.mpr ends_zero, fun _ hc => absurd hc List.not_mem_nil, fun _ hc => absurd hc List.not_mem_nil, hpacked⟩
  · exact ⟨h.fatChain ha, h.owned.cells a ha, fun _ hc => (h.owned.chain a ha).next_ne_free hc, hpacked⟩

theorem mem_slotsOf (h : TreeInv b d ch) (ha : LiveEntry b d a) (hdir : IsDir d a) (he : e ∈ slotsOf b (firstCluster d a) (ch a)) :
    ∃ c ∈ ch a, InVolume b c ∧ e ∈ clusterSlots b c := by
  rw [slotsOf, if_neg (h.dirHead a ha hdir)] at he
  obtain ⟨c, hc, he⟩ := List.mem_flatMap.mp he
  exact ⟨c, hc, h.owned.cells a ha c hc, he⟩

theorem slot_unique (h : TreeInv b d ch) {x y : DirNode} (hx : InTree b d x) (hy : InTree b d y)
    (hex : e ∈ slotsOf b x.1 x.2) (hey : e ∈ slotsOf b y.1 y.2) : x = y := by
  rcases h.owner hx with rfl | ⟨a, ha, hdir, rfl⟩
  · rcases h.owner hy with rfl | ⟨a, ha, hdir, rfl⟩
    · rfl
    · obtain ⟨c, -, -, he⟩ := h.mem_slotsOf ha hdir hey
      exact absurd hex (not_rootSlots he)
  · obtain ⟨c, hc, hv, he⟩ := h.mem_slotsOf ha hdir hex
    rcases h.owner hy with rfl | ⟨a', ha', hdir', rfl⟩
    · exact absurd hey (not_rootSlots he)
    · obtain ⟨c', hc', hv', he'⟩ := h.mem_slotsOf ha' hdir' hey
      obtain rfl := clusterSlots_unique hv.two_le hv'.two_le he he'
      rw [h.owned.disjoint a a' c ha ha' hc hc']

private theorem dir_unique (h : TreeInv b d ch) (ha : LiveEntry b d a) (hdir : IsDir d a) (he : LiveEntry b d e)
    (heq : (firstCluster d a, ch a) = (firstCluster d e, ch e)) : a = e := by
  have hch : ch a = ch e := congrArg Prod.snd heq
  cases hk : ch a with
  | nil =>
    rcases h.owned.chain a ha with ⟨-, hfree⟩ | ⟨hne, -⟩
    · exact absurd hfree (h.dirHead a ha hdir)
    · exact absurd hk hne
  | cons c k =>
    apply h.owned.disjoint a e c ha he
    · rw [hk]
      exact .head _
    · rw [← hch, hk]
      exact .head _

end TreeInv

private theorem mem_liveSlots_iff {m' : Memory} (hp : Packed m slots) (hp' : Packed m' slots) (hagree : a ∈ slots → m.AgreeOn m' a 32) :
    a ∈ liveSlots m' slots ↔ a ∈ liveSlots m slots := by
  constructor
  · intro ha
    obtain ⟨has, hne, hlive⟩ := mem_liveSlots ha
    have hag := hagree has
    rw [hag a (Nat.le_refl a) (by omega)] at hne
    exact hp.mem_liveSlots has hne ((Live.congr hag).mp hlive)
  · intro ha
    obtain ⟨has, hne, hlive⟩ := mem_liveSlots ha
    have hag := hagree has
    rw [← hag a (Nat.le_refl a) (by omega)] at hne
    exact hp'.mem_liveSlots has hne ((Live.congr hag).mpr hlive)

/-- Apart from the slot `a₀` the directories that are not gone keep their clusters and entries. -/
structure TreeFrame (b : Bpb) (d d' : Disk) (a₀ : Nat) (gone : DirNode → Prop) : Prop where
  fat : ∀ x, InTree b d x → ¬ gone x → ∀ c ∈ x.2, getFatEntry b d' c = getFatEntry b d c
  slots : ∀ x, InTree b d x → ¬ gone x → ∀ e ∈ slotsOf b x.1 x.2, e ≠ a₀ → d.bytes.AgreeOn d'.bytes e 32
  packed : ∀ x, InTree b d x → ¬ gone x → Packed d'.bytes (slotsOf b x.1 x.2)

namespace TreeFrame
variable {gone : DirNode → Prop} {x y : DirNode}

theorem live_iff (hf : TreeFrame b d d' a₀ gone) (h : TreeInv b d ch) (hx : InTree b d x) (hg : ¬ gone x) (ha : a ≠ a₀) :
    a ∈ liveSlots d'.bytes (slotsOf b x.1 x.2) ↔ a ∈ liveSlots d.bytes (slotsOf b x.1 x.2) :=
  mem_liveSlots_iff (h.packed x hx) (hf.packed x hx hg) fun has => hf.slots x hx hg a has ha

theorem entry_eq (hf : TreeFrame b d d' a₀ gone) (hx : InTree b d x) (hg : ¬ gone x) (ha : a ≠ a₀)
    (hlive : a ∈ liveSlots d.bytes (slotsOf b x.1 x.2)) : entryAt d'.bytes a = entryAt d.bytes a :=
  entryAt_congr (hf.slots x hx hg a (mem_liveSlots hlive).1 ha)

theorem dirEntry_iff (hf : TreeFrame b d d' a₀ gone) (h : TreeInv b d ch) (hx : InTree b d x) (hg : ¬ gone x) (ha : a ≠ a₀)
    (hgone : ∀ y, DirEntry b d a x y → ¬ gone y) : DirEntry b d' a x y ↔ DirEntry b d a x y := by
  constructor
  · rintro ⟨hlive, hdir, hhead, hchain⟩
    have hlive := (hf.live_iff h hx hg ha).mp hlive
    have hentry := hf.entry_eq hx hg ha hlive
    rw [IsDir, hentry] at hdir
    rw [firstCluster, hentry] at hhead
    -- On the disk before, the directory had the chain that its entry owns.
    have hold : DirEntry b d a x (firstCluster d a, ch a) := ⟨hlive, hdir, rfl, h.fatChain (hx.live hlive)⟩
    have hkeep := hf.fat _ (hx.tail ⟨a, hold⟩) (hgone _ hold)
    have hchain' : FatChain b d' (firstCluster d a) (ch a) := congr hold.2.2.2 hkeep
    rw [← hhead] at hchain
    have hk : y.2 = ch a := unique hchain hchain'
    refine ⟨hlive, hdir, hhead, ?_⟩
    rw [hk, ← hhead]
    exact hold.2.2.2
  · intro he
    have hentry := hf.entry_eq hx hg ha he.1
    have hkeep := hf.fat y (hx.tail ⟨a, he⟩) (hgone y he)
    refine ⟨(hf.live_iff h hx hg ha).mpr he.1, ?_, ?_, congr he.2.2.2 hkeep⟩
    · rw [IsDir, hentry]
      exact he.2.1
    · rw [firstCluster, hentry]
      exact he.2.2.1

/-- The new directories are those of the slot, and have no entries. -/
def Leaf (b : Bpb) (d d' : Disk) (a₀ : Nat) : Prop :=
  ∀ x y, InTree b d x → DirEntry b d' a₀ x y → InTree b d y ∨ liveSlots d'.bytes (slotsOf b y.1 y.2) = []

theorem grow_mono (hf : TreeFrame b d d' a₀ fun _ => False) (h : TreeInv b d ch)
    (hkeep : ∀ x y, InTree b d x → DirEntry b d a₀ x y → DirEntry b d' a₀ x y) (hx : InTree b d x) : InTree b d' x := by
  induction hx with
  | refl => exact .refl
  | @tail y z hy he ih =>
    obtain ⟨a, he⟩ := he
    apply ih.tail
    by_cases ha : a = a₀
    · subst ha
      exact ⟨a, hkeep _ _ hy he⟩
    · exact ⟨a, (hf.dirEntry_iff h hy id ha fun _ _ => id).mpr he⟩

theorem grow_cases (hf : TreeFrame b d d' a₀ fun _ => False) (h : TreeInv b d ch) (hleaf : Leaf b d d' a₀) (hx : InTree b d' x) :
    InTree b d x ∨ (∃ y, InTree b d y ∧ DirEntry b d' a₀ y x) ∧ liveSlots d'.bytes (slotsOf b x.1 x.2) = [] := by
  induction hx with
  | refl => exact .inl .refl
  | @tail y z hy he ih =>
    obtain ⟨a, he⟩ := he
    rcases ih with hin | ⟨-, hempty⟩
    · by_cases ha : a = a₀
      · subst ha
        exact (hleaf y z hin he).imp id fun hempty => ⟨⟨y, hin, he⟩, hempty⟩
      · exact .inl (hin.tail ⟨a, (hf.dirEntry_iff h hin id ha fun _ _ => id).mp he⟩)
    · have hlive := he.1
      rw [hempty] at hlive
      cases hlive

theorem grow_live (hf : TreeFrame b d d' a₀ fun _ => False) (h : TreeInv b d ch)
    (hkeep : ∀ x y, InTree b d x → DirEntry b d a₀ x y → DirEntry b d' a₀ x y) (hleaf : Leaf b d d' a₀) (ha : a ≠ a₀) :
    LiveEntry b d' a ↔ LiveEntry b d a := by
  constructor
  · rintro ⟨x, hx, hlive⟩
    rcases hf.grow_cases h hleaf hx with hin | ⟨-, hempty⟩
    · exact hin.live ((hf.live_iff h hin id ha).mp hlive)
    · rw [hempty] at hlive
      cases hlive
  · rintro ⟨x, hx, hlive⟩
    exact (hf.grow_mono h hkeep hx).live ((hf.live_iff h hx id ha).mpr hlive)

/-- The directory that the slot's entry has, if it is one. -/
def Gone (d : Disk) (ch : Nat → List Nat) (a₀ : Nat) (x : DirNode) : Prop := IsDir d a₀ ∧ x = (firstCluster d a₀, ch a₀)

section
variable (hf : TreeFrame b d d' a₀ (Gone d ch a₀)) (h : TreeInv b d ch) (ha₀ : LiveEntry b d a₀)
  (hempty : ∀ x, Gone d ch a₀ x → liveSlots d.bytes (slotsOf b x.1 x.2) = [])
include h ha₀

private theorem not_gone (hx : InTree b d x) (ha : a ≠ a₀) (he : DirEntry b d a x y) : ¬ Gone d ch a₀ y := by
  rintro ⟨hdir, rfl⟩
  apply ha
  have hlive := hx.live he.1
  have hch := h.fatChain hlive
  rw [he.2.2.1] at hch
  apply h.dir_unique hlive he.2.1 ha₀
  rw [he.2.2.1, hch.unique he.2.2.2]

private theorem not_gone_root : ¬ Gone d ch a₀ (0, []) := by
  rintro ⟨hdir, heq⟩
  exact h.dirHead a₀ ha₀ hdir (congrArg Prod.fst heq).symm

include hf

private theorem shrink_sub (hout : ∀ x, InTree b d x → ¬ Gone d ch a₀ x → a₀ ∉ liveSlots d'.bytes (slotsOf b x.1 x.2)) (hx : InTree b d' x) :
    InTree b d x ∧ ¬ Gone d ch a₀ x := by
  induction hx with
  | refl => exact ⟨.refl, not_gone_root h ha₀⟩
  | @tail y z hy he ih =>
    obtain ⟨a, he⟩ := he
    obtain ⟨hin, hg⟩ := ih
    have ha : a ≠ a₀ := by
      rintro rfl
      exact hout y hin hg he.1
    have hgone := fun z => not_gone h ha₀ (y := z) hin ha
    have he := (hf.dirEntry_iff h hin hg ha hgone).mp he
    exact ⟨hin.tail ⟨a, he⟩, hgone z he⟩

include hempty

private theorem shrink_mono (hx : InTree b d x) (hg : ¬ Gone d ch a₀ x) : InTree b d' x := by
  induction hx with
  | refl => exact .refl
  | @tail y z hy he ih =>
    obtain ⟨a, he⟩ := he
    have hgy : ¬ Gone d ch a₀ y := by
      intro hgone
      have hlive := he.1
      rw [hempty y hgone] at hlive
      cases hlive
    have ha : a ≠ a₀ := by
      rintro rfl
      apply hg
      have hch := h.fatChain ha₀
      rw [he.2.2.1] at hch
      refine ⟨he.2.1, ?_⟩
      rw [he.2.2.1, hch.unique he.2.2.2]
    exact (ih hgy).tail ⟨a, (hf.dirEntry_iff h hy hgy ha fun z => not_gone h ha₀ hy ha).mpr he⟩

private theorem shrink_live (hout : ∀ x, InTree b d x → ¬ Gone d ch a₀ x → a₀ ∉ liveSlots d'.bytes (slotsOf b x.1 x.2)) :
    LiveEntry b d' a ↔ LiveEntry b d a ∧ a ≠ a₀ := by
  constructor
  · rintro ⟨x, hx, hlive⟩
    obtain ⟨hin, hg⟩ := shrink_sub hf h ha₀ hout hx
    have ha : a ≠ a₀ := by
      rintro rfl
      exact hout x hin hg hlive
    exact ⟨hin.live ((hf.live_iff h hin hg ha).mp hlive), ha⟩
  · rintro ⟨⟨x, hx, hlive⟩, ha⟩
    have hg : ¬ Gone d ch a₀ x := by
      intro hgone
      rw [hempty x hgone] at hlive
      cases hlive
    exact (shrink_mono hf h ha₀ hempty hx hg).live ((hf.live_iff h hx hg ha).mpr hlive)

end

theorem entry_live (hf : TreeFrame b d d' a₀ gone) (hg : ∀ x, gone x → liveSlots d.bytes (slotsOf b x.1 x.2) = [])
    (ha : LiveEntry b d a) (hne : a ≠ a₀) : entryAt d'.bytes a = entryAt d.bytes a := by
  obtain ⟨x, hx, hlive⟩ := ha
  apply hf.entry_eq hx _ hne hlive
  intro hgone
  rw [hg x hgone] at hlive
  cases hlive

end TreeFrame

namespace TreeInv
variable {x₀ : DirNode} {ch' : Nat → List Nat}

def OutsideFree (b : Bpb) (d : Disk) : Prop := ∀ c, 2 ≤ c → c < 256 * b.sectorsPerFat → ¬ InVolume b c → getFatEntry b d c = 0

theorem grow (h : TreeInv b d ch) (hf : TreeFrame b d d' a₀ fun _ => False)
    (hkeep : ∀ x y, InTree b d x → DirEntry b d a₀ x y → DirEntry b d' a₀ x y) (hleaf : TreeFrame.Leaf b d d' a₀)
    (hpacked : ∀ x y, InTree b d x → DirEntry b d' a₀ x y → Packed d'.bytes (slotsOf b y.1 y.2))
    (hhead : LiveEntry b d' a₀ → IsDir d' a₀ → firstCluster d' a₀ ≠ 0) (hout : OutsideFree b d')
    (ho : FatOwned b d' (LiveEntry b d') (firstCluster d') ch') : TreeInv b d' ch' where
  owned := ho
  packed x hx := by
    rcases hf.grow_cases h hleaf hx with hin | ⟨⟨y, hy, he⟩, -⟩
    · exact hf.packed x hin id
    · exact hpacked y x hy he
  outside := hout
  dirHead a ha hdir := by
    by_cases hne : a = a₀
    · subst hne
      exact hhead ha hdir
    · have ha := (hf.grow_live h hkeep hleaf hne).mp ha
      have hentry := hf.entry_live (fun _ hf => hf.elim) ha hne
      rw [IsDir, hentry] at hdir
      rw [firstCluster, hentry]
      exact h.dirHead a ha hdir

theorem unused (h : TreeInv b d ch) (hf : TreeFrame b d d' a₀ fun _ => False) (hno : ¬ LiveEntry b d a₀)
    (hno' : ∀ x, InTree b d x → a₀ ∉ liveSlots d'.bytes (slotsOf b x.1 x.2)) (hout : OutsideFree b d')
    (ho : FatOwned b d' (LiveEntry b d) (firstCluster d) ch') : TreeInv b d' ch' := by
  have hkeep : ∀ x y, InTree b d x → DirEntry b d a₀ x y → DirEntry b d' a₀ x y :=
    fun x y hx he => absurd (hx.live he.1) hno
  have hleaf : TreeFrame.Leaf b d d' a₀ := fun x y hx he => absurd he.1 (hno' x hx)
  have hno'' : ¬ LiveEntry b d' a₀ := by
    rintro ⟨x, hx, hlive⟩
    rcases hf.grow_cases h hleaf hx with hin | ⟨-, hempty⟩
    · exact hno' x hin hlive
    · rw [hempty] at hlive
      cases hlive
  have hlive : ∀ a, LiveEntry b d' a ↔ LiveEntry b d a := by
    intro a
    by_cases ha : a = a₀
    · subst ha
      exact iff_of_false hno'' hno
    · exact hf.grow_live h hkeep hleaf ha
  apply h.grow hf hkeep hleaf (fun x y hx he => absurd he.1 (hno' x hx)) (fun ha => absurd ha hno'') hout
  apply ho.congr (fun _ _ => rfl) hlive
  intro a ha
  rw [firstCluster, hf.entry_live (fun _ hf => hf.elim) ha fun heq => hno (heq ▸ ha)]
  rfl

/-- A new entry, a file or an empty directory. -/
theorem add (h : TreeInv b d ch) (hf : TreeFrame b d d' a₀ fun _ => False) (hno : ¬ LiveEntry b d a₀) (hx₀ : InTree b d x₀)
    (ha₀ : a₀ ∈ liveSlots d'.bytes (slotsOf b x₀.1 x₀.2))
    (hdir : IsDir d' a₀ → firstCluster d' a₀ ≠ 0 ∧ ∀ k, FatChain b d' (firstCluster d' a₀) k →
      liveSlots d'.bytes (slotsOf b (firstCluster d' a₀) k) = [] ∧ Packed d'.bytes (slotsOf b (firstCluster d' a₀) k))
    (hout : OutsideFree b d') (ho : FatOwned b d' (fun a => LiveEntry b d a ∨ a = a₀) (firstCluster d') ch') :
    TreeInv b d' ch' := by
  have hkeep : ∀ x y, InTree b d x → DirEntry b d a₀ x y → DirEntry b d' a₀ x y :=
    fun x y hx he => absurd (hx.live he.1) hno
  have hdir' : ∀ x y, DirEntry b d' a₀ x y →
      liveSlots d'.bytes (slotsOf b y.1 y.2) = [] ∧ Packed d'.bytes (slotsOf b y.1 y.2) := by
    rintro x y ⟨-, hd, hhead, hchain⟩
    rw [← hhead] at hchain ⊢
    exact (hdir hd).2 y.2 hchain
  have hleaf : TreeFrame.Leaf b d d' a₀ := fun x y _ he => .inr (hdir' x y he).1
  apply h.grow hf hkeep hleaf (fun x y _ he => (hdir' x y he).2) (fun _ hd => (hdir hd).1) hout
  apply ho.congr (fun _ _ => rfl) _ fun _ _ => rfl
  intro a
  by_cases ha : a = a₀
  · subst ha
    exact iff_of_true ⟨x₀, hf.grow_mono h hkeep hx₀, ha₀⟩ (.inr rfl)
  · rw [hf.grow_live h hkeep hleaf ha]
    exact (or_iff_left ha).symm

/-- An entry rewritten: a directory keeps its clusters. -/
theorem rewrite (h : TreeInv b d ch) (hf : TreeFrame b d d' a₀ fun _ => False) (hx₀ : InTree b d x₀)
    (ha₀ : a₀ ∈ liveSlots d.bytes (slotsOf b x₀.1 x₀.2)) (ha₀' : a₀ ∈ liveSlots d'.bytes (slotsOf b x₀.1 x₀.2))
    (hdir : IsDir d' a₀ ↔ IsDir d a₀) (hhead : IsDir d a₀ → firstCluster d' a₀ = firstCluster d a₀) (hout : OutsideFree b d')
    (ho : FatOwned b d' (LiveEntry b d) (firstCluster d') ch') : TreeInv b d' ch' := by
  have hlive₀ := hx₀.live ha₀
  have hone : ∀ x, InTree b d x → a₀ ∈ slotsOf b x.1 x.2 → x = x₀ :=
    fun x hx hmem => h.slot_unique hx hx₀ hmem (mem_liveSlots ha₀).1
  have hkeep : ∀ x y, InTree b d x → DirEntry b d a₀ x y → DirEntry b d' a₀ x y := by
    rintro x y hx ⟨hl, hd, hh, hc⟩
    obtain rfl := hone x hx (mem_liveSlots hl).1
    have hfat := hf.fat y (hx.tail ⟨a₀, hl, hd, hh, hc⟩) id
    exact ⟨ha₀', hdir.mpr hd, (hhead hd).trans hh, congr hc hfat⟩
  have hback : ∀ x y, InTree b d x → DirEntry b d' a₀ x y → InTree b d y := by
    rintro x y hx ⟨hl, hd, hh, hc⟩
    obtain rfl := hone x hx (mem_liveSlots hl).1
    have hd := hdir.mp hd
    have hold : InTree b d (firstCluster d a₀, ch a₀) := hx.tail ⟨a₀, ha₀, hd, rfl, h.fatChain hlive₀⟩
    have hchain : FatChain b d' (firstCluster d a₀) (ch a₀) := congr (h.fatChain hlive₀) (hf.fat _ hold id)
    rw [hhead hd] at hh
    rw [← hh] at hc
    have hy : y = (firstCluster d a₀, ch a₀) := Prod.ext hh.symm (unique hc hchain)
    rwa [hy]
  have hleaf : TreeFrame.Leaf b d d' a₀ := fun x y hx he => .inl (hback x y hx he)
  apply h.grow hf hkeep hleaf (fun x y hx he => hf.packed y (hback x y hx he) id) _ hout
  · apply ho.congr (fun _ _ => rfl) _ fun _ _ => rfl
    intro a
    by_cases ha : a = a₀
    · subst ha
      exact iff_of_true ⟨x₀, hf.grow_mono h hkeep hx₀, ha₀'⟩ hlive₀
    · exact hf.grow_live h hkeep hleaf ha
  · intro _ hd
    rw [hhead (hdir.mp hd)]
    exact h.dirHead a₀ hlive₀ (hdir.mp hd)

/-- An entry that goes, of a file or of an empty directory. -/
theorem remove (h : TreeInv b d ch) (hf : TreeFrame b d d' a₀ (TreeFrame.Gone d ch a₀)) (ha₀ : LiveEntry b d a₀)
    (hempty : ∀ x, TreeFrame.Gone d ch a₀ x → liveSlots d.bytes (slotsOf b x.1 x.2) = [])
    (hno : ∀ x, InTree b d x → ¬ TreeFrame.Gone d ch a₀ x → a₀ ∉ liveSlots d'.bytes (slotsOf b x.1 x.2))
    (hout : OutsideFree b d') (ho : FatOwned b d' (fun a => LiveEntry b d a ∧ a ≠ a₀) (firstCluster d') ch') :
    TreeInv b d' ch' where
  owned := ho.congr (fun _ _ => rfl) (fun _ => TreeFrame.shrink_live hf h ha₀ hempty hno) fun _ _ => rfl
  packed x hx := by
    obtain ⟨hin, hg⟩ := TreeFrame.shrink_sub hf h ha₀ hno hx
    exact hf.packed x hin hg
  outside := hout
  dirHead a ha hdir := by
    obtain ⟨ha, hne⟩ := (TreeFrame.shrink_live hf h ha₀ hempty hno).mp ha
    have hentry := hf.entry_live hempty ha hne
    rw [IsDir, hentry] at hdir
    rw [firstCluster, hentry]
    exact h.dirHead a ha hdir

end TreeInv

end Fat16
end RetroOs.Drivers
