import RetroOs.Drivers.Fat16ReadWrite

/-! What `fat16_read_vfs` gives after `fat16_write_vfs`: the write goes to the start of the file and the
node keeps its size, so that it is read back only where neither makes a difference. -/
namespace RetroOs.Drivers
open Lib Nat List Option Memory
namespace Fat16

variable {b : Bpb} {d d' : Disk} {dir o n : Nat} {name : CString} {node node' : Node} {l slots : List Nat}
  {data : List UInt8} {tmp : Memory}

def fileBytes (b : Bpb) (d : Disk) (l : List Nat) : Memory := fun x => d.bytes (fileAddr b l x)

structure FileNode (b : Bpb) (d : Disk) (dir : Nat) (name : CString) (node : Node) (slots l : List Nat) : Prop where
  fats : 1 ≤ b.fatsCount
  sectors : 1 ≤ b.sectorsPerCluster
  found : finddirVfs b d dir name = some (.node node)
  file : node.directory = false
  dirSlots : DirSlots b d dir slots
  chain : FatChain b d node.impl l
  inVolume : ∀ c ∈ l, InVolume b c
  room : node.size ≤ l.length * clusterSize b
  apart : ∀ a ∈ slots, ∀ c ∈ l, ¬ InCluster b c a

/-- Reading through `node'` on the disk after the write gives the data at the offset, and elsewhere
below the old size the bytes read before. -/
def ReadsBack (b : Bpb) (d d' : Disk) (node node' : Node) (o : Nat) (data : List UInt8) : Prop :=
  ∀ tmp tmp₀ : Memory, readVfs b d' node' o data.length (some tmp) = some data ∧
    ∀ x < node.size, x < o ∨ o + data.length ≤ x →
      readVfs b d' node' x 1 (some tmp) = readVfs b d node x 1 (some tmp₀)

private theorem finddirVfs_congr (h : DirSlots b d dir slots) (h' : DirSlots b d' dir slots)
    (he : ∀ a ∈ slots, d.bytes.AgreeOn d'.bytes a 32) : finddirVfs b d' dir name = finddirVfs b d dir name := by
  rw [finddirVfs, finddirVfs]
  split
  · rfl
  · rw [h.findEntry, h'.findEntry, find_congr he]
    cases hfind : (liveSlots d.bytes slots).find? (hasName d.bytes name) with
    | none => rfl
    | some a =>
      have ha := (mem_liveSlots (mem_of_find?_eq_some hfind)).1
      dsimp only
      rw [entryAt_congr (he a ha)]

theorem DirSlots.congr (h : DirSlots b d dir slots)
    (he : ∀ c, InVolume b c → getFatEntry b d' c = getFatEntry b d c) : DirSlots b d' dir slots := by
  cases h with
  | root => exact .root
  | sub hc hv h0 => exact .sub (Chain.congr hc fun c hcl => he c (hv c hcl)) hv h0

namespace FileNode

private theorem apart_slot (h : FileNode b d dir name node slots l) {a c x : Nat} (ha : a ∈ slots) (hc : c ∈ l)
    (hx : InCluster b c x) (hlo : a ≤ x) (hhi : x < a + 32) : False := by
  have halign := h.dirSlots.aligned ha
  obtain ⟨hge, hlt⟩ := hx
  apply h.apart a ha c hc
  simp only [InCluster, clusterAddr, clusterSize] at hge hlt ⊢
  omega

private theorem wrote_finddir (h : FileNode b d dir name node slots l) (hw : Wrote b d d' l data 0) :
    finddirVfs b d' dir name = some (.node node) := by
  have hslots : DirSlots b d' dir slots := h.dirSlots.congr fun c hc => hw.fat h.fats hc.fat
  rw [finddirVfs_congr h.dirSlots hslots, h.found]
  intro a ha x hlo hhi
  exact hw.outside x fun c hc hin => h.apart_slot ha hc hin hlo hhi

end FileNode

private theorem readVfs_length {r : List UInt8} (h : readVfs b d node o n (some tmp) = some r) (hn : r.length = n)
    (h0 : 0 < n) : o + n ≤ node.size := by
  rw [readVfs] at h
  dsimp only at h
  split at h
  · cases h
    exact absurd h0 (not_lt.mpr (le_of_eq hn.symm))
  · generalize (if (o + n) % 2 ^ 32 > node.size then node.size - o else n) = k at h
    split at h
    · next hfit =>
      have hlen := congrArg length (some.inj h)
      rw [bytes, length_map, length_range, hn] at hlen
      rwa [hlen] at hfit
    · cases h

theorem readVfs_inside (h : FatChain b d node.impl l) (hs : 1 ≤ b.sectorsPerCluster)
    (hroom : node.size ≤ l.length * clusterSize b) (ho : o + n ≤ node.size) :
    readVfs b d node o n (some tmp) = some ((fileBytes b d l).bytes o n) := by
  have hmod := mod_le (o + n) (2 ^ 32)
  rw [readVfs]
  rw [if_neg (by omega), if_neg (not_lt.mpr (hmod.trans ho)), if_pos ho]
  have hroom' : node.size ≤ 0 + l.length * clusterSize b := by omega
  have hfuel : node.size < 0 + (node.size + 1) := by omega
  obtain ⟨-, hread⟩ := readClusters_spec h tmp hs hroom' hfuel
  have hagree : (fileBytes b d l).AgreeOn (readFile b d node.impl node.size tmp) o n := by
    intro x _ hx
    rw [readFile, ← zero_add x]
    exact (hread x (by omega)).trans (congrArg _ (congrArg _ (zero_add x).symm))
  rw [hagree.bytes]

private theorem readVfs_empty (node : Node) (o : Nat) : readVfs b d node o 0 (some tmp) = some [] := by
  have hmod := mod_le o (2 ^ 32)
  rw [readVfs]
  split
  · rfl
  · next ho =>
    have ho := not_lt.mp ho
    rw [add_zero, if_neg (not_lt.mpr (hmod.trans ho))]
    exact if_pos ho

theorem readsBack_iff (h : FatChain b d node.impl l) (h' : FatChain b d' node.impl l)
    (hs : 1 ≤ b.sectorsPerCluster) (hroom : node.size ≤ l.length * clusterSize b)
    (ho : o + data.length ≤ node.size) :
    ReadsBack b d d' node node o data ↔
      ∀ x < node.size, fileBytes b d' l x = (fileBytes b d l).memcpy o data x := by
  have hone : ∀ {e : Disk} {t : Memory} {x : Nat}, FatChain b e node.impl l → x < node.size →
      readVfs b e node x 1 (some t) = some [fileBytes b e l x] :=
    fun he hx => readVfs_inside he hs hroom hx
  constructor
  · intro hback x hx
    obtain ⟨hdata, helse⟩ := hback d.bytes d.bytes
    by_cases hin : o ≤ x ∧ x < o + data.length
    · rw [readVfs_inside h' hs hroom ho] at hdata
      rw [memcpy, if_pos hin.1, ← some.inj hdata, bytes_getD _ _ (by omega)]
      congr 1
      omega
    · have hbyte := helse x hx (by omega)
      rw [hone h' hx, hone h hx] at hbyte
      rw [head_eq_of_cons_eq (some.inj hbyte)]
      exact (memcpy_agreeOn _ data (a := x) (n := 1) (by omega) x (le_refl x) (lt_succ_self x)).symm
  · intro hbytes tmp tmp₀
    constructor
    · have hagree : ((fileBytes b d l).memcpy o data).AgreeOn (fileBytes b d' l) o data.length :=
        fun x _ hx => hbytes x (by omega)
      rw [readVfs_inside h' hs hroom ho, hagree.bytes, bytes_memcpy _ (le_refl _), take_length]
    · intro x hx hout
      rw [hone h' hx, hone h hx, hbytes x hx]
      congr 2
      exact memcpy_agreeOn _ data (a := x) (n := 1) (by omega) x (le_refl x) (lt_succ_self x)

theorem FileNode.writeVfs_inside (h : FileNode b d dir name node slots l) (hd : data ≠ [])
    (hroom : data.length ≤ node.size) (o : Nat) :
    (writeVfs b d node o data).2.1 = node ∧ Wrote b d (writeVfs b d node o data).1 l data 0 := by
  have hpos := length_pos_of_ne_nil hd
  have hsize := h.room
  have himpl : node.impl ≠ 0 := by
    intro h0
    have hl : l = [] := h.chain.unique (chain_nil.mpr (by rw [h0]; decide))
    rw [hl, length_nil, zero_mul] at hsize
    omega
  obtain ⟨e, -, hp⟩ := h.chain
  have hroom : data.length ≤ 0 + l.length * clusterSize b := by omega
  have hfuel : data.length < 0 + (data.length + 1) := by omega
  obtain ⟨hwrote, -⟩ := writeClusters_wrote hp h.inVolume h.chain.nodup h.fats h.sectors hroom hfuel
  rw [writeVfs, if_neg himpl]
  exact ⟨rfl, hwrote⟩

theorem FileNode.writeVfs_empty (h : FileNode b d dir name node slots l) (o : Nat) :
    (writeVfs b d node o []).1 = d ∧ (writeVfs b d node o []).2.1 = node ∨ node.size = 0 := by
  by_cases himpl : node.impl = 0
  · have hl : l = [] := h.chain.unique (chain_nil.mpr (by rw [himpl]; decide))
    have hsize := h.room
    rw [hl, length_nil, zero_mul] at hsize
    exact .inr (le_zero.mp hsize)
  · rw [writeVfs, if_neg himpl, writeClusters_empty]
    exact .inl ⟨rfl, rfl⟩

theorem FileNode.readsBack_empty (h : FileNode b d dir name node slots l) (o : Nat)
    (hn : node' = (writeVfs b d node o []).2.1 ∨
      finddirVfs b (writeVfs b d node o []).1 dir name = some (.node node')) :
    ReadsBack b d (writeVfs b d node o []).1 node node' o [] := by
  intro tmp tmp₀
  refine ⟨readVfs_empty node' o, fun x hx _ => ?_⟩
  rcases h.writeVfs_empty o with ⟨hd, hnode⟩ | h0
  · have hsame : node' = node := by
      rcases hn with hn | hn
      · rw [hn, hnode]
      · rw [hd, h.found] at hn
        exact (Lookup.node.inj (some.inj hn)).symm
    rw [hsame, hd, readVfs_inside h.chain h.sectors h.room hx, readVfs_inside h.chain h.sectors h.room hx]
  · rw [h0] at hx
    cases hx

private theorem writeVfs_size (b : Bpb) (d : Disk) (node : Node) (o : Nat) (data : List UInt8) :
    (writeVfs b d node o data).2.1.size = node.size := by
  rw [writeVfs]
  split
  · split
    split <;> rfl
  · rfl

theorem FileNode.fileBytes_writeVfs (h : FileNode b d dir name node slots l) (hd : data ≠ []) (hfit : o + data.length ≤ node.size)
    {x : Nat} (hx : x < node.size) :
    fileBytes b (writeVfs b d node o data).1 l x = (fileBytes b d l).memcpy 0 data x := by
  obtain ⟨-, hwrote⟩ := h.writeVfs_inside hd (by omega) o
  have hin := hwrote.inside x (lt_of_lt_of_le hx h.room)
  rw [zero_add] at hin
  exact hin

theorem FileNode.readsBack_iff_overlay (h : FileNode b d dir name node slots l) (hd : data ≠ [])
    (hfit : o + data.length ≤ node.size) :
    ReadsBack b d (writeVfs b d node o data).1 node node o data ↔
      ∀ x < node.size, (fileBytes b d l).memcpy 0 data x = (fileBytes b d l).memcpy o data x := by
  obtain ⟨-, hwrote⟩ := h.writeVfs_inside hd (by omega) o
  have hchain : FatChain b (writeVfs b d node o data).1 node.impl l :=
    Chain.congr h.chain fun c hc => hwrote.fat h.fats (h.inVolume c hc).fat
  rw [readsBack_iff h.chain hchain h.sectors h.room hfit]
  constructor
  · intro hb x hx
    rw [← h.fileBytes_writeVfs hd hfit hx, hb x hx]
  · intro hb x hx
    rw [h.fileBytes_writeVfs hd hfit hx, hb x hx]

/-- A write is read back, through the node or one looked up afresh, exactly where it has no bytes, or it
lies inside the old size and the file with the data laid over its start is the file with the data laid
over the offset; whatever the call returns. -/
theorem writeVfs_readsBack_iff (h : FileNode b d dir name node slots l) (o : Nat) (data : List UInt8) :
    (∀ node', node' = (writeVfs b d node o data).2.1 ∨
        finddirVfs b (writeVfs b d node o data).1 dir name = some (.node node') →
      ReadsBack b d (writeVfs b d node o data).1 node node' o data) ↔
    data = [] ∨ o + data.length ≤ node.size ∧
      ∀ x < node.size, (fileBytes b d l).memcpy 0 data x = (fileBytes b d l).memcpy o data x := by
  by_cases hd : data = []
  · subst hd
    exact ⟨fun _ => .inl rfl, fun _ node' hn => h.readsBack_empty o hn⟩
  · constructor
    · intro hback
      have hself := hback _ (.inl rfl)
      have hfit := readVfs_length (hself d.bytes d.bytes).1 rfl (length_pos_of_ne_nil hd)
      rw [writeVfs_size] at hfit
      obtain ⟨hnode, -⟩ := h.writeVfs_inside hd (by omega) o
      rw [hnode] at hself
      exact .inr ⟨hfit, (h.readsBack_iff_overlay hd hfit).mp hself⟩
    · intro hcond node' hn
      obtain ⟨hfit, hover⟩ := hcond.resolve_left hd
      obtain ⟨hnode, hwrote⟩ := h.writeVfs_inside hd (by omega) o
      have hsame : node' = node := by
        rcases hn with hn | hn
        · rw [hn, hnode]
        · rw [h.wrote_finddir hwrote] at hn
          exact (Lookup.node.inj (some.inj hn)).symm
      rw [hsame]
      exact (h.readsBack_iff_overlay hd hfit).mpr hover

private theorem rootSlots_apart {a c : Nat} (ha : a ∈ rootSlots b) : ¬ InCluster b c a := by
  intro hin
  have hlow := (mem_rootSlots ha).2.2
  have hge := mul_le_mul_left 512 (clusterToSector_ge b c)
  have haddr : 512 * b.clusterToSector c ≤ a := hin.1
  omega

def smallNode : Node := { name := .ofString "a", impl := 2, size := 2, directory := false }

private theorem smallNode_file :
    FileNode (init smallDisk) smallDisk 0 (.ofString "a") smallNode (rootSlots (init smallDisk)) [2] where
  fats := by decide +kernel
  sectors := by decide +kernel
  found := by decide +kernel
  file := rfl
  dirSlots := .root
  chain := chain_cons.mpr ⟨rfl, by decide, chain_nil.mpr (by decide +kernel)⟩
  inVolume := by
    intro c hc
    rw [mem_singleton.mp hc]
    constructor <;> decide +kernel
  room := by decide +kernel
  apart := fun _ ha _ _ => rootSlots_apart ha

theorem smallNode_readsBack :
    ReadsBack (init smallDisk) smallDisk (writeVfs (init smallDisk) smallDisk smallNode 0 [99]).1 smallNode
      (writeVfs (init smallDisk) smallDisk smallNode 0 [99]).2.1 0 [99] :=
  (writeVfs_readsBack_iff smallNode_file 0 [99]).mpr (.inr ⟨by decide, fun _ _ => rfl⟩) _ (.inl rfl)

theorem write_at_start :
    ∃ d node, FileNode (init d) d 0 (.ofString "a") node (rootSlots (init d)) [2] ∧
      (writeVfs (init d) d node 1 [99]).2.2 = 1 ∧
      ¬ ReadsBack (init d) d (writeVfs (init d) d node 1 [99]).1 node (writeVfs (init d) d node 1 [99]).2.1 1 [99] := by
  refine ⟨smallDisk, smallNode, smallNode_file, by decide +kernel, fun h => ?_⟩
  have hread := (h smallDisk.bytes smallDisk.bytes).1
  revert hread
  decide +kernel

end Fat16
end RetroOs.Drivers
