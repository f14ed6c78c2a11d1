import RetroOs.Kernel.KernelFsBlocks
import Mathlib.Data.List.GetD

/-! What a creation on the kernel's RAM disk leaves in its directory: the entry is found by its name, or the inode is
taken although there is no entry. -/
namespace RetroOs.Kernel
open Lib List Option Nat Memory Bool KernelFs
namespace KernelFs

variable {s t : KernelFs} {i j k b dir parent child base : Nat} {type : InodeType} {name name' : CString} {m : Memory}

/-! ### Entries -/

def slotAt (base k : Nat) : Nat := base + entrySize * k

/-- The name in the field of an entry, if its terminator is there. -/
def nameAt (m : Memory) (base k : Nat) : CString := m.cstr (slotAt base k + 4) maxFilename

/-- An entry that a lookup can return, with a name that ends in its field. -/
structure SoundEntry (s : KernelFs) (base k : Nat) : Prop where
  live : s.Live (s.disk.load32 (slotAt base k))
  terminated : (nameAt s.disk base k).length < maxFilename

structure SoundDir (s : KernelFs) (dir : Nat) : Prop where
  live : s.Live dir
  type : (s.inodes dir).type = .dir
  block : (s.inodes dir).blockCount ≠ 0 → (s.inodes dir).blocks 0 < maxBlocks
  entries : (s.inodes dir).blockCount ≠ 0 → ∀ k < maxEntries,
    s.disk.load32 (slotAt (blockPtr ((s.inodes dir).blocks 0)) k) = 0 ∨ SoundEntry s (blockPtr ((s.inodes dir).blocks 0)) k

/-- There is a free entry in the directory's block, or a block for its first one. -/
def HasRoom (s : KernelFs) (dir : Nat) : Prop :=
  if (s.inodes dir).blockCount = 0 then ∃ b < maxBlocks, s.bitmap b = false
  else ∃ k < maxEntries, s.disk.load32 (slotAt (blockPtr ((s.inodes dir).blocks 0)) k) = 0

/-- Whether entry `k` has the name, as `dir_lookup_internal` compares them. -/
def named (m : Memory) (base : Nat) (name : CString) (k : Nat) : Bool :=
  m.load32 (slotAt base k) != 0 && m.strEq (slotAt base k + 4) name

private theorem find_range_unique {p : Nat → Bool} {n : Nat} (hk : k < n) (hp : p k = true) (h : ∀ j < n, p j = true → j = k) :
    (range n).find? p = some k := by
  cases hfind : (range n).find? p with
  | none => exact absurd hp (find?_eq_none.mp hfind k (mem_range.mpr hk))
  | some j => rw [h j (mem_range.mp (mem_of_find?_eq_some hfind)) (find?_some hfind)]

private theorem find_range_congr {p q : Nat → Bool} {n : Nat} (h : ∀ j < n, p j = q j) :
    (range n).find? p = (range n).find? q := by
  rw [← head?_filter, ← head?_filter, filter_congr fun j hj => h j (mem_range.mp hj)]

/-! ### A new entry -/

def putEntry (m : Memory) (base k child : Nat) (name : CString) : Memory :=
  (m.store32 (slotAt base k) child).memcpy (slotAt base k + 4) (nameField name)

private theorem length_nameField (name : CString) : (nameField name).length = maxFilename := by
  rw [nameField, length_append, length_replicate, length_map, length_take, maxFilename]
  omega

private theorem slotAt_apart (base : Nat) (h : j ≠ k) :
    slotAt base j + entrySize ≤ slotAt base k ∨ slotAt base k + entrySize ≤ slotAt base j := by
  rw [slotAt, slotAt, entrySize, maxFilename]
  omega

private theorem putEntry_agree (m : Memory) (base child : Nat) (name : CString) (h : j ≠ k) :
    Memory.AgreeOn m (putEntry m base k child name) (slotAt base j) entrySize := by
  have hapart := slotAt_apart base h
  have hlen := length_nameField name
  rw [entrySize] at hapart ⊢
  exact (store32_agreeOn _ _ (by omega)).trans (memcpy_agreeOn _ _ (by omega))

private theorem putEntry_load (m : Memory) (base k : Nat) (name : CString) (h : child < 2 ^ 32) :
    (putEntry m base k child name).load32 (slotAt base k) = child := by
  rw [putEntry, (memcpy_agreeOn _ _ (.inl (le_refl _))).load32, load32_store32 _ _ h]

private theorem putEntry_strEq (m : Memory) (base k child : Nat) (name : CString) :
    (putEntry m base k child name).strEq (slotAt base k + 4) (name.take (maxFilename - 1)) = true := by
  have hlen : (name.take (maxFilename - 1)).length < maxFilename := by
    rw [length_take, maxFilename]
    omega
  have hget : ∀ x < maxFilename, putEntry m base k child name (slotAt base k + 4 + x) = (nameField name).getD x 0 := by
    intro x hx
    rw [← length_nameField name] at hx
    rw [putEntry, Memory.memcpy, if_pos (Nat.le_add_right ..), Nat.add_sub_cancel_left, ← List.getElem_eq_getD _ (h := hx),
      ← getElem_eq_getD _ (h := hx)]
  refine strEq_of_bytes (fun x hx => ?_) ?_
  · rw [hget x (by omega), nameField, getD_append _ _ _ _ (by rwa [length_map])]
    rw [← getElem_eq_getD _ (h := by rwa [length_map]), getElem_map]
  · rw [hget _ hlen, nameField, getD_append_right _ _ _ _ (by rw [length_map])]
    rw [getD_eq_getElem?_getD, getElem?_getD_replicate_default_eq]

/-- The number that a lookup in the block finds. -/
def lookIn (m : Memory) (base : Nat) (name : CString) : Int :=
  match (range maxEntries).find? (named m base name) with
  | none => -1
  | some k => asInt (m.load32 (slotAt base k))

theorem dirLookup_eq (hd : dir < maxInodes) (ht : (s.inodes dir).type = .dir) (hc : (s.inodes dir).blockCount ≠ 0)
    (hb : (s.inodes dir).blocks 0 < maxBlocks) (name : CString) :
    s.dirLookup dir name = some (lookIn s.disk (blockPtr ((s.inodes dir).blocks 0)) name) := by
  have hdir : ¬ ((s.inodes dir).type ≠ .dir ∨ (s.inodes dir).blockCount = 0) := by
    rintro (h | h)
    · exact h ht
    · exact hc h
  rw [dirLookup, if_neg (not_le.mpr hd)]
  simp only [if_neg hdir, if_neg (not_le.mpr hb)]
  show (match (range maxEntries).find? (named s.disk (blockPtr ((s.inodes dir).blocks 0)) name) with
    | none => some (-1)
    | some k => some (asInt (s.disk.load32 (slotAt (blockPtr ((s.inodes dir).blocks 0)) k)))) = _
  rw [lookIn]
  cases (range maxEntries).find? (named s.disk (blockPtr ((s.inodes dir).blocks 0)) name) <;> rfl

/-- Each entry of the block that is not free has a name that ends in its field. -/
def Terminated (m : Memory) (base : Nat) : Prop :=
  ∀ k < maxEntries, m.load32 (slotAt base k) = 0 ∨ (nameAt m base k).length < maxFilename

private theorem named_iff (h : Terminated m base) (hk : k < maxEntries) :
    named m base name k = true ↔ m.load32 (slotAt base k) ≠ 0 ∧ nameAt m base k = name := by
  rw [named, and_eq_true, bne_iff_ne]
  refine and_congr_right fun h0 => ?_
  exact strEq_terminated ((h k hk).resolve_left h0)

private theorem named_putEntry_other (hterm : Terminated m base) (hj : j < maxEntries) (hjk : j ≠ k) :
    named (putEntry m base k child name) base name' j = named m base name' j := by
  have hkeep := putEntry_agree m base child name hjk
  have hload : (putEntry m base k child name).load32 (slotAt base j) = m.load32 (slotAt base j) :=
    (hkeep.mono (le_refl _) (by rw [entrySize]; omega)).load32
  have hname : nameAt (putEntry m base k child name) base j = nameAt m base j :=
    (hkeep.mono (Nat.le_add_right ..) (by rw [entrySize]; omega)).cstr
  rw [named, named, hload]
  rcases hterm j hj with hz | hlen
  · rw [hz]
    rfl
  · congr 1
    rw [Bool.eq_iff_iff, strEq_terminated hlen, strEq_terminated (s := name') (by rw [← nameAt, hname]; exact hlen),
      ← nameAt, ← nameAt, hname]

private theorem named_putEntry_self (h0 : child ≠ 0) (hchild : child < 2 ^ 31) :
    named (putEntry m base k child name) base name' k = true ↔ name' = name.take (maxFilename - 1) := by
  have hlen : (name.take (maxFilename - 1)).length < maxFilename := by
    rw [length_take, maxFilename]
    omega
  have hself := putEntry_strEq m base k child name
  have hcstr := (strEq_iff hlen).mp hself
  rw [named, putEntry_load m base k name (by omega), and_eq_true, bne_iff_ne, and_iff_right h0,
    strEq_terminated (by rw [hcstr]; exact hlen), hcstr]
  exact eq_comm

private theorem lookIn_putEntry_other (hterm : Terminated m base) (hfree : m.load32 (slotAt base k) = 0) (h0 : child ≠ 0)
    (hchild : child < 2 ^ 31) (h : name' ≠ name.take (maxFilename - 1)) :
    lookIn (putEntry m base k child name) base name' = lookIn m base name' := by
  have hsame : ∀ j < maxEntries, named (putEntry m base k child name) base name' j = named m base name' j := by
    intro j hj
    by_cases hjk : j = k
    · subst hjk
      have hnew : named (putEntry m base j child name) base name' j = false :=
        eq_false_iff.mpr (mt (named_putEntry_self h0 hchild).mp h)
      rw [hnew, named, hfree]
      rfl
    · exact named_putEntry_other hterm hj hjk
  rw [lookIn, lookIn, find_range_congr hsame]
  cases hfind : (range maxEntries).find? (named m base name') with
  | none => rfl
  | some j =>
    have hj := find?_some hfind
    have hjk : j ≠ k := by
      rintro rfl
      rw [named, hfree] at hj
      cases hj
    have hkeep := putEntry_agree m base child name hjk
    exact congrArg asInt (hkeep.mono (le_refl _) (by rw [entrySize]; omega)).load32

private theorem lookIn_putEntry_self (name : CString) (hterm : Terminated m base) (hk : k < maxEntries) (h0 : child ≠ 0) (hchild : child < 2 ^ 31)
    (h : ∀ j < maxEntries, named m base (name.take (maxFilename - 1)) j = false) :
    lookIn (putEntry m base k child name) base (name.take (maxFilename - 1)) = child := by
  have hfind : (range maxEntries).find? (named (putEntry m base k child name) base (name.take (maxFilename - 1))) = some k := by
    refine find_range_unique hk ((named_putEntry_self h0 hchild).mpr rfl) fun j hj hnamed => ?_
    by_contra hjk
    rw [named_putEntry_other hterm hj hjk, h j hj] at hnamed
    cases hnamed
  rw [lookIn, hfind]
  simp only [putEntry_load m base k name (show child < 2 ^ 32 by omega)]
  rw [asInt, if_pos hchild]

structure Added (s t : KernelFs) (dir child : Nat) (name : CString) (m : Memory) (base k : Nat) : Prop where
  slot : k < maxEntries
  free : m.load32 (slotAt base k) = 0
  disk : t.disk = putEntry m base k child name
  type : (t.inodes dir).type = (s.inodes dir).type
  blockCount : (t.inodes dir).blockCount ≠ 0
  inRange : (t.inodes dir).blocks 0 < maxBlocks
  base_eq : base = blockPtr ((t.inodes dir).blocks 0)
  cleared : (s.inodes dir).blockCount = 0 → ∀ j < maxEntries, m.load32 (slotAt base j) = 0
  kept : (s.inodes dir).blockCount ≠ 0 → m = s.disk ∧ base = blockPtr ((s.inodes dir).blocks 0)

private theorem dirAdd_eq {u : KernelFs} (child : Nat) (name : CString) (hd : dir < maxInodes)
    (hu : (if (s.inodes dir).blockCount = 0 then
      s.allocBlock.map fun r => r.1.setInode dir { s.inodes dir with blocks := Function.update (s.inodes dir).blocks 0 r.2, blockCount := 1 }
      else some s) = some u)
    (hb : (u.inodes dir).blocks 0 < maxBlocks)
    (hroom : ∃ k < maxEntries, u.disk.load32 (slotAt (blockPtr ((u.inodes dir).blocks 0)) k) = 0) :
    ∃ k < maxEntries, u.disk.load32 (slotAt (blockPtr ((u.inodes dir).blocks 0)) k) = 0 ∧ s.dirAdd dir child name =
      some ((u.setDisk (putEntry u.disk (blockPtr ((u.inodes dir).blocks 0)) k child name)).setInode dir
        { u.inodes dir with size := (u.inodes dir).size + entrySize }) := by
  obtain ⟨k₀, hk₀, hfree₀⟩ := hroom
  cases hfind : (range maxEntries).find? fun i => u.disk.load32 (blockPtr ((u.inodes dir).blocks 0) + entrySize * i) = 0 with
  | none => exact absurd (decide_eq_true hfree₀) (find?_eq_none.mp hfind k₀ (mem_range.mpr hk₀))
  | some k =>
    have hfree := find?_some hfind
    refine ⟨k, mem_range.mp (mem_of_find?_eq_some hfind), of_decide_eq_true hfree, ?_⟩
    rw [dirAdd, if_neg (not_le.mpr hd)]
    simp only [hu, if_neg (not_le.mpr hb), hfind]
    rfl

private theorem dirAdd_room (hd : dir < maxInodes) (hblock : (s.inodes dir).blockCount ≠ 0 → (s.inodes dir).blocks 0 < maxBlocks)
    (hroom : HasRoom s dir) (child : Nat) (name : CString) :
    ∃ t m base k, s.dirAdd dir child name = some t ∧ Added s t dir child name m base k := by
  rw [HasRoom] at hroom
  by_cases hc : (s.inodes dir).blockCount = 0
  · -- a cleared block, in which every entry is free
    rw [if_pos hc] at hroom
    obtain ⟨b₀, hb₀, hfree₀⟩ := hroom
    obtain ⟨⟨v, b⟩, halloc⟩ : ∃ r, s.allocBlock = some r := by
      rw [← isSome_iff_exists, allocBlock, isSome_map, find?_isSome]
      exact ⟨b₀, mem_range'_1.mpr ⟨zero_le _, by rwa [zero_add]⟩, by rw [hfree₀]; rfl⟩
    obtain ⟨hb, -, -, hinodes, -⟩ := allocBlock_spec halloc
    have hdisk : v.disk = s.disk.fill (blockPtr b) 0 blockSize := by
      obtain ⟨b', -, he⟩ := map_eq_some_iff.mp halloc
      cases he
      rfl
    have hzero : ∀ j < maxEntries, v.disk.load32 (slotAt (blockPtr b) j) = 0 := by
      intro j hj
      refine load32_zero fun x hl hu => ?_
      have hmax : entrySize * (j + 1) ≤ entrySize * maxEntries := mul_le_mul_left _ hj
      have hfits : entrySize * maxEntries ≤ blockSize := by decide
      rw [mul_succ] at hmax
      have hsize : 4 ≤ entrySize := by decide
      rw [slotAt] at hl hu
      rw [hdisk, fill, if_pos (by omega)]
    have hnode : ((v.addBlock dir b).inodes dir).blocks 0 = b := by simp [addBlock, setInode, hinodes, hc]
    obtain ⟨k, hk, hfree, hadd⟩ := dirAdd_eq (u := v.addBlock dir b) child name hd
      (by rw [if_pos hc, halloc, map_some, firstBlock_eq hc halloc]) (by rwa [hnode])
      ⟨0, by decide, by rw [hnode]; exact hzero 0 (by decide)⟩
    refine ⟨_, v.disk, blockPtr b, k, hadd, hk, hzero k hk, ?_, ?_, ?_, ?_, ?_, fun _ => hzero, fun h => absurd hc h⟩
    · rw [hnode]
      rfl
    · simp [setInode, setDisk, addBlock, hinodes]
    · simp [setInode, setDisk, addBlock, hinodes]
    · simpa [setInode, setDisk, addBlock, hinodes, hc] using hb
    · simp [setInode, setDisk, addBlock, hinodes, hc]
  · rw [if_neg hc] at hroom
    obtain ⟨k, hk, hfree, hadd⟩ := dirAdd_eq child name hd (if_neg hc) (hblock hc) hroom
    refine ⟨_, s.disk, blockPtr ((s.inodes dir).blocks 0), k, hadd, hk, hfree, rfl, ?_, ?_, ?_, ?_, fun h => absurd h hc,
      fun _ => ⟨rfl, rfl⟩⟩
    · simp [setInode]
    · simp [setInode, hc]
    · simpa [setInode] using hblock hc
    · simp [setInode]

/-! ### Creations -/

private theorem allocInode_spec {u : KernelFs} (e : s.allocInode type parent = some (u, i)) :
    s.freeInode = some i ∧ u.disk = s.disk ∧ u.bitmap = s.bitmap ∧ ∀ j, j ≠ i → u.inodes j = s.inodes j := by
  obtain ⟨i', hfree, he⟩ := map_eq_some_iff.mp e
  cases he
  exact ⟨hfree, rfl, rfl, fun j hj => Function.update_of_ne hj ..⟩

private theorem lookIn_ne_zero (m : Memory) (base : Nat) (name : CString) : lookIn m base name ≠ 0 := by
  rw [lookIn]
  cases hfind : (range maxEntries).find? (named m base name) with
  | none => exact (by decide : (-1 : Int) ≠ 0)
  | some k =>
    have h0 := find?_some hfind
    rw [named, and_eq_true, bne_iff_ne] at h0
    have hlt := m.load32_lt (slotAt base k)
    show asInt (m.load32 (slotAt base k)) ≠ 0
    rw [asInt]
    split <;> omega

private theorem lookIn_none (h : ∀ j < maxEntries, named m base name j = false) : lookIn m base name = -1 := by
  have hfind : (range maxEntries).find? (named m base name) = none :=
    find?_eq_none.mpr fun j hj => by rw [h j (mem_range.mp hj)]; decide
  rw [lookIn, hfind]

theorem dirLookup_empty (hd : dir < maxInodes) (hc : (s.inodes dir).blockCount = 0) (name : CString) :
    s.dirLookup dir name = some (-1) := by
  rw [dirLookup, if_neg (not_le.mpr hd)]
  exact if_pos (.inr hc)

theorem SoundDir.terminated (h : SoundDir s dir) (hc : (s.inodes dir).blockCount ≠ 0) :
    Terminated s.disk (blockPtr ((s.inodes dir).blocks 0)) :=
  fun k hk => (h.entries hc k hk).imp id SoundEntry.terminated

theorem SoundDir.lookup (h : SoundDir s dir) (name : CString) :
    s.dirLookup dir name = some (-1) ∧ ((s.inodes dir).blockCount ≠ 0 → ∀ j < maxEntries,
        named s.disk (blockPtr ((s.inodes dir).blocks 0)) name j = false) ∨
      ∃ i, s.Live i ∧ s.dirLookup dir name = some (i : Int) := by
  by_cases hc : (s.inodes dir).blockCount = 0
  · exact .inl ⟨dirLookup_empty h.live.1 hc name, fun hne => absurd hc hne⟩
  · rw [dirLookup_eq h.live.1 h.type hc (h.block hc), lookIn]
    cases hfind : (range maxEntries).find? (named s.disk (blockPtr ((s.inodes dir).blocks 0)) name) with
    | none =>
      exact .inl ⟨rfl, fun _ j hj => eq_false_iff.mpr (find?_eq_none.mp hfind j (mem_range.mpr hj))⟩
    | some k =>
      have h0 := find?_some hfind
      rw [named, and_eq_true, bne_iff_ne] at h0
      have hlive := ((h.entries hc k (mem_range.mp (mem_of_find?_eq_some hfind))).resolve_left h0.1).live
      refine .inr ⟨_, hlive, congrArg some (if_pos ?_)⟩
      exact lt_trans hlive.1 (by decide)

/-- What a creation that returns `r` owes to its caller. -/
structure CreateContract (s t : KernelFs) (parent : Nat) (name : CString) (r : Option Nat) : Prop where
  found : ∀ i ∈ r, t.dirLookup parent name = some (i : Int)
  kept : r.isSome → ∀ name' v, s.dirLookup parent name' = some v → v ≠ -1 → t.dirLookup parent name' = some v
  failed : ¬ HasRoom s parent → r = none ∧ t.inodes = s.inodes ∧ t.bitmap = s.bitmap ∧ t.disk = s.disk

structure Made (s t : KernelFs) (parent i : Nat) (name : CString) (m : Memory) (base k : Nat) : Prop where
  slot : k < maxEntries
  free : m.load32 (slotAt base k) = 0
  terminated : Terminated m base
  before : ∀ name', s.dirLookup parent name' = some (lookIn m base name')
  absent : s.dirLookup parent name = some (-1) → ∀ j < maxEntries, named m base name j = false
  after : ∀ name', t.dirLookup parent name' = some (lookIn (putEntry m base k i name) base name')

private theorem createInternal_made (h : SoundDir s parent) (hfree : i ∈ s.freeInode) (hr : HasRoom s parent) (name : CString)
    (type : InodeType) : ∃ t m base k, s.createInternal parent name type = some (t, some i) ∧ Made s t parent i name m base k := by
  obtain ⟨u, halloc⟩ : ∃ u, s.allocInode type parent = some (u, i) := ⟨_, map_eq_some_iff.mpr ⟨i, hfree, rfl⟩⟩
  obtain ⟨-, hdisk, hbitmap, hother⟩ := allocInode_spec halloc
  have hnode : u.inodes parent = s.inodes parent := hother parent fun heq => by
    have hused := h.live.2
    rw [heq, (freeInode_spec hfree).2] at hused
    cases hused
  have hroom : HasRoom u parent := by rwa [HasRoom, hnode, hdisk, hbitmap]
  obtain ⟨t, m, base, k, hadd, hadded⟩ := dirAdd_room h.live.1 (by rw [hnode]; exact h.block) hroom i name
  refine ⟨t, m, base, k, by rw [createInternal, halloc]; simp only [hadd, map_some], hadded.slot, hadded.free, ?_, ?_, ?_, ?_⟩
  · by_cases hc : (s.inodes parent).blockCount = 0
    · exact fun j hj => .inl (hadded.cleared (by rwa [hnode]) j hj)
    · obtain ⟨rfl, rfl⟩ := hadded.kept (by rwa [hnode])
      rw [hnode, hdisk]
      exact h.terminated hc
  · intro name'
    by_cases hc : (s.inodes parent).blockCount = 0
    · rw [dirLookup_empty h.live.1 hc, lookIn_none fun j hj => ?_]
      rw [named, hadded.cleared (by rwa [hnode]) j hj]
      rfl
    · obtain ⟨rfl, rfl⟩ := hadded.kept (by rwa [hnode])
      rw [hnode, hdisk, dirLookup_eq h.live.1 h.type hc (h.block hc)]
  · intro habsent j hj
    by_cases hc : (s.inodes parent).blockCount = 0
    · rw [named, hadded.cleared (by rwa [hnode]) j hj]
      rfl
    · obtain ⟨rfl, rfl⟩ := hadded.kept (by rwa [hnode])
      rw [hnode, hdisk]
      rcases h.lookup name with ⟨-, hno⟩ | ⟨l, -, hold⟩
      · exact hno hc j hj
      · rw [habsent] at hold
        have hvalue := some.inj hold
        omega
  · intro name'
    rw [dirLookup_eq h.live.1 (by rw [hadded.type, hnode]; exact h.type) hadded.blockCount hadded.inRange, hadded.disk,
      ← hadded.base_eq]

section
variable (hm : Made s t parent i name m base k)
include hm

theorem Made.ne_zero (hfound : t.dirLookup parent name = some (i : Int)) : i ≠ 0 := by
  rintro rfl
  rw [hm.after] at hfound
  exact lookIn_ne_zero _ _ _ (some.inj hfound)

theorem Made.other (h0 : i ≠ 0) (hsmall : i < 2 ^ 31) (h : name' ≠ name.take (maxFilename - 1)) :
    t.dirLookup parent name' = s.dirLookup parent name' := by
  rw [hm.after, hm.before, lookIn_putEntry_other hm.terminated hm.free h0 hsmall h]

theorem Made.short (hsmall : i < 2 ^ 31) (hfound : t.dirLookup parent name = some (i : Int)) : name.length < maxFilename := by
  by_contra hlong
  have hne : name ≠ name.take (maxFilename - 1) := fun heq => hlong (by
    rw [heq, length_take, maxFilename]
    omega)
  have hnone : ∀ j < maxEntries, named m base name j = false := fun j hj => eq_false_iff.mpr fun hnamed => by
    obtain ⟨hload, hname⟩ := (named_iff hm.terminated hj).mp hnamed
    have hlt := (hm.terminated j hj).resolve_left hload
    rw [hname] at hlt
    exact hlong hlt
  rw [hm.other (hm.ne_zero hfound) hsmall hne, hm.before, lookIn_none hnone, some.injEq] at hfound
  omega

theorem Made.found (h0 : i ≠ 0) (hsmall : i < 2 ^ 31) (htake : name.take (maxFilename - 1) = name)
    (habsent : s.dirLookup parent name = some (-1)) : t.dirLookup parent name = some (i : Int) := by
  have hself := lookIn_putEntry_self name hm.terminated hm.slot h0 hsmall (by rw [htake]; exact hm.absent habsent)
  rw [htake] at hself
  rw [hm.after, hself]

end

/-- In a sound directory: there is an entry or a block for it, the name ends in its field, and none like it is there. -/
theorem create_lookup_iff (h : SoundDir s parent) (name : CString) (type : InodeType) :
    (∃ t r, s.createInternal parent name type = some (t, r) ∧ CreateContract s t parent name r) ↔
      ∀ i ∈ s.freeInode, i ≠ 0 ∧ HasRoom s parent ∧ name.length < maxFilename ∧ s.dirLookup parent name = some (-1) := by
  cases hfree : s.freeInode with
  | none =>
    have halloc : s.allocInode type parent = none := map_eq_none_iff.mpr hfree
    refine iff_of_true ⟨s, none, by rw [createInternal, halloc], ?_⟩ fun i hi => absurd hi (not_mem_none i)
    exact ⟨fun i hi => absurd hi (not_mem_none i), fun hr => absurd hr (by decide), fun _ => ⟨rfl, rfl, rfl, rfl⟩⟩
  | some i =>
    obtain ⟨hin, hunused⟩ := freeInode_spec hfree
    have hsmall : i < 2 ^ 31 := lt_trans hin (by decide)
    simp only [mem_some_iff, forall_eq']
    by_cases hr : HasRoom s parent
    · rw [and_iff_right hr]
      obtain ⟨t, m, base, k, hcreate, hm⟩ := createInternal_made h hfree hr name type
      rw [hcreate]
      simp only [some.injEq, Prod.mk.injEq]
      constructor
      · rintro ⟨t', r, ⟨rfl, rfl⟩, hcontract⟩
        have hfound := hcontract.found i rfl
        refine ⟨hm.ne_zero hfound, hm.short hsmall hfound, ?_⟩
        rcases h.lookup name with ⟨hno, -⟩ | ⟨l, hl, hold⟩
        · exact hno
        · have hkept := hcontract.kept rfl name l hold (by omega)
          rw [hfound] at hkept
          obtain rfl : i = l := Int.ofNat.inj (some.inj hkept)
          have hused := hl.2
          rw [hunused] at hused
          cases hused
      · rintro ⟨h0, hlen, habsent⟩
        have htake : name.take (maxFilename - 1) = name := take_of_length_le (le_sub_one_of_lt hlen)
        refine ⟨t, some i, ⟨rfl, rfl⟩, ⟨?_, ?_, fun hno => absurd hr hno⟩⟩
        · rintro j hj
          cases hj
          exact hm.found h0 hsmall htake habsent
        · intro _ name' v hold hv
          have hne : name' ≠ name.take (maxFilename - 1) := by
            rw [htake]
            rintro rfl
            rw [habsent] at hold
            exact hv (some.inj hold).symm
          rw [hm.other h0 hsmall hne, hold]
    · refine iff_of_false ?_ fun hcond => hr hcond.2.1
      rintro ⟨t, r, hcreate, hcontract⟩
      obtain ⟨rfl, -⟩ := hcontract.failed hr
      rw [createInternal] at hcreate
      obtain ⟨u, halloc⟩ : ∃ u, s.allocInode type parent = some (u, i) := ⟨_, map_eq_some_iff.mpr ⟨i, hfree, rfl⟩⟩
      rw [halloc] at hcreate
      obtain ⟨t', -, he⟩ := map_eq_some_iff.mp hcreate
      cases (Prod.mk.inj he).2

theorem create_in_empty_root : ∃ s t r, cleared.allocInode .dir 0 = some (s, 0) ∧
    s.createInternal 0 (.ofString "a") .file = some (t, r) ∧ CreateContract s t 0 (.ofString "a") r := by
  have hev : ∃ q ∈ cleared.allocInode .dir 0, q.2 = 0 ∧ q.1.Live 0 ∧ (q.1.inodes 0).type = .dir ∧ (q.1.inodes 0).blockCount = 0 ∧
      q.1.freeInode = some 1 ∧ q.1.bitmap 0 = false := by
    refine ⟨_, rfl, rfl, ⟨by decide, rfl⟩, rfl, rfl, ?_, rfl⟩
    decide +kernel
  obtain ⟨⟨s, root⟩, hroot, rfl, hlive, htype, hcount, hfree, hblock⟩ := hev
  have hsound : SoundDir s 0 := ⟨hlive, htype, fun h => absurd hcount h, fun h => absurd hcount h⟩
  obtain ⟨t, r, hcreate, hcontract⟩ := (create_lookup_iff hsound (.ofString "a") .file).mpr (by
    rintro i hi
    rw [hfree] at hi
    cases hi
    refine ⟨by decide, ?_, by decide, dirLookup_empty hlive.1 hcount _⟩
    rw [HasRoom, if_pos hcount]
    exact ⟨0, by decide, hblock⟩)
  exact ⟨s, t, r, hroot, hcreate, hcontract⟩

theorem second_home_hidden : ∃ s t, init = some s ∧ s.createInternal 0 (.ofString "home") .dir = some (t, some 6) ∧
    t.dirLookup 0 (.ofString "home") = some 1 ∧ ¬ CreateContract s t 0 (.ofString "home") (some 6) := by
  have hev : ∃ s ∈ init, ∃ q ∈ s.createInternal 0 (.ofString "home") .dir, q.2 = some 6 ∧
      q.1.dirLookup 0 (.ofString "home") = some 1 := by decide +kernel
  obtain ⟨s, hs, ⟨t, r⟩, hq, rfl, hlook⟩ := hev
  refine ⟨s, t, hs, hq, hlook, fun h => ?_⟩
  have hfound := h.found 6 rfl
  rw [hlook] at hfound
  exact absurd hfound (by decide)

end KernelFs
end RetroOs.Kernel
