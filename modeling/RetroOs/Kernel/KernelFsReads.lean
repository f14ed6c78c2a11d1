import RetroOs.Kernel.KernelFsBlocks

/-! What is read of a file after it has been written: the bytes that the write took, unless the sum of offset and
length wraps. -/
namespace RetroOs.Kernel
open Lib List Option Nat Function UInt32 Memory KernelFs
namespace KernelFs

variable {s t u s₀ : KernelFs} {i j b dir parent written slots : Nat} {type : InodeType} {name : CString} {data : List UInt8}
  {op : Op} {ops : List Op} {n : Inode} {bytes : List UInt8}

/-! ### The bytes of an inode -/

def view (s : KernelFs) (n : Inode) : Memory := fun k => s.disk (blockPtr (n.blocks (k / blockSize)) + k % blockSize)

/-- Every byte that an inode has room for. -/
def contents (s : KernelFs) (i : Nat) : List UInt8 := (s.view (s.inodes i)).bytes 0 (blockSize * (s.inodes i).blockCount)

/-- Each block of an inode is marked. -/
def Held (s : KernelFs) : Prop :=
  ∀ i, ∀ k < (s.inodes i).blockCount, s.bitmap ((s.inodes i).blocks k) = true ∧ (s.inodes i).blocks k < maxBlocks

theorem Held.same (h : Held s) (hs : SameBlocks s t) : Held t := by
  intro i k hk
  rw [hs.blockCount] at hk
  rw [hs.bitmap, hs.blocks]
  exact h i k hk

theorem Held.reset (h : Held s) (hn : n.blockCount = 0) : Held (s.setInode i n) := by
  intro j k hk
  by_cases hji : j = i
  · simp only [setInode, hji, update_self, hn] at hk
    exact absurd hk (not_lt_zero k)
  · simp only [setInode, update_of_ne hji] at hk ⊢
    exact h j k hk

theorem Held.give (h : Held s) (e : s.allocBlock = some (t, b)) : Held (t.addBlock i b) := by
  obtain ⟨hb, hfree, hbitmap, hinodes, -⟩ := allocBlock_spec e
  have hold : ∀ j, ∀ k < (s.inodes j).blockCount, t.bitmap ((s.inodes j).blocks k) = true ∧ (s.inodes j).blocks k < maxBlocks := by
    intro j k hk
    obtain ⟨hmarked, hlt⟩ := h j k hk
    refine ⟨?_, hlt⟩
    rw [hbitmap, update_of_ne fun heq => by rw [heq, hfree] at hmarked; cases hmarked]
    exact hmarked
  intro j k hk
  simp only [addBlock, setInode, hinodes] at hk ⊢
  by_cases hji : j = i
  · subst hji
    simp only [update_self] at hk ⊢
    by_cases hkb : k = (s.inodes j).blockCount
    · rw [hkb, update_self, hbitmap, update_self]
      exact ⟨rfl, hb⟩
    · rw [update_of_ne hkb]
      exact hold j k (by omega)
  · rw [update_of_ne hji] at hk ⊢
    exact hold j k hk

theorem Held.first (h : Held s)
    (e : (if (s.inodes i).blockCount = 0 then
      s.allocBlock.map fun r => r.1.setInode i { s.inodes i with blocks := update (s.inodes i).blocks 0 r.2, blockCount := 1 }
      else some s) = some t) : Held t := by
  split at e
  · next h0 =>
    obtain ⟨⟨u, b⟩, halloc, rfl⟩ := map_eq_some_iff.mp e
    rw [firstBlock_eq h0 halloc]
    exact h.give halloc
  · cases e
    exact h

theorem Held.dirAdd {child : Nat} (h : Held s) (e : s.dirAdd dir child name = some t) : Held t := by
  rw [KernelFs.dirAdd] at e
  split at e
  · cases e
  · dsimp only at e
    split at e
    · cases e
      exact h
    · next u hu =>
      have hheld := h.first hu
      split at e
      · cases e
      · split at e
        · cases e
          exact hheld
        · cases e
          exact hheld.same ((SameBlocks.setDisk u _).trans (SameBlocks.setInode _ rfl rfl rfl))

theorem Held.allocInode (h : Held s) (e : s.allocInode type parent = some (t, i)) : Held t := by
  obtain ⟨i', -, he⟩ := map_eq_some_iff.mp e
  obtain ⟨rfl, -⟩ := Prod.mk.inj he
  exact h.reset rfl

theorem Held.createInternal (h : Held s) {r : Option Nat} (e : s.createInternal parent name type = some (t, r)) : Held t := by
  rw [KernelFs.createInternal] at e
  split at e
  · obtain ⟨rfl, -⟩ := Prod.mk.inj (some.inj e)
    exact h
  · next u i halloc =>
    obtain ⟨t', hadd, he⟩ := map_eq_some_iff.mp e
    obtain ⟨rfl, -⟩ := Prod.mk.inj he
    exact (h.allocInode halloc).dirAdd hadd

theorem Held.write (h : Held s) {r : Option Nat} (e : s.write i data = some (t, r)) : Held t := by
  rw [KernelFs.write] at e
  split at e
  · obtain ⟨rfl, -⟩ := Prod.mk.inj (some.inj e)
    exact h
  · split at e
    · obtain ⟨rfl, -⟩ := Prod.mk.inj (some.inj e)
      exact h
    · dsimp only at e
      split at e
      · obtain ⟨rfl, -⟩ := Prod.mk.inj (some.inj e)
        exact h
      · next u hu =>
        have hheld := h.first hu
        split at e
        · cases e
        · obtain ⟨rfl, -⟩ := Prod.mk.inj (some.inj e)
          exact hheld.same ((SameBlocks.setDisk u _).trans (SameBlocks.setInode _ rfl rfl rfl))

/-! ### What a write leaves -/

/-- The other inodes have the records and the bytes that they had. -/
structure OthersKept (i : Nat) (s t : KernelFs) : Prop where
  inodes : ∀ j, j ≠ i → t.inodes j = s.inodes j
  contents : ∀ j, j ≠ i → t.contents j = s.contents j

theorem OthersKept.trans (h : OthersKept i s t) (h' : OthersKept i t u) : OthersKept i s u :=
  ⟨fun j hj => (h'.inodes j hj).trans (h.inodes j hj), fun j hj => (h'.contents j hj).trans (h.contents j hj)⟩

theorem OthersKept.setInode (s : KernelFs) (i : Nat) (n : Inode) : OthersKept i s (s.setInode i n) := by
  have hsame : ∀ j, j ≠ i → (s.setInode i n).inodes j = s.inodes j := fun j hj => update_of_ne hj ..
  refine ⟨hsame, fun j hj => ?_⟩
  rw [KernelFs.contents, hsame j hj]
  rfl

private theorem view_agree {k : Nat} (h : Memory.AgreeOn s.disk t.disk (blockPtr (n.blocks (k / blockSize))) blockSize) :
    t.view n k = s.view n k :=
  h _ (Nat.le_add_right ..) (Nat.add_lt_add_left (Nat.mod_lt k (by decide)) _)

/-- What a file holds of the data while it is written: all that was taken, in as few blocks as it needs. -/
structure Filled (s : KernelFs) (i : Nat) (data : List UInt8) (written : Nat) : Prop where
  le : written ≤ data.length
  bytes : ∀ k < written, s.view (s.inodes i) k = data.getD k 0
  covers : written ≤ blockSize * (s.inodes i).blockCount
  tight : blockSize * (s.inodes i).blockCount < written + blockSize
  full : written < data.length → written = blockSize * (s.inodes i).blockCount

/-- One round of the loop: a block, and the data in it. -/
def putBlock (s : KernelFs) (i b : Nat) (bytes : List UInt8) : KernelFs :=
  (s.addBlock i b).setDisk (s.disk.memcpy (blockPtr b) bytes)

private theorem blockPtr_apart {b c : Nat} (h : b ≠ c) :
    blockPtr b + blockSize ≤ blockPtr c ∨ blockPtr c + blockSize ≤ blockPtr b := by
  rw [blockPtr, blockPtr, blockSize]
  omega

private theorem putBlock_agree (e : s.allocBlock = some (t, b)) (hlen : bytes.length ≤ blockSize) {c : Nat}
    (hc : c ≠ b) : Memory.AgreeOn s.disk (t.putBlock i b bytes).disk (blockPtr c) blockSize := by
  obtain ⟨b', -, he⟩ := map_eq_some_iff.mp e
  cases he
  have hapart := blockPtr_apart hc
  exact (fill_agreeOn _ 0 hapart).trans (memcpy_agreeOn _ _ (by omega))

private theorem putBlock_others (h : Held s) (e : s.allocBlock = some (t, b)) (hlen : bytes.length ≤ blockSize) :
    OthersKept i s (t.putBlock i b bytes) := by
  obtain ⟨-, hfree, -, hinodes, -⟩ := allocBlock_spec e
  have hsame : ∀ j, j ≠ i → (t.putBlock i b bytes).inodes j = s.inodes j := by
    intro j hj
    simp [putBlock, KernelFs.setDisk, addBlock, KernelFs.setInode, hj, hinodes]
  refine ⟨hsame, fun j hj => ?_⟩
  rw [contents, contents, hsame j hj]
  refine Memory.bytes_shift fun k hk => view_agree (putBlock_agree e hlen fun heq => ?_)
  have hmarked := (h j _ (Nat.div_lt_of_lt_mul hk)).1
  rw [Nat.zero_add] at heq
  rw [heq, hfree] at hmarked
  cases hmarked

private theorem putBlock_held (h : Held s) (e : s.allocBlock = some (t, b)) : Held (t.putBlock i b bytes) :=
  (h.give e).same (SameBlocks.setDisk _ _)

theorem putBlock_inode (e : s.allocBlock = some (t, b)) :
    (t.putBlock i b bytes).inodes i = { s.inodes i with
      blocks := update (s.inodes i).blocks (s.inodes i).blockCount b, blockCount := (s.inodes i).blockCount + 1 } := by
  obtain ⟨-, -, -, hinodes, -⟩ := allocBlock_spec e
  simp [putBlock, setDisk, addBlock, setInode, hinodes]

theorem Filled.put (h : Filled s i data written) (hheld : Held s) (hlt : written < data.length)
    (e : s.allocBlock = some (t, b)) :
    Filled (t.putBlock i b ((data.drop written).take (min blockSize (data.length - written)))) i data
      (written + min blockSize (data.length - written)) := by
  obtain ⟨-, hfree, -, -, -⟩ := allocBlock_spec e
  have hfull := h.full hlt
  have hblocks : blockSize * ((s.inodes i).blockCount + 1) = written + blockSize := by rw [mul_succ, ← hfull]
  generalize hc : min blockSize (data.length - written) = toCopy
  have hlen : ((data.drop written).take toCopy).length = toCopy := by
    rw [length_take, length_drop]
    omega
  have hsize : toCopy ≤ blockSize := by omega
  have hpos : 0 < blockSize := by decide
  refine ⟨by omega, fun k hk => ?_, ?_, ?_, ?_⟩
  · rw [putBlock_inode e]
    by_cases hold : k < written
    · -- a block that the file had
      have hidx : k / blockSize < (s.inodes i).blockCount := Nat.div_lt_of_lt_mul (by omega)
      have hmarked := (hheld i _ hidx).1
      have hne : (s.inodes i).blocks (k / blockSize) ≠ b := fun heq => by
        rw [heq, hfree] at hmarked
        cases hmarked
      rw [← h.bytes k hold, view, view]
      simp only [Function.update_of_ne (Nat.ne_of_lt hidx)]
      exact putBlock_agree e (by rw [hlen]; exact hsize) hne _ (Nat.le_add_right ..)
        (Nat.add_lt_add_left (Nat.mod_lt k hpos) _)
    · obtain ⟨x, rfl⟩ := Nat.exists_eq_add_of_le (Nat.le_of_not_lt hold)
      have hx : x < blockSize := by omega
      have hidx : (written + x) / blockSize = (s.inodes i).blockCount := by
        rw [hfull, mul_add_div hpos, div_eq_of_lt hx, add_zero]
      have hoff : (written + x) % blockSize = x := by rw [hfull, mul_add_mod, mod_eq_of_lt hx]
      rw [view]
      simp only [hidx, hoff, update_self]
      show (t.disk.memcpy (blockPtr b) ((data.drop written).take toCopy)) (blockPtr b + x) = _
      have hxc : x < ((data.drop written).take toCopy).length := by omega
      rw [Memory.memcpy, if_pos (Nat.le_add_right ..), Nat.add_sub_cancel_left, ← List.getElem_eq_getD _ (h := hxc),
        ← getElem_eq_getD 0 (h := by omega), getElem_take, getElem_drop]
  · rw [putBlock_inode e]
    show written + toCopy ≤ blockSize * ((s.inodes i).blockCount + 1)
    omega
  · rw [putBlock_inode e]
    show blockSize * ((s.inodes i).blockCount + 1) < written + toCopy + blockSize
    omega
  · rw [putBlock_inode e]
    show written + toCopy < data.length → written + toCopy = blockSize * ((s.inodes i).blockCount + 1)
    omega

/-- What holds of the loop's state and what it left alone. -/
structure Writing (s t : KernelFs) (i : Nat) (data : List UInt8) (written : Nat) : Prop where
  held : Held t
  others : OthersKept i s t
  filled : Filled t i data written

theorem Writing.writeBlocks (h : Writing s t i data written) (slots : Nat) :
    Writing s (t.writeBlocks i data slots written).1 i data (t.writeBlocks i data slots written).2 ∧
      ((t.writeBlocks i data slots written).1.inodes i).blockCount ≤ (t.inodes i).blockCount + slots := by
  induction slots generalizing t written with
  | zero => exact ⟨h, le_refl _⟩
  | succ slots ih =>
    rw [writeBlocks]
    split
    · next hlt =>
      split
      · exact ⟨h, Nat.le_add_right ..⟩
      · next v b halloc =>
        have hlen : ((data.drop written).take (min blockSize (data.length - written))).length ≤ blockSize := by
          rw [length_take]
          omega
        have hput : Writing s (v.putBlock i b ((data.drop written).take (min blockSize (data.length - written)))) i data
            (written + min blockSize (data.length - written)) :=
          ⟨putBlock_held h.held halloc, h.others.trans (putBlock_others h.held halloc hlen), h.filled.put h.held hlt halloc⟩
        obtain ⟨hwriting, hcount⟩ := ih hput
        refine ⟨hwriting, le_trans hcount ?_⟩
        rw [putBlock_inode halloc]
        show (t.inodes i).blockCount + 1 + slots ≤ (t.inodes i).blockCount + (slots + 1)
        omega
    · exact ⟨h, Nat.le_add_right ..⟩

theorem Filled.same (h : Filled s i data written) (hs : SameBlocks s t) (hd : t.disk = s.disk) : Filled t i data written := by
  have hview : ∀ k, t.view (t.inodes i) k = s.view (s.inodes i) k := fun k => by rw [view, view, hs.blocks, hd]
  have hcount := hs.blockCount i
  refine ⟨h.le, fun k hk => (hview k).trans (h.bytes k hk), ?_, ?_, ?_⟩ <;> rw [hcount]
  · exact h.covers
  · exact h.tight
  · exact h.full

theorem Held.writeInternal (h : Held s) (e : s.writeInternal i data = some (t, written)) :
    Writing s t i data written ∧ i < maxInodes ∧ (t.inodes i).size = written ∧ (t.inodes i).blockCount ≤ directBlocks := by
  rw [KernelFs.writeInternal] at e
  split at e
  · cases e
  · next hi =>
    have hnode : (s.setInode i { s.inodes i with blockCount := 0, size := 0 }).inodes i =
        { s.inodes i with blockCount := 0, size := 0 } := update_self ..
    have hothers := OthersKept.setInode s i { s.inodes i with blockCount := 0, size := 0 }
    have hheld := h.reset (i := i) (n := { s.inodes i with blockCount := 0, size := 0 }) rfl
    have hzero : ((s.setInode i { s.inodes i with blockCount := 0, size := 0 }).inodes i).blockCount = 0 := by rw [hnode]
    dsimp only at e
    generalize s.setInode i { s.inodes i with blockCount := 0, size := 0 } = s₁ at e hothers hheld hzero
    have hempty : Filled s₁ i data 0 := by
      refine ⟨zero_le _, fun k hk => absurd hk (not_lt_zero k), zero_le _, ?_, fun _ => ?_⟩
      · rw [hzero]
        decide
      · rw [hzero, Nat.mul_zero]
    have hstart : Writing s s₁ i data 0 := ⟨hheld, hothers, hempty⟩
    obtain ⟨hw, hcount⟩ := hstart.writeBlocks directBlocks
    generalize s₁.writeBlocks i data directBlocks 0 = r at e hw hcount
    obtain ⟨u, w⟩ := r
    cases e
    have hsame : SameBlocks u (u.setInode i { u.inodes i with size := w }) := SameBlocks.setInode u rfl rfl rfl
    refine ⟨⟨hw.held.same hsame, hw.others.trans (OthersKept.setInode u i _), hw.filled.same hsame rfl⟩, not_le.mp hi, ?_, ?_⟩
    · simp [setInode]
    · rw [hsame.blockCount]
      rwa [hzero, zero_add] at hcount

theorem Held.exec (h : Held s) (e : s.exec op = some t) : Held t := by
  cases op with
  | create parent name type =>
    obtain ⟨⟨t, r⟩, he, rfl⟩ := map_eq_some_iff.mp e
    exact h.createInternal he
  | createFile =>
    cases e
    rw [createFile]
    split
    · exact h
    · next halloc => exact h.allocInode halloc
  | writeInternal inode data =>
    obtain ⟨⟨t, r⟩, he, rfl⟩ := map_eq_some_iff.mp e
    exact (h.writeInternal he).1.held
  | write inode data =>
    obtain ⟨⟨t, r⟩, he, rfl⟩ := map_eq_some_iff.mp e
    exact h.write he

private theorem init_held (e : init = some s) : Held s := by
  simp only [init, bind, bind_eq_some_iff, pure, some.injEq, Prod.exists] at e
  obtain ⟨s₀, root, e₀, s₁, home, e₁, s₂, user, e₂, s₃, desktop, e₃, s₄, downloads, e₄, s₅, bin, e₅, rfl⟩ := e
  have h : Held cleared := fun _ k hk => absurd hk (not_lt_zero k)
  exact (((((h.allocInode e₀).createInternal e₁).createInternal e₂).createInternal e₃).createInternal e₄).createInternal e₅

/-- Any operation may follow any other. -/
def Step (s : KernelFs) (op : Op) (t : KernelFs) : Prop := s.exec op = some t

private theorem held_runs (hi : init = some s₀) (hrun : Trace Step s₀ ops s) : Held s := by
  induction hrun with
  | nil => exact init_held hi
  | snoc _ hstep ih => exact ih.exec hstep

/-! ### What a read gives -/

private theorem toNat_lesser (a b : UInt32) : (if a < b then a else b).toNat = min a.toNat b.toNat := by
  split
  · next h =>
    rw [min_eq_left (le_of_lt (lt_iff_toNat_lt.mp h))]
  · next h =>
    rw [min_eq_right (not_lt.mp fun hlt => h (lt_iff_toNat_lt.mpr hlt))]

private theorem within_block (pos x : Nat) (h : pos % blockSize + x < blockSize) :
    (pos + x) / blockSize = pos / blockSize ∧ (pos + x) % blockSize = pos % blockSize + x := by
  have hsplit := div_add_mod pos blockSize
  have hsum : pos + x = pos % blockSize + x + blockSize * (pos / blockSize) := by omega
  rw [hsum, add_mul_div_left _ _ (by decide), div_eq_of_lt h, zero_add, add_mul_mod_self_left, mod_eq_of_lt h]
  exact ⟨rfl, rfl⟩

/-- A round reads as far as the block goes, and all of them together as far as the last one. -/
theorem readBlocks_eq (s : KernelFs) {n : Inode} (hcount : n.blockCount ≤ directBlocks)
    (hrange : ∀ k < n.blockCount, n.blocks k < maxBlocks) (len : UInt32) (fuel : Nat) (read pos : UInt32) (buf : List UInt8)
    (hfuel : len.toNat - read.toNat < fuel) :
    s.readBlocks n len fuel read pos buf =
      some (buf ++ (s.view n).bytes pos.toNat (min (len.toNat - read.toNat) (blockSize * n.blockCount - pos.toNat))) := by
  induction fuel generalizing read pos buf with
  | zero => exact absurd hfuel (not_lt_zero _)
  | succ fuel ih =>
    have hempty : ∀ m : Memory, ∀ a, m.bytes a 0 = [] := fun _ _ => rfl
    have hsize : (ofNat blockSize).toNat = blockSize := rfl
    rw [readBlocks]
    split
    · next hlt =>
      have hlt := lt_iff_toNat_lt.mp hlt
      have hlen := len.toNat_lt
      have hidx : (pos / UInt32.ofNat blockSize).toNat = pos.toNat / blockSize := by rw [UInt32.toNat_div, hsize]
      have hoff : (pos % UInt32.ofNat blockSize).toNat = pos.toNat % blockSize := by rw [UInt32.toNat_mod, hsize]
      have hmod : pos.toNat % blockSize < blockSize := mod_lt _ (by decide)
      have hsplit := div_add_mod pos.toNat blockSize
      dsimp only
      rw [hidx]
      split
      · next hend =>
        have hpast : blockSize * n.blockCount ≤ blockSize * (pos.toNat / blockSize) := mul_le_mul_left _ hend
        rw [show blockSize * n.blockCount - pos.toNat = 0 by omega, min_zero, hempty, append_nil]
      · next hin =>
        have hroom : blockSize * (pos.toNat / blockSize + 1) ≤ blockSize * n.blockCount :=
          mul_le_mul_left _ (not_le.mp hin)
        have hmax : blockSize * n.blockCount ≤ blockSize * directBlocks := mul_le_mul_left _ hcount
        rw [mul_succ] at hroom
        rw [if_neg (not_le.mpr (hrange _ (not_le.mp hin)))]
        have hrest : (len - read).toNat = len.toNat - read.toNat := UInt32.toNat_sub_of_le _ _ (UInt32.le_iff_toNat_le.mpr (by omega))
        have hvalid : (ofNat blockSize - pos % ofNat blockSize).toNat = blockSize - pos.toNat % blockSize := by
          rw [UInt32.toNat_sub_of_le _ _ (UInt32.le_iff_toNat_le.mpr (by omega)), hsize, hoff]
        have hread : (if len - read < ofNat blockSize - pos % ofNat blockSize then len - read
            else ofNat blockSize - pos % ofNat blockSize).toNat =
            min (len.toNat - read.toNat) (blockSize - pos.toNat % blockSize) := by
          rw [toNat_lesser, hrest, hvalid]
        generalize (if len - read < ofNat blockSize - pos % ofNat blockSize then len - read
            else ofNat blockSize - pos % ofNat blockSize) = toRead at hread ⊢
        have hsmall : blockSize * directBlocks + blockSize < 2 ^ 32 := by decide
        have hread' : (read + toRead).toNat = read.toNat + toRead.toNat := by
          rw [UInt32.toNat_add, Nat.mod_eq_of_lt (by omega)]
        have hpos' : (pos + toRead).toNat = pos.toNat + toRead.toNat := by
          rw [UInt32.toNat_add, Nat.mod_eq_of_lt (by omega)]
        -- the round stays in its block
        have hbytes : s.disk.bytes (blockPtr (n.blocks (pos.toNat / blockSize)) + (pos % ofNat blockSize).toNat) toRead.toNat =
            (s.view n).bytes pos.toNat toRead.toNat := by
          refine bytes_shift fun x hx => ?_
          obtain ⟨hdiv, hrem⟩ := within_block pos.toNat x (by omega)
          rw [view, hdiv, hrem, hoff, add_assoc]
        have hwhole : min (len.toNat - read.toNat) (blockSize * n.blockCount - pos.toNat) = toRead.toNat +
            min (len.toNat - (read.toNat + toRead.toNat)) (blockSize * n.blockCount - (pos.toNat + toRead.toNat)) := by omega
        rw [ih _ _ _ (by omega), hread', hpos', hbytes, hwhole, bytes_add, append_assoc]
    · next hge =>
      have hge : ¬ read.toNat < len.toNat := fun h => hge (lt_iff_toNat_lt.mpr h)
      rw [Nat.sub_eq_zero_of_le (Nat.not_lt.mp hge), Nat.zero_min, hempty, List.append_nil]

private theorem readInternal_eq (hi : i < maxInodes) (hcount : (s.inodes i).blockCount ≤ directBlocks)
    (hrange : ∀ k < (s.inodes i).blockCount, (s.inodes i).blocks k < maxBlocks) (hsize : (s.inodes i).size < 2 ^ 32)
    (len offset : UInt32) :
    s.readInternal i len offset = some ((s.view (s.inodes i)).bytes offset.toNat
      (if (s.inodes i).size ≤ offset.toNat then 0
        else if (offset.toNat + len.toNat) % 2 ^ 32 > (s.inodes i).size then
          min ((s.inodes i).size - offset.toNat) (blockSize * (s.inodes i).blockCount - offset.toNat)
        else min len.toNat (blockSize * (s.inodes i).blockCount - offset.toNat))) := by
  have hnat : (ofNat (s.inodes i).size).toNat = (s.inodes i).size := by
    rw [toNat_ofNat', mod_eq_of_lt hsize]
  have hread := fun len => readBlocks_eq s hcount hrange len (len.toNat + 1) 0 offset []
    (lt_succ_of_le (sub_le ..))
  simp only [List.nil_append, UInt32.toNat_zero, Nat.sub_zero] at hread
  rw [readInternal, if_neg (not_le.mpr hi)]
  dsimp only
  by_cases hpast : (s.inodes i).size ≤ offset.toNat
  · rw [if_pos (le_iff_toNat_le.mpr (by rwa [hnat])), if_pos hpast]
    rfl
  · have hin : ¬ offset ≥ ofNat (s.inodes i).size := fun h => hpast (by
      have h := UInt32.le_iff_toNat_le.mp h
      rwa [hnat] at h)
    rw [if_neg hin, if_neg hpast]
    by_cases hmore : (offset.toNat + len.toNat) % 2 ^ 32 > (s.inodes i).size
    · have hmore' : offset + len > UInt32.ofNat (s.inodes i).size :=
        UInt32.lt_iff_toNat_lt.mpr (by rwa [UInt32.toNat_add, hnat])
      rw [if_pos hmore, if_pos hmore', hread,
        UInt32.toNat_sub_of_le _ _ (UInt32.le_iff_toNat_le.mpr (by rw [hnat]; omega)), hnat]
    · have hmore' : ¬ offset + len > UInt32.ofNat (s.inodes i).size := fun h => hmore (by
        have h := lt_iff_toNat_lt.mp h
        rwa [UInt32.toNat_add, hnat] at h)
      rw [if_neg hmore, if_neg hmore', hread]

theorem Filled.view_bytes (h : Filled s i data written) {offset len : Nat} (hle : offset + len ≤ written) :
    (s.view (s.inodes i)).bytes offset len = (data.drop offset).take len := by
  have hdata := h.le
  apply ext_getElem
  · rw [length_bytes, length_take, length_drop]
    omega
  · intro k hk hk'
    rw [length_bytes] at hk
    have hbyte := h.bytes (offset + k) (by omega)
    rw [← getElem_eq_getD 0 (h := by omega)] at hbyte
    rw [getElem_take, getElem_drop, ← hbyte]
    simp only [Memory.bytes, List.getElem_map, List.getElem_range]

/-- What the read gives of the bytes that the write took, and that the write left the other inodes alone. -/
structure ReadsBack (s t : KernelFs) (i : Nat) (data : List UInt8) (written : Nat) (len offset : UInt32) : Prop where
  read : ∃ bytes, t.readInternal i len offset = some bytes ∧ bytes.length = min len.toNat (written - offset.toNat) ∧
    bytes = (data.drop offset.toNat).take bytes.length
  others : OthersKept i s t

/-- The file ends with its last block, or the sum of offset and length does not wrap. -/
theorem write_read_iff (hi : init = some s₀) (hrun : Trace Step s₀ ops s) (hw : s.writeInternal i data = some (t, written))
    (len offset : UInt32) :
    ReadsBack s t i data written len offset ↔
      written ≤ offset.toNat ∨ offset.toNat + len.toNat < 2 ^ 32 ∨ blockSize ∣ written := by
  obtain ⟨hwriting, hin, hsize, hcount⟩ := (held_runs hi hrun).writeInternal hw
  have hlen := len.toNat_lt
  have hcovers := hwriting.filled.covers
  have htight := hwriting.filled.tight
  have hmax : blockSize * (t.inodes i).blockCount ≤ blockSize * directBlocks := mul_le_mul_left _ hcount
  have hsmall : blockSize * directBlocks + blockSize < 2 ^ 32 := by decide
  have hread := readInternal_eq hin hcount (fun k hk => (hwriting.held i k hk).2) (by omega) len offset
  rw [hsize] at hread
  have hiff : ReadsBack s t i data written len offset ↔
      (if written ≤ offset.toNat then 0
        else if (offset.toNat + len.toNat) % 2 ^ 32 > written then
          min (written - offset.toNat) (blockSize * (t.inodes i).blockCount - offset.toNat)
        else min len.toNat (blockSize * (t.inodes i).blockCount - offset.toNat)) =
      min len.toNat (written - offset.toNat) := by
    constructor
    · rintro ⟨⟨bytes, hbytes, hlength, -⟩, -⟩
      rw [hread] at hbytes
      rw [← some.inj hbytes, length_bytes] at hlength
      exact hlength
    · intro hlength
      refine ⟨⟨_, hread, by rw [length_bytes]; exact hlength, ?_⟩, hwriting.others⟩
      rw [length_bytes, hlength]
      by_cases hpast : written ≤ offset.toNat
      · rw [Nat.sub_eq_zero_of_le hpast, Nat.min_zero]
        rfl
      · exact hwriting.filled.view_bytes (by omega)
  rw [hiff]
  by_cases hpast : written ≤ offset.toNat
  · rw [if_pos hpast, Nat.sub_eq_zero_of_le hpast, Nat.min_zero]
    exact iff_of_true rfl (.inl hpast)
  · rw [if_neg hpast, or_iff_right hpast]
    by_cases hwrap : offset.toNat + len.toNat < 2 ^ 32
    · rw [mod_eq_of_lt hwrap]
      refine iff_of_true ?_ (.inl hwrap)
      split <;> omega
    · -- past the end of the numbers nothing is clamped, and all of the last block is read
      have hlow : ¬ (offset.toNat + len.toNat) % 2 ^ 32 > written := by omega
      rw [if_neg hlow, or_iff_right hwrap, show blockSize = 4096 from rfl] at *
      omega

theorem write_read_first : ∃ s₀ s t written, init = some s₀ ∧ Trace Step s₀ [.createFile] s ∧
    s.writeInternal 6 [7, 8, 9] = some (t, written) ∧ ReadsBack s t 6 [7, 8, 9] written 10 1 := by
  have hev : ∃ s₀ ∈ init, ∃ s₁ ∈ s₀.exec .createFile, (s₁.writeInternal 6 [7, 8, 9]).isSome := by decide +kernel
  obtain ⟨s₀, h₀, s₁, h₁, h₂⟩ := hev
  obtain ⟨⟨t, written⟩, h₂⟩ := isSome_iff_exists.mp h₂
  have hrun : Trace Step s₀ [.createFile] s₁ := Trace.nil.snoc h₁
  exact ⟨s₀, s₁, t, written, h₀, hrun, h₂, (write_read_iff h₀ hrun h₂ 10 1).mpr (.inr (.inl (by decide)))⟩

theorem read_past_end : ∃ s₀ s t written, init = some s₀ ∧ Trace Step s₀ [.createFile] s ∧
    s.writeInternal 6 [7, 8] = some (t, written) ∧ ¬ ReadsBack s t 6 [7, 8] written 0xFFFFFFFF 1 := by
  have hev : ∃ s₀ ∈ init, ∃ s₁ ∈ s₀.exec .createFile, ∃ r ∈ s₁.writeInternal 6 [7, 8], r.2 = 2 := by decide +kernel
  obtain ⟨s₀, h₀, s₁, h₁, ⟨t, written⟩, h₂, rfl⟩ := hev
  refine ⟨s₀, s₁, t, 2, h₀, Trace.nil.snoc h₁, h₂, ?_⟩
  rintro ⟨⟨bytes, hbytes, hlength, -⟩, -⟩
  obtain ⟨hwriting, hin, hsize, hcount⟩ := (held_runs h₀ (Trace.nil.snoc h₁)).writeInternal h₂
  have hcovers := hwriting.filled.covers
  have htight := hwriting.filled.tight
  have hread := readInternal_eq hin hcount (fun k hk => (hwriting.held 6 k hk).2) (by rw [hsize]; decide) 0xFFFFFFFF 1
  have hone : (t.inodes 6).blockCount = 1 := by
    rw [blockSize] at hcovers htight
    omega
  rw [hsize, hone] at hread
  rw [hread] at hbytes
  rw [← some.inj hbytes, length_bytes] at hlength
  exact absurd hlength (by decide)

end KernelFs
end RetroOs.Kernel
