import RetroOs.Kernel.KernelFs

/-! Which inode has which block of the kernel's RAM disk, over any run of creations and writes. -/
namespace RetroOs.Kernel
open Lib List Option Function KernelFs
namespace KernelFs

variable {s t s₀ : KernelFs} {i j b dir parent written : Nat} {type : InodeType} {name : CString} {data : List UInt8}
  {op : Op} {ops : List Op} {r : Option Nat}

def markedBlocks (s : KernelFs) : Nat := ((Finset.range maxBlocks).filter fun b => s.bitmap b).card

/-- The marked blocks are those of the inodes in use, each in one list and once, and the superblock counts them. -/
structure Conserved (s : KernelFs) : Prop where
  allotted : Allotted (fun b => s.bitmap b = true) s.Live s.blockList
  count : s.usedBlocks = s.markedBlocks

/-- And the lists keep within the tables. -/
structure Inv (s : KernelFs) : Prop where
  conserved : Conserved s
  inRange : ∀ b, s.bitmap b = true → b < maxBlocks
  slots : ∀ i, (s.inodes i).blockCount ≤ directBlocks
  unused : ∀ i, (s.inodes i).used = false → (s.inodes i).blockCount = 0

/-- The fields that a change of sizes, names or data leaves alone. -/
structure SameBlocks (s t : KernelFs) : Prop where
  bitmap : t.bitmap = s.bitmap
  usedBlocks : t.usedBlocks = s.usedBlocks
  used : ∀ i, (t.inodes i).used = (s.inodes i).used
  blockCount : ∀ i, (t.inodes i).blockCount = (s.inodes i).blockCount
  blocks : ∀ i, (t.inodes i).blocks = (s.inodes i).blocks

theorem SameBlocks.setDisk (s : KernelFs) (m : Memory) : SameBlocks s (s.setDisk m) :=
  ⟨rfl, rfl, fun _ => rfl, fun _ => rfl, fun _ => rfl⟩

theorem SameBlocks.setInode {n : Inode} (s : KernelFs) (hu : n.used = (s.inodes i).used)
    (hc : n.blockCount = (s.inodes i).blockCount) (hb : n.blocks = (s.inodes i).blocks) : SameBlocks s (s.setInode i n) := by
  have hcase : ∀ {α : Type} (f : Inode → α), f n = f (s.inodes i) → ∀ j, f ((s.setInode i n).inodes j) = f (s.inodes j) := by
    intro α f hf j
    by_cases hji : j = i
    · subst hji
      simpa [setInode] using hf
    · simp [KernelFs.setInode, hji]
  exact ⟨rfl, rfl, hcase _ hu, hcase _ hc, hcase _ hb⟩

theorem SameBlocks.trans {u : KernelFs} (h : SameBlocks s t) (h' : SameBlocks t u) : SameBlocks s u where
  bitmap := h'.bitmap.trans h.bitmap
  usedBlocks := h'.usedBlocks.trans h.usedBlocks
  used i := (h'.used i).trans (h.used i)
  blockCount i := (h'.blockCount i).trans (h.blockCount i)
  blocks i := (h'.blocks i).trans (h.blocks i)

theorem Inv.same (h : Inv s) (hs : SameBlocks s t) : Inv t := by
  refine ⟨⟨?_, ?_⟩, ?_, ?_, ?_⟩
  · apply h.conserved.allotted.congr
    · intro b
      rw [hs.bitmap]
    · intro i
      rw [Live, Live, hs.used]
    · intro i _
      rw [blockList, blockList, hs.blockCount, hs.blocks]
  · rw [hs.usedBlocks, h.conserved.count, markedBlocks, markedBlocks, hs.bitmap]
  · rw [hs.bitmap]
    exact h.inRange
  · intro i
    rw [hs.blockCount]
    exact h.slots i
  · intro i hi
    rw [hs.used] at hi
    rw [hs.blockCount]
    exact h.unused i hi

theorem allocBlock_spec (e : s.allocBlock = some (t, b)) :
    b < maxBlocks ∧ s.bitmap b = false ∧ t.bitmap = update s.bitmap b true ∧ t.inodes = s.inodes ∧
      t.usedBlocks = s.usedBlocks + 1 := by
  obtain ⟨i, hfind, he⟩ := map_eq_some_iff.mp e
  cases he
  have hmem := mem_of_find?_eq_some hfind
  have hfree := find?_some hfind
  rw [Bool.not_eq_true'] at hfree
  refine ⟨?_, hfree, rfl, rfl, rfl⟩
  have hlt := (mem_range'_1.mp hmem).2
  rwa [Nat.zero_add] at hlt

def Full (s : KernelFs) : Prop := ∀ b < maxBlocks, s.bitmap b = true

theorem Full.allocBlock (h : s.Full) : s.allocBlock = none := by
  apply map_eq_none_iff.mpr
  apply find?_eq_none.mpr
  intro b hb
  have hlt := (mem_range'_1.mp hb).2
  rw [h b hlt]
  decide

def addBlock (s : KernelFs) (i b : Nat) : KernelFs :=
  s.setInode i { s.inodes i with
    blocks := update (s.inodes i).blocks (s.inodes i).blockCount b, blockCount := (s.inodes i).blockCount + 1 }

private theorem addBlock_list (s : KernelFs) (i b : Nat) : (s.addBlock i b).blockList i = s.blockList i ++ [b] := by
  simp only [blockList, addBlock, setInode, update_self, range_succ, map_append, map_singleton]
  congr 1
  apply map_congr_left
  intro k hk
  exact update_of_ne (Nat.ne_of_lt (mem_range.mp hk)) ..

theorem Inv.give (h : Inv s) (hi : s.Live i) (hslot : (s.inodes i).blockCount < directBlocks) (e : s.allocBlock = some (t, b)) :
    Inv (t.addBlock i b) := by
  obtain ⟨hb, hfree, hbitmap, hinodes, hcount⟩ := allocBlock_spec e
  have hother : ∀ j, j ≠ i → (t.addBlock i b).inodes j = s.inodes j := by
    intro j hji
    simp [addBlock, setInode, hji, hinodes]
  have hself : (t.addBlock i b).inodes i = { s.inodes i with
      blocks := update (s.inodes i).blocks (s.inodes i).blockCount b, blockCount := (s.inodes i).blockCount + 1 } := by
    simp [addBlock, setInode, hinodes]
  have hused : ∀ j, ((t.addBlock i b).inodes j).used = (s.inodes j).used := by
    intro j
    by_cases hji : j = i
    · rw [hji, hself]
    · rw [hother j hji]
  refine ⟨⟨?_, ?_⟩, ?_, ?_, ?_⟩
  · apply h.conserved.allotted.give hi (by rw [hfree]; exact Bool.false_ne_true)
    · intro e
      show t.bitmap e = true ↔ _
      rw [hbitmap]
      by_cases heb : e = b
      · simp [heb]
      · simp [heb]
    · intro j
      rw [Live, Live, hused]
    · intro j _ hji
      rw [blockList, blockList, hother j hji]
    · rw [addBlock_list, blockList, blockList, hinodes]
  · show t.usedBlocks = ((Finset.range maxBlocks).filter fun e => t.bitmap e).card
    rw [hcount, h.conserved.count, hbitmap]
    exact (card_filter_update hb hfree).symm
  · intro e he
    have he : t.bitmap e = true := he
    rw [hbitmap] at he
    by_cases heb : e = b
    · rwa [heb]
    · rw [update_of_ne heb] at he
      exact h.inRange e he
  · intro j
    by_cases hji : j = i
    · rw [hji, hself]
      exact hslot
    · rw [hother j hji]
      exact h.slots j
  · intro j hj
    by_cases hji : j = i
    · rw [hused, hji, hi.2] at hj
      cases hj
    · rw [hother j hji] at hj ⊢
      exact h.unused j hj

theorem freeInode_spec (e : s.freeInode = some i) : i < maxInodes ∧ (s.inodes i).used = false := by
  have hmem := mem_of_find?_eq_some e
  have hfree := find?_some e
  rw [Bool.not_eq_true'] at hfree
  have hlt := (mem_range'_1.mp hmem).2
  rw [Nat.zero_add] at hlt
  exact ⟨hlt, hfree⟩

theorem Inv.allocInode (h : Inv s) (e : s.allocInode type parent = some (t, i)) :
    Inv t ∧ s.freeInode = some i ∧ t.Live i ∧ (∀ j, j ≠ i → t.inodes j = s.inodes j) ∧ t.bitmap = s.bitmap := by
  obtain ⟨i', hfind, he⟩ := Option.map_eq_some_iff.mp e
  obtain ⟨rfl, rfl⟩ := Prod.mk.inj he
  obtain ⟨hlt, hfree⟩ := freeInode_spec hfind
  have hother : ∀ j, j ≠ i' → Function.update s.inodes i'
      { s.inodes i' with
        used := true, id := i', type, size := 0, blockCount := 0, parent, permissions := 0o755, uid := 0, gid := 0 } j =
      s.inodes j := fun j hji => Function.update_of_ne hji ..
  have hno : ¬ s.Live i' := by
    rintro ⟨-, hu⟩
    rw [hfree] at hu
    cases hu
  refine ⟨⟨⟨?_, h.conserved.count⟩, h.inRange, ?_, ?_⟩, hfind, ⟨hlt, by simp [setInode]⟩, hother, rfl⟩
  · apply h.conserved.allotted.add hno
    · intro j
      by_cases hji : j = i'
      · simp [Live, setInode, hji, hlt]
      · simp [Live, setInode, hji]
    · intro j hj
      have hji : j ≠ i' := fun hji => hno (hji ▸ hj)
      simp [blockList, setInode, hji]
    · simp [blockList, setInode]
  · intro j
    by_cases hji : j = i'
    · simp [setInode, hji]
    · simpa [setInode, hji] using h.slots j
  · intro j
    by_cases hji : j = i'
    · simp [setInode, hji]
    · simpa [setInode, hji] using h.unused j

theorem firstBlock_eq (h0 : (s.inodes i).blockCount = 0) (e : s.allocBlock = some (t, b)) :
    t.setInode i { s.inodes i with blocks := update (s.inodes i).blocks 0 b, blockCount := 1 } = t.addBlock i b := by
  obtain ⟨-, -, -, hinodes, -⟩ := allocBlock_spec e
  rw [addBlock, hinodes, h0]

/-- The block that `dir_add` and `fs_write` work on, allocated if there is none. -/
theorem Inv.first (h : Inv s) (hi : s.Live i ∨ s.allocBlock = none)
    (e : (if (s.inodes i).blockCount = 0 then
      s.allocBlock.map fun r => r.1.setInode i { s.inodes i with blocks := update (s.inodes i).blocks 0 r.2, blockCount := 1 }
      else some s) = some t) : Inv t := by
  split at e
  · next h0 =>
    obtain ⟨⟨u, b⟩, halloc, rfl⟩ := map_eq_some_iff.mp e
    have hi : s.Live i := hi.resolve_right fun hnone => by rw [halloc] at hnone; cases hnone
    rw [firstBlock_eq h0 halloc]
    exact h.give hi (by rw [h0]; decide) halloc
  · cases e
    exact h

theorem Inv.dirAdd {child : Nat} (h : Inv s) (hd : s.Live dir ∨ s.allocBlock = none) (e : s.dirAdd dir child name = some t) :
    Inv t := by
  rw [KernelFs.dirAdd] at e
  split at e
  · cases e
  · dsimp only at e
    split at e
    · cases e
      exact h
    · next u hu =>
      have hinv := h.first hd hu
      split at e
      · cases e
      · split at e
        · cases e
          exact hinv
        · cases e
          exact hinv.same ((SameBlocks.setDisk u _).trans (SameBlocks.setInode _ rfl rfl rfl))

theorem Inv.writeBlocks (h : Inv s) (hi : s.Live i) (slots : Nat) (hs : (s.inodes i).blockCount + slots ≤ directBlocks) :
    Inv (s.writeBlocks i data slots written).1 := by
  induction slots generalizing s written with
  | zero => exact h
  | succ slots ih =>
    rw [writeBlocks]
    split
    · split
      · exact h
      · next u b halloc =>
        have hinv := h.give hi (by omega) halloc
        obtain ⟨-, -, -, hinodes, -⟩ := allocBlock_spec halloc
        apply ih
        · exact hinv.same (SameBlocks.setDisk (u.addBlock i b) _)
        · refine ⟨hi.1, ?_⟩
          simp [setDisk, setInode, hinodes, hi.2]
        · simp only [setDisk, setInode, update_self, hinodes]
          omega
    · exact h

def Clean (s : KernelFs) : Op → Prop
  | .create parent _ _ => ∀ i ∈ s.freeInode, (s.inodes parent).used = true ∨ parent = i ∨ s.Full
  | .createFile => True
  | .writeInternal inode data => (s.inodes inode).blockCount = 0 ∧
      ((s.inodes inode).used = true ∨ data = [] ∨ s.Full)
  | .write _ _ => True

def CleanStep (s : KernelFs) (op : Op) (t : KernelFs) : Prop := Clean s op ∧ s.exec op = some t

theorem Inv.create (h : Inv s) (hc : Clean s (.create parent name type))
    (e : s.createInternal parent name type = some (t, r)) : Inv t := by
  rw [createInternal] at e
  split at e
  · obtain ⟨rfl, -⟩ := Prod.mk.inj (some.inj e)
    exact h
  · next u i halloc =>
    obtain ⟨t', hadd, he⟩ := map_eq_some_iff.mp e
    obtain ⟨rfl, -⟩ := Prod.mk.inj he
    obtain ⟨hu, hfree, hlive, hother, hbitmap⟩ := h.allocInode halloc
    refine hu.dirAdd ?_ hadd
    have hp : parent < maxInodes := by
      by_contra hp
      rw [KernelFs.dirAdd, if_pos (Nat.not_lt.mp hp)] at hadd
      cases hadd
    rcases hc i hfree with hused | rfl | hfull
    · by_cases hpi : parent = i
      · exact .inl (hpi ▸ hlive)
      · refine .inl ⟨hp, ?_⟩
        rw [hother parent hpi]
        exact hused
    · exact .inl hlive
    · right
      apply Full.allocBlock
      rwa [Full, hbitmap]

theorem Inv.internal (h : Inv s) (hc : Clean s (.writeInternal i data)) {r : Nat}
    (e : s.writeInternal i data = some (t, r)) : Inv t := by
  obtain ⟨h0, hwhere⟩ := hc
  rw [writeInternal] at e
  split at e
  · cases e
  · next hi =>
    dsimp only at e
    have hreset : SameBlocks s (s.setInode i { s.inodes i with blockCount := 0, size := 0 }) :=
      SameBlocks.setInode s rfl h0.symm rfl
    have hinv := h.same hreset
    obtain ⟨rfl, -⟩ := Prod.mk.inj (some.inj e)
    refine Inv.same ?_ (SameBlocks.setInode _ rfl rfl rfl)
    rcases hwhere with hused | rfl | hfull
    · apply hinv.writeBlocks
      · refine ⟨Nat.not_le.mp hi, ?_⟩
        rw [hreset.used]
        exact hused
      · rw [hreset.blockCount, h0]
        decide
    · exact hinv
    · have hnone : (s.setInode i { s.inodes i with blockCount := 0, size := 0 }).allocBlock = none :=
        Full.allocBlock hfull
      rw [directBlocks, KernelFs.writeBlocks]
      split
      · rw [hnone]
        exact hinv
      · exact hinv

theorem Inv.write (h : Inv s) (e : s.write i data = some (t, r)) : Inv t := by
  rw [KernelFs.write] at e
  split at e
  · obtain ⟨rfl, -⟩ := Prod.mk.inj (some.inj e)
    exact h
  · next hi =>
    split at e
    · obtain ⟨rfl, -⟩ := Prod.mk.inj (some.inj e)
      exact h
    · next hused =>
      dsimp only at e
      split at e
      · obtain ⟨rfl, -⟩ := Prod.mk.inj (some.inj e)
        exact h
      · next u hu =>
        have hinv := h.first (.inl ⟨Nat.not_le.mp hi, by simpa using hused⟩) hu
        split at e
        · cases e
        · obtain ⟨rfl, -⟩ := Prod.mk.inj (some.inj e)
          exact hinv.same ((SameBlocks.setDisk u _).trans (SameBlocks.setInode _ rfl rfl rfl))

theorem Inv.step (h : Inv s) (hstep : CleanStep s op t) : Inv t := by
  obtain ⟨hc, e⟩ := hstep
  cases op with
  | create parent name type =>
    obtain ⟨⟨t, r⟩, he, rfl⟩ := map_eq_some_iff.mp e
    exact h.create hc he
  | createFile =>
    cases e
    rw [createFile]
    split
    · exact h
    · next halloc => exact (h.allocInode halloc).1
  | writeInternal inode data =>
    obtain ⟨⟨t, r⟩, he, rfl⟩ := map_eq_some_iff.mp e
    exact h.internal hc he
  | write inode data =>
    obtain ⟨⟨t, r⟩, he, rfl⟩ := map_eq_some_iff.mp e
    exact h.write he

private theorem cleared_inv : Inv cleared where
  conserved := by
    refine ⟨⟨fun b => ?_, fun _ _ => nodup_nil, fun _ _ _ _ _ ha => absurd ha not_mem_nil⟩, ?_⟩
    · constructor
      · exact fun hb => nomatch hb
      · rintro ⟨i, -, hb⟩
        cases hb
    · simp [markedBlocks, cleared]
  inRange _ hb := nomatch hb
  slots _ := Nat.zero_le _
  unused _ _ := rfl

private theorem dirAdd_live {child : Nat} (e : s.dirAdd dir child name = some t) (hi : s.Live i) : t.Live i := by
  refine ⟨hi.1, ?_⟩
  have hset : ∀ (u : KernelFs) (n : Inode), n.used = (u.inodes dir).used → ((u.setInode dir n).inodes i).used = (u.inodes i).used := by
    intro u n hn
    by_cases hid : i = dir
    · simpa [setInode, hid] using hn
    · simp [setInode, hid]
  rw [dirAdd] at e
  split at e
  · cases e
  · dsimp only at e
    split at e
    · cases e
      exact hi.2
    · next u hu =>
      have hlive : (u.inodes i).used = true := by
        split at hu
        · obtain ⟨⟨v, b⟩, halloc, rfl⟩ := map_eq_some_iff.mp hu
          obtain ⟨-, -, -, hinodes, -⟩ := allocBlock_spec halloc
          rw [hset v _ (by rw [hinodes]), hinodes]
          exact hi.2
        · cases hu
          exact hi.2
      split at e
      · cases e
      · split at e
        · cases e
          exact hlive
        · cases e
          rw [hset (u.setDisk _) _ (by rfl)]
          exact hlive

theorem Inv.createIn (h : Inv s) (hp : s.Live parent)
    (e : s.createInternal parent name type = some (t, r)) :
    Inv t ∧ (∀ i, s.Live i → t.Live i) ∧ ∀ i ∈ r, t.Live i := by
  refine ⟨h.create (fun _ _ => .inl hp.2) e, ?_⟩
  rw [createInternal] at e
  split at e
  · cases e
    exact ⟨fun _ hi => hi, fun _ hi => nomatch hi⟩
  · next u j halloc =>
    obtain ⟨t', hadd, he⟩ := map_eq_some_iff.mp e
    cases he
    obtain ⟨-, hfree, hlive, hother, -⟩ := h.allocInode halloc
    refine ⟨?_, ?_⟩
    · intro i hi
      apply dirAdd_live hadd
      have hij : i ≠ j := by
        rintro rfl
        have hno := (freeInode_spec hfree).2
        rw [hi.2] at hno
        cases hno
      rwa [Live, hother i hij]
    · intro i hi
      cases hi
      exact dirAdd_live hadd hlive

theorem init_inv (e : init = some s) : Inv s := by
  simp only [init, bind, bind_eq_some_iff, pure, some.injEq, Prod.exists] at e
  obtain ⟨s₀, root, e₀, s₁, home, e₁, s₂, user, e₂, s₃, desktop, e₃, s₄, downloads, e₄, s₅, bin, e₅, rfl⟩ := e
  obtain ⟨h₀, hfree, hroot, -⟩ := cleared_inv.allocInode e₀
  obtain rfl : 0 = root := some.inj hfree
  obtain ⟨h₁, hkeep₁, hhome⟩ := h₀.createIn hroot e₁
  have hor : ∀ {u : KernelFs} {r : Option Nat}, u.Live 0 → (∀ i ∈ r, u.Live i) → u.Live (r.getD 0) := by
    intro u r hu hr
    cases r with
    | none => exact hu
    | some i => exact hr i rfl
  obtain ⟨h₂, hkeep₂, huser⟩ := h₁.createIn (hor (hkeep₁ 0 hroot) hhome) e₂
  have hdir := hor (hkeep₂ 0 (hkeep₁ 0 hroot)) huser
  obtain ⟨h₃, hkeep₃, -⟩ := h₂.createIn hdir e₃
  obtain ⟨h₄, hkeep₄, -⟩ := h₃.createIn (hkeep₃ _ hdir) e₄
  exact (h₄.createIn (hkeep₄ _ (hkeep₃ _ hdir)) e₅).1

/-- In every run whose operations are clean, the bitmap, the lists and the counter agree. -/
theorem conserved_runs (hi : init = some s₀) (hrun : Trace CleanStep s₀ ops s) : Conserved s := by
  have hinv : Inv s := by
    induction hrun with
    | nil => exact init_inv hi
    | snoc _ hstep ih => exact ih.step hstep
  exact hinv.conserved

theorem first_write_conserved : ∃ s₀ s, init = some s₀ ∧
    Trace CleanStep s₀ [.createFile, .writeInternal 6 [1]] s ∧ Conserved s ∧ s.bitmap 3 = true := by
  have hev : ∃ s₀ ∈ init, ∃ s₁ ∈ s₀.exec .createFile, (s₁.inodes 6).blockCount = 0 ∧ (s₁.inodes 6).used = true ∧
      ∃ s₂ ∈ s₁.exec (.writeInternal 6 [1]), s₂.bitmap 3 = true := by decide +kernel
  obtain ⟨s₀, h₀, s₁, h₁, hcount, hused, s₂, h₂, hmarked⟩ := hev
  have hrun : Trace CleanStep s₀ [.createFile, .writeInternal 6 [1]] s₂ :=
    (Trace.nil.snoc ⟨trivial, h₁⟩).snoc ⟨⟨hcount, .inl hused⟩, h₂⟩
  exact ⟨s₀, s₂, h₀, hrun, conserved_runs h₀ hrun, hmarked⟩

/-- The second write takes a block and forgets the first. -/
theorem overwrite_leaks : ∃ s₀ s, init = some s₀ ∧
    Trace (fun s op t => s.exec op = some t) s₀ [.createFile, .writeInternal 6 [1], .writeInternal 6 [1]] s ∧ ¬ Conserved s := by
  have hev : ∃ s₀ ∈ init, ∃ s₁ ∈ s₀.exec .createFile, ∃ s₂ ∈ s₁.exec (.writeInternal 6 [1]),
      ∃ s₃ ∈ s₂.exec (.writeInternal 6 [1]), s₃.bitmap 3 = true ∧
        ∀ a ∈ range 64, ∀ b ∈ range 64, 3 ∉ s₃.blockList (64 * a + b) := by decide +kernel
  obtain ⟨s₀, h₀, s₁, h₁, s₂, h₂, s₃, h₃, hmarked, hnone⟩ := hev
  refine ⟨s₀, s₃, h₀, ((Trace.nil.snoc h₁).snoc h₂).snoc h₃, ?_⟩
  intro h
  obtain ⟨i, ⟨hi, -⟩, hmem⟩ := (h.allotted.exact 3).mp hmarked
  have hlt : i / 64 < 64 := Nat.div_lt_of_lt_mul hi
  apply hnone (i / 64) (mem_range.mpr hlt) (i % 64) (mem_range.mpr (Nat.mod_lt i (by decide)))
  rwa [Nat.div_add_mod]

end KernelFs
end RetroOs.Kernel
