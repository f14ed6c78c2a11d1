import RetroOs.Kernel.HeapCalls

/-! `kfree` gives back what the books say was taken, unless the caller's own first words pass for
a slab header. -/
namespace RetroOs.Kernel
open Lib Block Memory

/-- The word at `p` is the slab magic, and the size read through the word after it is zero or
divides the offset `p - (p + 24)`. -/
def SlabLookalike (m : Memory) (p : Nat) : Prop :=
  m.load32 p = slabMagic ∧
    (m.load32 (m.load32 (p + 4)) = 0 ∨ (2 ^ 32 - 24) % m.load32 (m.load32 (p + 4)) = 0)

variable {L : HeapLayout} {P : Pool} {hp : Heap} {b : Buddy} {m m' : Memory} {B : Books} {s t : Slab} {a : Lease}
  {before after live : List Lease} {addr base i index n p r size x : Nat} {align : Int}

theorem SlabWords.push (hw : SlabWords L m s) (hi : index < 2 ^ 32 - 1) (hn : index ∉ s.free)
    (hhead : AgreeOn m m' (s.header L.pool) 8) (hcount : m'.load32 (s.header L.pool + 16) = s.free.length + 1)
    (hfirst : m'.load32 (s.header L.pool + 20) = index)
    (hlink : m'.load32 (s.object L.pool index) = m.load32 (s.header L.pool + 20))
    (hother : ∀ i ∈ s.free, i ≠ index → AgreeOn m m' (s.object L.pool i) 4) :
    SlabWords L m' { s with free := index :: s.free } where
  magic := by
    have hm : AgreeOn m m' (s.header L.pool) 4 := hhead.mono le_rfl (by omega)
    exact hm.load32.trans hw.magic
  cache := by
    have hm : AgreeOn m m' (s.header L.pool + 4) 4 := hhead.mono (by omega) (by omega)
    exact hm.load32.trans hw.cache
  count := hcount
  objects := by
    change Chain noObject (fun i => m'.load32 (s.object L.pool i)) (m'.load32 (s.header L.pool + 20)) _
    rw [hfirst, chain_cons, hlink]
    refine ⟨rfl, by simp only [noObject]; omega, ?_⟩
    apply hw.objects.congr
    intro i hi
    exact (hother i hi fun he => hn (he ▸ hi)).load32

variable (live) in
theorem slabFree_object (h : Words L b m B) (ho : B.Ok L.pool) (hs : s ∈ B.slabs) (hi : index < capacity s.cache)
    (hn : index ∉ s.free) (hlive : ∀ addr size align, blockLease L.pool addr size align ∈ live →
      blockLease L.pool addr size align ∈ B.live) :
    ∃ m', slabFree m (s.object L.pool index) = some (m', true) ∧
      Words L b m' ⟨B.free, updateFree B.slabs s.addr (index :: ·), live⟩ := by
  have hw := h.slabs s hs
  have hend := object_le hi
  have hin := (ho.slab_good hs).inside
  have hpage := (ho.slab_good hs).page
  have hstop := L.pool.stop_lt
  have hcap : capacity s.cache ≤ 4072 := Nat.div_le_self _ _
  have h32 : 32 ≤ objectSize s.cache := Nat.le_mul_of_pos_right 32 (Nat.two_pow_pos _)
  have hpos := objectSize_pos s.cache
  have hsize : m.load32 (L.slabCaches + 8 * s.cache) = objectSize s.cache :=
    (h.caches s.cache (ho.cache_lt s hs)).size
  have hlength : s.free.length ≤ 4072 := by
    have hsub : s.free ⊆ List.range (capacity s.cache) :=
      fun i hi => List.mem_range.mpr (ho.index_lt s hs i hi)
    have := (ho.nodup s hs).subperm hsub
    have hle := this.length_le
    rw [List.length_range] at hle
    omega
  simp only [Slab.block, slabOrder] at hin
  have hheader : s.header L.pool = L.pool.start + s.addr + 0x1004 := rfl
  have hobject : s.object L.pool index = s.header L.pool + 24 + index * objectSize s.cache := rfl
  have hslab : s.object L.pool index / 4096 * 4096 + 4 = s.header L.pool := by omega
  have hoffset : (s.object L.pool index + 2 ^ 32 - (s.header L.pool + 24)) % 2 ^ 32 =
      index * objectSize s.cache := by omega
  let m₁ := m.store32 (s.object L.pool index) (m.load32 (s.header L.pool + 20))
  let m₂ := m₁.store32 (s.header L.pool + 20) index
  have hcount : (m₂.load32 (s.header L.pool + 16) + 1) % 2 ^ 32 = s.free.length + 1 := by
    rw [load32_store32_other _ _ (by omega), load32_store32_other _ _ (by omega), hw.count]
    omega
  let m₃ := m₂.store32 (s.header L.pool + 16) (s.free.length + 1)
  have hkeep : ∀ a n, a + n ≤ s.header L.pool + 16 ∨ s.header L.pool + 24 ≤ a →
      a + n ≤ s.object L.pool index ∨ s.object L.pool index + 4 ≤ a → AgreeOn m m₃ a n := fun a n ha hb =>
    ((store32_agreeOn m _ (by omega)).trans (store32_agreeOn m₁ _ (by omega))).trans
      (store32_agreeOn m₂ _ (by omega))
  refine ⟨m₃, ?_, ?_⟩
  · simp only [slabFree, hslab]
    rw [if_neg (by omega), if_neg (not_not.mpr hw.magic), hw.cache, hsize, if_neg hpos.ne', hoffset,
      if_neg (not_not.mpr (Nat.mul_mod_left _ _)), Nat.mul_div_cancel _ hpos]
    rw [show (load32 ((m.store32 (s.object L.pool index) (m.load32 (s.header L.pool + 20))).store32
      (s.header L.pool + 20) index) (s.header L.pool + 16) + 1) % 2 ^ 32 = s.free.length + 1 from hcount]
  · apply h.update_slab ho hs (f := (index :: ·))
    · intro x hx
      exact hkeep x 1 (by omega) (by omega) x le_rfl (by omega)
    · apply hw.push (by omega) hn
      · exact hkeep _ _ (by omega) (by omega)
      · exact load32_store32 _ _ (by omega)
      · rw [load32_store32_other _ _ (by omega), load32_store32 _ _ (by omega)]
      · rw [load32_store32_other _ _ (by omega), load32_store32_other _ _ (by omega),
          load32_store32 _ _ (load32_lt _ _)]
      · intro i hi' hne
        have := object_le (ho.index_lt s hs i hi')
        have hl := objects_apart s.cache (i := i) (j := index)
        have hr := objects_apart s.cache (i := index) (j := i)
        have hobject' : s.object L.pool i = s.header L.pool + 24 + i * objectSize s.cache := rfl
        exact hkeep _ _ (by omega) (by omega)
    · exact hlive

private theorem slabFree_block (hb : BlockWords P m addr size align) (hpage : (P.start + addr) % 4096 = 0)
    (hc : align ≠ 0 → ¬ SlabLookalike m (P.start + addr + dataOffset align)) :
    slabFree m (P.start + addr + dataOffset align) = some (m, false) := by
  have hle := dataOffset_le align
  rw [slabFree, if_neg (by omega)]
  by_cases ha : align = 0
  · have hoff : dataOffset align = 24 := if_pos ha
    have hslab : (P.start + addr + dataOffset align) / 4096 * 4096 + 4 = P.start + addr + 4 := by omega
    simp only [hslab]
    rw [if_pos]
    rw [hb.prev ha]
    decide
  · have hoff : dataOffset align = 0x1004 := if_neg ha
    have hslab : (P.start + addr + dataOffset align) / 4096 * 4096 + 4 = P.start + addr + dataOffset align := by
      omega
    simp only [hslab]
    split
    · rfl
    · next hmagic =>
      have hoffset : (P.start + addr + dataOffset align + 2 ^ 32 - (P.start + addr + dataOffset align + 24)) %
          2 ^ 32 = 2 ^ 32 - 24 := by omega
      rw [hoffset]
      have hnot := hc ha
      simp only [SlabLookalike, not_and, not_or] at hnot
      obtain ⟨h0, hdiv⟩ := hnot (not_not.mp hmagic)
      rw [if_neg h0, if_pos hdiv]

theorem Books.Ok.release (ho : B.Ok P) (ha : B.live = before ++ blockLease P addr size align :: after) :
    Books.Ok P ⟨⟨addr, blockOrder (requiredSize size align)⟩ :: B.free, B.slabs, before ++ after⟩ := by
  have hperm : B.live.Perm (blockLease P addr size align :: (before ++ after)) := ha ▸ List.perm_middle
  have hheld : B.held.Perm (⟨addr, blockOrder (requiredSize size align)⟩ ::
      (B.slabs.map Slab.block ++ (before ++ after).filterMap (·.origin.block?))) :=
    ((hperm.filterMap _).append_left _).trans List.perm_middle
  refine ⟨?_, ho.cache_lt, ho.index_lt, ho.nodup, fun c hc => ?_, ?_⟩
  · exact ho.tiling.perm ((hheld.append_right _).trans List.perm_middle.symm)
  · exact ho.leases c (hperm.mem_iff.mpr (.tail _ hc))
  · exact (List.nodup_cons.mp ((hperm.map Lease.origin).nodup_iff.mp ho.origins)).2

private theorem kfree_block (h : Words L hp.buddy m B) (ho : B.Ok L.pool) (hcfg : HeapConfig L hp)
    (ha : B.live = before ++ blockLease L.pool addr size align :: after)
    (hc : align ≠ 0 → ¬ SlabLookalike m (L.pool.start + addr + dataOffset align)) :
    ∃ b' m', kfree hp m (L.pool.start + addr + dataOffset align) = some ({ hp with buddy := b' }, m') ∧
      Words L b' m' ⟨giveBlock buddyMaxOrder ⟨addr, blockOrder (requiredSize size align)⟩ B.free, B.slabs,
        before ++ after⟩ := by
  have hmem : blockLease L.pool addr size align ∈ B.live := by rw [ha]; simp
  have hb := h.blocks addr size align hmem
  have ho₁ := ho.release ha
  have ht : Tiling L.pool (⟨addr, blockOrder (requiredSize size align)⟩ :: B.free) := ho₁.tiling.of_append
  have hg := ht.good _ (.head _)
  have hin := hg.inside
  have hmax := hg.le_max
  have hstop := L.pool.stop_lt
  have hle := dataOffset_le align
  have hroom := dataOffset_le_block size align
  simp only at hin hmax
  have hsize : requiredSize size align ≤ 2 ^ 31 := by
    have hlog : Nat.clog 2 (requiredSize size align) ≤ 28 := (le_max_left _ _).trans hmax
    exact ((Nat.clog_le_iff_le_pow (by omega)).mp hlog).trans (by decide)
  have hlast := hg.min_le
  have hpow := Nat.pow_le_pow_right (show 0 < 2 by omega) hlast
  simp only [buddyMinOrder] at hpow
  -- The header is marked free before the block goes back.
  let m₁ := (m.store8 (L.pool.start + addr + 12) 0).store32 (L.pool.start + addr + 16) freedMagic
  have hm₁ : ∀ x, Outside L.pool (⟨addr, blockOrder (requiredSize size align)⟩ :: B.free) x → m₁ x = m x := by
    intro x hx
    have hout := hx.of_mem (.head _)
    simp only at hout
    refine (store32_other (by omega)).trans ?_
    exact store8_agreeOn (a := x) (n := 1) m 0 (by omega) x le_rfl (by omega)
  have hl₁ : FreeLists L.pool hp.buddy m₁ B.free := by
    apply h.lists.overwrite ht
    intro x hx
    refine (store32_other (by simp only at hx; omega)).trans ?_
    exact store8_agreeOn (a := x) (n := 1) m 0 (by simp only at hx; omega) x le_rfl (by omega)
  obtain ⟨b', m', hcall, hl', -, hm'⟩ := buddyFree_refines hl₁ ht rfl (getOrder_eq hsize) rfl
  refine ⟨b', m', ?_, ?_⟩
  · have hback : (L.pool.start + addr + dataOffset align + 2 ^ 32 - 4) % 2 ^ 32 =
        L.pool.start + addr + dataOffset align - 4 := by omega
    rw [kfree, if_neg (by omega), if_pos hcfg.initialized, slabFree_block hb hg.page hc, Option.bind_some]
    simp only [Bool.false_eq_true, if_false]
    rw [hback, hb.back, hcfg.startAddress, hcfg.endAddress, if_neg (by omega), if_neg (not_not.mpr hb.magic),
      hb.size, hcall, Option.map_some]
  · have hw : Words L hp.buddy m ⟨B.free, B.slabs, before ++ after⟩ :=
      ⟨h.lists, h.caches, h.slabs, fun _ _ _ hb => h.blocks _ _ _ (by
        rw [ha]
        exact List.perm_middle.mem_iff.mpr (.tail _ hb))⟩
    apply hw.frame_used hl'
    intro x hx
    have hout : Outside L.pool (⟨addr, blockOrder (requiredSize size align)⟩ :: B.free) x :=
      Bookkeeping.outside (B := ⟨_ :: B.free, B.slabs, before ++ after⟩) hx ho₁
    exact (hm' x hout).trans (hm₁ x hout)

theorem kfree_refines (h : Words L hp.buddy m B) (ho : B.Ok L.pool) (hcfg : HeapConfig L hp)
    (ha : B.live = before ++ a :: after) (hc : a.align ≠ 0 → ¬ SlabLookalike m a.ptr) :
    ∃ b' m', kfree hp m a.ptr = some ({ hp with buddy := b' }, m') ∧
      Words L b' m' (B.giveBack a.origin (before ++ after)) := by
  have hmem : ∀ c ∈ before ++ after, c ∈ B.live := fun c hc => by
    rw [ha]
    exact List.perm_middle.mem_iff.mpr (.tail _ hc)
  cases ho.leases a (by rw [ha]; simp) with
  | @object s index size hs hi hn hz =>
    obtain ⟨m', hfree, hw⟩ := slabFree_object (before ++ after) h ho hs hi hn
      fun _ _ _ hb => hmem _ hb
    refine ⟨hp.buddy, m', ?_, hw⟩
    have hne : (objectLease L.pool s index size).ptr ≠ 0 := by
      simp only [objectLease, Slab.object, Slab.header]
      omega
    rw [kfree, if_neg hne, if_pos hcfg.initialized]
    change (slabFree m (s.object L.pool index)).bind _ = _
    rw [hfree]
    rfl
  | @block addr size align hz => exact kfree_block h ho hcfg ha hc

/-- Where the data passes for a slab header `kfree` faults, or writes to the data and leaves the
buddy lists as they are. -/
theorem kfree_lookalike (hcfg : HeapConfig L hp) (hpage : p % 4096 = 4) (hc : SlabLookalike m p) :
    (m.load32 (m.load32 (p + 4)) = 0 ∧ kfree hp m p = none) ∨
      ∃ m', kfree hp m p = some (hp, m') ∧ ∀ x, x < p ∨ p + 24 ≤ x → m' x = m x := by
  obtain ⟨hmagic, hsize⟩ := hc
  have hslab : p / 4096 * 4096 + 4 = p := by omega
  have hoffset : (p + 2 ^ 32 - (p + 24)) % 2 ^ 32 = 2 ^ 32 - 24 := by omega
  rw [kfree, if_neg (by omega), if_pos hcfg.initialized, slabFree, if_neg (by omega)]
  simp only [hslab]
  rw [if_neg (not_not.mpr hmagic), hoffset]
  by_cases h0 : m.load32 (m.load32 (p + 4)) = 0
  · rw [if_pos h0]
    exact .inl ⟨h0, rfl⟩
  · rw [if_neg h0, if_neg (not_not.mpr (hsize.resolve_left h0))]
    refine .inr ⟨_, rfl, fun x hx => ?_⟩
    exact (store32_other (by omega)).trans ((store32_other (by omega)).trans (store32_other (by omega)))

end RetroOs.Kernel
