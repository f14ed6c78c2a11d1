import RetroOs.Kernel.HeapRefinement

/-! `kmalloc_real` takes an object or a block as the books say. -/
namespace RetroOs.Kernel
open Lib Block Memory List

variable {L : HeapLayout} {P : Pool} {h : Heap} {b : Buddy} {m m' : Memory} {B : Books} {s t : Slab}
  {slabs : List Slab} {addr cache i k index n r size x : Nat} {align : Int} {l : List Block}

theorem GoodBlock.page (hc : GoodBlock P ⟨r, k⟩) : (P.start + r) % 4096 = 0 := by
  have hr : 4096 ∣ r := (pow_dvd_pow 2 hc.min_le : 2 ^ 12 ∣ 2 ^ k).trans hc.aligned
  exact Nat.mod_eq_zero_of_dvd (Nat.dvd_add P.start_page hr)

private theorem writeHeader_words (hb : P.start + addr < 2 ^ 32) (hs : requiredSize size align < 2 ^ 32)
    (hz : align = 0 → m.load32 (P.start + addr + 4) = 0) :
    BlockWords P (writeHeader m (P.start + addr) (requiredSize size align)
      (P.start + addr + dataOffset align)) addr size align := by
  have hle := dataOffset_le align
  have hbyte : ∀ (m : Memory) a, a + 4 ≤ P.start + addr + 12 ∨ P.start + addr + 13 ≤ a →
      (m.store8 (P.start + addr + 12) 1).load32 a = m.load32 a :=
    fun m a ha => (store8_agreeOn m 1 (by omega)).load32
  constructor
  · rw [writeHeader, load32_store32_other _ _ (by omega), hbyte _ _ (by omega),
      load32_store32_other _ _ (by omega), load32_store32 _ _ hb]
  · rw [writeHeader, load32_store32_other _ _ (by omega), hbyte _ _ (by omega), load32_store32 _ _ hs]
  · rw [writeHeader, load32_store32 _ _ (by decide)]
  · intro ha
    rw [writeHeader, load32_store32_other _ _ (by omega), hbyte _ _ (by omega),
      load32_store32_other _ _ (by omega), load32_store32_other _ _ (by omega), hz ha]

private theorem writeHeader_other (hx : x < P.start + addr ∨ P.start + addr + dataOffset align ≤ x) :
    writeHeader m (P.start + addr) n (P.start + addr + dataOffset align) x = m x := by
  have hle := dataOffset_le align
  have hstore : ∀ (m : Memory) a v, x < a ∨ a + 4 ≤ x → m.store32 a v x = m x := fun m a v ha =>
    store32_agreeOn (a := x) (n := 1) m v (by omega) x le_rfl (by omega)
  rw [writeHeader, hstore _ _ _ (by omega), store8_agreeOn (a := x) (n := 1) _ 1 (by omega) x le_rfl (by omega),
    hstore _ _ _ (by omega), hstore _ _ _ (by omega)]

variable (align) in
theorem requiredSize_le (hs : size ≤ 2 ^ 27) : requiredSize size align ≤ 2 ^ 27 + 4120 := by
  simp only [requiredSize]
  split <;> omega

private theorem required_mod (hs : requiredSize size align ≤ 2 ^ 31) :
    (size + 20 + 4 + if align = 0 then 0 else 4096) % 2 ^ 32 = requiredSize size align :=
  Nat.mod_eq_of_lt (hs.trans_lt (by decide))

theorem kmallocBuddy_none (hl : FreeLists P h.buddy m l) (hs : requiredSize size align ≤ 2 ^ 31)
    (hn : size = 0 ∨ ∀ c ∈ l, c.order < blockOrder (requiredSize size align)) :
    kmallocBuddy h m size align = some (h, m, 0) := by
  rw [kmallocBuddy]
  split
  · rfl
  · next hz =>
    simp only [required_mod hs]
    rw [buddyAlloc_eq _ _ hs, buddyAllocOrder_none hl (hn.resolve_left hz)]
    rfl

private theorem adjusted_eq {block : Nat} (hp : block % 4096 = 0) (hlt : block + dataOffset align < 2 ^ 32) :
    ((if align ≠ 0 ∧ (block + 20) % 2 ^ 32 % 4096 ≠ 0 then
      ((block + 20) % 2 ^ 32 + 0xFFF) % 2 ^ 32 / 4096 * 4096 else (block + 20) % 2 ^ 32) + 4) % 2 ^ 32 =
      block + dataOffset align := by
  simp only [dataOffset] at *
  by_cases ha : align = 0
  · rw [if_neg (fun hc => hc.1 ha), if_pos ha]
    omega
  · rw [if_neg ha] at hlt
    rw [if_pos ⟨ha, by omega⟩, if_neg ha]
    omega

variable (align) in
theorem kmallocBuddy_some (hl : FreeLists P h.buddy m l) (ht : Tiling P l) (hz : 0 < size)
    (hs : requiredSize size align ≤ 2 ^ 31) (hex : ∃ c ∈ l, blockOrder (requiredSize size align) ≤ c.order) :
    ∃ r n b' m', ⟨r, blockOrder (requiredSize size align) + n⟩ ∈ l ∧
      kmallocBuddy h m size align = some ({ h with buddy := b' }, m', P.start + r + dataOffset align) ∧
      FreeLists P b' m' (splitFree r (blockOrder (requiredSize size align)) n
        (l.erase ⟨r, blockOrder (requiredSize size align) + n⟩)) ∧
      (∀ x, Outside P l x → m' x = m x) ∧ BlockWords P m' r size align := by
  obtain ⟨r, n, b', m', hr, -, hcall, hl', ht', hm, hzero⟩ :=
    buddyAllocOrder_some hl ht (min_le_blockOrder (requiredSize size align)) hex
  have hg := ht'.good _ (.head _)
  have hin := hg.inside
  have hstop := P.stop_lt
  have hroom := requiredSize_room size align
  have hpow := size_le_blockOrder (requiredSize size align)
  simp only at hin
  refine ⟨r, n, b', writeHeader m' (P.start + r) (requiredSize size align) (P.start + r + dataOffset align),
    hr, ?_, ?_, ?_, ?_⟩
  · rw [kmallocBuddy, if_neg hz.ne']
    simp only [required_mod hs]
    rw [buddyAlloc_eq _ _ hs, hcall, Option.map_some]
    simp only [if_neg hg.nonnull]
    rw [adjusted_eq hg.page (by omega)]
  · apply hl'.overwrite ht'
    intro x hx
    apply writeHeader_other
    simp only at hx
    omega
  · intro x hx
    refine (writeHeader_other ?_).trans (hm x hx)
    have hb := hx.of_mem hr
    have hp : 2 ^ blockOrder (requiredSize size align) ≤ 2 ^ (blockOrder (requiredSize size align) + n) :=
      Nat.pow_le_pow_right (by omega) (by omega)
    simp only at hb
    omega
  · apply writeHeader_words (by omega) (by omega)
    intro _
    have := dataOffset_le align
    exact load32_zero fun x hl hu => hzero x (by omega) (by omega)

theorem SlabWords.pop (hw : SlabWords L m s) (hn : s.free.Nodup) {rest : List Nat} (hf : s.free = index :: rest)
    (hhead : AgreeOn m m' (s.header L.pool) 8) (hcount : m'.load32 (s.header L.pool + 16) = rest.length)
    (hfirst : m'.load32 (s.header L.pool + 20) = m.load32 (s.object L.pool index))
    (hother : ∀ i ∈ s.free, i ≠ index → AgreeOn m m' (s.object L.pool i) 4) :
    SlabWords L m' { s with free := s.free.tail } where
  magic := by
    have hm : AgreeOn m m' (s.header L.pool) 4 := hhead.mono le_rfl (by omega)
    exact hm.load32.trans hw.magic
  cache := by
    have hm : AgreeOn m m' (s.header L.pool + 4) 4 := hhead.mono (by omega) (by omega)
    exact hm.load32.trans hw.cache
  count := by rw [hf]; exact hcount
  objects := by
    have hc := hw.objects
    rw [hf] at hn hc ⊢
    obtain ⟨-, -, hc⟩ := chain_cons.mp hc
    change Chain noObject _ (m'.load32 (s.header L.pool + 20)) rest
    rw [hfirst]
    apply hc.congr
    intro i hi
    have hne : i ≠ index := fun he => (nodup_cons.mp hn).1 (he ▸ hi)
    exact (hother i (hf ▸ .tail _ hi) hne).load32

variable (size) in
theorem takeObject_words (h : Words L b m B) (ho : B.Ok L.pool) (hs : s ∈ B.slabs) {rest : List Nat}
    (hf : s.free = index :: rest) :
    ∃ m', takeObject m (L.slabCaches + 8 * s.cache) (s.header L.pool) = (m', s.object L.pool index) ∧
      (∀ x, s.object L.pool index ≤ x → x < s.object L.pool index + objectSize s.cache → m' x = 0) ∧
      Words L b m' (B.lendObject L.pool s index size) := by
  have hw := h.slabs s hs
  have hmem : index ∈ s.free := hf ▸ (.head _)
  have hend := object_le (ho.index_lt s hs index hmem)
  have hin := (ho.slab_good hs).inside
  have hapart := L.apart
  have hcache := ho.cache_lt s hs
  simp only [Slab.block, slabOrder] at hin
  have hfirst : m.load32 (s.header L.pool + 20) = index := by
    have hc := hw.objects
    rw [hf] at hc
    exact (chain_cons.mp hc).1
  have hsize : m.load32 (L.slabCaches + 8 * s.cache) = objectSize s.cache := (h.caches s.cache hcache).size
  have hheader : s.header L.pool = L.pool.start + s.addr + 0x1004 := rfl
  have hobj : s.header L.pool + 24 + m.load32 (s.header L.pool + 20) * m.load32 (L.slabCaches + 8 * s.cache) =
      s.object L.pool index := by
    rw [hfirst, hsize]
    rfl
  have hobject : s.object L.pool index = s.header L.pool + 24 + index * objectSize s.cache := rfl
  have hlength : s.free.length ≤ capacity s.cache := by
    have hsub : s.free ⊆ range (capacity s.cache) :=
      fun i hi => mem_range.mpr (ho.index_lt s hs i hi)
    have := (ho.nodup s hs).subperm hsub
    simpa using this.length_le
  have hcap : capacity s.cache ≤ 4072 := Nat.div_le_self _ _
  let m₁ := m.store32 (s.header L.pool + 20) (m.load32 (s.object L.pool index))
  let m₂ := m₁.store32 (s.header L.pool + 16) ((m₁.load32 (s.header L.pool + 16) + 2 ^ 32 - 1) % 2 ^ 32)
  have hcount : (m₁.load32 (s.header L.pool + 16) + 2 ^ 32 - 1) % 2 ^ 32 = rest.length := by
    rw [load32_store32_other _ _ (by omega), hw.count]
    rw [hf, length_cons] at hlength ⊢
    omega
  have hsize₂ : m₂.load32 (L.slabCaches + 8 * s.cache) = objectSize s.cache := by
    rw [load32_store32_other _ _ (by omega), load32_store32_other _ _ (by omega), hsize]
  have hfill : ∀ a n, a + n ≤ s.object L.pool index ∨ s.object L.pool index + objectSize s.cache ≤ a →
      AgreeOn m₂ (m₂.fill (s.object L.pool index) 0 (objectSize s.cache)) a n :=
    fun a n ha => fill_agreeOn m₂ 0 ha
  have hkeep : ∀ a n, a + n ≤ s.header L.pool + 16 ∨ s.header L.pool + 24 ≤ a →
      a + n ≤ s.object L.pool index ∨ s.object L.pool index + objectSize s.cache ≤ a →
      AgreeOn m (m₂.fill (s.object L.pool index) 0 (objectSize s.cache)) a n := fun a n ha hb =>
    ((store32_agreeOn m _ (by omega)).trans (store32_agreeOn m₁ _ (by omega))).trans (hfill a n hb)
  refine ⟨m₂.fill (s.object L.pool index) 0 (objectSize s.cache), ?_, fun x hl hu => if_pos ⟨hl, hu⟩, ?_⟩
  · simp only [takeObject, hobj]
    rw [hsize₂]
  · apply h.update_slab ho hs (f := tail)
    · intro x hx
      exact hkeep x 1 (by omega) (by omega) x le_rfl (by omega)
    · apply hw.pop (ho.nodup s hs) hf
      · exact hkeep _ _ (by omega) (by omega)
      · rw [(hfill _ _ (by omega)).load32]
        exact (load32_store32 m₁ _ (Nat.mod_lt _ (by decide))).trans hcount
      · rw [(hfill _ _ (by omega)).load32, load32_store32_other _ _ (by omega), load32_store32 _ _ (load32_lt _ _)]
      · intro i hi hne
        have := object_le (ho.index_lt s hs i hi)
        have hl := objects_apart s.cache (i := i) (j := index)
        have hr := objects_apart s.cache (i := index) (j := i)
        have : 32 ≤ objectSize s.cache := Nat.le_mul_of_pos_right 32 (Nat.two_pow_pos _)
        have hi' : s.object L.pool i = s.header L.pool + 24 + i * objectSize s.cache := rfl
        exact hkeep _ _ (by omega) (by omega)
    · intro addr size' align ha
      rcases mem_cons.mp ha with ha | ha
      · cases congrArg Lease.origin ha
      · exact ha

end RetroOs.Kernel
