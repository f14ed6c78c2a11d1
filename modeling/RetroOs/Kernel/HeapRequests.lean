import RetroOs.Kernel.HeapRuns

/-! Which requests `kmalloc_real` serves: the 32-bit sum of a request and its header, the loop that
rounds the sum up to an order, and the bytes that are handed out. -/
namespace RetroOs.Kernel
open Lib Block Memory

variable {L : HeapLayout} {B : Books} {s t : HeapState} {m : Memory} {h : Heap} {size p order : Nat} {align : Int}
  {a : Allocation} {phys : Option Nat} {e : HeapEvent}

/-- The states of the heap after `init_kheap` and `slab_init`, any frees and writes of the callers, and any requests
up to 2 GiB. -/
inductive HeapReached (L : HeapLayout) : HeapState → Prop where
  | boot {m : Memory} {s : HeapState} (hb : heapBoot L m = some s) : HeapReached L s
  | step {s t : HeapState} {e : HeapEvent} (hr : HeapReached L s) (hs : HeapStep L s e t) : HeapReached L t
  | request {s : HeapState} {size p : Nat} {align : Int} {phys : Option Nat} {h : Heap} {m : Memory} (hr : HeapReached L s)
      (hs : requiredSize size align ≤ 2 ^ 31) (hphys : ∀ a ∈ phys, ∀ x, a ≤ x → x < a + 4 → Callers L s.live x)
      (hcall : kmallocReal s.heap s.mem size align phys = some (h, m, p)) :
      HeapReached L ⟨h, m, if p = 0 then s.live else ⟨p, size, align⟩ :: s.live⟩

inductive Lent (L : HeapLayout) (B : Books) (p size : Nat) : Prop where
  | object {s : Slab} {index : Nat} (hs : s ∈ B.slabs) (hi : index < capacity s.cache) (hp : p = s.object L.pool index)
      (hz : size ≤ objectSize s.cache)
  | block {c : Block} (hc : c ∈ B.held) (hl : L.pool.start + c.addr ≤ p)
      (hu : p + size ≤ L.pool.start + c.addr + 2 ^ c.order)

/-- A request is served: its sum is not cut to 32 bits, the loop that rounds it ends, and the call gives null or
that many bytes of one block or object. -/
structure Served (L : HeapLayout) (s : HeapState) (size : Nat) (align : Int) (phys : Option Nat) : Prop where
  sum : requiredSize size align < 2 ^ 32
  rounds : (getOrder (requiredSize size align % 2 ^ 32)).isSome
  returns : ∃ h m p, kmallocReal s.heap s.mem size align phys = some (h, m, p) ∧
    (p = 0 ∨ ∃ B, Represents L ⟨h, m, ⟨p, size, align⟩ :: s.live⟩ B ∧ Lent L B p size)

theorem HeapReached.represents (h : HeapReached L s) : ∃ B, Represents L s B := by
  induction h with
  | boot hb =>
    obtain ⟨s', l, hboot, hr, -⟩ := heapBoot_represents L _
    cases hb.symm.trans hboot
    exact ⟨_, hr⟩
  | step _ hs ih =>
    obtain ⟨B, hB⟩ := ih
    obtain ⟨B', -, hB'⟩ := hB.step hs
    exact ⟨B', hB'⟩
  | request _ hs hphys hcall ih =>
    obtain ⟨B, hB⟩ := ih
    obtain ⟨b, m, p, B', hcall', -, hr⟩ := hB.kmalloc _ hs _ hphys
    rw [hcall', Option.some_inj, Prod.mk.injEq, Prod.mk.injEq] at hcall
    obtain ⟨rfl, rfl, rfl⟩ := hcall
    exact ⟨B', hr⟩

theorem Represents.lent (h : Represents L s B) (ha : a ∈ s.live) : Lent L B a.ptr a.size := by
  rw [h.live] at ha
  obtain ⟨c, hc, rfl⟩ := List.mem_map.mp ha
  cases h.ok.leases c hc with
  | object hs hi hf hz => exact .object hs hi rfl hz
  | @block addr size align hz =>
    have hroom : dataOffset align + size ≤ 2 ^ blockOrder (requiredSize size align) :=
      (requiredSize_room size align).trans (size_le_blockOrder _)
    have hheld := Books.Ok.lease_mem hc rfl
    refine .block hheld ?_ ?_ <;> simp only [blockLease] <;> omega

private theorem kmallocReal_hangs (hl : 2 ^ 31 < requiredSize size align) (hu : requiredSize size align < 2 ^ 32) :
    kmallocReal h m size align phys = none := by
  have hsize : 2048 < size := by
    simp only [requiredSize] at hl
    split at hl <;> omega
  have hmod : (size + 20 + 4 + if align = 0 then 0 else 4096) % 2 ^ 32 = requiredSize size align := Nat.mod_eq_of_lt hu
  have hbuddy : kmallocBuddy h m size align = none := by
    rw [kmallocBuddy, if_neg (by omega)]
    simp only [hmod, buddyAlloc, getOrder, getOrder_diverges hl, Option.map_none]
  rw [kmallocReal, if_neg (fun hslab => by omega), Option.bind_some]
  simp only [ne_eq, not_true_eq_false, if_false]
  rw [hbuddy, Option.map_none]

/-- In every state of the heap, a request is served exactly if it has at most 2 GiB with its header. -/
theorem kmallocReal_served_iff (hr : HeapReached L s) (align : Int)
    (hphys : ∀ a ∈ phys, ∀ x, a ≤ x → x < a + 4 → Callers L s.live x) :
    Served L s size align phys ↔ requiredSize size align ≤ 2 ^ 31 := by
  constructor
  · intro hs
    by_contra hbig
    have hsome := hs.rounds
    rw [Nat.mod_eq_of_lt hs.sum, getOrder, getOrder_diverges (not_le.mp hbig)] at hsome
    cases hsome
  · intro hle
    have hlt : requiredSize size align < 2 ^ 32 := hle.trans_lt (by decide)
    refine ⟨hlt, ?_, ?_⟩
    · rw [Nat.mod_eq_of_lt hlt, getOrder_eq hle]
      rfl
    · obtain ⟨B, hB⟩ := hr.represents
      obtain ⟨b, m, p, B', hcall, -, hB'⟩ := hB.kmalloc align hle phys hphys
      refine ⟨_, m, p, hcall, ?_⟩
      by_cases hp : p = 0
      · exact .inl hp
      · rw [if_neg hp] at hB'
        exact .inr ⟨B', hB', hB'.lent (.head _)⟩

theorem kernelHeap_serves :
    ∃ s, heapBoot kernelHeap (fun _ => 0) = some s ∧ Served kernelHeap s 4096 1 none := by
  obtain ⟨s, -, hboot, -⟩ := heapBoot_represents kernelHeap fun _ => 0
  exact ⟨s, hboot, (kmallocReal_served_iff (.boot hboot) 1 (by simp)).mpr (by decide)⟩

/-- A request of 2 GiB has no answer, and the sum for one of the last 20 bytes below 4 GiB is cut to 4. -/
theorem kernelHeap_fails :
    ∃ s, heapBoot kernelHeap (fun _ => 0) = some s ∧ kmallocReal s.heap s.mem 0x80000000 0 none = none ∧
      ¬ Served kernelHeap s 0x80000000 0 none ∧ ¬ Served kernelHeap s 0xFFFFFFEC 0 none := by
  obtain ⟨s, -, hboot, -⟩ := heapBoot_represents kernelHeap fun _ => 0
  have hnone : kmallocReal s.heap s.mem 0x80000000 0 none = none := kmallocReal_hangs (by decide) (by decide)
  refine ⟨s, hboot, hnone, fun hs => ?_, fun hs => absurd hs.sum (by decide)⟩
  obtain ⟨h, m, p, hcall, -⟩ := hs.returns
  cases hnone.symm.trans hcall

end RetroOs.Kernel
