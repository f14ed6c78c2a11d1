import Mathlib.Data.Nat.Log
import RetroOs.Lib.Memory

/-! The buddy allocator over a flat memory: a head per order in the control block,
the `next` pointers in the first word of each free block. -/
namespace RetroOs.Kernel
open Lib Nat

def buddyMinOrder : Nat := 12
def buddyMaxOrder : Nat := 28
def buddyNumOrders : Nat := buddyMaxOrder - buddyMinOrder + 1

structure Buddy where
  startAddr : Nat
  endAddr : Nat
  freeLists : Nat → Nat

/-- Tests of the condition after which a doubling loop has either ended or reached zero. -/
def orderFuel : Nat := 64

/-- More nodes than any free list of a pool below 2 GiB can have. -/
def walkFuel : Nat := 2 ^ 20

def getOrderLoop (size : Nat) : Nat → Nat → Nat → Option Nat
  | 0, _, _ => none
  | fuel + 1, s, order =>
    if s < size then getOrderLoop size fuel (2 * s % 2 ^ 32) (order + 1) else some order

def getOrder (size : Nat) : Option Nat := getOrderLoop size orderFuel 1 0

/-- `while (s * 2 <= n) { s <<= 1; order++; }` in 32-bit arithmetic. -/
def getOrderFloorLoop (n : Nat) : Nat → Nat → Nat → Option Nat
  | 0, _, _ => none
  | fuel + 1, s, order =>
    if 2 * s % 2 ^ 32 ≤ n then getOrderFloorLoop n fuel (2 * s % 2 ^ 32) (order + 1) else some order

def getOrderFloor (n : Nat) : Option Nat := getOrderFloorLoop n orderFuel 1 0

def pushBlock (b : Buddy) (m : Memory) (listIdx block : Nat) : Buddy × Memory :=
  ({ b with freeLists := Function.update b.freeLists listIdx block },
    m.store32 block (b.freeLists listIdx))

def buddyInitLoop : Nat → Nat → Buddy → Memory → Option (Buddy × Memory)
  | 0, _, _, _ => none
  | fuel + 1, current, b, m =>
    if current < b.endAddr then
      match getOrderFloor (b.endAddr - current) with
      | none => none
      | some floor =>
        let order := if buddyMaxOrder < floor then buddyMaxOrder else floor
        if order < buddyMinOrder then some (b, m)
        else
          let (b, m) := pushBlock b m (order - buddyMinOrder) current
          buddyInitLoop fuel ((current + 2 ^ order) % 2 ^ 32) b m
    else some (b, m)

def buddyInit (m : Memory) (start stop : Nat) : Option (Buddy × Memory) :=
  buddyInitLoop walkFuel start ⟨start, stop, fun _ => 0⟩ m

def splitDown (listIdx block : Nat) : Nat → Buddy → Memory → Buddy × Memory
  | 0, b, m => (b, m)
  | n + 1, b, m =>
    let i := listIdx + n
    let (b, m) := pushBlock b m i ((block + 2 ^ (i + buddyMinOrder)) % 2 ^ 32)
    splitDown listIdx block n b m

def buddyAllocOrder (b : Buddy) (m : Memory) (order : Nat) : Buddy × Memory × Nat :=
  let listIdx := order - buddyMinOrder
  if buddyNumOrders ≤ listIdx then (b, m, 0)
  else
    match (List.range' listIdx (buddyNumOrders - listIdx)).find? (b.freeLists · != 0) with
    | none => (b, m, 0)
    | some i =>
      let block := b.freeLists i
      let b := { b with freeLists := Function.update b.freeLists i (m.load32 block) }
      let (b, m) := splitDown listIdx block (i - listIdx) b m
      (b, m.fill block 0 (2 ^ order), block)

/-- The result is `none` when the rounding loop does not end. -/
def buddyAlloc (b : Buddy) (m : Memory) (size : Nat) : Option (Buddy × Memory × Nat) :=
  (getOrder size).map fun order => buddyAllocOrder b m (max order buddyMinOrder)

def unlinkNode (listIdx : Nat) (prev : Option Nat) (curr : Nat) (b : Buddy) (m : Memory) :
    Buddy × Memory :=
  match prev with
  | none => ({ b with freeLists := Function.update b.freeLists listIdx (m.load32 curr) }, m)
  | some p => (b, m.store32 p (m.load32 curr))

def unlinkBuddy (listIdx buddyAddr : Nat) :
    Nat → Option Nat → Nat → Buddy → Memory → Option (Buddy × Memory × Bool)
  | 0, _, _, _, _ => none
  | fuel + 1, prev, curr, b, m =>
    if curr = 0 then some (b, m, false)
    else if curr = buddyAddr then
      let (b, m) := unlinkNode listIdx prev curr b m
      some (b, m, true)
    else unlinkBuddy listIdx buddyAddr fuel (some curr) (m.load32 curr) b m

/-- `buddy_addr` of a block: the order's bit of the pool-relative address flipped. -/
def buddyAddrOf (b : Buddy) (addr order : Nat) : Nat :=
  (((addr + 2 ^ 32 - b.startAddr) % 2 ^ 32 ^^^ 2 ^ order) + b.startAddr) % 2 ^ 32

/-- The coalescing loop, entered with `n` orders left below the maximum. -/
def coalesce : Nat → Nat → Nat → Buddy → Memory → Option (Buddy × Memory × Nat × Nat)
  | 0, order, addr, b, m => some (b, m, order, addr)
  | n + 1, order, addr, b, m =>
    let listIdx := order - buddyMinOrder
    let buddyAddr := buddyAddrOf b addr order
    match unlinkBuddy listIdx buddyAddr walkFuel none (b.freeLists listIdx) b m with
    | none => none
    | some (b, m, true) => coalesce n (order + 1) (if buddyAddr < addr then buddyAddr else addr) b m
    | some (b, m, false) => some (b, m, order, addr)

def buddyFree (b : Buddy) (m : Memory) (ptr size : Nat) : Option (Buddy × Memory) :=
  if ptr = 0 then some (b, m)
  else
    (getOrder size).bind fun order =>
      let order := max order buddyMinOrder
      (coalesce (buddyMaxOrder - order) order ptr b m).map fun (b, m, order, addr) =>
        if buddyNumOrders ≤ order - buddyMinOrder then (b, m)
        else pushBlock b m (order - buddyMinOrder) addr

section
variable {size n fuel s order : Nat}

private theorem getOrderLoop_eq (hs : size ≤ 2 ^ 31) (ho : order ≤ clog 2 size)
    (hf : clog 2 size < fuel + order) :
    getOrderLoop size fuel (2 ^ order) order = some (clog 2 size) := by
  induction fuel generalizing order with
  | zero => omega
  | succ fuel ih =>
    have hc : clog 2 size ≤ 31 := clog_le_of_le_pow hs
    rw [getOrderLoop]
    rcases ho.eq_or_lt with rfl | hlt
    · rw [if_neg (not_lt.mpr (le_pow_clog (by omega) size))]
    · have hp : 2 ^ (order + 1) ≤ 2 ^ 31 := Nat.pow_le_pow_right (by omega) (by omega)
      rw [if_pos (pow_lt_of_lt_clog hlt), mul_comm, ← pow_succ,
        mod_eq_of_lt (by omega)]
      exact ih hlt (by omega)

theorem getOrder_eq (hs : size ≤ 2 ^ 31) : getOrder size = some (clog 2 size) := by
  have hc : clog 2 size ≤ 31 := clog_le_of_le_pow hs
  exact getOrderLoop_eq hs (zero_le _) (by simp only [orderFuel]; omega)

private theorem getOrderLoop_zero (hs : 0 < size) : getOrderLoop size fuel 0 order = none := by
  induction fuel generalizing order with
  | zero => rfl
  | succ fuel ih => rw [getOrderLoop, if_pos hs, mul_zero, zero_mod, ih]

private theorem getOrderLoop_diverges (hs : 2 ^ 31 < size) (ho : order ≤ 31) :
    getOrderLoop size fuel (2 ^ order) order = none := by
  induction fuel generalizing order with
  | zero => rfl
  | succ fuel ih =>
    have hp : 2 ^ order ≤ 2 ^ 31 := Nat.pow_le_pow_right (by omega) ho
    rw [getOrderLoop, if_pos (by omega), mul_comm, ← pow_succ]
    rcases ho.eq_or_lt with rfl | hlt
    · exact getOrderLoop_zero (by omega)
    · have hq : 2 ^ (order + 1) ≤ 2 ^ 31 := Nat.pow_le_pow_right (by omega) hlt
      rw [mod_eq_of_lt (by omega)]
      exact ih hlt

theorem getOrder_diverges (hs : 2 ^ 31 < size) : getOrderLoop size fuel 1 0 = none :=
  getOrderLoop_diverges hs (zero_le _)

private theorem getOrderFloorLoop_eq (hn : 0 < n) (hn' : n < 2 ^ 31) (ho : order ≤ log 2 n)
    (hf : log 2 n < fuel + order) :
    getOrderFloorLoop n fuel (2 ^ order) order = some (log 2 n) := by
  induction fuel generalizing order with
  | zero => omega
  | succ fuel ih =>
    have hl : log 2 n < 31 := log_lt_of_lt_pow hn.ne' hn'
    have hp : 2 ^ (order + 1) ≤ 2 ^ 31 := Nat.pow_le_pow_right (by omega) (by omega)
    rw [getOrderFloorLoop, mul_comm, ← pow_succ, mod_eq_of_lt (by omega)]
    rcases ho.eq_or_lt with rfl | hlt
    · rw [if_neg (not_le.mpr (lt_pow_succ_log_self (by omega) n))]
    · rw [if_pos (pow_le_of_le_log hn.ne' hlt)]
      exact ih hlt (by omega)

theorem getOrderFloor_eq (hn : 0 < n) (hn' : n < 2 ^ 31) :
    getOrderFloor n = some (log 2 n) := by
  have hl : log 2 n < 31 := log_lt_of_lt_pow hn.ne' hn'
  exact getOrderFloorLoop_eq hn hn' (zero_le _) (by simp only [orderFuel]; omega)

end
end RetroOs.Kernel
