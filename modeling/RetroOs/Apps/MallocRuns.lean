import RetroOs.Apps.MallocBlocks
import RetroOs.Lib.Runs

/-! Runs of the calls on the heap of a program: what is given out is apart, large enough and kept. -/
namespace RetroOs.Apps
open Lib List Option Function UserHeap Prod

structure HeapOk (h : UserHeap) (l : List ℕ) : Prop where
  blocks : Blocks h.mem l h.endAddr
  start : l.head?.getD 0 = h.start

/-- The kernel gave memory that is not null, above what it gave before, and ends in the address space. -/
def SbrkCall.Granted (c : SbrkCall) : Prop := 0 < c.result ∧ c.top ≤ c.result ∧ c.result + c.amount < 2 ^ 32

instance (c : SbrkCall) : Decidable c.Granted := inferInstanceAs (Decidable (_ ∧ _ ∧ _))

/-- The arithmetic on a size does not wrap. -/
def Fits (size : ℕ) : Prop := (size + 7) / 8 * 8 + 20 + 4095 < 2 ^ 32

instance (size : ℕ) : Decidable (Fits size) := inferInstanceAs (Decidable (_ < _))

structure Given (h : UserHeap) (l : List ℕ) (size : ℕ) (h' : UserHeap) (l' : List ℕ) (t : ℕ) : Prop where
  ok : HeapOk h' l'
  mem : t ∈ l'
  free : field h'.mem t .free = 0
  size : size ≤ field h'.mem t .size
  kept : Kept none h.mem l h'.mem l'
  fresh : ∀ a ∈ l, field h.mem a .free = 0 → a ≠ t

namespace UserHeap
variable {kernel : ℕ → BitVec 32} {h h' : UserHeap} {l l' xs ys : List ℕ} {a block size fuel t : ℕ} {c : SbrkCall}

private theorem grow_calls (hc : c ∈ h.calls) : c ∈ (h.grow kernel block size).1.calls := by
  rw [grow]
  dsimp only [sbrk]
  split <;> exact mem_append_left _ hc

private theorem mallocLoop_calls (hc : c ∈ h.calls) : c ∈ (mallocLoop kernel fuel h size block).1.calls := by
  induction fuel generalizing h block with
  | zero => exact hc
  | succ fuel ih =>
    rw [mallocLoop]
    split
    · exact hc
    · split
      · exact hc
      · split
        · have hgrow : c ∈ (h.grow kernel block size).1.calls := grow_calls hc
          split
          · next heq =>
            rw [heq] at hgrow
            exact hgrow
          · next heq =>
            rw [heq] at hgrow
            exact ih hgrow
        · exact ih hc

theorem ok_pos (hok : HeapOk h l) (ha : a ∈ l) : a ≠ 0 := (hok.blocks.fits a ha).1.ne'

theorem ok_lt (hok : HeapOk h l) (ha : a ∈ l) : a + 20 < 2 ^ 32 := by
  have hfits := (hok.blocks.fits a ha).2
  have htop := hok.blocks.top_lt
  omega

private theorem heapInit_spec (hok : HeapOk h l) (hg : ∀ c ∈ (h.heapInit kernel).calls, c.Granted) :
    ∃ l', HeapOk (h.heapInit kernel) l' ∧ l' ≠ [] ∧ Kept none h.mem l (h.heapInit kernel).mem l' := by
  rw [heapInit] at hg ⊢
  split at hg
  · next hstart =>
    rw [if_pos hstart]
    refine ⟨l, hok, ?_, .refl⟩
    rintro rfl
    exact hstart hok.start.symm
  · next hstart =>
    rw [if_neg hstart]
    have hl : l = [] := by
      cases l with
      | nil => rfl
      | cons a l =>
        have hstart' := hok.start
        exact absurd (hstart'.trans (not_not.mp hstart)) (ok_pos hok (.head _))
    subst hl
    obtain ⟨hpos, htop, hlt⟩ := hg _ (mem_append_right _ (mem_singleton_self _))
    dsimp only [sbrk] at hpos htop hlt ⊢
    generalize hn : (kernel h.calls.length).toNat = n at hpos htop hlt ⊢
    have hs : Spaced [n] := by
      intro a ha
      obtain rfl := mem_singleton.mp ha
      exact ⟨by omega, fun b hb => .inl (mem_singleton.mp hb)⟩
    have hfield : ∀ f, field (newBlock h.mem n (4096 - headerSize) 0 0) n f = header (4096 - headerSize) 1 0 0 f := by
      intro f
      rw [newBlock_field hs (mem_singleton_self n) (mem_singleton_self n) (by decide) (by decide), if_pos rfl]
      rfl
    refine ⟨[n], ⟨⟨⟨hfield _, hfield _, trivial⟩, fun a ha => ?_, pairwise_singleton _ _, fun a ha => ?_, ?_⟩, rfl⟩, cons_ne_nil _ _,
      fun a ha => nomatch ha⟩
    · obtain rfl := mem_singleton.mp ha
      exact hfield _
    · obtain rfl := mem_singleton.mp ha
      refine ⟨hpos, ?_⟩
      rw [show field (newBlock h.mem a (4096 - headerSize) 0 0) a .size = 4096 - headerSize from hfield _, wrap_of_lt (by omega), headerSize]
    · exact Nat.mod_lt _ (by decide)

private theorem mallocLoop_take (kernel : ℕ → BitVec 32) (fuel : ℕ) (hok : HeapOk h (xs ++ block :: ys)) (hf : field h.mem block .free ≠ 0) (hsize : size ≤ field h.mem block .size)
    (hlt : size + 36 < 2 ^ 32) : ∃ h' l', mallocLoop kernel (fuel + 1) h size block = (h', some (block + 20)) ∧
      Given h (xs ++ block :: ys) size h' l' block := by
  have hmem : block ∈ xs ++ block :: ys := by simp
  obtain ⟨l', hblocks, ht, hfree, hroom, hkept, hhead⟩ := hok.blocks.take hf hsize hlt
  have hptr : wrap (block + headerSize) = block + 20 := wrap_of_lt (ok_lt hok hmem)
  refine ⟨{ h with mem := take h.mem block size }, l', ?_, ⟨⟨hblocks, ?_⟩, ht, hfree, hroom, hkept, fun a ha hfa => ?_⟩⟩
  · rw [mallocLoop, if_neg (ok_pos hok hmem), if_pos ⟨hf, hsize⟩, hptr]
  · rw [hhead]
    exact hok.start
  · rintro rfl
    exact hf hfa

theorem Given.trans {h₁ : UserHeap} {l₁ : List ℕ} (hkept : Kept none h.mem l h₁.mem l₁) (hg : Given h₁ l₁ size h' l' t) :
    Given h l size h' l' t where
  ok := hg.ok
  mem := hg.mem
  free := hg.free
  size := hg.size
  kept := hkept.trans hg.kept
  fresh a ha hf := by
    obtain ⟨ha', hf', -⟩ := hkept a ha (not_mem_none a) hf
    exact hg.fresh a ha' hf'

private theorem grow_spec (hok : HeapOk h (xs ++ [block])) (hlt : size + 20 + 4095 < 2 ^ 32)
    (hg : ∀ c ∈ (h.grow kernel block size).1.calls, c.Granted) :
    ∃ h₁ n, h.grow kernel block size = (h₁, true) ∧ HeapOk h₁ (xs ++ [block, n]) ∧
      Kept none h.mem (xs ++ [block]) h₁.mem (xs ++ [block, n]) ∧ field h₁.mem block .next = n ∧ field h₁.mem n .free ≠ 0 ∧
      size ≤ field h₁.mem n .size := by
  have hwrap : wrap (size + 20) = size + 20 := wrap_of_lt (by omega)
  have hneed : alignPage (wrap (size + headerSize)) = (size + 20 + 4095) / 4096 * 4096 := by
    rw [alignPage, headerSize, hwrap, wrap_of_lt (by omega)]
  rw [grow] at hg ⊢
  dsimp only [sbrk] at hg ⊢
  rw [hneed] at hg ⊢
  generalize (kernel h.calls.length).toNat = n at hg ⊢
  have hcall : SbrkCall.Granted ⟨(size + 20 + 4095) / 4096 * 4096, h.endAddr, n⟩ := by
    apply hg
    split <;> exact mem_append_right _ (mem_singleton_self _)
  obtain ⟨hpos, htop, hend⟩ := hcall
  dsimp only at hpos htop hend
  obtain ⟨hblocks, hkept, hnext, hfree, hroom⟩ := hok.blocks.grow ((size + 20 + 4095) / 4096 * 4096) htop (by omega) hend
  rw [if_neg (by omega), wrap_of_lt hend]
  refine ⟨_, n, rfl, ⟨hblocks, ?_⟩, hkept, hnext, ?_, ?_⟩
  · have hstart := hok.start
    cases xs <;> exact hstart
  · dsimp only
    rw [hfree]
    decide
  · dsimp only
    rw [hroom]
    omega

private theorem mallocLoop_spec (hok : HeapOk h (xs ++ block :: ys)) (hlt : size + 20 + 4095 < 2 ^ 32) (hfuel : ys.length + 2 ≤ fuel)
    (hg : ∀ c ∈ (mallocLoop kernel fuel h size block).1.calls, c.Granted) :
    ∃ h' l' t, mallocLoop kernel fuel h size block = (h', some (t + 20)) ∧ Given h (xs ++ block :: ys) size h' l' t := by
  induction fuel generalizing h xs block ys with
  | zero => omega
  | succ fuel ih =>
    have hmem : block ∈ xs ++ block :: ys := by simp
    by_cases hfit : field h.mem block .free ≠ 0 ∧ size ≤ field h.mem block .size
    · obtain ⟨h', l', hloop, hgiven⟩ := mallocLoop_take kernel fuel hok hfit.1 hfit.2 (by omega)
      exact ⟨h', l', block, hloop, hgiven⟩
    · rw [mallocLoop, if_neg (ok_pos hok hmem), if_neg hfit, hok.blocks.next_eq] at hg ⊢
      cases ys with
      | cons y ys =>
        have hok' : HeapOk h ((xs ++ [block]) ++ y :: ys) := by simpa using hok
        have hy : y ≠ 0 := ok_pos hok' (by simp)
        rw [head?_cons, getD_some, if_neg hy] at hg ⊢
        rw [length_cons] at hfuel
        obtain ⟨h', l', t, hloop, hgiven⟩ := ih hok' (by omega) hg
        exact ⟨h', l', t, hloop, by simpa using hgiven⟩
      | nil =>
        rw [head?_nil, getD_none, if_pos rfl] at hg ⊢
        have hcalls : ∀ c ∈ (h.grow kernel block size).1.calls, c.Granted := by
          intro c hc
          apply hg
          split
          · next heq =>
            rw [heq] at hc
            exact hc
          · next heq =>
            rw [heq] at hc
            exact mallocLoop_calls hc
        obtain ⟨h₁, n, hgrow, hok₁, hkept, hnext, hfree, hroom⟩ := grow_spec hok hlt hcalls
        obtain ⟨fuel, rfl⟩ : ∃ k, fuel = k + 1 := ⟨fuel - 1, by simp only [length_nil] at hfuel; omega⟩
        have hok₁' : HeapOk h₁ ((xs ++ [block]) ++ n :: []) := by simpa using hok₁
        obtain ⟨h', l', hloop, hgiven⟩ := mallocLoop_take kernel fuel hok₁' hfree hroom (by omega)
        refine ⟨h', l', n, ?_, Given.trans (by simpa using hkept) hgiven⟩
        rw [hgrow]
        dsimp only
        rw [hnext, hloop]

theorem malloc_spec {n : BitVec 32} (hok : HeapOk h l) (hn : n ≠ 0) (hfits : Fits n.toNat)
    (hg : ∀ c ∈ (h.malloc kernel n).1.calls, c.Granted) :
    ∃ h' l' t, h.malloc kernel n = (h', some (t + 20)) ∧ Given h l n.toNat h' l' t := by
  rw [malloc, if_neg hn] at hg ⊢
  dsimp only at hg ⊢
  obtain ⟨l₁, hok₁, hne, hkept⟩ := heapInit_spec hok fun c hc => hg c (mallocLoop_calls hc)
  rw [Fits] at hfits
  have halign : align8 n.toNat = (n.toNat + 7) / 8 * 8 := by rw [align8, wrap_of_lt (by omega)]
  cases l₁ with
  | nil => exact absurd rfl hne
  | cons block ys =>
    have hstart : block = (h.heapInit kernel).start := hok₁.start
    have hlength := hok₁.blocks.length_lt
    rw [length_cons] at hlength
    rw [← hstart, halign] at hg ⊢
    have hok₁' : HeapOk (h.heapInit kernel) ([] ++ block :: ys) := hok₁
    have hfuel : ys.length + 2 ≤ mallocFuel := by
      rw [mallocFuel]
      omega
    have hle : n.toNat ≤ (n.toNat + 7) / 8 * 8 := by omega
    obtain ⟨h', l', t, hloop, hgiven⟩ := mallocLoop_spec hok₁' hfits hfuel hg
    obtain ⟨hok', ht, hfree, hsize, hkept', hfresh⟩ := Given.trans hkept hgiven
    exact ⟨h', l', t, hloop, hok', ht, hfree, hle.trans hsize, hkept', hfresh⟩

private theorem free_spec (hok : HeapOk h l) (ha : a ∈ l) :
    ∃ l', HeapOk (h.free (a + 20)) l' ∧ Kept (some a) h.mem l (h.free (a + 20)).mem l' := by
  have hlt := ok_lt hok ha
  have hblock : wrap (a + 20 + 2 ^ 32 - headerSize) = a := by
    rw [wrap, headerSize]
    omega
  rw [free, if_neg (by omega)]
  rw [hblock, if_neg (not_not.mpr (hok.blocks.magic a ha))]
  obtain ⟨xs, ys, rfl⟩ := append_of_mem ha
  have hset := hok.blocks.setFree (v := 1) ha (by decide)
  have hkept := hok.blocks.setFree_kept (v := 1) ha (by decide)
  have hf : field (setField h.mem a .free 1) a .free ≠ 0 := by
    rw [hok.blocks.setFree_free ha (by decide)]
    decide
  obtain ⟨ys', hnext, hkept', hf'⟩ := hset.coalesceNext hf
  obtain ⟨l', hprev, hkept'', hhead⟩ := hnext.coalescePrev hf'
  refine ⟨l', ⟨?_, ?_⟩, ?_⟩
  · dsimp only
    exact hprev
  · have hstart := hok.start
    rw [hhead]
    cases xs <;> exact hstart
  · dsimp only
    exact (hkept.trans hkept'.but).trans hkept''.but

private theorem free_calls (h : UserHeap) (ptr : ℕ) : (h.free ptr).calls = h.calls := by
  rw [free]
  split
  · rfl
  · dsimp only
    split <;> rfl

private theorem inside_spec (m' : Memory) (hok : HeapOk h l) (ha : a ∈ l)
    (hsame : ∀ x, ¬ (a + 20 ≤ x ∧ x < a + 20 + field h.mem a .size) → m' x = h.mem x) :
    HeapOk { h with mem := m' } l ∧ Kept (some a) h.mem l m' l ∧ ∀ f, field m' a f = field h.mem a f := by
  obtain ⟨hfield, hkept⟩ := hok.blocks.inside ha hsame
  exact ⟨⟨hok.blocks.congr fun c hc f _ => hfield c hc f, hok.start⟩, hkept, hfield a ha⟩

end UserHeap

/-- The heap, and how many bytes were asked for at each address that was given out and not given back. -/
structure MallocRun where
  heap : UserHeap
  live : ℕ → Option ℕ

/-- The calls, and a store of a byte into what was given out. -/
inductive MallocCall where
  | malloc (size : BitVec 32)
  | calloc (nmemb size : BitVec 32)
  | realloc (ptr : ℕ) (size : BitVec 32)
  | free (ptr : ℕ)
  | write (ptr offset : ℕ) (v : UInt8)

/-- The allocation that a call is about. -/
def MallocCall.target : MallocCall → ℕ
  | .realloc ptr _ | .free ptr | .write ptr _ _ => ptr
  | _ => 0

namespace MallocRun
open UserHeap

def gain (live : ℕ → Option ℕ) (size : ℕ) : Option ℕ → ℕ → Option ℕ
  | none | some 0 => live
  | some ptr => update live ptr (some size)

/-- What a call does, and its result if it returns. -/
def call (kernel : ℕ → BitVec 32) (s : MallocRun) : MallocCall → MallocRun × Option ℕ
  | .malloc size =>
    let r := s.heap.malloc kernel size
    ({ heap := r.1, live := gain s.live size.toNat r.2 }, r.2)
  | .calloc nmemb size =>
    let r := s.heap.calloc kernel nmemb size
    ({ heap := r.1, live := gain s.live (nmemb.toNat * size.toNat) r.2 }, r.2)
  | .realloc ptr size =>
    let r := s.heap.realloc kernel ptr size
    let lost := if size = 0 ∨ r.2 ≠ some 0 then update s.live ptr none else s.live
    ({ heap := r.1, live := gain lost size.toNat r.2 }, r.2)
  | .free ptr => ({ heap := s.heap.free ptr, live := update s.live ptr none }, some 0)
  | .write ptr offset v => ({ s with heap := { s.heap with mem := s.heap.mem.store8 (ptr + offset) v } }, some 0)

def exec (kernel : ℕ → BitVec 32) (s : MallocRun) (e : MallocCall) : MallocRun := (s.call kernel e).1

def start (m : Memory) : MallocRun := { heap := { mem := m, start := 0, endAddr := 0, calls := [] }, live := fun _ => none }

/-- Only what is given out is given back, and the program writes only there. -/
def Proper (s : MallocRun) : MallocCall → Prop
  | .malloc _ | .calloc _ _ => True
  | .realloc ptr _ | .free ptr => ptr = 0 ∨ (s.live ptr).isSome = true
  | .write ptr offset _ => (s.live ptr).any (offset < ·) = true

instance (s : MallocRun) : ∀ e, Decidable (s.Proper e)
  | .malloc _ | .calloc _ _ => instDecidableTrue
  | .realloc ptr _ | .free ptr => inferInstanceAs (Decidable (ptr = 0 ∨ (s.live ptr).isSome = true))
  | .write ptr offset _ => inferInstanceAs (Decidable ((s.live ptr).any (offset < ·) = true))

/-- The kernel grants what it is asked for, and the arithmetic on the sizes does not wrap; a size that wraps to 0 asks for
nothing, and one that the block has room for needs no more. -/
def Meets (kernel : ℕ → BitVec 32) (s : MallocRun) (e : MallocCall) : Prop :=
  s.Proper e ∧ (∀ c ∈ (s.exec kernel e).heap.calls, c.Granted) ∧
    match e with
    | .malloc size => Fits size.toNat
    | .calloc nmemb size => nmemb * size = 0 ∨ Fits (nmemb.toNat * size.toNat)
    | .realloc ptr size => Fits size.toNat ∨ ptr ≠ 0 ∧ size.toNat ≤ field s.heap.mem (ptr - headerSize) .size
    | _ => True

instance (kernel : ℕ → BitVec 32) (s : MallocRun) : ∀ e, Decidable (s.Meets kernel e)
  | .malloc size => inferInstanceAs (Decidable (_ ∧ _ ∧ Fits size.toNat))
  | .calloc nmemb size => inferInstanceAs (Decidable (_ ∧ _ ∧ (nmemb * size = 0 ∨ Fits (nmemb.toNat * size.toNat))))
  | .realloc ptr size => inferInstanceAs (Decidable (_ ∧ _ ∧
      (Fits size.toNat ∨ ptr ≠ 0 ∧ size.toNat ≤ field s.heap.mem (ptr - headerSize) .size)))
  | .free _ | .write _ _ _ => inferInstanceAs (Decidable (_ ∧ _ ∧ True))

/-- The allocations are apart, as large as was asked for and clear of the headers, and the blocks are linked both ways. -/
structure Sound (s : MallocRun) : Prop where
  apart : ∀ p q n k, s.live p = some n → s.live q = some k → p ≠ q → p + n ≤ q ∨ q + k ≤ p
  room : ∀ p n, s.live p = some n → headerSize < p ∧ n ≤ field s.heap.mem (p - headerSize) .size
  list : ∃ l : List ℕ, l.head?.getD 0 = s.heap.start ∧ DLinks (field s.heap.mem · .next) (field s.heap.mem · .prev) 0 l 0 ∧
    (∀ a ∈ l, field s.heap.mem a .magic = heapMagic) ∧ (l.Pairwise fun a b => a + headerSize + field s.heap.mem a .size ≤ b) ∧
    ∀ p n, s.live p = some n → p - headerSize ∈ l ∧ ∀ a ∈ l, p + n ≤ a ∨ a + headerSize ≤ p

def Answers (s s' : MallocRun) (ret : ℕ) : MallocCall → Prop
  | .malloc size => ret = 0 ∨ s'.live ret = some size.toNat
  | .calloc nmemb size => ret = 0 ∨ s'.live ret = some (nmemb.toNat * size.toNat) ∧
      ∀ x, ret ≤ x → x < ret + nmemb.toNat * size.toNat → s'.heap.mem x = 0
  | .realloc ptr size => ret = 0 ∨ s'.live ret = some size.toNat ∧
      ∀ n, s.live ptr = some n → ∀ i < min n size.toNat, s'.heap.mem (ret + i) = s.heap.mem (ptr + i)
  | .free ptr => s'.live ptr = none
  | .write _ _ _ => True

/-- Each allocation is the block of a header in the list, given out and large enough. -/
def Owned (m : Memory) (l : List ℕ) (live : ℕ → Option ℕ) : Prop :=
  ∀ p n, live p = some n → ∃ a ∈ l, p = a + 20 ∧ field m a .free = 0 ∧ n ≤ field m a .size

def Inv (s : MallocRun) : Prop := ∃ l, HeapOk s.heap l ∧ Owned s.heap.mem l s.live

/-- Allocations other than the one a call is about stay, with what is in them. -/
def Keeps (s s' : MallocRun) (target : ℕ) : Prop :=
  ∀ q n, s.live q = some n → q ≠ target → s'.live q = some n ∧ s.heap.mem.AgreeOn s'.heap.mem q n

variable {kernel : ℕ → BitVec 32} {s : MallocRun} {h' : UserHeap} {l l' : List ℕ} {m m' : Memory} {live live' : ℕ → Option ℕ}
  {a n p q size t : ℕ} {e : MallocCall} {ptr : ℕ}

theorem Owned.kept {x : Option ℕ} (h : Owned m l live) (hk : Kept x m l m' l') (hp : live p = some n) (hx : ∀ b, p = b + 20 → b ∉ x) :
    (∃ a ∈ l', p = a + 20 ∧ field m' a .free = 0 ∧ n ≤ field m' a .size) ∧ m.AgreeOn m' p n := by
  obtain ⟨b, hb, rfl, hf, hle⟩ := h p n hp
  obtain ⟨hb', hf', hs', hagree⟩ := hk b hb (hx b rfl) hf
  exact ⟨⟨b, hb', rfl, hf', hle.trans_eq hs'.symm⟩, hagree.mono le_rfl (by omega)⟩

theorem Owned.null (h : Owned m l live) : live 0 = none := by
  cases hl : live 0 with
  | none => rfl
  | some n =>
    obtain ⟨a, -, ha, -⟩ := h 0 n hl
    omega

private theorem update_null (h : Owned m l live) : update live 0 none = live := by
  rw [← h.null]
  exact update_eq_self 0 live

theorem Given.written {h : UserHeap} (hg : Given h l size h' l' t)
    (hsame : ∀ x, ¬ (t + 20 ≤ x ∧ x < t + 20 + field h'.mem t .size) → m' x = h'.mem x) :
    Given h l size { h' with mem := m' } l' t := by
  obtain ⟨hok, hkept, hfield⟩ := inside_spec m' hg.ok hg.mem hsame
  refine ⟨hok, hg.mem, (hfield _).trans hg.free, hg.size.trans_eq (hfield _).symm, fun c hc _ hf => ?_, hg.fresh⟩
  have hne : c ∉ some t := fun heq => hg.fresh c hc hf (some.inj heq).symm
  exact (hg.kept.but.trans hkept) c hc hne hf

theorem gains (hown : Owned s.heap.mem l s.live) (hg : Given s.heap l size h' l' t) (hn : n ≤ size) :
    Owned h'.mem l' (update s.live (t + 20) (some n)) ∧
      ∀ q k, s.live q = some k → update s.live (t + 20) (some n) q = some k ∧ s.heap.mem.AgreeOn h'.mem q k := by
  have hother : ∀ q k, s.live q = some k → q ≠ t + 20 := by
    rintro q k hq rfl
    obtain ⟨a, ha, heq, hf, -⟩ := hown _ k hq
    exact hg.fresh a ha hf (by omega)
  refine ⟨fun p k hp => ?_, fun q k hq => ?_⟩
  · by_cases hpt : p = t + 20
    · subst hpt
      rw [update_self] at hp
      exact ⟨t, hg.mem, rfl, hg.free, (some.inj hp) ▸ hn.trans hg.size⟩
    · rw [update_of_ne hpt] at hp
      exact (hown.kept hg.kept hp fun b _ => not_mem_none b).1
  · exact ⟨(update_of_ne (hother q k hq) ..).trans hq, (hown.kept hg.kept hq fun b _ => not_mem_none b).2⟩

theorem loses (h' : UserHeap) (hown : Owned s.heap.mem l s.live) (hk : Kept (some a) s.heap.mem l h'.mem l') :
    Owned h'.mem l' (update s.live (a + 20) none) ∧
      ∀ q k, s.live q = some k → q ≠ a + 20 → update s.live (a + 20) none q = some k ∧ s.heap.mem.AgreeOn h'.mem q k := by
  have hother : ∀ q : ℕ, q ≠ a + 20 → ∀ b, q = b + 20 → b ∉ some a := by
    rintro q hq b rfl heq
    exact hq (by rw [some.inj heq])
  refine ⟨fun p k hp => ?_, fun q k hq hqa => ?_⟩
  · by_cases hpa : p = a + 20
    · subst hpa
      rw [update_self] at hp
      cases hp
    · rw [update_of_ne hpa] at hp
      exact (hown.kept hk hp (hother p hpa)).1
  · exact ⟨(update_of_ne hqa ..).trans hq, (hown.kept hk hq (hother q hqa)).2⟩

def Good (kernel : ℕ → BitVec 32) (s : MallocRun) (e : MallocCall) : Prop :=
  (s.exec kernel e).Inv ∧ Keeps s (s.exec kernel e) e.target ∧ ∃ ret, (s.call kernel e).2 = some ret ∧ Answers s (s.exec kernel e) ret e

private theorem malloc_good {size : BitVec 32} (h : s.Inv) (he : s.Meets kernel (.malloc size)) : Good kernel s (.malloc size) := by
  obtain ⟨l, hok, hown⟩ := h
  obtain ⟨-, hg, hfits⟩ := he
  by_cases hsize : size = 0
  · have hcall : s.call kernel (.malloc size) = (s, some 0) := by
      simp only [call, malloc, hsize, if_true]
      rfl
    refine ⟨?_, ?_, 0, congrArg snd hcall, .inl rfl⟩
    · rw [exec, hcall]
      exact ⟨l, hok, hown⟩
    · rw [exec, hcall]
      exact fun q n hq _ => ⟨hq, .refl⟩
  · obtain ⟨h', l', t, hmalloc, hgiven⟩ := malloc_spec hok hsize hfits hg
    have hcall : s.call kernel (.malloc size) = ({ heap := h', live := update s.live (t + 20) (some size.toNat) }, some (t + 20)) := by
      simp only [call, hmalloc]
      rfl
    obtain ⟨hown', hkeeps⟩ := gains hown hgiven le_rfl
    refine ⟨?_, ?_, t + 20, congrArg snd hcall, .inr ?_⟩
    · rw [exec, hcall]
      exact ⟨l', hgiven.ok, hown'⟩
    · rw [exec, hcall]
      exact fun q n hq _ => hkeeps q n hq
    · rw [exec, hcall]
      exact update_self ..

private theorem calloc_good {nmemb size : BitVec 32} (h : s.Inv) (he : s.Meets kernel (.calloc nmemb size)) : Good kernel s (.calloc nmemb size) := by
  obtain ⟨l, hok, hown⟩ := h
  obtain ⟨-, hg, hfits⟩ := he
  by_cases hzero : nmemb * size = 0
  · have hcall : s.call kernel (.calloc nmemb size) = (s, some 0) := by
      simp only [call, calloc, malloc, hzero, if_true]
      rfl
    refine ⟨?_, ?_, 0, congrArg snd hcall, .inl rfl⟩
    · rw [exec, hcall]
      exact ⟨l, hok, hown⟩
    · rw [exec, hcall]
      exact fun q n hq _ => ⟨hq, .refl⟩
  · have hfits := hfits.resolve_left hzero
    have htotal : (nmemb * size).toNat = nmemb.toNat * size.toNat := by
      rw [BitVec.toNat_mul, Nat.mod_eq_of_lt]
      rw [Fits] at hfits
      omega
    have hg' : ∀ c ∈ (s.heap.malloc kernel (nmemb * size)).1.calls, c.Granted := by
      intro c hc
      apply hg
      simp only [exec, call, calloc]
      split
      · next hm =>
        rw [hm] at hc
        split <;> exact hc
      · next hm =>
        rw [hm] at hc
        exact hc
    obtain ⟨h', l', t, hmalloc, hgiven⟩ := malloc_spec hok hzero (htotal ▸ hfits) hg'
    rw [htotal] at hgiven
    have hgiven' : Given s.heap l (nmemb.toNat * size.toNat) { h' with mem := h'.mem.fill (t + 20) 0 (nmemb.toNat * size.toNat) } l' t := by
      refine Given.written hgiven fun x hx => if_neg ?_
      have := hgiven.size
      omega
    have hcall : s.call kernel (.calloc nmemb size) =
        ({ heap := { h' with mem := h'.mem.fill (t + 20) 0 (nmemb.toNat * size.toNat) }
           live := update s.live (t + 20) (some (nmemb.toNat * size.toNat)) }, some (t + 20)) := by
      simp only [call, calloc, hmalloc, htotal]
      rfl
    obtain ⟨hown', hkeeps⟩ := gains hown hgiven' le_rfl
    refine ⟨?_, ?_, t + 20, congrArg snd hcall, .inr ⟨?_, fun x hl hu => ?_⟩⟩
    · rw [exec, hcall]
      exact ⟨l', hgiven'.ok, hown'⟩
    · rw [exec, hcall]
      exact fun q n hq _ => hkeeps q n hq
    · rw [exec, hcall]
      exact update_self ..
    · rw [exec, hcall]
      exact if_pos ⟨hl, hu⟩

private theorem free_good (h : s.Inv) (he : s.Meets kernel (.free ptr)) : Good kernel s (.free ptr) := by
  obtain ⟨l, hok, hown⟩ := h
  rcases he.1 with rfl | hlive
  · have hsame : s.exec kernel (.free 0) = s := by
      simp only [exec, call, free, if_true, update_null hown]
    refine ⟨?_, ?_, 0, rfl, ?_⟩
    · rw [hsame]
      exact ⟨l, hok, hown⟩
    · rw [hsame]
      exact fun q n hq _ => ⟨hq, .refl⟩
    · rw [hsame]
      exact hown.null
  · obtain ⟨n, hn⟩ := isSome_iff_exists.mp hlive
    obtain ⟨a, ha, rfl, -⟩ := hown _ n hn
    obtain ⟨l', hok', hkept⟩ := free_spec hok ha
    obtain ⟨hown', hkeeps⟩ := loses _ hown hkept
    exact ⟨⟨l', hok', hown'⟩, hkeeps, 0, rfl, update_self ..⟩

private theorem write_good {offset : ℕ} {v : UInt8} (h : s.Inv) (he : s.Meets kernel (.write ptr offset v)) : Good kernel s (.write ptr offset v) := by
  obtain ⟨l, hok, hown⟩ := h
  have hin := he.1
  cases hn : s.live ptr with
  | none =>
    rw [Proper, hn] at hin
    cases hin
  | some n =>
    rw [Proper, hn] at hin
    have hlt : offset < n := of_decide_eq_true hin
    obtain ⟨a, ha, rfl, hf, hle⟩ := hown _ n hn
    obtain ⟨hok', hkept, hfield⟩ := inside_spec (s.heap.mem.store8 (a + 20 + offset) v) hok ha fun x hx => if_neg (by omega)
    obtain ⟨hown', hkeeps⟩ := loses { s.heap with mem := s.heap.mem.store8 (a + 20 + offset) v } hown hkept
    refine ⟨⟨l, hok', fun p k hp => ?_⟩, fun q k hq hqa => ⟨hq, (hkeeps q k hq hqa).2⟩, 0, rfl, trivial⟩
    by_cases hpa : p = a + 20
    · subst hpa
      cases hn.symm.trans hp
      exact ⟨a, ha, rfl, (hfield _).trans hf, hle.trans_eq (hfield _).symm⟩
    · exact hown' p k ((update_of_ne hpa ..).trans hp)

theorem ptr_block {h : UserHeap} (hok : HeapOk h l) (ha : a ∈ l) : wrap (a + 20 + 2 ^ 32 - headerSize) = a := by
  have := ok_lt hok ha
  rw [wrap, headerSize]
  omega

private theorem realloc_inPlace {size : BitVec 32} (hok : HeapOk s.heap l) (hown : Owned s.heap.mem l s.live) (ha : a ∈ l)
    (hf : field s.heap.mem a .free = 0) (hsize : size ≠ 0) (hroom : size.toNat ≤ field s.heap.mem a .size) :
    Good kernel s (.realloc (a + 20) size) := by
  have hptr : a + 20 ≠ 0 := by omega
  have hcall : s.call kernel (.realloc (a + 20) size) =
      ({ heap := s.heap, live := update s.live (a + 20) (some size.toNat) }, some (a + 20)) := by
    simp only [call, realloc, hptr, if_false, hsize, ptr_block hok ha, hroom, if_true, false_or, ne_eq, some.injEq,
      not_false_eq_true, gain, update_idem]
  refine ⟨?_, ?_, a + 20, congrArg snd hcall, .inr ⟨?_, ?_⟩⟩
  · rw [exec, hcall]
    refine ⟨l, hok, fun p k hp => ?_⟩
    by_cases hpa : p = a + 20
    · subst hpa
      have hp' : update s.live (a + 20) (some size.toNat) (a + 20) = some k := hp
      rw [update_self] at hp'
      exact ⟨a, ha, rfl, hf, some.inj hp' ▸ hroom⟩
    · exact hown p k ((update_of_ne hpa ..).symm.trans hp)
  · rw [exec, hcall]
    exact fun q k hq hqa => ⟨(update_of_ne hqa ..).trans hq, .refl⟩
  · rw [exec, hcall]
    exact update_self ..
  · rw [exec, hcall]
    exact fun n _ i _ => rfl

/-- The allocation moves to another block, with what is in it. -/
theorem realloc_moved {size : BitVec 32} (hok : HeapOk s.heap l) (hown : Owned s.heap.mem l s.live) (ha : a ∈ l)
    (hlive : s.live (a + 20) = some n) (hf : field s.heap.mem a .free = 0) (hle : n ≤ field s.heap.mem a .size) (hsize : size ≠ 0)
    (hroom : ¬ size.toNat ≤ field s.heap.mem a .size) (hfits : Fits size.toNat)
    (hg : ∀ c ∈ (s.heap.malloc kernel size).1.calls, c.Granted) : Good kernel s (.realloc (a + 20) size) := by
  obtain ⟨h₁, l₁, t, hmalloc, hgiven⟩ := malloc_spec hok hsize hfits hg
  have hptr : a + 20 ≠ 0 := by omega
  have hnew : t + 20 ≠ 0 := by omega
  obtain ⟨ha₁, hf₁, hs₁, hagree₁⟩ := hgiven.kept a ha (not_mem_none a) hf
  have hta : t ≠ a := fun heq => hgiven.fresh a ha hf heq.symm
  have hgiven₂ : Given s.heap l size.toNat { h₁ with mem := h₁.mem.move (t + 20) (a + 20) (field h₁.mem a .size) } l₁ t := by
    refine Given.written hgiven fun x hx => if_neg ?_
    have := hgiven.size
    omega
  generalize hh : ({ h₁ with mem := h₁.mem.move (t + 20) (a + 20) (field h₁.mem a .size) } : UserHeap) = h₂ at hgiven₂
  obtain ⟨l₃, hok₃, hkept₃⟩ := free_spec hgiven₂.ok ha₁
  obtain ⟨hown₂, hkeeps₂⟩ := gains hown hgiven₂ le_rfl
  obtain ⟨hown₃, hkeeps₃⟩ := loses (s := { heap := h₂, live := update s.live (t + 20) (some size.toNat) }) _ hown₂ hkept₃
  have hne : t + 20 ≠ a + 20 := by omega
  have hcall : s.call kernel (.realloc (a + 20) size) =
      ({ heap := h₂.free (a + 20)
         live := update (update s.live (t + 20) (some size.toNat)) (a + 20) none }, some (t + 20)) := by
    rw [update_comm hne]
    simp only [call, realloc, hptr, if_false, hsize, ptr_block hok ha, hroom, hmalloc, ne_eq, hnew, not_false_eq_true, if_true,
      some.injEq, or_true, gain, hh]
  have hthere := hkeeps₃ (t + 20) size.toNat (update_self ..) hne
  refine ⟨?_, ?_, t + 20, congrArg snd hcall, .inr ⟨?_, ?_⟩⟩
  · rw [exec, hcall]
    exact ⟨l₃, hok₃, hown₃⟩
  · rw [exec, hcall]
    intro q k hq hqa
    obtain ⟨hq₂, hagree₂⟩ := hkeeps₂ q k hq
    obtain ⟨hq₃, hagree₃⟩ := hkeeps₃ q k hq₂ hqa
    exact ⟨hq₃, hagree₂.trans hagree₃⟩
  · rw [exec, hcall]
    exact hthere.1
  · rw [exec, hcall]
    intro k hk i hi
    cases hlive.symm.trans hk
    have hcopied : h₂.mem (t + 20 + i) = h₁.mem (a + 20 + i) := by
      have hin : t + 20 ≤ t + 20 + i ∧ t + 20 + i < t + 20 + field h₁.mem a .size := by omega
      subst hh
      exact (if_pos hin).trans (by rw [Nat.add_sub_cancel_left])
    have hafter := hthere.2 (t + 20 + i) (by omega) (by omega)
    exact hafter.trans (hcopied.trans (hagree₁ _ (by omega) (by omega)))

private theorem realloc_good {size : BitVec 32} (h : s.Inv) (he : s.Meets kernel (.realloc ptr size)) :
    Good kernel s (.realloc ptr size) := by
  obtain ⟨hproper, hg, hfits⟩ := he
  by_cases hptr : ptr = 0
  · subst hptr
    have hnull : s.live 0 = none := h.choose_spec.2.null
    have hcall : s.call kernel (.realloc 0 size) = s.call kernel (.malloc size) := by
      simp only [call, realloc, if_true, update_null h.choose_spec.2, ite_self]
    have hexec : s.exec kernel (.realloc 0 size) = s.exec kernel (.malloc size) := congrArg fst hcall
    obtain ⟨hinv, hkeeps, ret, hret, hanswer⟩ := malloc_good h ⟨trivial, hexec ▸ hg, hfits.resolve_right fun hne => hne.1 rfl⟩
    rw [Good, hexec, hcall]
    refine ⟨hinv, hkeeps, ret, hret, hanswer.imp_right fun hlive => ⟨hlive, fun n hn => ?_⟩⟩
    rw [hnull] at hn
    cases hn
  · by_cases hsize : size = 0
    · subst hsize
      have hcall : s.call kernel (.realloc ptr 0) = s.call kernel (.free ptr) := by
        simp only [call, realloc, hptr, if_false, if_true, true_or, gain]
      have hexec : s.exec kernel (.realloc ptr 0) = s.exec kernel (.free ptr) := congrArg fst hcall
      obtain ⟨hinv, hkeeps, -⟩ := free_good h ⟨hproper, hexec ▸ hg, trivial⟩
      rw [Good, hexec, hcall]
      exact ⟨hinv, hkeeps, 0, rfl, .inl rfl⟩
    · obtain ⟨l, hok, hown⟩ := h
      obtain ⟨n, hn⟩ := isSome_iff_exists.mp (hproper.resolve_left hptr)
      obtain ⟨a, ha, rfl, hf, hle⟩ := hown _ n hn
      by_cases hroom : size.toNat ≤ field s.heap.mem a .size
      · exact realloc_inPlace hok hown ha hf hsize hroom
      · have hfits' : Fits size.toNat := hfits.resolve_right fun hin => hroom (by simpa [headerSize] using hin.2)
        refine realloc_moved hok hown ha hn hf hle hsize hroom hfits' fun c hc => hg c ?_
        simp only [exec, call, realloc, hptr, if_false, hsize, ptr_block hok ha, hroom]
        split
        · next hm =>
          rw [hm] at hc
          split
          · rw [free_calls]
            exact hc
          · exact hc
        · next hm =>
          rw [hm] at hc
          exact hc

private theorem call_good (h : s.Inv) (he : s.Meets kernel e) : Good kernel s e := by
  cases e with
  | malloc size => exact malloc_good h he
  | calloc nmemb size => exact calloc_good h he
  | realloc ptr size => exact realloc_good h he
  | free ptr => exact free_good h he
  | write ptr offset v => exact write_good h he

theorem start_inv (m : Memory) : (start m).Inv :=
  ⟨[], ⟨⟨trivial, (fun _ ha => nomatch ha), List.Pairwise.nil, (fun _ ha => nomatch ha), Nat.two_pow_pos 32⟩, rfl⟩, fun _ _ hp => nomatch hp⟩

theorem Inv.sound (h : s.Inv) : s.Sound := by
  obtain ⟨l, hok, hown⟩ := h
  refine ⟨fun p q n k hp hq hne => ?_, fun p n hp => ?_, l, hok.start, hok.blocks.linked, hok.blocks.magic, hok.blocks.apart, fun p n hp => ?_⟩
  · obtain ⟨a, ha, rfl, -, hn⟩ := hown p n hp
    obtain ⟨b, hb, rfl, -, hk⟩ := hown q k hq
    have hapart := hok.blocks.apart_of ha hb (by omega)
    omega
  · obtain ⟨a, ha, rfl, -, hn⟩ := hown p n hp
    have hpos := (hok.blocks.fits a ha).1
    exact ⟨by rw [headerSize]; omega, hn⟩
  · obtain ⟨a, ha, rfl, -, hn⟩ := hown p n hp
    refine ⟨ha, fun b hb => ?_⟩
    rw [headerSize]
    by_cases hba : b = a
    · exact .inr (by omega)
    · have hapart := hok.blocks.apart_of hb ha hba
      omega

/-- In every run in which the kernel grants what is asked for and no size wraps, the allocations are apart, large enough and
kept, the blocks are linked both ways, and the next call answers as it is to. -/
theorem malloc_runs {es : List MallocCall} (hrun : Along (exec kernel) (Meets kernel) (start m) es) :
    let s := es.foldl (exec kernel) (start m)
    s.Sound ∧ ∀ e, s.Meets kernel e → Keeps s (s.exec kernel e) e.target ∧
      ∃ ret, (s.call kernel e).2 = some ret ∧ Answers s (s.exec kernel e) ret e := by
  intro s
  have h : s.Inv := hrun.relates (R := fun s t => s.Inv → t.Inv) (fun _ h => h) (fun hst htu h => htu (hst h))
    (fun _ _ hm h => (call_good h hm).1) (start_inv m)
  exact ⟨h.sound, fun e he => (call_good h he).2⟩

/-- A kernel that gives memory from one address on, in steps that are large enough here. -/
def plenty (n : ℕ) : BitVec 32 := BitVec.ofNat 32 (0x40000000 + 0x10000 * n)

def someCalls : List MallocCall :=
  [.malloc 10, .calloc 3 5, .write 0x40000014 9 7, .realloc 0x40000014 5000, .free 0x40000038]

theorem someCalls_sound : (someCalls.foldl (exec plenty) (start fun _ => 0xAA)).Sound := by
  have hrun : Along (exec plenty) (Meets plenty) (start fun _ => 0xAA) someCalls := by decide +kernel
  exact (malloc_runs hrun).1

/-- Almost all of the address space is asked for, and an empty block is given out. -/
theorem malloc_too_small : ¬ ∀ es : List MallocCall,
    Along (exec plenty) (fun s e => s.Proper e ∧ ∀ c ∈ (s.exec plenty e).heap.calls, c.Granted) (start fun _ => 0) es →
      (es.foldl (exec plenty) (start fun _ => 0)).Sound := by
  intro h
  have hproper : Along (exec plenty) (fun s e => s.Proper e ∧ ∀ c ∈ (s.exec plenty e).heap.calls, c.Granted) (start fun _ => 0)
      [.malloc 0xFFFFFFFC] := by decide +kernel
  have hroom := ((h _ hproper).room 0x40000014 0xFFFFFFFC (by decide +kernel)).2
  exact absurd hroom (by decide +kernel)

end MallocRun
end RetroOs.Apps
