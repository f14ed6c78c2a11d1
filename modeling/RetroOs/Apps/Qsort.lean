import Mathlib.Algebra.GroupWithZero.Nat
import RetroOs.Lib.StableSort

/-! `qsort` and `bsearch` of the applications' C library. The array is all there is: what is read or written outside of it gives
none. -/
namespace RetroOs.Apps.Qsort
open Lib List Option Nat UInt32

@[ext]
structure Element (size : UInt32) where
  val : List UInt8
  length_val : val.length = size.toNat

variable {size : UInt32}

theorem toNat_succ {i n : UInt32} (h : i < n) : (i + 1).toNat = i.toNat + 1 := by
  have hn := n.toNat_lt
  rw [UInt32.lt_iff_toNat_lt] at h
  rw [UInt32.toNat_add, UInt32.toNat_one, Nat.mod_eq_of_lt (by omega)]

theorem nearer {i n : UInt32} (h : i < n) : n.toNat - (i + 1).toNat < n.toNat - i.toNat := by
  have hlt := lt_iff_toNat_lt.mp h
  rw [toNat_succ h]
  omega

private theorem mid_toNat {lo hi : UInt32} (h : lo < hi) : (lo + (hi - lo) / 2).toNat = lo.toNat + (hi.toNat - lo.toNat) / 2 := by
  have hhi := hi.toNat_lt
  have hsub := UInt32.toNat_sub_of_le hi lo (UInt32.le_of_lt h)
  rw [UInt32.lt_iff_toNat_lt] at h
  rw [UInt32.toNat_add, UInt32.toNat_div, hsub, show (2 : UInt32).toNat = 2 from rfl, Nat.mod_eq_of_lt (by omega)]

/-- What a comparison reads at `arr + o`. -/
def element (size : UInt32) (arr : List UInt8) (o : UInt32) : Option (Element size) :=
  if h : o.toNat + size.toNat ≤ arr.length then
    some ⟨(arr.drop o.toNat).take size.toNat, length_take_of_le (by rw [length_drop]; omega)⟩
  else none

def write (arr : List UInt8) (o : UInt32) (b : UInt8) : Option (List UInt8) :=
  if o.toNat < arr.length then some (arr.set o.toNat b) else none

def swap (size j k : UInt32) (arr : List UInt8) : Option (List UInt8) :=
  if k < size then do
    let tmp ← arr[(j * size + k).toNat]?
    let b ← arr[((j + 1) * size + k).toNat]?
    let arr ← write arr (j * size + k) b
    let arr ← write arr ((j + 1) * size + k) tmp
    swap size j (k + 1) arr
  else some arr
termination_by size.toNat - k.toNat
decreasing_by exact nearer (by assumption)

/-- `for (uint32_t j = 0; j < nmemb - i - 1; j++)` -/
def inner (compar : Element size → Element size → ℤ) (bound j : UInt32) (arr : List UInt8) : Option (List UInt8) :=
  if j < bound then do
    let x ← element size arr (j * size)
    let y ← element size arr ((j + 1) * size)
    let arr ← (if compar x y > 0 then swap size j 0 arr else some arr)
    inner compar bound (j + 1) arr
  else some arr
termination_by bound.toNat - j.toNat
decreasing_by exact nearer (by assumption)

def outer (compar : Element size → Element size → ℤ) (nmemb i : UInt32) (arr : List UInt8) : Option (List UInt8) :=
  if i < nmemb - 1 then do
    let arr ← inner compar (nmemb - i - 1) 0 arr
    outer compar nmemb (i + 1) arr
  else some arr
termination_by (nmemb - 1).toNat - i.toNat
decreasing_by exact nearer (by assumption)

/-- The array after the sort. -/
def qsort (base : List UInt8) (nmemb size : UInt32) (compar : Element size → Element size → ℤ) : Option (List UInt8) :=
  outer compar nmemb 0 base

def search (key : Element size) (arr : List UInt8) (compar : Element size → Element size → ℤ) (lo hi : UInt32) :
    Option (Option UInt32) :=
  if lo < hi then do
    let mid := lo + (hi - lo) / 2
    let y ← element size arr (mid * size)
    let cmp := compar key y
    if cmp = 0 then some (some (mid * size))
    else if cmp < 0 then search key arr compar lo mid
    else search key arr compar (mid + 1) hi
  else some none
termination_by hi.toNat - lo.toNat
decreasing_by
  all_goals
    have hlt : lo < hi := by assumption
    have hmid := mid_toNat hlt
    have hhi := hi.toNat_lt
    rw [lt_iff_toNat_lt] at hlt
  · rw [hmid]
    omega
  · rw [UInt32.toNat_add, hmid, UInt32.toNat_one]
    omega

/-- Where in the array the element is that is returned, or none for the null pointer. -/
def bsearch (key : Element size) (base : List UInt8) (nmemb : UInt32) (compar : Element size → Element size → ℤ) :
    Option (Option UInt32) :=
  search key base compar 0 nmemb

/-! ### What the two are to do -/

def bytes (xs : List (Element size)) : List UInt8 := (xs.map Element.val).flatten

/-- An element that is equal to the key is returned, and the null pointer where there is none. -/
def Finds (compar : Element size → Element size → ℤ) (key : Element size) (xs : List (Element size)) : Option UInt32 → Prop
  | some o => ∃ i x, xs[i]? = some x ∧ o.toNat = i * size.toNat ∧ compar key x = 0
  | none => ∀ x ∈ xs, compar key x ≠ 0

/-- The sort comes to an end inside of the array and leaves it stably sorted, and what it leaves is searched rightly for every key. -/
def Right (compar : Element size → Element size → ℤ) (nmemb : UInt32) (xs : List (Element size)) : Prop :=
  ∃ ys, qsort (bytes xs) nmemb size compar = some (bytes ys) ∧ StablySorted compar xs ys ∧
    ∀ key, ∃ r, bsearch key (bytes ys) nmemb compar = some r ∧ Finds compar key ys r

variable {compar : Element size → Element size → ℤ} {nmemb i j k o lo hi bound : UInt32} {xs ys u v l : List (Element size)}
  {x y key : Element size} {p q a b arr : List UInt8} {c d : UInt8}

theorem bytes_append (xs ys : List (Element size)) : bytes (xs ++ ys) = bytes xs ++ bytes ys := by
  rw [bytes, map_append, flatten_append]
  rfl

theorem bytes_cons (x : Element size) (xs : List (Element size)) : bytes (x :: xs) = x.val ++ bytes xs := rfl

theorem length_bytes (xs : List (Element size)) : (bytes xs).length = xs.length * size.toNat := by
  induction xs with
  | nil => exact (zero_mul _).symm
  | cons x xs ih => rw [bytes_cons, length_append, x.length_val, ih, length_cons, succ_mul, add_comm]

/-! ### Places in the array -/

theorem toNat_place (hfit : (i.toNat + 1) * size.toNat ≤ 2 ^ 32) (hk : k < size) :
    (i * size + k).toNat = i.toNat * size.toNat + k.toNat := by
  rw [UInt32.lt_iff_toNat_lt] at hk
  rw [Nat.succ_mul] at hfit
  rw [UInt32.toNat_add, UInt32.toNat_mul, Nat.mod_eq_of_lt (by omega : i.toNat * size.toNat < 2 ^ 32), Nat.mod_eq_of_lt (by omega)]

theorem toNat_mul (hfit : (i.toNat + 1) * size.toNat ≤ 2 ^ 32) : (i * size).toNat = i.toNat * size.toNat := by
  rcases Nat.eq_zero_or_pos size.toNat with hzero | hpos
  · rw [UInt32.toNat_mul, hzero, Nat.mul_zero, Nat.zero_mod]
  · have hplace := toNat_place hfit (k := 0) (lt_iff_toNat_lt.mpr hpos)
    rwa [UInt32.add_zero, UInt32.toNat_zero, Nat.add_zero] at hplace

private theorem get_mid {n : ℕ} (h : n = p.length) : (p ++ c :: q)[n]? = some c := by
  rw [h, List.getElem?_append_right (Nat.le_refl _), Nat.sub_self, List.getElem?_cons_zero]

private theorem write_mid (h : o.toNat = p.length) (d : UInt8) : write (p ++ c :: q) o d = some (p ++ d :: q) := by
  have hlt : o.toNat < (p ++ c :: q).length := by
    rw [h, length_append, length_cons]
    omega
  rw [write, if_pos hlt, h, List.set_append_right _ _ (Nat.le_refl _), Nat.sub_self, List.set_cons_zero]

theorem element_mid (ho : o.toNat = u.length * size.toNat) : element size (bytes (u ++ x :: v)) o = some x := by
  have hlen : o.toNat + size.toNat ≤ (bytes (u ++ x :: v)).length := by
    rw [length_bytes, ho, length_append, length_cons, ← succ_mul]
    exact mul_le_mul_right _ (by omega)
  rw [element, dif_pos hlen]
  refine congrArg some (Element.ext ?_)
  change ((bytes (u ++ x :: v)).drop o.toNat).take size.toNat = x.val
  rw [bytes_append, bytes_cons, drop_left' (by rw [length_bytes, ho]), take_left' x.length_val]

/-! ### The loops -/

/-- The bytes from `k` on change places. -/
theorem swap_from {p q r s a b : List UInt8} (hp : p.length = j.toNat * size.toNat) (hj : (j + 1).toNat = j.toNat + 1)
    (hfit : (j.toNat + 2) * size.toNat ≤ 2 ^ 32) (hr : r.length = k.toNat) (hs : s.length = k.toNat)
    (hab : a.length = b.length) (hsize : k.toNat + a.length = size.toNat) :
    swap size j k (p ++ (s ++ a) ++ (r ++ b) ++ q) = some (p ++ (s ++ b) ++ (r ++ a) ++ q) := by
  induction a generalizing b r s k with
  | nil =>
    rw [length_nil] at hab hsize
    rw [length_eq_zero_iff.mp hab.symm, swap, if_neg (by rw [lt_iff_toNat_lt]; omega)]
  | cons c a ih =>
    obtain ⟨d, b, rfl⟩ := exists_cons_of_length_pos (by rw [← hab]; exact succ_pos _ : 0 < b.length)
    rw [length_cons] at hsize
    have hk : k < size := by
      rw [lt_iff_toNat_lt]
      omega
    have hfirst := toNat_place (i := j) (Nat.le_trans (Nat.mul_le_mul_right _ (Nat.le_succ _)) hfit) hk
    have hsecond := toNat_place (i := j + 1) (by rw [hj]; exact hfit) hk
    rw [hj, succ_mul] at hsecond
    have hbefore : p ++ (s ++ c :: a) ++ (r ++ d :: b) ++ q = (p ++ s) ++ c :: (a ++ r ++ d :: (b ++ q)) := by
      simp only [append_assoc, cons_append]
    have hbefore' : p ++ (s ++ c :: a) ++ (r ++ d :: b) ++ q = (p ++ s ++ c :: a ++ r) ++ d :: (b ++ q) := by
      simp only [append_assoc, cons_append]
    have hbetween : (p ++ s) ++ d :: (a ++ r ++ d :: (b ++ q)) = (p ++ s ++ d :: a ++ r) ++ d :: (b ++ q) := by
      simp only [append_assoc, cons_append]
    have hafter : (p ++ s ++ d :: a ++ r) ++ c :: (b ++ q) = p ++ ((s ++ [d]) ++ a) ++ ((r ++ [c]) ++ b) ++ q := by
      simp only [append_assoc, cons_append, nil_append]
    have hget : (p ++ (s ++ c :: a) ++ (r ++ d :: b) ++ q)[(j * size + k).toNat]? = some c := by
      rw [hbefore]
      exact get_mid (by rw [hfirst, length_append, hp, hs])
    have hget' : (p ++ (s ++ c :: a) ++ (r ++ d :: b) ++ q)[((j + 1) * size + k).toNat]? = some d := by
      rw [hbefore']
      refine get_mid ?_
      simp only [length_append, length_cons]
      omega
    rw [swap, if_pos hk, hget, hget', bind_eq_bind, bind_some, bind_eq_bind, bind_some, hbefore,
      write_mid (by rw [hfirst, length_append, hp, hs]), hbetween, bind_some,
      write_mid (by simp only [length_append, length_cons]; omega), bind_some, hafter]
    have hnext := toNat_succ hk
    rw [ih (by rw [length_append, hr, hnext]; rfl) (by rw [length_append, hs, hnext]; rfl) (succ.inj hab)
      (by omega)]
    simp only [append_assoc, cons_append, nil_append]

private theorem swap_bytes (hj : (j + 1).toNat = j.toNat + 1) (hu : u.length = j.toNat) (hfit : (j.toNat + 2) * size.toNat ≤ 2 ^ 32) :
    swap size j 0 (bytes (u ++ x :: y :: v)) = some (bytes (u ++ y :: x :: v)) := by
  have hswap := swap_from (k := 0) (p := bytes u) (q := bytes v) (r := []) (s := []) (a := x.val) (b := y.val)
    (by rw [length_bytes, hu]) hj hfit rfl rfl (by rw [x.length_val, y.length_val]) (by rw [x.length_val]; exact zero_add _)
  simp only [nil_append, append_assoc] at hswap
  rw [bytes_append, bytes_append, bytes_cons, bytes_cons, bytes_cons, bytes_cons, hswap]

/-- The rest of a pass, with the element at `j` in hand. -/
theorem inner_bubble (hu : u.length = j.toNat) (hbound : bound.toNat = j.toNat + l.length)
    (hfit : (bound.toNat + 1) * size.toNat ≤ 2 ^ 32) :
    inner compar bound j (bytes (u ++ x :: (l ++ v))) = some (bytes (u ++ (bubble compar x l ++ v))) := by
  induction l generalizing u x j with
  | nil =>
    rw [inner, if_neg (by rw [lt_iff_toNat_lt, hbound, length_nil]; omega)]
    rfl
  | cons y l ih =>
    rw [length_cons] at hbound
    have hj : j < bound := by
      rw [lt_iff_toNat_lt]
      omega
    have hnext := toNat_succ hj
    have hfit' : (j.toNat + 2) * size.toNat ≤ 2 ^ 32 := Nat.le_trans (Nat.mul_le_mul_right _ (by omega)) hfit
    have hx : element size (bytes (u ++ x :: (y :: l ++ v))) (j * size) = some x :=
      element_mid (by rw [hu, toNat_mul (Nat.le_trans (Nat.mul_le_mul_right _ (Nat.le_succ _)) hfit')])
    have hy : element size (bytes (u ++ x :: (y :: l ++ v))) ((j + 1) * size) = some y := by
      rw [cons_append, append_cons u x]
      refine element_mid ?_
      rw [toNat_mul (by rw [hnext]; exact hfit'), hnext, length_append, hu, length_singleton]
    rw [inner, if_pos hj, hx, hy, bind_eq_bind, bind_some, bind_eq_bind, bind_some, bubble]
    split
    · rw [cons_append, swap_bytes hnext hu hfit', bind_some, append_cons u y,
        ih (by rw [length_append, hu, hnext, length_singleton]) (by omega)]
      simp only [append_assoc, cons_append, nil_append]
    · rw [bind_some, append_cons u x, cons_append,
        ih (by rw [length_append, hu, hnext, length_singleton]) (by omega)]
      simp only [append_assoc, cons_append, nil_append]

/-- From `i` on, with as many elements settled, the sort comes to an end. -/
theorem outer_sorts (h : TotalPreorder compar) (hfit : nmemb.toNat * size.toNat ≤ 2 ^ 32) {n : ℕ} (hu : u.length = n + 1)
    (hi : i.toNat + n + 1 = nmemb.toNat) (hs : Settled compar xs u v) :
    ∃ ys, outer compar nmemb i (bytes (u ++ v)) = some (bytes ys) ∧ StablySorted compar xs ys := by
  have hlast : (nmemb - 1).toNat = nmemb.toNat - 1 := UInt32.toNat_sub_of_le _ _ (UInt32.le_iff_toNat_le.mpr (by
    rw [toNat_one]
    omega))
  induction n generalizing i u v with
  | zero =>
    rw [outer, if_neg (by rw [lt_iff_toNat_lt]; omega)]
    exact ⟨u ++ v, rfl, hs.finish (by omega)⟩
  | succ n ih =>
    obtain ⟨x, l, rfl⟩ := exists_cons_of_length_pos (by omega : 0 < u.length)
    rw [length_cons] at hu
    have hlt : i < nmemb - 1 := by
      rw [UInt32.lt_iff_toNat_lt]
      omega
    have hleft : (nmemb - i).toNat = nmemb.toNat - i.toNat := UInt32.toNat_sub_of_le _ _ (UInt32.le_iff_toNat_le.mpr (by omega))
    have hbound : (nmemb - i - 1).toNat = l.length := by
      rw [UInt32.toNat_sub_of_le _ _ (UInt32.le_iff_toNat_le.mpr (by rw [hleft, UInt32.toNat_one]; omega)), hleft, UInt32.toNat_one]
      omega
    have hpass : inner compar (nmemb - i - 1) 0 (bytes ([] ++ x :: (l ++ v))) = _ := inner_bubble rfl
      (by rw [hbound, UInt32.toNat_zero, Nat.zero_add])
      (Nat.le_trans (Nat.mul_le_mul_right _ (by rw [hbound]; omega)) hfit)
    obtain ⟨w, m, heq, hw, hs⟩ := hs.pass h
    rw [nil_append, nil_append, heq, append_assoc, singleton_append] at hpass
    rw [outer, if_pos hlt, cons_append, hpass, bind_eq_bind, bind_some]
    exact ih (by omega) (by rw [toNat_succ hlt]; omega) hs

private theorem inner_of_zero {compar : Element 0 → Element 0 → ℤ} (h : TotalPreorder compar) (bound j : UInt32) (arr : List UInt8) :
    inner compar bound j arr = some arr := by
  induction hn : bound.toNat - j.toNat generalizing j with
  | zero => rw [inner, if_neg (by rw [lt_iff_toNat_lt]; omega)]
  | succ n ih =>
    have hj : j < bound := by
      rw [lt_iff_toNat_lt]
      omega
    have helement (o : UInt32) : element 0 arr (o * 0) = some ⟨[], rfl⟩ := by
      rw [element, mul_zero]
      exact dif_pos (zero_le _ : (0 : UInt32).toNat + (0 : UInt32).toNat ≤ arr.length)
    rw [inner, if_pos hj, helement, helement, bind_eq_bind, bind_some, bind_eq_bind, bind_some,
      if_neg (by rw [h.refl]; exact Int.lt_irrefl 0), bind_some]
    exact ih (j + 1) (by rw [toNat_succ hj]; omega)

private theorem outer_of_zero {compar : Element 0 → Element 0 → ℤ} (h : TotalPreorder compar) (nmemb i : UInt32) (arr : List UInt8) :
    outer compar nmemb i arr = some arr := by
  induction hn : (nmemb - 1).toNat - i.toNat generalizing i with
  | zero => rw [outer, if_neg (by rw [lt_iff_toNat_lt]; omega)]
  | succ n ih =>
    have hi : i < nmemb - 1 := by
      rw [lt_iff_toNat_lt]
      omega
    rw [outer, if_pos hi, inner_of_zero h, bind_eq_bind, bind_some]
    exact ih (i + 1) (by rw [toNat_succ hi]; omega)

private theorem qsort_none (hsize : size ≠ 0) : qsort [] 0 size compar = none := by
  have helement : element size [] (0 * size) = none := by
    rw [element, dif_neg]
    rw [List.length_nil, Nat.le_zero, Nat.add_eq_zero_iff]
    exact fun hzero => hsize (UInt32.toNat_inj.mp hzero.2)
  rw [qsort, outer, if_pos (by decide), inner, if_pos (by decide), helement]
  rfl

/-! ### The search -/

private theorem element_at (hlt : k.toNat < xs.length) (hfit : xs.length * size.toNat ≤ 2 ^ 32) :
    element size (bytes xs) (k * size) = some xs[k.toNat] ∧ (k * size).toNat = k.toNat * size.toNat := by
  have hmul := toNat_mul (i := k) (Nat.le_trans (Nat.mul_le_mul_right _ hlt) hfit)
  refine ⟨?_, hmul⟩
  have hmid := element_mid (u := xs.take k.toNat) (x := xs[k.toNat]) (v := xs.drop (k.toNat + 1)) (o := k * size)
    (by rw [hmul, List.length_take_of_le (Nat.le_of_lt hlt)])
  rwa [← drop_eq_getElem_cons, take_append_drop] at hmid

structure Narrowed (compar : Element size → Element size → ℤ) (key : Element size) (ys : List (Element size)) (lo hi : UInt32) :
    Prop where
  inside : hi.toNat ≤ ys.length
  below : ∀ i y, ys[i]? = some y → i < lo.toNat → 0 < compar key y
  above : ∀ i y, ys[i]? = some y → hi.toNat ≤ i → compar key y < 0

private theorem search_finds (h : TotalPreorder compar) (hsorted : ys.Pairwise fun x y => compar x y ≤ 0)
    (hfit : ys.length * size.toNat ≤ 2 ^ 32) (hs : Narrowed compar key ys lo hi) :
    ∃ r, search key (bytes ys) compar lo hi = some r ∧ Finds compar key ys r := by
  induction hn : hi.toNat - lo.toNat using Nat.strongRecOn generalizing lo hi with
  | ind n ih =>
    by_cases hlt : lo < hi
    · have hmid := mid_toNat hlt
      have hlt' := lt_iff_toNat_lt.mp hlt
      have hin : (lo + (hi - lo) / 2).toNat < ys.length := Nat.lt_of_lt_of_le (by omega) hs.inside
      obtain ⟨helement, hplace⟩ := element_at hin hfit
      have hget : ys[(lo + (hi - lo) / 2).toNat]? = some ys[(lo + (hi - lo) / 2).toNat] := getElem?_eq_getElem hin
      rw [search, if_pos hlt]
      dsimp only
      rw [helement, bind_eq_bind, bind_some]
      split_ifs with hzero hneg
      · exact ⟨_, rfl, _, _, hget, hplace, hzero⟩
      · exact ih _ (by omega) ⟨Nat.le_of_lt hin, hs.below, fun i y hy hi =>
          h.neg_of_le hneg (sorted_le h hsorted hi hget hy)⟩ rfl
      · have hnext : (lo + (hi - lo) / 2 + 1).toNat = (lo + (hi - lo) / 2).toNat + 1 := toNat_succ (n := hi) (by
          rw [lt_iff_toNat_lt]
          omega)
        exact ih _ (by omega) ⟨hs.inside, fun i y hy hi => h.pos_of_le (by omega)
          (sorted_le h hsorted (by omega) hy hget), hs.above⟩ rfl
    · rw [search, if_neg hlt]
      refine ⟨none, rfl, fun y hy => ?_⟩
      obtain ⟨i, hi⟩ := mem_iff_getElem?.mp hy
      rw [UInt32.lt_iff_toNat_lt] at hlt
      rcases Nat.lt_or_ge i lo.toNat with hlow | hhigh
      · exact Int.ne_of_gt (hs.below i y hi hlow)
      · exact Int.ne_of_lt (hs.above i y hi (by omega))

private theorem bsearch_finds (h : TotalPreorder compar) (hsorted : ys.Pairwise fun x y => compar x y ≤ 0) (hlen : ys.length = nmemb.toNat)
    (hfit : nmemb.toNat * size.toNat ≤ 2 ^ 32) (key : Element size) :
    ∃ r, bsearch key (bytes ys) nmemb compar = some r ∧ Finds compar key ys r := by
  refine search_finds h hsorted (by rwa [hlen]) ⟨Nat.le_of_eq hlen.symm, fun i y _ hi => absurd hi (Nat.not_lt_zero i), fun i y hy hi => ?_⟩
  exact absurd (List.getElem?_eq_some_iff.mp hy).1 (by omega)

/-! ### Sorting and searching -/

/-- For every total preorder and every array that fits in memory, the sort and the search are right exactly where there are
elements, or elements have no bytes. -/
theorem qsort_right_iff (h : TotalPreorder compar) (hlen : xs.length = nmemb.toNat) (hfit : nmemb.toNat * size.toNat ≤ 2 ^ 32) :
    Right compar nmemb xs ↔ nmemb ≠ 0 ∨ size = 0 := by
  have hright {ys : List (Element size)} (hsort : qsort (bytes xs) nmemb size compar = some (bytes ys))
      (hys : StablySorted compar xs ys) : Right compar nmemb xs :=
    ⟨ys, hsort, hys, bsearch_finds h hys.sorted (hys.perm.length_eq.trans hlen) hfit⟩
  constructor
  · rintro ⟨ys, hsort, -, -⟩
    by_contra hnot
    obtain ⟨rfl, hsize⟩ := not_or.mp hnot |>.imp_left not_not.mp
    rw [length_eq_zero_iff.mp hlen] at hsort
    exact absurd ((qsort_none hsize).symm.trans hsort) (some_ne_none _).symm
  · intro hor
    by_cases hnmemb : nmemb = 0
    · subst hnmemb
      obtain rfl := hor.resolve_left (fun hne => hne rfl)
      obtain rfl := length_eq_zero_iff.mp hlen
      exact hright (outer_of_zero h 0 0 _) ((Settled.start compar []).finish (Nat.zero_le 1))
    · have hpos : nmemb.toNat ≠ 0 := fun hzero => hnmemb (UInt32.toNat_inj.mp hzero)
      obtain ⟨ys, hsort, hys⟩ := outer_sorts (i := 0) (n := nmemb.toNat - 1) h hfit (by omega) (by rw [UInt32.toNat_zero]; omega)
        (Settled.start compar xs)
      rw [append_nil] at hsort
      exact hright hsort hys

def byByte (x y : Element 1) : ℤ := (x.val.map UInt8.toNat).sum - (y.val.map UInt8.toNat).sum

private theorem byByte_preorder : TotalPreorder byByte where
  pos_iff x y := by
    rw [byByte, byByte]
    omega
  trans x y z := by
    rw [byByte, byByte, byByte]
    omega

theorem qsort_right_iff_pair : Right byByte 2 [⟨[2], rfl⟩, ⟨[1], rfl⟩] ↔ (2 : UInt32) ≠ 0 ∨ (1 : UInt32) = 0 :=
  qsort_right_iff byByte_preorder rfl (by decide)

theorem qsort_none_wrong : TotalPreorder byByte ∧ ¬ Right byByte 0 [] := by
  refine ⟨byByte_preorder, ?_⟩
  rintro ⟨ys, hsort, -, -⟩
  exact absurd ((qsort_none (by decide)).symm.trans hsort) (some_ne_none _).symm

end RetroOs.Apps.Qsort
