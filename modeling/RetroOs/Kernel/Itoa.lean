import RetroOs.Lib.Loop
import RetroOs.Lib.Numerals

/-! The kernel's two conversions of integers to text. An `int` that overflows wraps. -/
namespace RetroOs.Kernel.Itoa
open Lib Numerals List Option Memory CString Int32 Subtype

def reverse (m : Memory) (arr start stop : ℕ) : Memory :=
  if start < stop then reverse ((m.store8 (arr + start) (m (arr + stop))).store8 (arr + stop) (m (arr + start))) arr (start + 1) (stop - 1)
  else m
termination_by stop - start

/-- An `int` that is stored in a `char`. -/
def toChar (x : Int32) : UInt8 := x.toUInt32.toUInt8

/-- `(rem > 9) ? (rem - 10) + 'a' : rem + '0'` -/
def digit (rem : Int32) : UInt8 := toChar (if 9 < rem then rem - 10 + 0x61 else rem + 0x30)

/-- A loop that writes a character for the number and goes on with the next one, with `i`, the number and the memory. -/
def charTurn (str : ℕ) (goes : Int32 → Bool) (char : Int32 → UInt8) (next : Int32 → Int32) :
    ℕ × Int32 × Memory → Option (Turn (ℕ × Int32 × Memory) (ℕ × Memory))
  | (i, num, m) => if goes num then some (.again (i + 1, next num, m.store8 (str + i) (char num))) else some (.done (i, m))

/-- `while (num != 0)` -/
def digitTurn (str : ℕ) (base : Int32) := charTurn str (· ≠ 0) (fun num => digit (num % base)) (· / base)

/-- The memory after the string is written to `str`. -/
def itoa (m : Memory) (str : ℕ) (num base : Int32) : Option Memory :=
  if num = 0 then some ((m.store8 str 0x30).store8 (str + 1) 0)
  else do
    let isNegative : Bool := num < 0 ∧ base = 10
    let num := if isNegative then -num else num
    let (i, m) ← loop (digitTurn str base) (num.toInt.natAbs + 1) (0, num, m)
    let (i, m) := if isNegative then (i + 1, m.store8 (str + i) minusSign) else (i, m)
    let m := m.store8 (str + i) 0
    some (reverse m str 0 (i - 1))

/-- `while (val > 0)` -/
def decimalTurn (buf : ℕ) := charTurn buf (0 < ·) (fun val => toChar (0x30 + val % 10)) (· / 10)

/-- `for (int j = 0; j < i / 2; j++)`, with `n` turns left. -/
def swapLoop (m : Memory) (buf i : ℕ) : ℕ → ℕ → Memory
  | 0, _ => m
  | n + 1, j => swapLoop ((m.store8 (buf + j) (m (buf + (i - j - 1)))).store8 (buf + (i - j - 1)) (m (buf + j))) buf i n (j + 1)

/-- The string that is returned; `buf` is an array of 32 characters that is not set. -/
def toString (m : Memory) (buf : ℕ) (val : Int32) : Option CString := do
  let (i, m) ←
    if val = 0 then some (1, m.store8 buf 0x30)
    else do
      let neg : Bool := val < 0
      let val := if neg then -val else val
      let (i, m) ← loop (decimalTurn buf) (val.toInt.natAbs + 1) (0, val, m)
      some (if neg then (i + 1, m.store8 (buf + i) minusSign) else (i, m))
  let m := m.store8 (buf + i) 0
  let m := swapLoop m buf i (i / 2) 0
  some (m.cstr buf 32)

/-! ### What the text is to say -/

/-- The number of a text: signed in base 10, without a sign otherwise. -/
def reads (base : ℕ) (s : List UInt8) : Option ℤ := if base = 10 then readSigned 10 s else (readUnsigned base s).map Int.ofNat

/-- The number that the text is to say. -/
def shown (v base : Int32) : ℤ := if base = 10 then v.toInt else v.toUInt32.toNat

/-- A string of digits is written, nothing else changes, and the string reads back as the number. -/
def ReadsBack (m : Memory) (str : ℕ) (v base : Int32) : Prop :=
  ∃ s : CString, itoa m str v base = some (m.memcpy str s.terminated) ∧ reads base.toInt.toNat (s.map val) = some (shown v base)

/-- The two conversions give the same string. -/
def SameText (m : Memory) (str : ℕ) (m' : Memory) (buf : ℕ) (v : Int32) : Prop :=
  ∃ s : CString, itoa m str v 10 = some (m.memcpy str s.terminated) ∧ toString m' buf v = some s

variable {m m' : Memory} {str buf a i j k n d : ℕ} {v num base x : Int32} {cs u l w : List UInt8}

/-! ### Reversal -/

private theorem reverse_eq (m : Memory) (a : ℕ) (u l w : List UInt8) :
    reverse (m.memcpy a (u ++ l ++ w)) a u.length (u.length + l.length - 1) = m.memcpy a (u ++ l.reverse ++ w) := by
  induction l using bidirectionalRec generalizing u w with
  | nil => rw [reverse, if_neg (by rw [length_nil]; omega), reverse_nil]
  | singleton x => rw [reverse, if_neg (by rw [length_singleton]; omega), reverse_singleton]
  | cons_append x l y ih =>
    have hstop : u.length + (x :: (l ++ [y])).length - 1 = (u ++ x :: l).length := by
      simp only [length_cons, length_append, length_nil]
      omega
    have hlow : m.memcpy a (u ++ x :: (l ++ [y]) ++ w) (a + u.length) = x := by
      rw [append_assoc, cons_append, memcpy_read]
    have hsplit : u ++ x :: (l ++ [y]) ++ w = (u ++ x :: l) ++ y :: w := by
      simp only [append_assoc, cons_append, nil_append]
    have hhigh : m.memcpy a (u ++ x :: (l ++ [y]) ++ w) (a + (u ++ x :: l).length) = y := by
      rw [hsplit, memcpy_read]
    have hswap : ((m.memcpy a (u ++ x :: (l ++ [y]) ++ w)).store8 (a + u.length) y).store8 (a + (u ++ x :: l).length) x =
        m.memcpy a (u ++ [y] ++ l ++ x :: w) := by
      rw [append_assoc, cons_append, memcpy_store]
      have hlength : (u ++ x :: l).length = (u ++ y :: l).length := by simp only [length_append, length_cons]
      have h := memcpy_store m a (u ++ y :: l) w y x
      simp only [append_assoc, cons_append, nil_append] at h ⊢
      rw [hlength, h]
    have hnext := ih (u ++ [y]) (x :: w)
    have hstart : (u ++ [y]).length = u.length + 1 := by rw [length_append, length_singleton]
    have hlast : (u ++ [y]).length + l.length - 1 = (u ++ x :: l).length - 1 := by
      simp only [length_append, length_cons, length_nil]
      omega
    rw [hlast, hstart] at hnext
    rw [reverse, if_pos (by simp only [length_append, length_cons]; omega), hstop, hlow, hhigh, hswap, hnext]
    simp only [reverse_cons, reverse_append, append_assoc, cons_append, nil_append, reverse_nil]

private theorem swapLoop_eq_reverse (m : Memory) (h : j + n = i / 2) : swapLoop m buf i n j = reverse m buf j (i - j - 1) := by
  induction n generalizing m j with
  | zero => rw [swapLoop, reverse, if_neg (by omega)]
  | succ n ih =>
    have hnext : i - (j + 1) - 1 = i - j - 1 - 1 := by omega
    rw [swapLoop, ih _ (by omega), reverse.eq_def m, if_pos (by omega), hnext]

private theorem swapLoop_eq (m : Memory) (a : ℕ) (l w : List UInt8) :
    swapLoop (m.memcpy a (l ++ w)) a l.length (l.length / 2) 0 = m.memcpy a (l.reverse ++ w) := by
  have h := reverse_eq m a [] l w
  rw [nil_append, nil_append, length_nil, Nat.zero_add] at h
  rw [swapLoop_eq_reverse _ (Nat.zero_add _), Nat.sub_zero, h]

/-! ### The loops -/

theorem charTurn_loop (m : Memory) (str : ℕ) (goes : Int32 → Bool) (char : Int32 → UInt8) (next : Int32 → Int32) (num : Int32)
    (R : Int32 → List UInt8 → Prop) (hnext : ∀ num cs, R num cs → goes num → (next num).toInt.natAbs < num.toInt.natAbs)
    (hstep : ∀ num cs, R num cs → goes num → R (next num) (cs ++ [char num])) (h : R num []) :
    ∃ cs num', loop (charTurn str goes char next) (num.toInt.natAbs + 1) (0, num, m) = some (cs.length, m.memcpy str cs) ∧ R num' cs ∧
      goes num' = false := by
  obtain ⟨⟨i, m'⟩, hloop, cs, num', rfl, rfl, hR, hend⟩ : ∃ r ∈ loop (charTurn str goes char next) (num.toInt.natAbs + 1) (0, num, m),
      ∃ cs num', r.1 = cs.length ∧ r.2 = m.memcpy str cs ∧ R num' cs ∧ goes num' = false :=
    loop_spec (fun s => ∃ cs, s.1 = cs.length ∧ s.2.2 = m.memcpy str cs ∧ R s.2.1 cs) (fun s => s.2.1.toInt.natAbs) (by
      rintro ⟨i, num, mem⟩ ⟨cs, rfl, rfl, hR⟩
      by_cases hgoes : goes num
      · refine ⟨.again (cs.length + 1, next num, (m.memcpy str cs).store8 (str + cs.length) (char num)), ?_,
          ⟨cs ++ [char num], ?_, memcpy_snoc .., hstep num cs hR hgoes⟩, hnext num cs hR hgoes⟩
        · rw [charTurn, if_pos hgoes]
          rfl
        · rw [length_append, length_singleton]
      · refine ⟨.done (cs.length, m.memcpy str cs), ?_, cs, num, rfl, rfl, hR, Bool.eq_false_iff.mpr hgoes⟩
        rw [charTurn, if_neg hgoes]
        rfl)
    ⟨[], rfl, (memcpy_nil m str).symm, h⟩ (Nat.lt_succ_self _)
  exact ⟨cs, num', hloop, hR, hend⟩

private theorem toInt_ofNat (hd : d < 36) : (ofNat d).toInt = d := toInt_ofNat_of_lt (by omega)

private theorem digit_eq (hd : d < 36) (hx : x.toInt = d) : digit x = digitChar d := by
  have hall : ∀ d < 36, digit (Int32.ofNat d) = digitChar d := by decide
  rw [Int32.toInt_inj.mp (hx.trans (toInt_ofNat hd).symm), hall d hd]

private theorem decimal_eq (hd : d < 10) (hx : x.toInt = d) : toChar (0x30 + x) = digitChar d := by
  have hall : ∀ d < 10, toChar (0x30 + Int32.ofNat d) = digitChar d := by decide
  rw [Int32.toInt_inj.mp (hx.trans (toInt_ofNat (by omega)).symm), hall d hd]

private theorem digit_neg (hd : d < 36) (hx : x.toInt = -(d : ℤ)) : digit x ≠ 0 ∧ (d ≠ 0 → digit x < 0x30) := by
  have hall : ∀ d : ℕ, d < 36 → digit (ofInt (-(d : ℤ))) ≠ 0 ∧ (d ≠ 0 → digit (ofInt (-(d : ℤ))) < 0x30) := by decide
  have hof : (ofInt (-(d : ℤ))).toInt = -(d : ℤ) := toInt_ofInt_of_le (by omega) (by omega)
  rw [toInt_inj.mp (hx.trans hof.symm)]
  exact hall d hd

theorem toInt_div (hbase : 2 ≤ base.toInt) (num : Int32) : (num / base).toInt = num.toInt.tdiv base.toInt := by
  refine toInt_div_of_ne_right num base ?_
  rintro rfl
  exact absurd hbase (by decide)

theorem natAbs_div_lt (hbase : 2 ≤ base.toInt) (hnum : num.toInt ≠ 0) : (num / base).toInt.natAbs < num.toInt.natAbs := by
  rw [toInt_div hbase, Int.natAbs_tdiv]
  exact Nat.div_lt_self (Int.natAbs_pos.mpr hnum) (by omega)

private theorem div_of_nonneg (hbase : 2 ≤ base.toInt) (hnum : num.toInt = n) : (num / base).toInt = (n / base.toInt.toNat : ℕ) := by
  obtain ⟨b, hb⟩ := Int.eq_ofNat_of_zero_le (by omega : 0 ≤ base.toInt)
  rw [toInt_div hbase, hnum, hb]
  rfl

private theorem mod_of_nonneg (hbase : 2 ≤ base.toInt) (hnum : num.toInt = n) : (num % base).toInt = (n % base.toInt.toNat : ℕ) := by
  obtain ⟨b, hb⟩ := Int.eq_ofNat_of_zero_le (by omega : 0 ≤ base.toInt)
  rw [toInt_mod, hnum, hb]
  rfl

/-- What a loop over the digits of `k` knows: the digits so far, and those of the number that is left, are the digits of `k`. -/
def Digits (b k : ℕ) (num : Int32) (cs : List UInt8) : Prop :=
  ∃ n : ℕ, num.toInt = n ∧ cs ++ (Nat.digits b n).map digitChar = (Nat.digits b k).map digitChar

theorem Digits.step {c : UInt8} (hbase : 2 ≤ base.toInt) (h : Digits base.toInt.toNat k num cs) (hnum : num.toInt ≠ 0)
    (hc : ∀ n : ℕ, num.toInt = n → c = digitChar (n % base.toInt.toNat)) : Digits base.toInt.toNat k (num / base) (cs ++ [c]) := by
  obtain ⟨n, hn, hcs⟩ := h
  refine ⟨n / base.toInt.toNat, div_of_nonneg hbase hn, ?_⟩
  rw [Nat.digits_def' (by omega) (by omega : 0 < n), List.map_cons] at hcs
  rw [← hcs, hc n hn, List.append_assoc]
  rfl

theorem Digits.done {num' : Int32} (h : Digits n k num' cs) (hnum : num'.toInt ≤ 0) : cs.reverse = numeral n k := by
  obtain ⟨l, hl, hcs⟩ := h
  obtain rfl : l = 0 := by omega
  rw [Nat.digits_zero, List.map_nil, List.append_nil] at hcs
  rw [numeral, hcs]

theorem toInt_eq_zero_iff : num.toInt = 0 ↔ num = 0 := by rw [← toInt_zero, toInt_inj]

private theorem digitTurn_digits (m : Memory) (str : ℕ) (num base : Int32) (k : ℕ) (hbase : 2 ≤ base.toInt) (hbase' : base.toInt ≤ 36) (hnum : num.toInt = k) :
    ∃ cs, loop (digitTurn str base) (num.toInt.natAbs + 1) (0, num, m) = some (cs.length, m.memcpy str cs) ∧
      cs.reverse = numeral base.toInt.toNat k := by
  have hne : ∀ num : Int32, (decide (num ≠ 0) = true) → num.toInt ≠ 0 := fun num h h0 => of_decide_eq_true h (toInt_eq_zero_iff.mp h0)
  obtain ⟨cs, num', hloop, hR, hend⟩ := charTurn_loop m str (· ≠ 0) (fun num => digit (num % base))
    (· / base) num (Digits base.toInt.toNat k) (fun num _ _ h => natAbs_div_lt hbase (hne num h))
    (fun num _ hR h => hR.step hbase (hne num h) fun n hn =>
      digit_eq (by have := Nat.mod_lt n (by omega : 0 < base.toInt.toNat); omega) (mod_of_nonneg hbase hn)) ⟨k, hnum, rfl⟩
  refine ⟨cs, hloop, hR.done ?_⟩
  rw [toInt_eq_zero_iff.mpr (not_not.mp (of_decide_eq_false hend))]

private theorem decimalTurn_digits (m : Memory) (buf : ℕ) (num : Int32) (k : ℕ) (hnum : num.toInt = k) :
    ∃ cs, loop (decimalTurn buf) (num.toInt.natAbs + 1) (0, num, m) = some (cs.length, m.memcpy buf cs) ∧ cs.reverse = numeral 10 k := by
  have hbase : 2 ≤ (10 : Int32).toInt := by decide
  have hne : ∀ num : Int32, (decide (0 < num) = true) → 0 < num.toInt := fun num h => lt_iff_toInt_lt.mp (of_decide_eq_true h)
  obtain ⟨cs, num', hloop, hR, hend⟩ := charTurn_loop m buf (0 < ·) (fun val => toChar (0x30 + val % 10))
    (· / 10) num (Digits 10 k)
    (fun num _ _ h => natAbs_div_lt hbase (Int.ne_of_gt (hne num h)))
    (fun num _ hR h => hR.step hbase (Int.ne_of_gt (hne num h)) fun n hn =>
      decimal_eq (Nat.mod_lt n (by decide)) (mod_of_nonneg hbase hn)) ⟨k, hnum, rfl⟩
  exact ⟨cs, hloop, hR.done (Int.not_lt.mp fun h => of_decide_eq_false hend (lt_iff_toInt_lt.mpr h))⟩

private theorem digitTurn_negative (m : Memory) (str : ℕ) (hbase : 2 ≤ base.toInt) (hbase' : base.toInt ≤ 36) (hnum : num.toInt < 0) :
    ∃ cs c, loop (digitTurn str base) (num.toInt.natAbs + 1) (0, num, m) = some ((cs ++ [c]).length, m.memcpy str (cs ++ [c])) ∧
      (∀ x ∈ cs ++ [c], x ≠ 0) ∧ c < 0x30 := by
  have hne : ∀ num : Int32, (decide (num ≠ 0) = true) → num.toInt ≠ 0 := fun num h h0 => of_decide_eq_true h (toInt_eq_zero_iff.mp h0)
  obtain ⟨cs, num', hloop, ⟨-, hcs, hlast⟩, hend⟩ := charTurn_loop m str (· ≠ 0) (fun num => digit (num % base))
    (· / base) num
    (fun num cs => num.toInt ≤ 0 ∧ (∀ x ∈ cs, x ≠ 0) ∧ (num.toInt = 0 → ∃ cs' c, cs = cs' ++ [c] ∧ c < 0x30))
    (fun num _ _ h => natAbs_div_lt hbase (hne num h)) (by
      rintro num cs ⟨hle, hcs, -⟩ hgoes
      have hnum := hne num hgoes
      obtain ⟨n, hn⟩ := Int.eq_ofNat_of_zero_le (by omega : 0 ≤ -num.toInt)
      obtain ⟨b, hb⟩ := Int.eq_ofNat_of_zero_le (by omega : 0 ≤ base.toInt)
      have hdiv : (num / base).toInt = -((n / b : ℕ) : ℤ) := by
        rw [toInt_div hbase, ← Int.neg_neg num.toInt, hn, hb, Int.neg_tdiv]
        rfl
      have hmod : (num % base).toInt = -((n % b : ℕ) : ℤ) := by
        rw [toInt_mod, ← Int.neg_neg num.toInt, hn, hb, Int.neg_tmod]
        rfl
      obtain ⟨hzero, hbelow⟩ := digit_neg (by have := Nat.mod_lt n (by omega : 0 < b); omega) hmod
      have hle' : (num / base).toInt ≤ 0 := hdiv ▸ Int.neg_nonpos_of_nonneg (Int.natCast_nonneg _)
      refine ⟨hle', ?_, fun hlast => ⟨cs, digit (num % base), rfl, hbelow ?_⟩⟩
      · intro x hx
        rcases mem_append.mp hx with hx | hx
        · exact hcs x hx
        · rw [mem_singleton.mp hx]
          exact hzero
      · -- The last digit is the number itself.
        have hquotient : n / b = 0 := Int.natCast_eq_zero.mp (Int.neg_eq_zero.mp (hdiv.symm.trans hlast))
        rw [Nat.mod_eq_of_lt ((Nat.div_eq_zero_iff_lt (by omega)).mp hquotient)]
        omega)
    ⟨Int.le_of_lt hnum, nofun, fun h => absurd h (Int.ne_of_lt hnum)⟩
  obtain ⟨cs', c, rfl, hc⟩ := hlast (toInt_eq_zero_iff.mpr (not_not.mp (of_decide_eq_false hend)))
  exact ⟨cs', c, hloop, hcs, hc⟩

/-! ### The texts -/

theorem itoa_eq (m : Memory) (str : ℕ) (v base : Int32) (cs : List UInt8) (hv : v ≠ 0)
    (hloop : loop (digitTurn str base) ((if v < 0 ∧ base = 10 then -v else v).toInt.natAbs + 1) (0, if v < 0 ∧ base = 10 then -v else v, m) =
      some (cs.length, m.memcpy str cs)) :
    itoa m str v base = some (m.memcpy str ((if v < 0 ∧ base = 10 then [minusSign] else []) ++ cs.reverse ++ [0])) := by
  have hturn : ∀ l, reverse ((m.memcpy str l).store8 (str + l.length) 0) str 0 (l.length - 1) = m.memcpy str (l.reverse ++ [0]) := by
    intro l
    have h := reverse_eq m str [] l [0]
    rw [nil_append, nil_append, length_nil, Nat.zero_add] at h
    rw [memcpy_snoc, h]
  rw [itoa, if_neg hv]
  by_cases hneg : v < 0 ∧ base = 10
  · rw [if_pos hneg] at hloop
    simp only [decide_eq_true hneg, if_true, hloop, if_pos hneg, bind_eq_bind, bind_some]
    have h := hturn (cs ++ [minusSign])
    rw [length_append, length_singleton, reverse_append, reverse_singleton, ← memcpy_snoc] at h
    rw [h]
  · rw [if_neg hneg] at hloop
    simp only [decide_eq_false hneg, Bool.false_eq_true, if_false, hloop, if_neg hneg, bind_eq_bind, bind_some, hturn,
      nil_append]

theorem toString_eq (m : Memory) (buf : ℕ) (cs : List UInt8) (hv : v ≠ 0)
    (hloop : loop (decimalTurn buf) ((if v < 0 then -v else v).toInt.natAbs + 1) (0, if v < 0 then -v else v, m) =
      some (cs.length, m.memcpy buf cs)) {s : CString} (hs : s.map val = (if v < 0 then [minusSign] else []) ++ cs.reverse)
    (hlength : s.length < 32) : toString m buf v = some s := by
  have hturn : ∀ l, l.reverse = s.map val →
      (swapLoop ((m.memcpy buf l).store8 (buf + l.length) 0) buf l.length (l.length / 2) 0).cstr buf 32 = s := by
    intro l hl
    rw [memcpy_snoc, swapLoop_eq, hl]
    exact cstr_terminated m hlength
  rw [toString, if_neg hv]
  by_cases hneg : v < 0
  · rw [if_pos hneg] at hloop hs
    simp only [decide_eq_true hneg, if_true, hloop, bind_eq_bind, bind_some]
    have h := hturn (cs ++ [minusSign]) (by rw [hs, reverse_append, reverse_singleton])
    rw [length_append, length_singleton, ← memcpy_snoc] at h
    rw [h]
  · rw [if_neg hneg] at hloop hs
    simp only [decide_eq_false hneg, Bool.false_eq_true, if_false, hloop, bind_eq_bind, bind_some]
    rw [hturn cs hs.symm]

theorem toInt_neg (hv : v ≠ minValue) : (-v).toInt = -v.toInt := by
  have hle := v.le_toInt
  have hlt := v.toInt_lt
  have hne : v.toInt ≠ -2 ^ 31 := fun h => hv (toInt_inj.mp (h.trans toInt_minValue.symm))
  rw [Int32.toInt_neg]
  exact Int.bmod_eq_of_le (by omega) (by omega)

private theorem itoa_pos (m : Memory) (str : ℕ) (hbase : 2 ≤ base.toInt) (hbase' : base.toInt ≤ 36) (hv : v.toInt = k) (hk : 0 < k) :
    itoa m str v base = some (m.memcpy str (numeral base.toInt.toNat k ++ [0])) := by
  have hneg : ¬ (v < 0 ∧ base = 10) := fun h => by
    have := lt_iff_toInt_lt.mp h.1
    rw [hv, toInt_zero] at this
    omega
  obtain ⟨cs, hloop, hcs⟩ := digitTurn_digits m str v base k hbase hbase' hv
  have h := itoa_eq m str v base cs (by rintro rfl; rw [toInt_zero] at hv; omega)
    (by rw [if_neg hneg]; exact hloop)
  rwa [if_neg hneg, nil_append, hcs] at h

private theorem itoa_neg (m : Memory) (str : ℕ) (hv : v.toInt < 0) (hmin : v ≠ minValue) :
    itoa m str v 10 = some (m.memcpy str (minusSign :: numeral 10 v.toInt.natAbs ++ [0])) := by
  have hneg : v < 0 ∧ (10 : Int32) = 10 := ⟨lt_iff_toInt_lt.mpr (by rw [toInt_zero]; exact hv), rfl⟩
  obtain ⟨cs, hloop, hcs⟩ := digitTurn_digits m str (-v) 10 v.toInt.natAbs (by decide) (by decide)
    (by rw [toInt_neg hmin]; omega)
  have h := itoa_eq m str v 10 cs (by rintro rfl; exact absurd hv (by decide))
    (by rw [if_pos hneg]; exact hloop)
  rw [if_pos hneg, hcs] at h
  exact h

/-- In base 10 only the least `int` is written below the digits, in the other bases every negative one. -/
theorem itoa_below (m : Memory) (str : ℕ) (base : Int32) (hbase : 2 ≤ base.toInt) (hbase' : base.toInt ≤ 36) (hv : v.toInt < 0)
    (hbad : base = 10 → v = minValue) :
    ∃ c rest, c < 0x30 ∧ (∀ x ∈ (if base = 10 then [minusSign] else []) ++ c :: rest, x ≠ 0) ∧
      itoa m str v base = some (m.memcpy str ((if base = 10 then [minusSign] else []) ++ c :: rest ++ [0])) := by
  have hlt : v < 0 := lt_iff_toInt_lt.mpr (by rw [toInt_zero]; exact hv)
  have hsame : (if v < 0 ∧ base = 10 then -v else v) = v := by
    split
    · next h =>
      rw [hbad h.2]
      decide
    · rfl
  obtain ⟨cs, c, hloop, hzero, hc⟩ := digitTurn_negative m str hbase hbase' hv
  have h := itoa_eq m str v base (cs ++ [c]) (by rintro rfl; exact absurd hv (by decide))
    (by rw [hsame]; exact hloop)
  rw [if_congr (and_iff_right hlt) rfl rfl, reverse_append, reverse_singleton, singleton_append] at h
  refine ⟨c, cs.reverse, hc, fun x hx => ?_, h⟩
  rcases mem_append.mp hx with hsign | hx
  · split at hsign
    · rw [mem_singleton.mp hsign]
      decide
    · cases hsign
  · refine hzero x ?_
    rcases mem_cons.mp hx with rfl | hx
    · exact mem_append_right _ (mem_singleton_self x)
    · exact mem_append_left _ (mem_reverse.mp hx)

private theorem itoa_zero (m : Memory) (str : ℕ) (base : Int32) : itoa m str 0 base = some (m.memcpy str [0x30, 0]) := by
  rw [itoa, if_pos rfl, ← memcpy_cons, ← memcpy_cons, memcpy_nil]

/-! ### When the text says the number -/

theorem toNat_base (hbase : 2 ≤ base.toInt) : base.toInt.toNat = 10 ↔ base = 10 := by
  rw [← toInt_inj]
  change _ ↔ base.toInt = 10
  omega

private theorem readUnsigned_below {c : UInt8} {rest : List UInt8} (b : ℕ) (hc : c < 0x30) : readUnsigned b (c :: rest) = none := by
  rw [readUnsigned, if_neg (cons_ne_nil _ _), readDigits, foldlM_cons, digitValue_below hc]
  rfl

private theorem readSigned_numeral (hk : k ≠ 0) : readSigned 10 (numeral 10 k) = some (k : ℤ) := by
  have hread := readUnsigned_numeral (by decide : 2 ≤ 10) (by decide) hk
  obtain ⟨c, rest, hcons⟩ := List.exists_cons_of_ne_nil (numeral_ne_nil 10 hk)
  have hminus : c ≠ minusSign := by
    obtain ⟨d, hd, rfl⟩ := numeral_digits k (by decide : 2 ≤ 10) (by decide) c (hcons ▸ List.mem_cons_self)
    exact (by decide : ∀ d < 36, digitChar d ≠ minusSign) d hd
  rw [hcons, readSigned, if_neg hminus, ← hcons, hread]
  rfl

private theorem written_unique {s : CString} {l : List UInt8} (hl : ∀ c ∈ l, c ≠ 0) (h : m.memcpy str s.terminated = m.memcpy str (l ++ [0])) :
    s.map val = l := by
  rw [← terminated_ofBytes l hl] at h
  rw [terminated_inj h, map_ofBytes]

theorem written_of_bytes {l : List UInt8} (hl : ∀ c ∈ l, c ≠ 0) (h : itoa m str v base = some (m.memcpy str (l ++ [0]))) :
    itoa m str v base = some (m.memcpy str (ofBytes l hl).terminated) := by rw [h, terminated_ofBytes]

private theorem signed_ne_zero (k : ℕ) : ∀ c ∈ minusSign :: numeral 10 k, c ≠ 0 := by
  intro c hc
  rcases mem_cons.mp hc with rfl | hc
  · decide
  · exact numeral_ne_zero (by decide) (by decide) c hc

theorem readsBack_iff (m : Memory) (str : ℕ) (v : Int32) (hbase : 2 ≤ base.toInt) (hbase' : base.toInt ≤ 36) :
    ReadsBack m str v base ↔ 0 ≤ v ∨ base = 10 ∧ v ≠ Int32.minValue := by
  constructor
  · rintro ⟨s, hitoa, hreads⟩
    refine or_iff_not_imp_left.mpr fun hneg => ?_
    have hv : v.toInt < 0 := by
      rw [Int32.le_iff_toInt_le, Int32.toInt_zero] at hneg
      exact Int.not_le.mp hneg
    by_contra hbad
    obtain ⟨c, rest, hc, hzero, hbelow⟩ := itoa_below m str base hbase hbase' hv fun h10 => not_not.mp fun hne => hbad ⟨h10, hne⟩
    have hs := written_unique hzero (Option.some.inj (hitoa.symm.trans hbelow))
    rw [reads, if_congr (toNat_base hbase) rfl rfl, hs] at hreads
    by_cases h10 : base = 10
    · rw [if_pos h10, if_pos h10, List.singleton_append, readSigned, if_pos rfl, readUnsigned_below 10 hc] at hreads
      cases hreads
    · rw [if_neg h10, if_neg h10, List.nil_append, readUnsigned_below _ hc] at hreads
      cases hreads
  · intro h
    rcases Int.lt_trichotomy v.toInt 0 with hv | hv | hv
    · have h10 : base = 10 ∧ v ≠ Int32.minValue := h.resolve_left fun h0 => absurd (Int32.le_iff_toInt_le.mp h0) (Int.not_le.mpr hv)
      obtain ⟨rfl, hmin⟩ := h10
      refine ⟨_, written_of_bytes (signed_ne_zero _) (itoa_neg m str hv hmin), ?_⟩
      rw [CString.map_ofBytes, reads, if_pos (by decide), readSigned, if_pos rfl,
        readUnsigned_numeral (by decide) (by decide) (Int.natAbs_ne_zero.mpr (Int.ne_of_lt hv)), shown, if_pos rfl, Option.map_some]
      congr 1
      omega
    · obtain rfl := toInt_eq_zero_iff.mp hv
      refine ⟨_, written_of_bytes (l := [0x30]) (List.forall_mem_singleton.mpr (by decide)) (itoa_zero m str base), ?_⟩
      have hdigit : readUnsigned base.toInt.toNat [0x30] = some 0 := by
        rw [readUnsigned, if_neg (List.cons_ne_nil _ _), readDigits, List.foldlM_cons, (by decide : (0x30 : UInt8) = digitChar 0),
          digitValue_digitChar (by omega) (by omega), Option.map_some, Nat.zero_mul]
        rfl
      rw [CString.map_ofBytes, reads, if_congr (toNat_base hbase) rfl rfl, shown]
      split
      · rfl
      · rw [hdigit]
        rfl
    · obtain ⟨k, hk⟩ := Int.eq_ofNat_of_zero_le (Int.le_of_lt hv)
      have hkpos : 0 < k := by omega
      have h0 : 0 ≤ v := Int32.le_iff_toInt_le.mpr (by rw [Int32.toInt_zero]; exact Int.le_of_lt hv)
      refine ⟨_, written_of_bytes (numeral_ne_zero (by omega) (by omega)) (itoa_pos m str hbase hbase' hk hkpos), ?_⟩
      rw [CString.map_ofBytes, reads, if_congr (toNat_base hbase) rfl rfl, shown]
      split
      · next h10 =>
        rw [(toNat_base hbase).mpr h10, readSigned_numeral (Nat.ne_of_gt hkpos), hk]
      · rw [readUnsigned_numeral (by omega) (by omega) (Nat.ne_of_gt hkpos), Int32.toNat_toUInt32_of_le h0, Int32.toNatClampNeg, hk]
        rfl

private theorem length_numeral (hk : k ≤ 2 ^ 31) : (numeral 10 k).length ≤ 10 := by
  rw [numeral, length_reverse, length_map, Nat.digits_length_le_iff (by decide)]
  omega

private theorem sameText_iff (m : Memory) (str : ℕ) (m' : Memory) (buf : ℕ) (v : Int32) :
    SameText m str m' buf v ↔ v ≠ minValue := by
  have hle := v.le_toInt
  have hlt := v.toInt_lt
  constructor
  · rintro ⟨s, hitoa, hstring⟩ rfl
    -- One conversion writes the sign and nothing more, the other one more than the sign.
    have hsign : toString m' buf minValue = some (ofBytes [minusSign] (forall_mem_singleton.mpr (by decide))) :=
      toString_eq m' buf [] (by decide) (by rw [if_pos (by decide), memcpy_nil]; rfl) (map_ofBytes ..) (by decide)
    obtain ⟨c, rest, -, hzero, hbelow⟩ := itoa_below m str 10 (by decide) (by decide) (by decide : minValue.toInt < 0)
      fun _ => rfl
    have hs := written_unique hzero (some.inj (hitoa.symm.trans hbelow))
    rw [some.inj (hstring.symm.trans hsign), map_ofBytes] at hs
    cases hs
  · intro hmin
    rcases Int.lt_trichotomy v.toInt 0 with hv | hv | hv
    · have hneg : v < 0 := lt_iff_toInt_lt.mpr (by rw [toInt_zero]; exact hv)
      obtain ⟨cs, hloop, hcs⟩ := decimalTurn_digits m' buf (-v) v.toInt.natAbs (by rw [toInt_neg hmin]; omega)
      refine ⟨_, written_of_bytes (signed_ne_zero _) (itoa_neg m str hv hmin),
        toString_eq m' buf cs (by rintro rfl; exact absurd hv (by decide)) (by rw [if_pos hneg]; exact hloop) ?_ ?_⟩
      · rw [map_ofBytes, if_pos hneg, hcs]
        rfl
      · have h10 := length_numeral (k := v.toInt.natAbs) (by omega)
        rw [ofBytes, length_pmap, length_cons]
        omega
    · obtain rfl := toInt_eq_zero_iff.mp hv
      refine ⟨_, written_of_bytes (l := [0x30]) (forall_mem_singleton.mpr (by decide)) (itoa_zero m str 10), ?_⟩
      have hstring := cstr_terminated (a := buf) (n := 32) (s := ofBytes [0x30] (forall_mem_singleton.mpr (by decide))) m' (by decide)
      rw [terminated_ofBytes, singleton_append, ← memcpy_cons, ← memcpy_cons, memcpy_nil] at hstring
      rw [toString, if_pos rfl, bind_eq_bind, bind_some]
      exact congrArg some hstring
    · obtain ⟨k, hk⟩ := Int.eq_ofNat_of_zero_le (Int.le_of_lt hv)
      have hpos : ¬ v < 0 := fun h => absurd (lt_iff_toInt_lt.mp h) (by rw [toInt_zero]; omega)
      obtain ⟨cs, hloop, hcs⟩ := decimalTurn_digits m' buf v k hk
      refine ⟨_, written_of_bytes (numeral_ne_zero (by decide) (by decide)) (itoa_pos m str (by decide) (by decide) hk (by omega)),
        toString_eq m' buf cs (by rintro rfl; exact absurd hv (by decide)) (by rw [if_neg hpos]; exact hloop) ?_ ?_⟩
      · rw [map_ofBytes, if_neg hpos, hcs]
        rfl
      · have h10 := length_numeral (k := k) (by omega)
        rw [ofBytes, length_pmap]
        exact Nat.lt_of_le_of_lt h10 (by decide)

/-- The text of a number is right unless the number is negative and the base is not 10, or it is the least `int`. -/
theorem conversions_right_iff (m : Memory) (str : ℕ) (m' : Memory) (buf : ℕ) (v base : Int32) (hbase : 2 ≤ base.toInt)
    (hbase' : base.toInt ≤ 36) : ReadsBack m str v base ∧ SameText m str m' buf v ↔ 0 ≤ v ∨ base = 10 ∧ v ≠ minValue := by
  rw [readsBack_iff m str v hbase hbase', sameText_iff]
  refine and_iff_left_of_imp fun h => ?_
  rcases h with h | h
  · rintro rfl
    exact absurd h (by decide)
  · exact h.2

theorem conversions_right_iff_byte : ReadsBack (fun _ => 0) 0 (-128) 10 ∧ SameText (fun _ => 0) 0 (fun _ => 0) 0 (-128) :=
  (conversions_right_iff (fun _ => 0) 0 (fun _ => 0) 0 (-128) 10 (by decide) (by decide)).mpr (.inr ⟨rfl, by decide⟩)

/-- `-1` in base 16 is one character below the digits. -/
theorem itoa_wrong : ¬ ReadsBack (fun _ => 0) 0 (-1) 16 := by
  rw [readsBack_iff _ _ _ (by decide) (by decide)]
  decide

end RetroOs.Kernel.Itoa
