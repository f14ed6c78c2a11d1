import RetroOs.Lib.Copying

/-! The copies of the kernel's string library: what they write, where they write it, and what they return. -/
namespace RetroOs.Kernel.StringCopies
open Lib Traced List Nat Memory

/-- `while (count >= 4)`, with the two pointers and the count. -/
def wordLoop (t : Traced) (d s : ℕ) : ℕ → Traced × ℕ × ℕ × ℕ
  | n + 4 => wordLoop (t.store32 d (t.mem.load32 s)) (d + 4) (s + 4) n
  | n => (t, d, s, n)

/-- `while (count--) *d++ = *s++` -/
def byteLoop (t : Traced) (d s : ℕ) : ℕ → Traced
  | 0 => t
  | n + 1 => byteLoop (t.store8 d (t.mem s)) (d + 1) (s + 1) n

def backLoop (t : Traced) (lastd lasts : ℕ) : ℕ → Traced
  | 0 => t
  | n + 1 => backLoop (t.store8 lastd (t.mem lasts)) (lastd - 1) (lasts - 1) n

/-- The memory, and the pointer that is returned. -/
def memcpy (t : Traced) (dest src count : ℕ) : Traced × ℕ :=
  if 4 ≤ count ∧ dest % 4 = 0 ∧ src % 4 = 0 then
    -- `dest` is set to where the words end.
    let (t, dest, src, count) := wordLoop t dest src count
    (byteLoop t dest src count, dest)
  else (byteLoop t dest src count, dest)

def memmove (t : Traced) (dest src count : ℕ) : Traced × ℕ :=
  if dest < src then (byteLoop t dest src count, dest)
  else (backLoop t (dest + (count - 1)) (src + (count - 1)) count, dest)

/-- `while (n > 0 && (*dest++ = *src++)) n--`, with the destination and `n`. -/
def stringLoop (t : Traced) (d s : ℕ) : ℕ → Traced × ℕ × ℕ
  | 0 => (t, d, 0)
  | n + 1 =>
    let c := t.mem s
    if c ≠ 0 then stringLoop (t.store8 d c) (d + 1) (s + 1) n
    else (t.store8 d c, d + 1, n + 1)

/-- `while (n > 0) { *dest++ = '\0'; n--; }` -/
def zeroLoop (t : Traced) (d : ℕ) : ℕ → Traced
  | 0 => t
  | n + 1 => zeroLoop (t.store8 d 0) (d + 1) n

def strncpy (t : Traced) (dest src n : ℕ) : Traced × ℕ :=
  let (t, d, n) := stringLoop t dest src n
  (zeroLoop t d n, dest)

/-! ### What the standard prescribes -/

/-- What `strncpy` is to write: the characters of a string, and zeros up to `n` bytes. -/
def stringField (m : Memory) (src n : ℕ) : List UInt8 :=
  (m.cstr src n).map Subtype.val ++ replicate (n - (m.cstr src n).length) 0

/-- How much of its source `strncpy` is to read. -/
def stringSpan (m : Memory) (src n : ℕ) : ℕ := min n ((m.cstr src n).length + 1)

/-- The bytes are at the destination, no other byte was written, and the destination is returned. -/
structure Right (m : Memory) (dest : ℕ) (l : List UInt8) (out : Traced × ℕ) : Prop where
  wrote : Wrote { mem := m } out.1 dest l
  ret : out.2 = dest

variable {t : Traced} {m : Memory} {dest src n d s : ℕ}

/-! ### The loops -/

theorem byteLoop_wrote (t : Traced) (h : d ≤ s ∨ s + n ≤ d) : Wrote t (byteLoop t d s n) d (t.mem.bytes s n) := by
  induction n generalizing t d s with
  | zero => exact .refl t d
  | succ n ih =>
    have hfirst := Wrote.store8 t d (t.mem s)
    have hrest := ih (t.store8 d (t.mem s)) (d := d + 1) (s := s + 1) (by omega)
    rw [hfirst.bytes (by rw [length_singleton]; omega)] at hrest
    rw [bytes_succ]
    exact hfirst.trans hrest

private theorem backLoop_wrote (t : Traced) (h : s ≤ d) : Wrote t (backLoop t (d + (n - 1)) (s + (n - 1)) n) d (t.mem.bytes s n) := by
  induction n generalizing t with
  | zero => exact .refl t d
  | succ n ih =>
    have hlast := Wrote.store8 t (d + n) (t.mem (s + n))
    have hrest := ih (t.store8 (d + n) (t.mem (s + n)))
    rw [hlast.bytes (by omega)] at hrest
    have hlength : (t.mem.bytes s n).length = n := length_bytes ..
    have hall := Wrote.trans_below (l := t.mem.bytes s n) (by rw [hlength]; exact hlast) hrest
    rw [bytes_add]
    -- The pointers go down by one, if they are used again.
    cases n with
    | zero => exact hall
    | succ n => exact hall

private theorem wordLoop_wrote (t : Traced) (k : ℕ) {r : ℕ} (hr : r < 4) (h : d + (4 * k + r) ≤ s ∨ s + (4 * k + r) ≤ d) :
    ∃ t', wordLoop t d s (4 * k + r) = (t', d + 4 * k, s + 4 * k, r) ∧ Wrote t t' d (t.mem.bytes s (4 * k)) := by
  induction k generalizing t d s with
  | zero =>
    refine ⟨t, ?_, .refl t d⟩
    match r, hr with
    | 0, _ | 1, _ | 2, _ | 3, _ => rfl
  | succ k ih =>
    have hword := Wrote.word t d s
    have hlength : (t.mem.bytes s 4).length = 4 := length_bytes ..
    obtain ⟨t', hloop, hrest⟩ := ih (t.store32 d (t.mem.load32 s)) (d := d + 4) (s := s + 4) (by omega)
    have hn : 4 * (k + 1) + r = 4 * k + r + 4 := by omega
    have hadd : 4 * (k + 1) = 4 + 4 * k := by omega
    refine ⟨t', ?_, ?_⟩
    · rw [hn, wordLoop, hloop, hadd, add_assoc, add_assoc]
    · rw [hword.bytes (by omega)] at hrest
      rw [hadd, bytes_add]
      exact hword.trans (by rw [hlength]; exact hrest)

private theorem zeroLoop_wrote (t : Traced) (d n : ℕ) : Wrote t (zeroLoop t d n) d (replicate n 0) := by
  induction n generalizing t d with
  | zero => exact .refl t d
  | succ n ih => exact (Wrote.store8 t d 0).trans (ih ..)

theorem cstr_succ_of_ne {c : UInt8} (hc : c ≠ 0) (hs : m s = c) : m.cstr s (n + 1) = ⟨c, hc⟩ :: m.cstr (s + 1) n := by
  subst hs
  rw [cstr, dif_pos hc]

theorem cstr_succ_of_zero (hs : m s = 0) : m.cstr s (n + 1) = [] := by rw [cstr, dif_neg (not_not_intro hs)]

private theorem cstr_span {m' : Memory} (h : ∀ x < stringSpan m s n, m' (s + x) = m (s + x)) : m'.cstr s n = m.cstr s n := by
  induction n generalizing s with
  | zero => rfl
  | succ n ih =>
    by_cases hc : m s = 0
    · have hs : m' s = 0 := by
        have h0 := h 0 (by rw [stringSpan, cstr_succ_of_zero hc]; exact Nat.lt_min.mpr ⟨Nat.succ_pos n, Nat.one_pos⟩)
        rwa [add_zero, hc] at h0
      rw [cstr_succ_of_zero hc, cstr_succ_of_zero hs]
    · have hspan : stringSpan m s (n + 1) = stringSpan m (s + 1) n + 1 := by
        rw [stringSpan, stringSpan, cstr_succ_of_ne hc rfl, length_cons]
        omega
      have hs : m' s = m s := h 0 (by rw [hspan]; exact succ_pos _)
      have hrest : m'.cstr (s + 1) n = m.cstr (s + 1) n := ih fun x hx => by
        have hx' := h (x + 1) (by omega)
        rwa [add_comm x 1, ← add_assoc] at hx'
      rw [cstr_succ_of_ne hc rfl, cstr_succ_of_ne hc hs, hrest]

/-- The characters of a string, and its terminator if it is reached; `n` has not gone down for the terminator. -/
theorem stringLoop_wrote (t : Traced) (h : d + n ≤ s ∨ s + stringSpan t.mem s n ≤ d) :
    ∃ t', stringLoop t d s n = (t', d + stringSpan t.mem s n, n - (t.mem.cstr s n).length) ∧
      Wrote t t' d ((t.mem.cstr s n).map Subtype.val ++ if (t.mem.cstr s n).length < n then [0] else []) := by
  induction n generalizing t d s with
  | zero => exact ⟨t, by rw [stringSpan, zero_min]; rfl, .refl t d⟩
  | succ n ih =>
    by_cases hc : t.mem s = 0
    · refine ⟨t.store8 d 0, ?_, ?_⟩
      · rw [stringLoop, hc, if_neg (not_not_intro rfl), stringSpan, cstr_succ_of_zero hc, length_nil,
          min_eq_right (by omega)]
        rfl
      · rw [cstr_succ_of_zero hc, if_pos (by rw [length_nil]; exact succ_pos n)]
        exact .store8 t d 0
    · have hspan : stringSpan t.mem s (n + 1) = stringSpan t.mem (s + 1) n + 1 := by
        rw [stringSpan, stringSpan, cstr_succ_of_ne hc rfl, List.length_cons]
        omega
      have hfirst := Wrote.store8 t d (t.mem s)
      have hcstr : (t.store8 d (t.mem s)).mem.cstr (s + 1) n = t.mem.cstr (s + 1) n := cstr_span fun x hx => by
        change t.mem.store8 d (t.mem s) (s + 1 + x) = _
        rw [Memory.store8, if_neg (by omega)]
      have hspan' : stringSpan (t.store8 d (t.mem s)).mem (s + 1) n = stringSpan t.mem (s + 1) n := by
        rw [stringSpan, stringSpan, hcstr]
      obtain ⟨t', hloop, hrest⟩ := ih (t.store8 d (t.mem s)) (d := d + 1) (s := s + 1) (by omega)
      rw [hcstr, hspan'] at hloop
      rw [hcstr] at hrest
      refine ⟨t', ?_, ?_⟩
      · rw [stringLoop, if_pos hc, hloop, hspan, cstr_succ_of_ne hc rfl, List.length_cons, Nat.add_sub_add_right, Nat.add_assoc,
          add_comm 1]
      · rw [cstr_succ_of_ne hc rfl, List.length_cons, if_congr (Nat.add_lt_add_iff_right) rfl rfl]
        exact hfirst.trans hrest

/-! ### The three copies -/

private theorem memcpy_wrote (m : Memory) (h : dest + n ≤ src ∨ src + n ≤ dest) :
    Wrote { mem := m } (memcpy { mem := m } dest src n).1 dest (m.bytes src n) := by
  rw [memcpy]
  split
  · obtain ⟨t', hloop, hwords⟩ := wordLoop_wrote { mem := m } (n / 4) (mod_lt n (by decide : 4 > 0))
      (by rw [div_add_mod]; exact h)
    change Wrote { mem := m } t' dest (m.bytes src (4 * (n / 4))) at hwords
    rw [div_add_mod] at hloop
    have hrest := byteLoop_wrote (n := n % 4) (d := dest + 4 * (n / 4)) (s := src + 4 * (n / 4)) t' (by omega)
    have hlength : (m.bytes src (4 * (n / 4))).length = 4 * (n / 4) := length_bytes ..
    rw [hwords.bytes (by omega)] at hrest
    have hall := hwords.trans (by rw [hlength]; exact hrest)
    rw [← bytes_add, div_add_mod] at hall
    rw [hloop]
    exact hall
  · exact byteLoop_wrote { mem := m } (by omega)

private theorem memcpy_ret (t : Traced) (h : dest + n ≤ src ∨ src + n ≤ dest) :
    (memcpy t dest src n).2 = dest ↔ n < 4 ∨ dest % 4 ≠ 0 ∨ src % 4 ≠ 0 := by
  rw [memcpy]
  split
  · next hwords =>
    obtain ⟨t', hloop, -⟩ := wordLoop_wrote t (n / 4) (mod_lt n (by decide : 4 > 0)) (by rw [div_add_mod]; exact h)
    rw [div_add_mod] at hloop
    rw [hloop]
    dsimp only
    omega
  · next hwords =>
    refine iff_of_true rfl ?_
    omega

private theorem memmove_right (m : Memory) (dest src n : ℕ) : Right m dest (m.bytes src n) (memmove { mem := m } dest src n) := by
  rw [memmove]
  split
  · next hlt => exact ⟨byteLoop_wrote { mem := m } (.inl (le_of_lt hlt)), rfl⟩
  · next hle => exact ⟨backLoop_wrote { mem := m } (not_lt.mp hle), rfl⟩

private theorem strncpy_wrote (m : Memory) (h : dest + n ≤ src ∨ src + stringSpan m src n ≤ dest) :
    Wrote { mem := m } (strncpy { mem := m } dest src n).1 dest
      (stringField m src n ++ if (m.cstr src n).length < n then [0] else []) := by
  obtain ⟨t', hloop, hstring⟩ := stringLoop_wrote { mem := m } h
  have hlength : ((m.cstr src n).map Subtype.val ++ if (m.cstr src n).length < n then [0] else [] : List UInt8).length = stringSpan m src n := by
    have hle := cstr_length_le m src n
    rw [length_append, length_map, stringSpan]
    split
    · rw [length_singleton]
      omega
    · rw [length_nil]
      omega
  have hall := hstring.trans (by rw [hlength]; exact zeroLoop_wrote t' (dest + stringSpan m src n) (n - (m.cstr src n).length))
  rw [strncpy, hloop]
  rw [stringField]
  split at hall
  · next hlt =>
    rw [if_pos hlt, append_assoc, ← replicate_succ', replicate_succ]
    rw [append_assoc] at hall
    exact hall
  · next hge =>
    rw [if_neg hge, append_nil]
    rw [append_nil] at hall
    exact hall

private theorem length_cstr_eq_iff : (m.cstr src n).length = n ↔ ∀ i < n, m (src + i) ≠ 0 := by
  induction n generalizing src with
  | zero => exact iff_of_true rfl nofun
  | succ n ih =>
    by_cases hc : m src = 0
    · rw [cstr_succ_of_zero hc]
      exact iff_of_false nofun fun h => h 0 (succ_pos n) hc
    · rw [cstr_succ_of_ne hc rfl, length_cons, add_right_cancel_iff, ih]
      constructor
      · intro h i hi
        cases i with
        | zero => exact hc
        | succ i =>
          rw [add_comm i 1, ← add_assoc]
          exact h i (lt_of_succ_lt_succ hi)
      · intro h i hi
        rw [add_assoc, add_comm 1]
        exact h (i + 1) (succ_lt_succ hi)

/-- With a terminator among the first `n` characters one byte too many is written. -/
theorem strncpy_right_iff (m : Memory) (h : dest + n ≤ src ∨ src + stringSpan m src n ≤ dest) :
    Right m dest (stringField m src n) (strncpy { mem := m } dest src n) ↔ ∀ i < n, m (src + i) ≠ 0 := by
  have hwrote := strncpy_wrote m h
  have hle := cstr_length_le m src n
  rw [← length_cstr_eq_iff]
  constructor
  · intro hright
    have hlength := hwrote.length_unique hright.wrote
    rw [length_append] at hlength
    split at hlength
    · rw [length_singleton] at hlength
      omega
    · omega
  · intro hall
    rw [if_neg (by omega), append_nil] at hwrote
    exact ⟨hwrote, rfl⟩

/-- The three copies: `memcpy` returns its destination unless it copies words, `memmove` is right for every overlap, and
`strncpy` is right for strings that fill the field. -/
theorem copies_right_iff (m : Memory) (dest src n : ℕ) :
    (dest + n ≤ src ∨ src + n ≤ dest →
      (Right m dest (m.bytes src n) (memcpy { mem := m } dest src n) ↔ n < 4 ∨ dest % 4 ≠ 0 ∨ src % 4 ≠ 0)) ∧
    Right m dest (m.bytes src n) (memmove { mem := m } dest src n) ∧
    (dest + n ≤ src ∨ src + stringSpan m src n ≤ dest →
      (Right m dest (stringField m src n) (strncpy { mem := m } dest src n) ↔ ∀ i < n, m (src + i) ≠ 0)) := by
  refine ⟨fun h => ?_, memmove_right m dest src n, strncpy_right_iff m⟩
  rw [← memcpy_ret { mem := m } h]
  exact ⟨Right.ret, fun hret => ⟨memcpy_wrote m h, hret⟩⟩

theorem copies_right_iff_words :
    ¬ Right (fun _ => 1) 0x1000 (bytes (fun _ => 1) 0x2000 8) (memcpy { mem := fun _ => 1 } 0x1000 0x2000 8) ∧
      Right (fun _ => 1) 0x1000 (stringField (fun _ => 1) 0x2000 2) (strncpy { mem := fun _ => 1 } 0x1000 0x2000 2) := by
  obtain ⟨hmemcpy, -, -⟩ := copies_right_iff (fun _ => 1) 0x1000 0x2000 8
  obtain ⟨-, -, hstrncpy⟩ := copies_right_iff (fun _ => 1) 0x1000 0x2000 2
  exact ⟨fun h => by have := (hmemcpy (by decide)).mp h; omega, (hstrncpy (by decide)).mpr fun _ _ => by decide⟩

/-- A copy of one word returns the end of its destination, and a field of two bytes for an empty string takes three. -/
theorem copies_wrong : ¬ Right (fun _ => 0) 0x1000 (bytes (fun _ => 0) 0x2000 4) (memcpy { mem := fun _ => 0 } 0x1000 0x2000 4) ∧
    ¬ Right (fun _ => 0) 0x1000 (stringField (fun _ => 0) 0x2000 2) (strncpy { mem := fun _ => 0 } 0x1000 0x2000 2) := by
  constructor
  · intro h
    have hret : 0x1000 + 4 = 0x1000 := h.ret
    omega
  · intro h
    have hwritten := (h.wrote.written 0x1002).mp (by decide)
    simp only [not_mem_nil, false_or] at hwritten
    have hlength : (stringField (fun _ => 0) 0x2000 2).length = 2 := rfl
    omega

end RetroOs.Kernel.StringCopies
