import RetroOs.Lib.BitString
import RetroOs.Lib.Loop

/-! Base64: the two directions of the user programs, the encoding that they are to compute, and that one undoes the other.
Bytes outside of the input cannot be read. -/
namespace RetroOs.Apps.Base64
open Lib Lib.BitString List Option Function

def base64Chars : List UInt8 :=
  "ABCDEFGHIJKLMNOPQRSTUVWXYZabcdefghijklmnopqrstuvwxyz0123456789+/".toList.map fun c => c.toNat.toUInt8

def base64Char (i : UInt8) : UInt8 := base64Chars.getD i.toNat 0

def padding : UInt8 := 0x3D

/-- The index of a character from the end of one byte and the beginning of the next. -/
def second (a b : UInt8) : UInt8 := (a &&& 3) <<< 4 ||| b >>> 4

def third (b c : UInt8) : UInt8 := (b &&& 15) <<< 2 ||| c >>> 6

def encodeTurn (inp : List UInt8) (inlen : UInt32) : UInt32 × List UInt8 → Option (Turn (UInt32 × List UInt8) (UInt32 × List UInt8))
  | (i, out) =>
    if i + 2 < inlen then do
      let a ← inp[i.toNat]?
      let b ← inp[(i + 1).toNat]?
      let c ← inp[(i + 2).toNat]?
      some (.again (i + 3, out ++ [base64Char (a >>> 2), base64Char (second a b), base64Char (third b c), base64Char (c &&& 63)]))
    else some (.done (i, out))

/-- What is written for the one or two bytes that are left. -/
def encodeLast (inp : List UInt8) (inlen i : UInt32) : Option (List UInt8) :=
  if i < inlen then do
    let a ← inp[i.toNat]?
    if i + 1 < inlen then
      let b ← inp[(i + 1).toNat]?
      some [base64Char (a >>> 2), base64Char (second a b), base64Char ((b &&& 15) <<< 2), padding]
    else some [base64Char (a >>> 2), base64Char ((a &&& 3) <<< 4), padding, padding]
  else some []

/-- What is written, with the terminator, and the length that is returned. -/
def base64Encode (inp : List UInt8) (inlen : UInt32) : Option (List UInt8 × UInt32) := do
  let (i, out) ← loop (encodeTurn inp inlen) (inlen.toNat + 1) (0, [])
  let last ← encodeLast inp inlen i
  let out := out ++ last
  some (out ++ [0], UInt32.ofNat out.length)

def base64DecodeChar (c : UInt8) : BitVec 32 :=
  if 0x41 ≤ c ∧ c ≤ 0x5A then (c - 0x41).toBitVec.zeroExtend 32
  else if 0x61 ≤ c ∧ c ≤ 0x7A then (c - 0x61).toBitVec.zeroExtend 32 + 26
  else if 0x30 ≤ c ∧ c ≤ 0x39 then (c - 0x30).toBitVec.zeroExtend 32 + 52
  else if c = 0x2B then 62
  else if c = 0x2F then 63
  else -1

/-- `in`, the array `v`, and what is written. -/
structure Decoder where
  pos : ℕ
  v : ℕ → BitVec 32
  out : List UInt8

/-- `for (int i = 0; i < 4 && *in; i++)`, with `n` turns left. -/
def takeQuartet (inp : List UInt8) : ℕ → ℕ → ℕ → (ℕ → BitVec 32) → Option (ℕ × (ℕ → BitVec 32))
  | 0, _, pos, v => some (pos, v)
  | n + 1, i, pos, v => do
    let c ← inp[pos]?
    if c = 0 then some (pos, v)
    else takeQuartet inp n (i + 1) (pos + 1) (update v i (if c = padding then 0 else base64DecodeChar c))

def lowByte (x : BitVec 32) : UInt8 := ⟨x.setWidth 8⟩

def lookBack (inp : List UInt8) (pos k : ℕ) : Option UInt8 := if k ≤ pos then inp[pos - k]? else none

def decodeTurn (inp : List UInt8) (s : Decoder) : Option (Turn Decoder (List UInt8)) := do
  let c ← inp[s.pos]?
  if c = 0 then some (.done s.out)
  else
    let (pos, v) ← takeQuartet inp 4 0 s.pos s.v
    let out := s.out ++ [lowByte (v 0 <<< 2 ||| (v 1).sshiftRight 4)]
    let c2 ← lookBack inp pos 2
    let out := if c2 ≠ padding then out ++ [lowByte (v 1 <<< 4 ||| (v 2).sshiftRight 2)] else out
    let c1 ← lookBack inp pos 1
    let out := if c1 ≠ padding then out ++ [lowByte (v 2 <<< 6 ||| v 3)] else out
    some (.again { pos, v, out })

def Decoder.start (v : ℕ → BitVec 32) : Decoder := { pos := 0, v, out := [] }

def base64Decode (inp : List UInt8) (v : ℕ → BitVec 32) : Option (List UInt8 × UInt32) := do
  let out ← loop (decodeTurn inp) (inp.length + 1) (.start v)
  some (out, UInt32.ofNat out.length)

/-! ### The encoding -/

/-- The bits of the input in groups of six, a character for each group, and padding to a multiple of four characters. -/
def rfc4648 (inp : List UInt8) : List UInt8 :=
  let sextets := groups 6 (inp.flatMap fun b => bits 8 b.toNat)
  sextets.map (fun g => base64Char (UInt8.ofNat (value g))) ++ replicate ((4 - sextets.length % 4) % 4) padding

/-- The characters for three bytes, and for what is left at the end. -/
def quartets : List UInt8 → List UInt8
  | [] => []
  | [a] => [base64Char (a >>> 2), base64Char ((a &&& 3) <<< 4), padding, padding]
  | [a, b] => [base64Char (a >>> 2), base64Char (second a b), base64Char ((b &&& 15) <<< 2), padding]
  | a :: b :: c :: rest =>
    [base64Char (a >>> 2), base64Char (second a b), base64Char (third b c), base64Char (c &&& 63)] ++ quartets rest

variable {inp out text rest : List UInt8} {a b c : UInt8} {inlen i : UInt32} {x y k n pos : ℕ} {s t : Decoder} {v : ℕ → BitVec 32}

/-! ### The indices -/

theorem or_eq_add (x : ℕ) (h : y < 2 ^ k) : x * 2 ^ k ||| y = x * 2 ^ k + y := by
  rw [← Nat.shiftLeft_eq, Nat.shiftLeft_add_eq_or_of_lt h]

theorem toNat_first (a : UInt8) : (a >>> 2).toNat = a.toNat / 4 := by
  rw [UInt8.toNat_shiftRight, Nat.shiftRight_eq_div_pow]
  rfl

theorem toNat_and_mask (a : UInt8) {m : UInt8} (k : ℕ) (h : m.toNat = 2 ^ k - 1) : (a &&& m).toNat = a.toNat % 2 ^ k := by
  rw [UInt8.toNat_and, h, Nat.and_two_pow_sub_one_eq_mod]

theorem toNat_and_3 (a : UInt8) : ((a &&& 3) <<< 4).toNat = a.toNat % 4 * 16 := by
  rw [UInt8.toNat_shiftLeft, toNat_and_mask a 2 rfl, Nat.shiftLeft_eq]
  exact Nat.mod_eq_of_lt (by change a.toNat % 4 * 16 < 256; omega)

theorem toNat_and_15 (b : UInt8) : ((b &&& 15) <<< 2).toNat = b.toNat % 16 * 4 := by
  rw [UInt8.toNat_shiftLeft, toNat_and_mask b 4 rfl, Nat.shiftLeft_eq]
  exact Nat.mod_eq_of_lt (by change b.toNat % 16 * 4 < 256; omega)

theorem toNat_second (a b : UInt8) : (second a b).toNat = a.toNat % 4 * 16 + b.toNat / 16 := by
  have hb := b.toNat_lt
  rw [second, UInt8.toNat_or, toNat_and_3, UInt8.toNat_shiftRight, Nat.shiftRight_eq_div_pow]
  exact or_eq_add (k := 4) _ (by change b.toNat / 16 < 16; omega)

theorem toNat_third (b c : UInt8) : (third b c).toNat = b.toNat % 16 * 4 + c.toNat / 64 := by
  have hc := c.toNat_lt
  rw [third, UInt8.toNat_or, toNat_and_15, UInt8.toNat_shiftRight, Nat.shiftRight_eq_div_pow]
  exact or_eq_add (k := 2) _ (by change c.toNat / 64 < 4; omega)

theorem toNat_fourth (c : UInt8) : (c &&& 63).toNat = c.toNat % 64 := toNat_and_mask c 6 rfl

/-! ### The characters are those of the encoding -/

theorem groupChar (h : a.toNat = x % 64) : base64Char (UInt8.ofNat (value (bits 6 x))) = base64Char a := by
  rw [value_bits, show 2 ^ 6 = 64 from rfl, ← h, UInt8.ofNat_toNat]

private theorem groups_triple (a b c : UInt8) (bs : List Bool) :
    groups 6 (bits 8 a.toNat ++ (bits 8 b.toNat ++ (bits 8 c.toNat ++ bs))) =
      bits 6 (a.toNat / 4) :: bits 6 (a.toNat * 16 + b.toNat / 16) :: bits 6 (b.toNat * 4 + c.toNat / 64) :: bits 6 c.toNat :: groups 6 bs := by
  have ha : bits 8 a.toNat = bits 6 (a.toNat / 4) ++ bits 2 a.toNat := bits_add 6 2 _
  have hb : bits 8 b.toNat = bits 4 (b.toNat / 16) ++ bits 4 b.toNat := bits_add 4 4 _
  have hc : bits 8 c.toNat = bits 2 (c.toNat / 64) ++ bits 6 c.toNat := bits_add 2 6 _
  have hab : bits 2 a.toNat ++ bits 4 (b.toNat / 16) = bits 6 (a.toNat * 16 + b.toNat / 16) :=
    bits_append _ (by have := b.toNat_lt; omega)
  have hbc : bits 4 b.toNat ++ bits 2 (c.toNat / 64) = bits 6 (b.toNat * 4 + c.toNat / 64) :=
    bits_append _ (by have := c.toNat_lt; omega)
  rw [ha, hb, hc, List.append_assoc, List.append_assoc, List.append_assoc, groups_append (by decide) (length_bits 6 _),
    ← List.append_assoc (bits 2 _), hab, groups_append (by decide) (length_bits 6 _), ← List.append_assoc (bits 4 _), hbc,
    groups_append (by decide) (length_bits 6 _), groups_append (by decide) (length_bits 6 _)]

private theorem groups_one (a : UInt8) : groups 6 (bits 8 a.toNat) = [bits 6 (a.toNat / 4), bits 6 (a.toNat * 16)] := by
  have ha : bits 8 a.toNat = bits 6 (a.toNat / 4) ++ bits 2 a.toNat := bits_add 6 2 _
  rw [ha, groups_append (by decide) (length_bits 6 _), groups_bits (by decide) (by decide)]
  rfl

private theorem groups_two (a b : UInt8) : groups 6 (bits 8 a.toNat ++ bits 8 b.toNat) =
    [bits 6 (a.toNat / 4), bits 6 (a.toNat * 16 + b.toNat / 16), bits 6 (b.toNat * 4)] := by
  have ha : bits 8 a.toNat = bits 6 (a.toNat / 4) ++ bits 2 a.toNat := bits_add 6 2 _
  have hb : bits 8 b.toNat = bits 4 (b.toNat / 16) ++ bits 4 b.toNat := bits_add 4 4 _
  have hab : bits 2 a.toNat ++ bits 4 (b.toNat / 16) = bits 6 (a.toNat * 16 + b.toNat / 16) :=
    bits_append _ (by have := b.toNat_lt; omega)
  rw [ha, hb, List.append_assoc, groups_append (by decide) (length_bits 6 _), ← List.append_assoc (bits 2 _), hab,
    groups_append (by decide) (length_bits 6 _), groups_bits (by decide) (by decide)]
  rfl

private theorem rfc4648_triple (a b c : UInt8) (rest : List UInt8) : rfc4648 (a :: b :: c :: rest) =
    [base64Char (a >>> 2), base64Char (second a b), base64Char (third b c), base64Char (c &&& 63)] ++ rfc4648 rest := by
  have h1 := groupChar (a := a >>> 2) (x := a.toNat / 4) (by rw [toNat_first]; have := a.toNat_lt; omega)
  have h2 := groupChar (a := second a b) (x := a.toNat * 16 + b.toNat / 16) (by rw [toNat_second]; have := b.toNat_lt; omega)
  have h3 := groupChar (a := third b c) (x := b.toNat * 4 + c.toNat / 64) (by rw [toNat_third]; have := c.toNat_lt; omega)
  have h4 := groupChar (a := c &&& 63) (x := c.toNat) (toNat_fourth c)
  simp only [rfc4648, List.flatMap_cons, groups_triple, List.map_cons, h1, h2, h3, h4, List.length_cons, List.cons_append,
    List.nil_append, Nat.add_assoc, Nat.add_mod_right]

private theorem quartets_eq (inp : List UInt8) : quartets inp = rfc4648 inp := by
  fun_induction quartets inp with
  | case1 => rw [rfc4648, flatMap_nil, groups_nil]; rfl
  | case2 a =>
    have h1 := groupChar (a := a >>> 2) (x := a.toNat / 4) (by rw [toNat_first]; have := a.toNat_lt; omega)
    have h2 := groupChar (a := (a &&& 3) <<< 4) (x := a.toNat * 16) (by rw [toNat_and_3]; omega)
    simp only [rfc4648, flatMap_cons, flatMap_nil, append_nil, groups_one, map_cons, map_nil, h1, h2]
    rfl
  | case3 a b =>
    have h1 := groupChar (a := a >>> 2) (x := a.toNat / 4) (by rw [toNat_first]; have := a.toNat_lt; omega)
    have h2 := groupChar (a := second a b) (x := a.toNat * 16 + b.toNat / 16) (by rw [toNat_second]; have := b.toNat_lt; omega)
    have h3 := groupChar (a := (b &&& 15) <<< 2) (x := b.toNat * 4) (by rw [toNat_and_15]; omega)
    simp only [rfc4648, flatMap_cons, flatMap_nil, append_nil, groups_two, map_cons, map_nil, h1, h2, h3]
    rfl
  | case4 a b c rest ih => rw [rfc4648_triple, ih]

private theorem length_quartets (inp : List UInt8) : (quartets inp).length = 4 * ((inp.length + 2) / 3) := by
  fun_induction quartets inp with
  | case1 => rfl
  | case2 a => simp
  | case3 a b => simp
  | case4 a b c rest ih =>
    rw [length_append, ih]
    simp only [length_cons, length_nil]
    omega

/-! ### The encoder -/

/-- What the encoder has written, and what it is to write for the rest. -/
def Encoding (inp : List UInt8) : UInt32 × List UInt8 → Prop
  | (i, out) => i.toNat ≤ inp.length ∧ quartets inp = out ++ quartets (inp.drop i.toNat)

theorem toNat_add_of_lt (h : i.toNat + k < 2 ^ 32) : (i + UInt32.ofNat k).toNat = i.toNat + k := by
  rw [UInt32.toNat_add, UInt32.toNat_ofNat', Nat.add_mod_mod, Nat.mod_eq_of_lt h]

private theorem encodeTurn_spec (hlen : inp.length < 2 ^ 31) (hin : inlen.toNat = inp.length) (s : UInt32 × List UInt8) (h : Encoding inp s) :
    ∃ r ∈ encodeTurn inp inlen s, r.Meets (fun t => Encoding inp t ∧ inp.length - t.1.toNat < inp.length - s.1.toNat)
      (fun t => Encoding inp t ∧ inp.length < t.1.toNat + 3) := by
  obtain ⟨i, out⟩ := s
  obtain ⟨hi, hout⟩ := h
  have h2 : (i + 2).toNat = i.toNat + 2 := toNat_add_of_lt (k := 2) (by omega)
  rw [encodeTurn]
  split
  · next hlt =>
    rw [UInt32.lt_iff_toNat_lt, h2, hin] at hlt
    have h1 : (i + 1).toNat = i.toNat + 1 := toNat_add_of_lt (k := 1) (by omega)
    have h3 : (i + 3).toNat = i.toNat + 3 := toNat_add_of_lt (k := 3) (by omega)
    have hdrop : inp.drop i.toNat = inp[i.toNat] :: inp[i.toNat + 1] :: inp[i.toNat + 2] :: inp.drop (i.toNat + 3) := by
      rw [List.drop_eq_getElem_cons (by omega), List.drop_eq_getElem_cons (by omega), List.drop_eq_getElem_cons (by omega)]
    rw [hdrop, quartets, ← List.append_assoc] at hout
    rw [h1, h2, List.getElem?_eq_getElem (by omega), List.getElem?_eq_getElem (by omega), List.getElem?_eq_getElem (by omega)]
    refine ⟨_, rfl, ⟨?_, ?_⟩, ?_⟩
    · rw [h3]
      omega
    · rw [h3]
      exact hout
    · dsimp only
      rw [h3]
      omega
  · next hge =>
    rw [UInt32.lt_iff_toNat_lt, h2, hin] at hge
    exact ⟨_, rfl, ⟨hi, hout⟩, by dsimp only; omega⟩

private theorem encodeLast_eq (hlen : inp.length < 2 ^ 31) (hin : inlen.toNat = inp.length) (hi : i.toNat ≤ inp.length) (hlast : inp.length < i.toNat + 3) :
    encodeLast inp inlen i = some (quartets (inp.drop i.toNat)) := by
  have h1 : (i + 1).toNat = i.toNat + 1 := toNat_add_of_lt (k := 1) (by omega)
  rw [encodeLast]
  simp only [UInt32.lt_iff_toNat_lt, h1, hin]
  split
  · next hlt =>
    rw [List.getElem?_eq_getElem hlt, List.drop_eq_getElem_cons hlt]
    dsimp only [Option.bind_eq_bind, Option.bind_some]
    split
    · next hlt1 =>
      rw [List.getElem?_eq_getElem hlt1, List.drop_eq_getElem_cons hlt1, List.drop_eq_nil_of_le (by omega)]
      rfl
    · rw [List.drop_eq_nil_of_le (by omega)]
      rfl
  · rw [List.drop_eq_nil_of_le (by omega)]
    rfl

private theorem base64Encode_eq (hlen : inp.length < 2 ^ 31) : base64Encode inp (UInt32.ofNat inp.length) =
    some (quartets inp ++ [0], UInt32.ofNat (quartets inp).length) := by
  have hin : (UInt32.ofNat inp.length).toNat = inp.length := by
    rw [UInt32.toNat_ofNat', Nat.mod_eq_of_lt (by omega)]
  obtain ⟨⟨i, out⟩, hloop, ⟨hi, hout⟩, hlast⟩ := loop_spec (n := (UInt32.ofNat inp.length).toNat + 1) (s := (0, [])) (Encoding inp)
    (fun s => inp.length - s.1.toNat) (encodeTurn_spec hlen hin) ⟨Nat.zero_le _, rfl⟩ (by rw [hin]; exact Nat.lt_succ_of_le (Nat.sub_le _ _))
  rw [base64Encode, mem_def.mp hloop]
  dsimp only [bind_eq_bind, bind_some]
  rw [encodeLast_eq hlen hin hi hlast, bind_some, ← hout]

/-! ### The decoder -/

/-- The number that the decoder takes for a character. -/
def charValue (c : UInt8) : BitVec 32 := if c = padding then 0 else base64DecodeChar c

theorem base64Char_spec (h : a.toNat < 64) :
    charValue (base64Char a) = BitVec.ofNat 32 a.toNat ∧ base64Char a ≠ padding ∧ base64Char a ≠ 0 := by
  have hall : ∀ x : Fin 64, charValue (base64Char (UInt8.ofNat x.val)) = BitVec.ofNat 32 x.val ∧
      base64Char (UInt8.ofNat x.val) ≠ padding ∧ base64Char (UInt8.ofNat x.val) ≠ 0 := by decide +kernel
  have hx := hall ⟨a.toNat, h⟩
  rwa [UInt8.ofNat_toNat] at hx

/-- The bytes for four characters. -/
def quartetBytes (c0 c1 c2 c3 : UInt8) : List UInt8 :=
  [lowByte (charValue c0 <<< 2 ||| (charValue c1).sshiftRight 4)] ++
    (if c2 ≠ padding then [lowByte (charValue c1 <<< 4 ||| (charValue c2).sshiftRight 2)] else []) ++
    (if c3 ≠ padding then [lowByte (charValue c2 <<< 6 ||| charValue c3)] else [])

theorem takeQuartet_succ (h : inp[pos]? = some c) (hc : c ≠ 0) (n k : ℕ) (v : ℕ → BitVec 32) :
    takeQuartet inp (n + 1) k pos v = takeQuartet inp n (k + 1) (pos + 1) (update v k (charValue c)) := by
  rw [takeQuartet, h]
  exact if_neg hc

private theorem takeQuartet_four {c0 c1 c2 c3 : UInt8} (h : inp.drop pos = c0 :: c1 :: c2 :: c3 :: rest) (hne : ∀ c ∈ [c0, c1, c2, c3], c ≠ 0) :
    ∃ w, takeQuartet inp 4 0 pos v = some (pos + 4, w) ∧
      w 0 = charValue c0 ∧ w 1 = charValue c1 ∧ w 2 = charValue c2 ∧ w 3 = charValue c3 := by
  have hget (k : ℕ) : inp[pos + k]? = (c0 :: c1 :: c2 :: c3 :: rest)[k]? := by rw [← h, getElem?_drop]
  simp only [mem_cons, not_mem_nil, or_false, forall_eq_or_imp, forall_eq] at hne
  obtain ⟨h0, h1, h2, h3⟩ := hne
  let w := update (update (update (update v 0 (charValue c0)) 1 (charValue c1)) 2 (charValue c2)) 3
    (charValue c3)
  refine ⟨w, ?_, rfl, rfl, rfl, rfl⟩
  exact (takeQuartet_succ (hget 0) h0 3 0 v).trans ((takeQuartet_succ (hget 1) h1 2 1 _).trans
    ((takeQuartet_succ (hget 2) h2 1 2 _).trans (takeQuartet_succ (hget 3) h3 0 3 _)))

private theorem decodeTurn_quartet {c0 c1 c2 c3 : UInt8} (h : inp.drop s.pos = c0 :: c1 :: c2 :: c3 :: rest)
    (hne : ∀ c ∈ [c0, c1, c2, c3], c ≠ 0) :
    ∃ v, decodeTurn inp s = some (.again { pos := s.pos + 4, v, out := s.out ++ quartetBytes c0 c1 c2 c3 }) := by
  have hget (k : ℕ) : inp[s.pos + k]? = (c0 :: c1 :: c2 :: c3 :: rest)[k]? := by rw [← h, List.getElem?_drop]
  obtain ⟨w, htake, hw0, hw1, hw2, hw3⟩ := takeQuartet_four (v := s.v) h hne
  have hback2 : lookBack inp (s.pos + 4) 2 = some c2 := (if_pos (by omega)).trans (hget 2)
  have hback1 : lookBack inp (s.pos + 4) 1 = some c3 := (if_pos (by omega)).trans (hget 3)
  refine ⟨w, ?_⟩
  rw [decodeTurn, show inp[s.pos]? = some c0 from hget 0]
  dsimp only [Option.bind_eq_bind, Option.bind_some]
  rw [if_neg (hne c0 (List.mem_cons_self ..)), htake, Option.bind_some]
  dsimp only
  rw [hback2, hback1, Option.bind_some, Option.bind_some, hw0, hw1, hw2, hw3, quartetBytes]
  split <;> split <;> simp only [List.append_assoc, List.append_nil]

private theorem lowByte_or (hk : k ≤ 6) (hx : x < 64) (hy : y < 2 ^ k) :
    lowByte (BitVec.ofNat 32 x <<< k ||| BitVec.ofNat 32 y) = UInt8.ofNat (x * 2 ^ k + y) := by
  have hpow : 2 ^ k ≤ 2 ^ 6 := Nat.pow_le_pow_right (by decide) hk
  have hmul : x * 2 ^ k ≤ 63 * 2 ^ 6 := Nat.mul_le_mul (by omega) hpow
  rw [← UInt8.toNat_inj, UInt8.toNat_ofNat']
  change ((BitVec.ofNat 32 x <<< k ||| BitVec.ofNat 32 y).setWidth 8).toNat = _
  rw [BitVec.toNat_setWidth, BitVec.toNat_or, BitVec.toNat_shiftLeft, BitVec.toNat_ofNat, BitVec.toNat_ofNat, Nat.shiftLeft_eq,
    Nat.mod_eq_of_lt (a := x) (by omega), Nat.mod_eq_of_lt (a := x * 2 ^ k) (by omega), Nat.mod_eq_of_lt (a := y) (by omega),
    or_eq_add x hy]

private theorem sshiftRight_small (hx : x < 64) (k : ℕ) : (BitVec.ofNat 32 x).sshiftRight k = BitVec.ofNat 32 (x / 2 ^ k) := by
  have hmsb : (BitVec.ofNat 32 x).msb = false := by
    rw [BitVec.msb_eq_false_iff_two_mul_lt, BitVec.toNat_ofNat, Nat.mod_eq_of_lt (by omega)]
    omega
  have hdiv : x / 2 ^ k ≤ x := Nat.div_le_self x _
  rw [BitVec.sshiftRight_eq_of_msb_false hmsb, ← BitVec.toNat_inj, BitVec.toNat_ushiftRight, BitVec.toNat_ofNat, BitVec.toNat_ofNat,
    Nat.shiftRight_eq_div_pow, Nat.mod_eq_of_lt (by omega), Nat.mod_eq_of_lt (by omega)]

theorem joined (hx : x < 64) (hy : y < 64) (j : ℕ) (hk : k ≤ 6) (hj : y / 2 ^ j < 2 ^ k) (ha : (x * 2 ^ k + y / 2 ^ j) % 256 = a.toNat) :
    lowByte (BitVec.ofNat 32 x <<< k ||| (BitVec.ofNat 32 y).sshiftRight j) = a := by
  rw [sshiftRight_small hy, lowByte_or hk hx hj, ← UInt8.toNat_inj, UInt8.toNat_ofNat']
  exact ha

theorem charValue_first (a : UInt8) : charValue (base64Char (a >>> 2)) = BitVec.ofNat 32 (a.toNat / 4) := by
  have ha := a.toNat_lt
  rw [(base64Char_spec (by rw [toNat_first]; omega)).1, toNat_first]

private theorem quartetBytes_triple (a b c : UInt8) :
    quartetBytes (base64Char (a >>> 2)) (base64Char (second a b)) (base64Char (third b c)) (base64Char (c &&& 63)) = [a, b, c] := by
  have ha := a.toNat_lt
  have hb := b.toNat_lt
  have hc := c.toNat_lt
  obtain ⟨h1, -, -⟩ := base64Char_spec (a := second a b) (by rw [toNat_second]; omega)
  obtain ⟨h2, hne2, -⟩ := base64Char_spec (a := third b c) (by rw [toNat_third]; omega)
  obtain ⟨h3, hne3, -⟩ := base64Char_spec (a := c &&& 63) (by rw [toNat_fourth]; omega)
  have hbyte0 := joined (a := a) (x := a.toNat / 4) (y := a.toNat % 4 * 16 + b.toNat / 16) (k := 2) (by omega) (by omega) 4 (by decide)
    (by omega) (by omega)
  have hbyte1 := joined (a := b) (x := a.toNat % 4 * 16 + b.toNat / 16) (y := b.toNat % 16 * 4 + c.toNat / 64) (k := 4) (by omega)
    (by omega) 2 (by decide) (by omega) (by omega)
  have hbyte2 := joined (a := c) (x := b.toNat % 16 * 4 + c.toNat / 64) (y := c.toNat % 64) (k := 6) (by omega) (by omega) 0 (by decide)
    (by omega) (by omega)
  rw [BitVec.sshiftRight_zero] at hbyte2
  rw [quartetBytes, if_pos hne2, if_pos hne3, charValue_first, h1, h2, h3, toNat_second, toNat_third, toNat_fourth, hbyte0, hbyte1, hbyte2]
  rfl

private theorem quartetBytes_two (a b : UInt8) :
    quartetBytes (base64Char (a >>> 2)) (base64Char (second a b)) (base64Char ((b &&& 15) <<< 2)) padding = [a, b] := by
  have ha := a.toNat_lt
  have hb := b.toNat_lt
  obtain ⟨h1, -, -⟩ := base64Char_spec (a := second a b) (by rw [toNat_second]; omega)
  obtain ⟨h2, hne2, -⟩ := base64Char_spec (a := (b &&& 15) <<< 2) (by rw [toNat_and_15]; omega)
  have hbyte0 := joined (a := a) (x := a.toNat / 4) (y := a.toNat % 4 * 16 + b.toNat / 16) (k := 2) (by omega) (by omega) 4 (by decide)
    (by omega) (by omega)
  have hbyte1 := joined (a := b) (x := a.toNat % 4 * 16 + b.toNat / 16) (y := b.toNat % 16 * 4) (k := 4) (by omega) (by omega) 2
    (by decide) (by omega) (by omega)
  rw [quartetBytes, if_pos hne2, if_neg (not_not.mpr rfl), charValue_first, h1, h2, toNat_second, toNat_and_15, hbyte0, hbyte1]
  rfl

private theorem quartetBytes_one (a : UInt8) :
    quartetBytes (base64Char (a >>> 2)) (base64Char ((a &&& 3) <<< 4)) padding padding = [a] := by
  have ha := a.toNat_lt
  obtain ⟨h1, -, -⟩ := base64Char_spec (a := (a &&& 3) <<< 4) (by rw [toNat_and_3]; omega)
  have hbyte0 := joined (a := a) (x := a.toNat / 4) (y := a.toNat % 4 * 16) (k := 2) (by omega) (by omega) 4 (by decide)
    (by omega) (by omega)
  rw [quartetBytes, if_neg (not_not.mpr rfl), charValue_first, h1, toNat_and_3, hbyte0]
  rfl

private theorem quartets_head (h : rest ≠ []) : ∃ c0 c1 c2 c3 group rest', rest = group ++ rest' ∧
    quartets rest = c0 :: c1 :: c2 :: c3 :: quartets rest' ∧ (∀ c ∈ [c0, c1, c2, c3], c ≠ 0) ∧ quartetBytes c0 c1 c2 c3 = group := by
  have hfirst (a : UInt8) : base64Char (a >>> 2) ≠ 0 := by
    have ha := a.toNat_lt
    exact (base64Char_spec (by rw [toNat_first]; omega)).2.2
  have hsecond (a b : UInt8) : base64Char (second a b) ≠ 0 := by
    have hb := b.toNat_lt
    exact (base64Char_spec (by rw [toNat_second]; omega)).2.2
  match rest with
  | [] => exact absurd rfl h
  | [a] =>
    refine ⟨_, _, _, _, [a], [], rfl, rfl, ?_, quartetBytes_one a⟩
    have h1 := (base64Char_spec (a := (a &&& 3) <<< 4) (by rw [toNat_and_3]; omega)).2.2
    simp [hfirst a, h1, padding]
  | [a, b] =>
    refine ⟨_, _, _, _, [a, b], [], rfl, rfl, ?_, quartetBytes_two a b⟩
    have h2 := (base64Char_spec (a := (b &&& 15) <<< 2) (by rw [toNat_and_15]; omega)).2.2
    simp [hfirst a, hsecond a b, h2, padding]
  | a :: b :: c :: rest =>
    refine ⟨_, _, _, _, [a, b, c], rest, rfl, rfl, ?_, quartetBytes_triple a b c⟩
    have hc := c.toNat_lt
    have h2 := (base64Char_spec (a := third b c) (by rw [toNat_third]; omega)).2.2
    have h3 := (base64Char_spec (a := c &&& 63) (by rw [toNat_fourth]; omega)).2.2
    simp [hfirst a, hsecond a b, h2, h3]

/-- What the decoder has written, and the bytes that the characters before it stand for. -/
def Decoding (inp : List UInt8) (s : Decoder) : Prop :=
  ∃ rest, inp = s.out ++ rest ∧ (quartets inp ++ [0]).drop s.pos = quartets rest ++ [0]

theorem decodeTurn_spec (h : Decoding inp s) : (s.out = inp ∧ decodeTurn (quartets inp ++ [0]) s = some (.done inp)) ∨
    ∃ t, decodeTurn (quartets inp ++ [0]) s = some (.again t) ∧ t.pos = s.pos + 4 ∧ t.pos ≤ (quartets inp).length ∧ Decoding inp t := by
  obtain ⟨rest, hout, hdrop⟩ := h
  by_cases hrest : rest = []
  · subst hrest
    rw [append_nil] at hout
    have hget : (quartets inp ++ [0])[s.pos]? = some 0 := by
      have hhead := congrArg head? hdrop
      rwa [head?_drop] at hhead
    refine .inl ⟨hout.symm, ?_⟩
    rw [decodeTurn, hget]
    dsimp only [bind_eq_bind, bind_some]
    rw [if_pos rfl, ← hout]
  · obtain ⟨c0, c1, c2, c3, group, rest', rfl, hquartets, hne, hbytes⟩ := quartets_head hrest
    rw [hquartets] at hdrop
    obtain ⟨v, hturn⟩ := decodeTurn_quartet hdrop hne
    have hnext : (quartets inp ++ [0]).drop (s.pos + 4) = quartets rest' ++ [0] := by
      rw [← drop_drop, hdrop]
      rfl
    refine .inr ⟨_, hturn, rfl, ?_, rest', ?_, hnext⟩
    · have hlen := congrArg length hnext
      rw [length_drop, length_append, length_append, length_singleton] at hlen
      dsimp only
      omega
    · rw [hbytes, List.append_assoc, ← hout]

/-- The states at the head of the loop. -/
def Reaches (text : List UInt8) : Decoder → Decoder → Prop := Relation.ReflTransGen fun s t => decodeTurn text s = some (.again t)

theorem Decoding.reaches (h : Decoding inp s) (hr : Reaches (quartets inp ++ [0]) s t) : Decoding inp t := by
  induction hr with
  | refl => exact h
  | tail _ hs ih =>
    rcases decodeTurn_spec ih with ⟨-, hdone⟩ | ⟨u, hturn, -, -, hu⟩
    · cases hdone.symm.trans hs
    · cases hturn.symm.trans hs
      exact hu

private theorem base64Decode_eq (inp : List UInt8) (v : ℕ → BitVec 32) :
    base64Decode (quartets inp ++ [0]) v = some (inp, UInt32.ofNat inp.length) := by
  have hturns (s : Decoder) (hs : Decoding inp s) : ∃ r ∈ decodeTurn (quartets inp ++ [0]) s,
      r.Meets (fun t => Decoding inp t ∧ (quartets inp).length - t.pos < (quartets inp).length - s.pos) (· = inp) := by
    rcases decodeTurn_spec hs with ⟨-, hdone⟩ | ⟨t, hturn, hpos, hle, ht⟩
    · exact ⟨_, hdone, rfl⟩
    · exact ⟨_, hturn, ht, by omega⟩
  have hfuel : (quartets inp).length - (Decoder.start v).pos < (quartets inp ++ [0]).length + 1 := by
    rw [List.length_append]
    omega
  obtain ⟨out, hloop, hout⟩ := loop_spec (Decoding inp) _ hturns ⟨inp, rfl, rfl⟩ hfuel
  rw [base64Decode, Option.mem_def.mp hloop, hout]
  rfl

/-- The encoder writes the encoding, the decoder gives back the bytes, and each of its turns, looking back by one and by two,
looks at characters of the quartet that it has just taken. -/
theorem base64_roundTrip (inp : List UInt8) (h : inp.length < 2 ^ 31) :
    ∃ text, base64Encode inp (UInt32.ofNat inp.length) = some (text ++ [0], UInt32.ofNat text.length) ∧
      text = rfc4648 inp ∧ text.length = 4 * ((inp.length + 2) / 3) ∧ text.length < 2 ^ 32 ∧
      ∀ v, base64Decode (text ++ [0]) v = some (inp, UInt32.ofNat inp.length) ∧
        ∀ s t, Reaches (text ++ [0]) (.start v) s → decodeTurn (text ++ [0]) s = some (.again t) →
          s.pos + 4 = t.pos ∧ t.pos ≤ text.length := by
  have hlen := length_quartets inp
  refine ⟨quartets inp, base64Encode_eq h, quartets_eq inp, hlen, by omega, fun v => ⟨base64Decode_eq inp v, fun s t hs ht => ?_⟩⟩
  have hstart : Decoding inp (.start v) := ⟨inp, rfl, rfl⟩
  rcases decodeTurn_spec (hstart.reaches hs) with ⟨-, hdone⟩ | ⟨u, hturn, hpos, hle, -⟩
  · cases hdone.symm.trans ht
  · cases hturn.symm.trans ht
    exact ⟨hpos.symm, hle⟩

/-- The five bytes of `fooba` make two quartets, the last with a character of padding. -/
theorem base64_roundTrip_fooba :
    let inp : List UInt8 := [0x66, 0x6F, 0x6F, 0x62, 0x61]
    ∃ text, base64Encode inp 5 = some (text ++ [0], 8) ∧ text = rfc4648 inp ∧ text.length = 8 ∧
      ∀ v, base64Decode (text ++ [0]) v = some (inp, 5) ∧
        ∀ s t, Reaches (text ++ [0]) (.start v) s → decodeTurn (text ++ [0]) s = some (.again t) →
          s.pos + 4 = t.pos ∧ t.pos ≤ 8 := by
  intro inp
  obtain ⟨text, hencode, htext, hlen, -, hdecode⟩ := base64_roundTrip inp (by decide)
  replace hlen : text.length = 8 := hlen.trans (by decide)
  rw [hlen] at hencode hdecode
  exact ⟨text, hencode, htext, hlen, hdecode⟩

end RetroOs.Apps.Base64
