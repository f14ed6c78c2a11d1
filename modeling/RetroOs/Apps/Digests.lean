import Mathlib.Data.UInt
import RetroOs.Lib.BlockStream
import RetroOs.Lib.Loop

/-! MD5 of the user programs: chunks of a message are taken in one after the other, and at the end the context gives the digest
of the padded message. -/
namespace RetroOs.Apps.Md5
open Lib Lib.BlockStream Option Nat UInt32

local instance neZero_block : NeZero 64 := ⟨by decide⟩

structure Md5Ctx where
  state : Vector UInt32 4
  count0 : UInt32
  count1 : UInt32
  buffer : Vector UInt8 64

def md5K : Vector UInt32 64 := #v[
  0xd76aa478, 0xe8c7b756, 0x242070db, 0xc1bdceee, 0xf57c0faf, 0x4787c62a,
  0xa8304613, 0xfd469501, 0x698098d8, 0x8b44f7af, 0xffff5bb1, 0x895cd7be,
  0x6b901122, 0xfd987193, 0xa679438e, 0x49b40821, 0xf61e2562, 0xc040b340,
  0x265e5a51, 0xe9b6c7aa, 0xd62f105d, 0x02441453, 0xd8a1e681, 0xe7d3fbc8,
  0x21e1cde6, 0xc33707d6, 0xf4d50d87, 0x455a14ed, 0xa9e3e905, 0xfcefa3f8,
  0x676f02d9, 0x8d2a4c8a, 0xfffa3942, 0x8771f681, 0x6d9d6122, 0xfde5380c,
  0xa4beea44, 0x4bdecfa9, 0xf6bb4b60, 0xbebfbc70, 0x289b7ec6, 0xeaa127fa,
  0xd4ef3085, 0x04881d05, 0xd9d4d039, 0xe6db99e5, 0x1fa27cf8, 0xc4ac5665,
  0xf4292244, 0x432aff97, 0xab9423a7, 0xfc93a039, 0x655b59c3, 0x8f0ccc92,
  0xffeff47d, 0x85845dd1, 0x6fa87e4f, 0xfe2ce6e0, 0xa3014314, 0x4e0811a1,
  0xf7537e82, 0xbd3af235, 0x2ad7d2bb, 0xeb86d391]

def md5S : Vector UInt32 64 := #v[
  7, 12, 17, 22, 7, 12, 17, 22, 7, 12, 17, 22, 7, 12, 17, 22,
  5, 9, 14, 20, 5, 9, 14, 20, 5, 9, 14, 20, 5, 9, 14, 20,
  4, 11, 16, 23, 4, 11, 16, 23, 4, 11, 16, 23, 4, 11, 16, 23,
  6, 10, 15, 21, 6, 10, 15, 21, 6, 10, 15, 21, 6, 10, 15, 21]

def rotl32 (x n : UInt32) : UInt32 := x <<< n ||| x >>> (32 - n)

/-- `m[i]`, from four bytes of the block. -/
def md5Word (block : Vector UInt8 64) (i : Fin 16) : UInt32 :=
  block[i.val * 4].toUInt32 ||| block[i.val * 4 + 1].toUInt32 <<< 8 ||| block[i.val * 4 + 2].toUInt32 <<< 16 |||
    block[i.val * 4 + 3].toUInt32 <<< 24

/-- One turn of the loop of `md5_transform`, with `a`, `b`, `c` and `d`. -/
def md5Round (m : Fin 16 → UInt32) : UInt32 × UInt32 × UInt32 × UInt32 → Fin 64 → UInt32 × UInt32 × UInt32 × UInt32
  | (a, b, c, d), i =>
    let (f, g) : UInt32 × ℕ :=
      if i.val < 16 then (b &&& c ||| ~~~b &&& d, i.val)
      else if i.val < 32 then (d &&& b ||| ~~~d &&& c, (5 * i.val + 1) % 16)
      else if i.val < 48 then (b ^^^ c ^^^ d, (3 * i.val + 5) % 16)
      else (c ^^^ (b ||| ~~~d), 7 * i.val % 16)
    (d, b + rotl32 (a + f + md5K.get i + m (Fin.ofNat 16 g)) (md5S.get i), b, c)

def md5Transform (state : Vector UInt32 4) (block : Vector UInt8 64) : Vector UInt32 4 :=
  let (a, b, c, d) := (List.finRange 64).foldl (md5Round (md5Word block)) (state[0], state[1], state[2], state[3])
  #v[state[0] + a, state[1] + b, state[2] + c, state[3] + d]

def md5Initial : Vector UInt32 4 := #v[0x67452301, 0xefcdab89, 0x98badcfe, 0x10325476]

/-- The buffer is not set. -/
def md5Init (ctx : Md5Ctx) : Md5Ctx := { ctx with state := md5Initial, count0 := 0, count1 := 0 }

def Md5Ctx.index (ctx : Md5Ctx) : UInt32 := ctx.count0 >>> 3 &&& 63

def md5UpdateTurn (data : List UInt8) (len : UInt32) :
    UInt32 × Vector UInt32 4 → Option (Turn (UInt32 × Vector UInt32 4) (UInt32 × Vector UInt32 4))
  | (j, state) =>
    if j + 63 < len then do
      let block ← blockAt 64 data j.toNat
      some (.again (j + 64, md5Transform state block))
    else some (.done (j, state))

def md5Update (ctx : Md5Ctx) (data : List UInt8) (len : UInt32) : Option Md5Ctx :=
  let i := ctx.index
  let count0 := ctx.count0 + len <<< 3
  let count1 := (if count0 < len <<< 3 then ctx.count1 + 1 else ctx.count1) + len >>> 29
  let part := 64 - i
  if part ≤ len then do
    let buffer ← copyInto ctx.buffer i.toNat data 0 part.toNat
    let (j, state) ← loop (md5UpdateTurn data len) (len.toNat + 1) (part, md5Transform ctx.state buffer)
    let buffer ← copyInto buffer 0 data j.toNat (len - j).toNat
    some { state, count0, count1, buffer }
  else do
    let buffer ← copyInto ctx.buffer i.toNat data 0 len.toNat
    some { ctx with count0, count1, buffer }

def wordBytes (w : UInt32) : List UInt8 := (List.range 4).map fun j => (w >>> ofNat (j * 8)).toUInt8

def md5Padding : List UInt8 := 0x80 :: List.replicate 63 0

/-- The digest that is written. -/
def md5Final (ctx : Md5Ctx) : Option (List UInt8) := do
  let bits := wordBytes ctx.count0 ++ wordBytes ctx.count1
  let index := ctx.index
  let padlen := if index < 56 then 56 - index else 120 - index
  let ctx ← md5Update ctx md5Padding padlen
  let ctx ← md5Update ctx bits 8
  some (ctx.state.toList.flatMap wordBytes)

def md5Hash (ctx : Md5Ctx) (data : List UInt8) (len : UInt32) : Option (List UInt8) := do
  let ctx ← md5Update (md5Init ctx) data len
  md5Final ctx

def md5Chunks (ctx : Md5Ctx) (chunks : List (List UInt8)) : Option (List UInt8) := do
  let ctx ← chunks.foldlM (fun ctx chunk => md5Update ctx chunk (ofNat chunk.length)) (md5Init ctx)
  md5Final ctx

def md5Digest (m : List UInt8) : List UInt8 :=
  ((blocks 64 (padded littleEndian m)).foldl md5Transform md5Initial).toList.flatMap wordBytes

/-- What a context knows of the message so far. -/
structure Md5Ctx.Took (ctx : Md5Ctx) (m : List UInt8) : Prop where
  stream : Holds md5Transform md5Initial m ctx.state ctx.buffer
  low : ctx.count0.toNat = 8 * m.length % 2 ^ 32
  high : ctx.count1.toNat = 8 * m.length / 2 ^ 32 % 2 ^ 32

variable {ctx : Md5Ctx} {m data : List UInt8} {len j : UInt32} {state : Vector UInt32 4} {buffer : Vector UInt8 64}
  {c0 : UInt32} {l : ℕ}

/-! ### Updates -/

private theorem toNat_bits (len : UInt32) : (len <<< 3).toNat = 8 * len.toNat % 2 ^ 32 := by
  rw [UInt32.toNat_shiftLeft, Nat.shiftLeft_eq, Nat.mul_comm]
  rfl

private theorem count0_add (len : UInt32) (h0 : c0.toNat = 8 * l % 2 ^ 32) :
    (c0 + len <<< 3).toNat = 8 * (l + len.toNat) % 2 ^ 32 := by
  rw [UInt32.toNat_add, toNat_bits, h0, ← Nat.add_mod, Nat.mul_add]

private theorem count1_add {c1 : UInt32} (len : UInt32) (h0 : c0.toNat = 8 * l % 2 ^ 32) (h1 : c1.toNat = 8 * l / 2 ^ 32 % 2 ^ 32) :
    ((if c0 + len <<< 3 < len <<< 3 then c1 + 1 else c1) + len >>> 29).toNat = 8 * (l + len.toNat) / 2 ^ 32 % 2 ^ 32 := by
  have hlow := count0_add len h0
  have hhigh : (len >>> 29).toNat = 8 * len.toNat / 2 ^ 32 := by
    rw [UInt32.toNat_shiftRight, Nat.shiftRight_eq_div_pow]
    change len.toNat / 2 ^ 29 = _
    omega
  have hone : (c1 + 1).toNat = (c1.toNat + 1) % 2 ^ 32 := UInt32.toNat_add c1 1
  have hsum : 8 * (l + len.toNat) / 2 ^ 32 = 8 * l / 2 ^ 32 + 8 * len.toNat / 2 ^ 32 +
      if 2 ^ 32 ≤ 8 * l % 2 ^ 32 + 8 * len.toNat % 2 ^ 32 then 1 else 0 := by
    rw [Nat.mul_add, Nat.add_div (by decide)]
  have hcarry : c0 + len <<< 3 < len <<< 3 ↔ 2 ^ 32 ≤ 8 * l % 2 ^ 32 + 8 * len.toNat % 2 ^ 32 := by
    rw [UInt32.lt_iff_toNat_lt, hlow, toNat_bits]
    omega
  rw [UInt32.toNat_add, hhigh, hsum, if_congr hcarry rfl rfl]
  split
  · rw [hone, h1]
    omega
  · rw [h1]
    omega

namespace Md5Ctx.Took

theorem init (ctx : Md5Ctx) : (md5Init ctx).Took [] where
  stream := Holds.start md5Transform md5Initial ctx.buffer
  low := rfl
  high := rfl

theorem toNat_index (h : ctx.Took m) : ctx.index.toNat = (leftover 64 m).length := by
  have hlow := h.low
  have hshift : ctx.index.toNat = ctx.count0.toNat >>> 3 &&& 63 := by
    rw [Md5Ctx.index, UInt32.toNat_and, UInt32.toNat_shiftRight]
    rfl
  rw [hshift, length_leftover, shiftRight_eq_div_pow, and_two_pow_sub_one_eq_mod _ 6]
  omega

end Md5Ctx.Took

private theorem md5UpdateTurn_loop (hlen : len.toNat < 2 ^ 31) (hdata : len.toNat ≤ data.length) (hj : j ≤ len)
    (h : Holds md5Transform md5Initial (m ++ data.take j.toNat) state buffer) (hleft : leftover 64 (m ++ data.take j.toNat) = []) :
    ∃ r ∈ loop (md5UpdateTurn data len) (len.toNat + 1) (j, state), r.1 ≤ len ∧ len.toNat < r.1.toNat + 64 ∧
      Holds md5Transform md5Initial (m ++ data.take r.1.toNat) r.2 buffer ∧ leftover 64 (m ++ data.take r.1.toNat) = [] := by
  refine loop_spec (fun r => r.1 ≤ len ∧ Holds md5Transform md5Initial (m ++ data.take r.1.toNat) r.2 buffer ∧
    leftover 64 (m ++ data.take r.1.toNat) = []) (fun r => len.toNat - r.1.toNat) ?_ ⟨hj, h, hleft⟩ (by change len.toNat - j.toNat < _; omega)
  rintro ⟨j, state⟩ ⟨hj, h, hleft⟩
  dsimp only at hj h hleft
  rw [le_iff_toNat_le] at hj
  have h63 : (j + 63).toNat = j.toNat + 63 := by
    rw [UInt32.toNat_add]
    exact mod_eq_of_lt (by change j.toNat + 63 < 2 ^ 32; omega)
  have h64 : (j + 64).toNat = j.toNat + 64 := by
    rw [UInt32.toNat_add]
    exact mod_eq_of_lt (by change j.toNat + 64 < 2 ^ 32; omega)
  by_cases hmore : j + 63 < len
  · have hlt := lt_iff_toNat_lt.mp hmore
    rw [h63] at hlt
    obtain ⟨block, hblock, hnext, hempty⟩ := h.block hleft (by omega : j.toNat + 64 ≤ data.length)
    rw [List.append_assoc, ← List.take_add] at hnext hempty
    refine ⟨.again (j + 64, md5Transform state block), ?_, ⟨?_, ?_, ?_⟩, ?_⟩
    · rw [md5UpdateTurn, if_pos hmore, mem_def.mp hblock]
      rfl
    · rw [le_iff_toNat_le, h64]
      omega
    · rw [h64]
      exact hnext
    · rw [h64]
      exact hempty
    · dsimp only
      rw [h64]
      omega
  · refine ⟨.done (j, state), ?_, le_iff_toNat_le.mpr hj, ?_, h, hleft⟩
    · rw [md5UpdateTurn, if_neg hmore]
      rfl
    · rw [lt_iff_toNat_lt, h63] at hmore
      dsimp only
      omega

theorem md5Update_took (h : ctx.Took m) (hlen : len.toNat < 2 ^ 31) (hdata : len.toNat ≤ data.length) :
    ∃ ctx' ∈ md5Update ctx data len, ctx'.Took (m ++ data.take len.toNat) := by
  have hi := h.toNat_index
  have hlt := length_leftover_lt 64 m
  have hlength : (m ++ data.take len.toNat).length = m.length + len.toNat := by
    rw [List.length_append, List.length_take_of_le hdata]
  have hlow := count0_add len h.low
  have hhigh := count1_add len h.low h.high
  have hpart : (64 - ctx.index : UInt32).toNat = 64 - (leftover 64 m).length := by
    have hle : ctx.index ≤ 64 := by
      rw [le_iff_toNat_le, hi]
      exact le_of_lt hlt
    rw [UInt32.toNat_sub_of_le _ _ hle, hi]
    rfl
  by_cases hfull : 64 - ctx.index ≤ len
  · have hle := le_iff_toNat_le.mp hfull
    obtain ⟨buffer, hcopy, hfirst, hleft⟩ := h.stream.fill (d := data) (j := 0)
      (k := (64 - ctx.index : UInt32).toNat) hi (by omega) (by omega)
    rw [List.drop_zero] at hfirst hleft
    obtain ⟨⟨j, state⟩, hr, hjle, hjlt, hblocks, hempty⟩ := md5UpdateTurn_loop hlen hdata hfull hfirst hleft
    dsimp only at hjle hjlt hblocks hempty
    have hrest : (len - j).toNat = len.toNat - j.toNat := UInt32.toNat_sub_of_le _ _ hjle
    have hjle' := le_iff_toNat_le.mp hjle
    obtain ⟨buffer', hlast, hall⟩ := hblocks.keep (d := data) (i := 0) (j := j.toNat) (k := (len - j).toNat)
      (by rw [hempty, List.length_nil]) (by omega) (by omega)
    rw [List.append_assoc, ← List.take_add, hrest, Nat.add_sub_cancel' hjle'] at hall
    refine ⟨⟨state, ctx.count0 + len <<< 3, _, buffer'⟩, ?_, ⟨hall, ?_, hhigh.trans ?_⟩⟩
    · rw [md5Update, if_pos hfull, mem_def.mp hcopy, bind_eq_bind, bind_some, mem_def.mp hr]
      change (copyInto buffer 0 data j.toNat (len - j).toNat).bind _ = _
      rw [mem_def.mp hlast]
      rfl
    · rw [hlength]
      exact hlow
    · rw [hlength]
  · have hshort := hfull
    rw [le_iff_toNat_le, hpart] at hshort
    obtain ⟨buffer, hcopy, hall⟩ := h.stream.keep (d := data) (j := 0) (k := len.toNat) hi (by omega) (by omega)
    rw [List.drop_zero] at hall
    refine ⟨⟨ctx.state, ctx.count0 + len <<< 3, _, buffer⟩, ?_, ⟨hall, ?_, hhigh.trans ?_⟩⟩
    · rw [md5Update, if_neg hfull, mem_def.mp hcopy]
      rfl
    · rw [hlength]
      exact hlow
    · rw [hlength]

/-! ### The digest -/

private theorem length_wordBytes (w : UInt32) : (wordBytes w).length = 4 := by rw [wordBytes, List.length_map, List.length_range]

private theorem wordBytes_eq (w : UInt32) : wordBytes w = littleEndian 4 w.toNat := by
  refine List.map_congr_left fun j hj => ?_
  have hj4 := List.mem_range.mp hj
  rw [← UInt8.toNat_inj, UInt32.toNat_toUInt8, UInt32.toNat_shiftRight, UInt32.toNat_ofNat', UInt8.toNat_ofNat',
    Nat.shiftRight_eq_div_pow, Nat.mod_eq_of_lt (by omega : j * 8 < 2 ^ 32), Nat.mod_eq_of_lt (by omega : j * 8 < 32), Nat.mul_comm,
    Nat.pow_mul]

private theorem wordBytes_count {c1 : UInt32} {x : ℕ} (h0 : c0.toNat = x % 2 ^ 32) (h1 : c1.toNat = x / 2 ^ 32 % 2 ^ 32) :
    wordBytes c0 ++ wordBytes c1 = littleEndian 8 (x % 2 ^ 64) := by
  rw [wordBytes_eq, wordBytes_eq, h0, h1]
  calc littleEndian 4 (x % 256 ^ 4) ++ littleEndian 4 (x / 256 ^ 4 % 256 ^ 4)
      = littleEndian 4 x ++ littleEndian 4 (x / 256 ^ 4) := by rw [littleEndian_mod, littleEndian_mod]
    _ = littleEndian 8 x := (littleEndian_add 4 4 x).symm
    _ = littleEndian 8 (x % 256 ^ 8) := (littleEndian_mod 8 x).symm

private theorem toNat_padlen (h : ctx.Took m) :
    (if ctx.index < 56 then 56 - ctx.index else 120 - ctx.index).toNat = (119 - m.length % 64) % 64 + 1 := by
  have hindex : ctx.index.toNat = m.length % 64 := h.toNat_index.trans (length_leftover 64 m)
  have hlt := mod_lt m.length (show 0 < 64 by decide)
  split
  · next h56 =>
    have hi : ctx.index.toNat < 56 := lt_iff_toNat_lt.mp h56
    rw [UInt32.toNat_sub_of_le _ _ (UInt32.le_of_lt h56)]
    change 56 - ctx.index.toNat = _
    omega
  · next h56 =>
    have hi : ¬ ctx.index.toNat < 56 := lt_iff_toNat_lt.not.mp h56
    have hle : ctx.index ≤ 120 := by
      rw [le_iff_toNat_le]
      change ctx.index.toNat ≤ 120
      omega
    rw [UInt32.toNat_sub_of_le _ _ hle]
    change 120 - ctx.index.toNat = _
    omega

private theorem md5Final_took (h : ctx.Took m) : md5Final ctx = some (md5Digest m) := by
  have hpadlen := toNat_padlen h
  have hpadding : md5Padding.length = 64 := by rw [md5Padding, List.length_cons, List.length_replicate]
  have hbits : (wordBytes ctx.count0 ++ wordBytes ctx.count1).length = (8 : UInt32).toNat := by
    rw [List.length_append, length_wordBytes, length_wordBytes]
    rfl
  obtain ⟨ctx₁, hctx₁, htook₁⟩ : ∃ ctx₁ ∈ md5Update ctx md5Padding (if ctx.index < 56 then 56 - ctx.index else 120 - ctx.index), _ :=
    md5Update_took h (by omega) (by omega)
  obtain ⟨ctx₂, hctx₂, htook₂⟩ := md5Update_took htook₁ (by decide)
    (le_of_eq hbits.symm)
  have hmessage : m ++ md5Padding.take ((119 - m.length % 64) % 64 + 1) ++ (wordBytes ctx.count0 ++ wordBytes ctx.count1) =
      padded littleEndian m := by
    rw [wordBytes_count h.low h.high, padded, md5Padding, List.take_succ_cons, List.take_replicate, Nat.min_eq_left (by omega)]
  have hstate := htook₂.stream.state
  rw [hpadlen, List.take_of_length_le (le_of_eq hbits), hmessage] at hstate
  rw [md5Final, mem_def.mp hctx₁, bind_eq_bind, bind_some, mem_def.mp hctx₂, bind_some, hstate]
  rfl

private theorem md5Update_run {chunks : List (List UInt8)} (hchunks : ∀ chunk ∈ chunks, chunk.length < 2 ^ 31) (h : ctx.Took m) :
    ∃ ctx' ∈ chunks.foldlM (fun ctx chunk => md5Update ctx chunk (ofNat chunk.length)) ctx, ctx'.Took (m ++ chunks.flatten) := by
  refine foldlM_took (fun ctx m chunk hchunk h => ?_) h
  have hlen := hchunks chunk hchunk
  have hof : (ofNat chunk.length).toNat = chunk.length := by
    rw [toNat_ofNat', mod_eq_of_lt (by omega)]
  have htook := md5Update_took h (by omega : (ofNat chunk.length).toNat < 2 ^ 31) (le_of_eq hof)
  rwa [hof, List.take_length] at htook

end RetroOs.Apps.Md5

/-! SHA-256 of the user programs: chunks of a message are taken in one after the other, and at the end the context gives the
digest of the padded message. -/
namespace RetroOs.Apps.Sha256
open Lib Lib.BlockStream

local instance neZero_block : NeZero 64 := ⟨by decide⟩

structure Sha256Ctx where
  state : Vector UInt32 8
  count : UInt64
  buffer : Vector UInt8 64

def sha256K : Vector UInt32 64 := #v[
  0x428a2f98, 0x71374491, 0xb5c0fbcf, 0xe9b5dba5, 0x3956c25b, 0x59f111f1,
  0x923f82a4, 0xab1c5ed5, 0xd807aa98, 0x12835b01, 0x243185be, 0x550c7dc3,
  0x72be5d74, 0x80deb1fe, 0x9bdc06a7, 0xc19bf174, 0xe49b69c1, 0xefbe4786,
  0x0fc19dc6, 0x240ca1cc, 0x2de92c6f, 0x4a7484aa, 0x5cb0a9dc, 0x76f988da,
  0x983e5152, 0xa831c66d, 0xb00327c8, 0xbf597fc7, 0xc6e00bf3, 0xd5a79147,
  0x06ca6351, 0x14292967, 0x27b70a85, 0x2e1b2138, 0x4d2c6dfc, 0x53380d13,
  0x650a7354, 0x766a0abb, 0x81c2c92e, 0x92722c85, 0xa2bfe8a1, 0xa81a664b,
  0xc24b8b70, 0xc76c51a3, 0xd192e819, 0xd6990624, 0xf40e3585, 0x106aa070,
  0x19a4c116, 0x1e376c08, 0x2748774c, 0x34b0bcb5, 0x391c0cb3, 0x4ed8aa4a,
  0x5b9cca4f, 0x682e6ff3, 0x748f82ee, 0x78a5636f, 0x84c87814, 0x8cc70208,
  0x90befffa, 0xa4506ceb, 0xbef9a3f7, 0xc67178f2]

def rotr32 (x n : UInt32) : UInt32 := x >>> n ||| x <<< (32 - n)

def ch (x y z : UInt32) : UInt32 := x &&& y ^^^ ~~~x &&& z

def maj (x y z : UInt32) : UInt32 := x &&& y ^^^ x &&& z ^^^ y &&& z

def ep0 (x : UInt32) : UInt32 := rotr32 x 2 ^^^ rotr32 x 13 ^^^ rotr32 x 22

def ep1 (x : UInt32) : UInt32 := rotr32 x 6 ^^^ rotr32 x 11 ^^^ rotr32 x 25

def sig0 (x : UInt32) : UInt32 := rotr32 x 7 ^^^ rotr32 x 18 ^^^ x >>> 3

def sig1 (x : UInt32) : UInt32 := rotr32 x 17 ^^^ rotr32 x 19 ^^^ x >>> 10

/-- `w[i]` for `i < 16`, from four bytes of the block. -/
def sha256Word (block : Vector UInt8 64) (i : Fin 16) : UInt32 :=
  block[i.val * 4].toUInt32 <<< 24 ||| block[i.val * 4 + 1].toUInt32 <<< 16 ||| block[i.val * 4 + 2].toUInt32 <<< 8 |||
    block[i.val * 4 + 3].toUInt32

def sha256Schedule (block : Vector UInt8 64) : Array UInt32 :=
  (List.range' 16 48).foldl
    (fun w i => w.push (sig1 (w.getD (i - 2) 0) + w.getD (i - 7) 0 + sig0 (w.getD (i - 15) 0) + w.getD (i - 16) 0))
    (Array.ofFn (sha256Word block))

structure Working where
  a : UInt32
  b : UInt32
  c : UInt32
  d : UInt32
  e : UInt32
  f : UInt32
  g : UInt32
  h : UInt32

/-- One turn of the second loop of `sha256_transform`. -/
def sha256Round (w : Array UInt32) (v : Working) (i : Fin 64) : Working :=
  let t1 := v.h + ep1 v.e + ch v.e v.f v.g + sha256K.get i + w.getD i 0
  let t2 := ep0 v.a + maj v.a v.b v.c
  { a := t1 + t2, b := v.a, c := v.b, d := v.c, e := v.d + t1, f := v.e, g := v.f, h := v.g }

def sha256Transform (state : Vector UInt32 8) (block : Vector UInt8 64) : Vector UInt32 8 :=
  let v := (List.finRange 64).foldl (sha256Round (sha256Schedule block))
    ⟨state[0], state[1], state[2], state[3], state[4], state[5], state[6], state[7]⟩
  #v[state[0] + v.a, state[1] + v.b, state[2] + v.c, state[3] + v.d, state[4] + v.e, state[5] + v.f, state[6] + v.g, state[7] + v.h]

def sha256Initial : Vector UInt32 8 := #v[
  0x6a09e667, 0xbb67ae85, 0x3c6ef372, 0xa54ff53a, 0x510e527f, 0x9b05688c, 0x1f83d9ab, 0x5be0cd19]

/-- The buffer is not set. -/
def sha256Init (ctx : Sha256Ctx) : Sha256Ctx := { ctx with state := sha256Initial, count := 0 }

def Sha256Ctx.index (ctx : Sha256Ctx) : UInt32 := (ctx.count &&& 63).toUInt32

def sha256UpdateTurn (data : List UInt8) :
    ℕ × UInt32 × Vector UInt32 8 → Option (Turn (ℕ × UInt32 × Vector UInt32 8) (ℕ × UInt32 × Vector UInt32 8))
  | (pos, len, state) =>
    if 64 ≤ len then do
      let block ← blockAt 64 data pos
      some (.again (pos + 64, len - 64, sha256Transform state block))
    else some (.done (pos, len, state))

def sha256Update (ctx : Sha256Ctx) (data : List UInt8) (len : UInt32) : Option Sha256Ctx :=
  let i := ctx.index
  let count := ctx.count + len.toUInt64
  if i + len < 64 then do
    let buffer ← copyInto ctx.buffer i.toNat data 0 len.toNat
    some { ctx with count, buffer }
  else do
    let buffer ← copyInto ctx.buffer i.toNat data 0 (64 - i).toNat
    let (pos, rest, state) ← loop (sha256UpdateTurn data) (len.toNat + 1)
      ((64 - i).toNat, len - (64 - i), sha256Transform ctx.state buffer)
    let buffer ← copyInto buffer 0 data pos rest.toNat
    some { state, count, buffer }

def wordBytes (w : UInt32) : List UInt8 := (List.range 4).map fun k => (w >>> (24 - UInt32.ofNat (k * 8))).toUInt8

def putBits (bits : UInt64) (k : ℕ) (buffer : Vector UInt8 64) : Option (Vector UInt8 64) :=
  (List.range k).foldlM (fun buffer j => fillInto buffer (63 - j) (bits >>> UInt64.ofNat (j * 8)).toUInt8 1) buffer

/-- The digest that is written. -/
def sha256Final (ctx : Sha256Ctx) : Option (List UInt8) := do
  let i := ctx.index
  let buffer ← fillInto ctx.buffer i.toNat 0x80 1
  let i := i + 1
  let (i, buffer, state) ←
    if 56 < i then do
      let buffer ← fillInto buffer i.toNat 0 (64 - i).toNat
      some (0, buffer, sha256Transform ctx.state buffer)
    else some (i, buffer, ctx.state)
  let buffer ← fillInto buffer i.toNat 0 (56 - i).toNat
  let buffer ← putBits (ctx.count * 8) 8 buffer
  some ((sha256Transform state buffer).toList.flatMap wordBytes)

def sha256Hash (ctx : Sha256Ctx) (data : List UInt8) (len : UInt32) : Option (List UInt8) := do
  let ctx ← sha256Update (sha256Init ctx) data len
  sha256Final ctx

def sha256Chunks (ctx : Sha256Ctx) (chunks : List (List UInt8)) : Option (List UInt8) := do
  let ctx ← chunks.foldlM (fun ctx chunk => sha256Update ctx chunk (UInt32.ofNat chunk.length)) (sha256Init ctx)
  sha256Final ctx

def sha256Digest (m : List UInt8) : List UInt8 :=
  ((blocks 64 (padded bigEndian m)).foldl sha256Transform sha256Initial).toList.flatMap wordBytes

/-- What a context knows of the message so far. -/
structure Sha256Ctx.Took (ctx : Sha256Ctx) (m : List UInt8) : Prop where
  stream : Holds sha256Transform sha256Initial m ctx.state ctx.buffer
  count : ctx.count.toNat = m.length % 2 ^ 64

variable {ctx : Sha256Ctx} {m data p q rest : List UInt8} {len : UInt32} {bits : UInt64} {state : Vector UInt32 8}
  {buffer : Vector UInt8 64} {pos k : ℕ}

/-! ### Updates -/

namespace Sha256Ctx.Took

theorem init (ctx : Sha256Ctx) : (sha256Init ctx).Took [] where
  stream := Holds.start sha256Transform sha256Initial ctx.buffer
  count := rfl

theorem toNat_index (h : ctx.Took m) : ctx.index.toNat = (leftover 64 m).length := by
  have hcount := h.count
  have hand : ctx.index.toNat = (ctx.count.toNat &&& 63) % 2 ^ 32 := by
    rw [Sha256Ctx.index, UInt64.toNat_toUInt32, UInt64.toNat_and]
    rfl
  rw [hand, length_leftover, Nat.and_two_pow_sub_one_eq_mod _ 6]
  omega

private theorem count_add (h : ctx.Took m) (hlen : data.length = len.toNat) :
    (ctx.count + len.toUInt64).toNat = (m ++ data).length % 2 ^ 64 := by
  rw [UInt64.toNat_add, UInt32.toNat_toUInt64, h.count, List.length_append, hlen, Nat.mod_add_mod]

end Sha256Ctx.Took

private theorem sha256UpdateTurn_loop {n : ℕ} (hn : len.toNat < n) (hl : pos + len.toNat = l) (hdata : l ≤ data.length)
    (h : Holds sha256Transform sha256Initial (m ++ data.take pos) state buffer) (hleft : leftover 64 (m ++ data.take pos) = []) :
    ∃ r ∈ loop (sha256UpdateTurn data) n (pos, len, state), r.1 + r.2.1.toNat = l ∧ r.2.1.toNat < 64 ∧
      Holds sha256Transform sha256Initial (m ++ data.take r.1) r.2.2 buffer ∧ leftover 64 (m ++ data.take r.1) = [] := by
  refine loop_spec (fun r => r.1 + r.2.1.toNat = l ∧ Holds sha256Transform sha256Initial (m ++ data.take r.1) r.2.2 buffer ∧
    leftover 64 (m ++ data.take r.1) = []) (fun r => r.2.1.toNat) ?_ ⟨hl, h, hleft⟩ hn
  rintro ⟨pos, len, state⟩ ⟨hl, h, hleft⟩
  dsimp only at hl h hleft
  by_cases hmore : 64 ≤ len
  · have hle : 64 ≤ len.toNat := UInt32.le_iff_toNat_le.mp hmore
    have hsub : (len - 64).toNat = len.toNat - 64 := UInt32.toNat_sub_of_le _ _ hmore
    obtain ⟨block, hblock, hnext, hempty⟩ := h.block hleft (by omega : pos + 64 ≤ data.length)
    rw [List.append_assoc, ← List.take_add] at hnext hempty
    refine ⟨.again (pos + 64, len - 64, sha256Transform state block), ?_, ⟨?_, hnext, hempty⟩, ?_⟩
    · rw [sha256UpdateTurn, if_pos hmore, Option.mem_def.mp hblock]
      rfl
    · rw [hsub]
      omega
    · dsimp only
      rw [hsub]
      omega
  · refine ⟨.done (pos, len, state), ?_, hl, ?_, h, hleft⟩
    · rw [sha256UpdateTurn, if_neg hmore]
      rfl
    · exact Nat.not_le.mp fun hle => hmore (UInt32.le_iff_toNat_le.mpr hle)

private theorem sha256Update_took (h : ctx.Took m) (hlen : len.toNat < 2 ^ 31) (hdata : data.length = len.toNat) :
    ∃ ctx' ∈ sha256Update ctx data len, ctx'.Took (m ++ data) := by
  have hi := h.toNat_index
  have hlt := length_leftover_lt 64 m
  have hcount := h.count_add hdata
  have hsum : (ctx.index + len).toNat = ctx.index.toNat + len.toNat := by
    rw [UInt32.toNat_add, Nat.mod_eq_of_lt (by omega)]
  by_cases hshort : ctx.index + len < 64
  · have hlt64 : ctx.index.toNat + len.toNat < 64 := hsum ▸ UInt32.lt_iff_toNat_lt.mp hshort
    obtain ⟨buffer, hcopy, hall⟩ := h.stream.keep (d := data) (j := 0) (k := len.toNat) hi hlt64 (by omega)
    rw [List.drop_zero, ← hdata, List.take_length] at hall
    refine ⟨⟨ctx.state, ctx.count + len.toUInt64, buffer⟩, ?_, hall, hcount⟩
    rw [sha256Update, if_pos hshort, Option.mem_def.mp hcopy]
    rfl
  · have hge : 64 ≤ ctx.index.toNat + len.toNat := by
      rw [← hsum]
      exact Nat.not_lt.mp fun hlt => hshort (UInt32.lt_iff_toNat_lt.mpr hlt)
    have hfirst : (64 - ctx.index : UInt32).toNat = 64 - ctx.index.toNat :=
      UInt32.toNat_sub_of_le _ _ (UInt32.le_iff_toNat_le.mpr (by rw [hi]; exact Nat.le_of_lt hlt))
    have hrest : (len - (64 - ctx.index)).toNat = len.toNat - (64 - ctx.index.toNat) := by
      rw [UInt32.toNat_sub_of_le, hfirst]
      rw [UInt32.le_iff_toNat_le, hfirst]
      omega
    obtain ⟨buffer, hcopy, hfull, hleft⟩ := h.stream.fill (d := data) (j := 0)
      (k := (64 - ctx.index : UInt32).toNat) hi (by omega) (by omega)
    rw [List.drop_zero] at hfull hleft
    obtain ⟨⟨pos, rest, state⟩, hr, hl, hlast, hblocks, hempty⟩ := sha256UpdateTurn_loop (l := len.toNat)
      (by omega : (len - (64 - ctx.index)).toNat < len.toNat + 1) (by omega) (Nat.le_of_eq hdata.symm) hfull hleft
    dsimp only at hl hlast hblocks hempty
    obtain ⟨buffer', hkeep, hall⟩ := hblocks.keep (d := data) (i := 0) (j := pos) (k := rest.toNat)
      (by rw [hempty, List.length_nil]) (by omega) (by omega)
    rw [List.append_assoc, ← List.take_add, hl, ← hdata, List.take_length] at hall
    refine ⟨⟨state, ctx.count + len.toUInt64, buffer'⟩, ?_, hall, hcount⟩
    rw [sha256Update, if_neg hshort, Option.mem_def.mp hcopy, Option.bind_eq_bind, Option.bind_some, Option.mem_def.mp hr]
    change (copyInto buffer 0 data pos rest.toNat).bind _ = _
    rw [Option.mem_def.mp hkeep]
    rfl

/-! ### The digest -/

private theorem toUInt8_bits (bits : UInt64) (hk : k < 8) : (bits >>> UInt64.ofNat (k * 8)).toUInt8 = UInt8.ofNat (bits.toNat / 256 ^ k) := by
  rw [← UInt8.toNat_inj, UInt64.toNat_toUInt8, UInt64.toNat_shiftRight, UInt64.toNat_ofNat', UInt8.toNat_ofNat',
    Nat.shiftRight_eq_div_pow, Nat.mod_eq_of_lt (by omega : k * 8 < 2 ^ 64), Nat.mod_eq_of_lt (by omega : k * 8 < 64), Nat.mul_comm,
    Nat.pow_mul]

private theorem putBits_spec (bits : UInt64) (hp : p.length + k = 64) (hk : k ≤ 8) (hb : buffer.toList = p ++ q) :
    ∃ buffer' ∈ putBits bits k buffer, buffer'.toList = p ++ bigEndian k bits.toNat := by
  induction k generalizing p q with
  | zero =>
    have hq : (p ++ q).length = 64 := hb ▸ Vector.length_toList
    rw [List.length_append] at hq
    refine ⟨buffer, rfl, ?_⟩
    rw [hb, List.length_eq_zero_iff.mp (by omega : q.length = 0)]
    rfl
  | succ k ih =>
    have hq : (p ++ q).length = 64 := hb ▸ Vector.length_toList
    rw [List.length_append] at hq
    obtain ⟨x, rest, rfl⟩ := List.exists_cons_of_length_pos (by omega : 0 < q.length)
    obtain ⟨below, hbelow, htoList⟩ := ih (p := p ++ [x]) (q := rest) (by rw [List.length_append, List.length_singleton]; omega)
      (by omega) (by rw [hb, List.append_assoc, List.singleton_append])
    obtain ⟨buffer', hlast, hall⟩ := fillInto_middle (x := (bits >>> UInt64.ofNat (k * 8)).toUInt8) htoList List.length_singleton
    refine ⟨buffer', ?_, ?_⟩
    · rw [putBits, List.range_succ, List.foldlM_append]
      rw [putBits] at hbelow
      rw [Option.mem_def.mp hbelow, Option.bind_eq_bind, Option.bind_some, List.foldlM_cons, (by omega : 63 - k = p.length),
        Option.mem_def.mp hlast]
      rfl
    · rw [hall, toUInt8_bits bits (by omega), bigEndian_succ, List.replicate_one, List.append_assoc, List.singleton_append]

private theorem lastBlock (bits : UInt64) {i : UInt32} (h : Holds sha256Transform sha256Initial m state buffer) (hi : i.toNat = (leftover 64 m).length)
    (h56 : i.toNat ≤ 56) :
    ∃ zeroed ∈ fillInto buffer i.toNat 0 (56 - i).toNat, ∃ last ∈ putBits bits 8 zeroed,
      sha256Transform state last =
        absorb sha256Transform sha256Initial (m ++ (List.replicate (56 - i.toNat) 0 ++ bigEndian 8 bits.toNat)) := by
  have hsub : (56 - i).toNat = 56 - i.toNat := UInt32.toNat_sub_of_le _ _ (UInt32.le_iff_toNat_le.mpr h56)
  rw [hsub, hi]
  obtain ⟨zeroed, hzeroed, rest, hrest⟩ := fillInto_prefix (x := 0) (k := 56 - (leftover 64 m).length) h.buffer (by omega)
  obtain ⟨last, hlast, htoList⟩ := putBits_spec (p := leftover 64 m ++ List.replicate (56 - (leftover 64 m).length) 0) (k := 8) bits
    (by rw [List.length_append, List.length_replicate]; omega) (Nat.le_refl 8) hrest.symm
  rw [List.append_assoc] at htoList
  obtain ⟨hstate, -⟩ := absorb_full (htoList.symm ▸ List.prefix_rfl : _ <+: last.toList)
    (htoList.symm ▸ Vector.length_toList)
  exact ⟨zeroed, hzeroed, last, hlast, by rw [hstate, h.state]⟩

private theorem padded_eq {z : ℕ} (h : ctx.Took m) (hzeros : z = (119 - m.length % 64) % 64) :
    m ++ 0x80 :: List.replicate z 0 ++ bigEndian 8 (ctx.count * 8).toNat = padded bigEndian m := by
  have hbits : (ctx.count * 8).toNat = 8 * m.length % 2 ^ 64 := by
    rw [UInt64.toNat_mul, h.count, Nat.mod_mul_mod, Nat.mul_comm]
    rfl
  rw [hzeros, hbits, padded]

private theorem sha256Final_took (h : ctx.Took m) : sha256Final ctx = some (sha256Digest m) := by
  have hi := h.toNat_index
  have hlt := length_leftover_lt 64 m
  have hmod := length_leftover 64 m
  have hone : (ctx.index + 1).toNat = (leftover 64 m).length + 1 := by
    rw [UInt32.toNat_add, hi]
    exact Nat.mod_eq_of_lt (by change (leftover 64 m).length + 1 < 2 ^ 32; omega)
  by_cases h56 : 56 < ctx.index + 1
  · have hlarge : 56 < (leftover 64 m).length + 1 := hone ▸ UInt32.lt_iff_toNat_lt.mp h56
    have hsub : (64 - (ctx.index + 1)).toNat = 63 - (leftover 64 m).length := by
      have hle : ctx.index + 1 ≤ 64 := by
        rw [UInt32.le_iff_toNat_le, hone]
        exact hlt
      rw [UInt32.toNat_sub_of_le _ _ hle, hone]
      change 64 - ((leftover 64 m).length + 1) = _
      omega
    obtain ⟨marked, hmarked, hprefix⟩ := fillInto_prefix (x := 0x80) (k := 1) h.stream.buffer hlt
    obtain ⟨filled, hfilled, hfull⟩ := fillInto_prefix (x := 0) (k := 63 - (leftover 64 m).length) hprefix
      (by rw [List.length_append, List.length_replicate]; omega)
    rw [List.append_assoc] at hfull
    obtain ⟨hstate, hempty⟩ := absorb_full hfull
      (by rw [List.length_append, List.length_append, List.length_replicate, List.length_replicate]; omega)
    obtain ⟨zeroed, hzeroed, last, hlast, hdigest⟩ := lastBlock (ctx.count * 8) (i := 0)
      ⟨hstate.symm, hempty ▸ List.nil_prefix⟩ (by rw [hempty]; rfl) (Nat.zero_le _)
    rw [List.length_append, List.length_replicate, ← hone, ← hsub] at hfilled
    rw [sha256Final, hi, Option.mem_def.mp hmarked, Option.bind_eq_bind, Option.bind_some, if_pos h56, Option.mem_def.mp hfilled,
      Option.bind_some, Option.bind_eq_bind, Option.bind_some]
    dsimp only
    rw [Option.mem_def.mp hzeroed, Option.bind_some, Option.mem_def.mp hlast, Option.bind_some, h.stream.state, hdigest, sha256Digest,
      ← padded_eq h (z := 63 - (leftover 64 m).length + 56) (by omega), ← List.replicate_append_replicate]
    simp only [List.append_assoc, List.replicate_one, List.cons_append, List.nil_append]
    rfl
  · have hsmall : ¬ 56 < (leftover 64 m).length + 1 := fun hlt => h56 (UInt32.lt_iff_toNat_lt.mpr (hone ▸ hlt))
    obtain ⟨marked, hmarked, hkeep⟩ := h.stream.keep (d := [0x80]) (j := 0) (k := 1) rfl (by omega) (Nat.le_refl 1)
    have hlength : (leftover 64 (m ++ [0x80])).length = (leftover 64 m).length + 1 := by
      rw [length_leftover, List.length_append, List.length_singleton]
      omega
    change Holds sha256Transform sha256Initial (m ++ [0x80]) ctx.state marked at hkeep
    obtain ⟨zeroed, hzeroed, last, hlast, hdigest⟩ := lastBlock (ctx.count * 8) (i := ctx.index + 1) hkeep
      (hone.trans hlength.symm) (by omega)
    rw [sha256Final, hi, fillInto, List.replicate_one, Option.mem_def.mp hmarked, Option.bind_eq_bind, Option.bind_some, if_neg h56]
    change (fillInto marked (ctx.index + 1).toNat 0 (56 - (ctx.index + 1)).toNat).bind _ = _
    rw [Option.mem_def.mp hzeroed, Option.bind_some, Option.mem_def.mp hlast, Option.bind_some, hdigest, sha256Digest,
      ← padded_eq h (z := 56 - ((leftover 64 m).length + 1)) (by omega), hone]
    simp only [List.append_assoc, List.cons_append, List.nil_append]
    rfl

private theorem sha256Update_run {chunks : List (List UInt8)} (hchunks : ∀ chunk ∈ chunks, chunk.length < 2 ^ 31) (h : ctx.Took m) :
    ∃ ctx' ∈ chunks.foldlM (fun ctx chunk => sha256Update ctx chunk (UInt32.ofNat chunk.length)) ctx,
      ctx'.Took (m ++ chunks.flatten) := by
  refine foldlM_took (fun ctx m chunk hchunk h => ?_) h
  have hlen := hchunks chunk hchunk
  have hof : (UInt32.ofNat chunk.length).toNat = chunk.length := by
    rw [UInt32.toNat_ofNat', Nat.mod_eq_of_lt (by omega)]
  exact sha256Update_took h (by omega : (UInt32.ofNat chunk.length).toNat < 2 ^ 31) hof.symm

end RetroOs.Apps.Sha256

/-! Digests of a message that comes in chunks, and of the same message in one piece. -/
namespace RetroOs.Apps.Digests
open Lib.BlockStream Md5 Sha256

variable {m : List UInt8} {chunks : List (List UInt8)}

theorem md5Chunks_eq (ctx : Md5Ctx) (hchunks : ∀ chunk ∈ chunks, chunk.length < 2 ^ 31) :
    md5Chunks ctx chunks = some (md5Digest chunks.flatten) := by
  obtain ⟨ctx', hrun, htook⟩ := md5Update_run hchunks (.init ctx)
  rw [md5Chunks, Option.mem_def.mp hrun, Option.bind_eq_bind, Option.bind_some]
  exact md5Final_took htook

theorem sha256Chunks_eq (ctx : Sha256Ctx) (hchunks : ∀ chunk ∈ chunks, chunk.length < 2 ^ 31) :
    sha256Chunks ctx chunks = some (sha256Digest chunks.flatten) := by
  obtain ⟨ctx', hrun, htook⟩ := sha256Update_run hchunks (.init ctx)
  rw [sha256Chunks, Option.mem_def.mp hrun, Option.bind_eq_bind, Option.bind_some]
  exact sha256Final_took htook

private theorem md5Hash_eq (ctx : Md5Ctx) (hm : m.length < 2 ^ 31) : md5Hash ctx m (UInt32.ofNat m.length) = some (md5Digest m) := by
  have h := md5Chunks_eq ctx fun chunk hchunk => (List.mem_singleton.mp hchunk) ▸ hm
  rw [md5Chunks, List.foldlM_cons, bind_assoc, List.flatten_singleton] at h
  exact h

private theorem sha256Hash_eq (ctx : Sha256Ctx) (hm : m.length < 2 ^ 31) :
    sha256Hash ctx m (UInt32.ofNat m.length) = some (sha256Digest m) := by
  have h := sha256Chunks_eq ctx fun chunk hchunk => (List.mem_singleton.mp hchunk) ▸ hm
  rw [sha256Chunks, List.foldlM_cons, bind_assoc, List.flatten_singleton] at h
  exact h

/-- However a message is split, the digest is that of its padded blocks, and the hash in one piece is the same. -/
theorem digest_of_chunks (md5 md5' : Md5Ctx) (sha256 sha256' : Sha256Ctx) (hchunks : ∀ chunk ∈ chunks, chunk.length < 2 ^ 31) :
    md5Chunks md5 chunks = some (md5Digest chunks.flatten) ∧
      sha256Chunks sha256 chunks = some (sha256Digest chunks.flatten) ∧
      leftover 64 (padded littleEndian chunks.flatten) = [] ∧ leftover 64 (padded bigEndian chunks.flatten) = [] ∧
      (chunks.flatten.length < 2 ^ 31 →
        md5Hash md5' chunks.flatten (UInt32.ofNat chunks.flatten.length) = md5Chunks md5 chunks ∧
          sha256Hash sha256' chunks.flatten (UInt32.ofNat chunks.flatten.length) = sha256Chunks sha256 chunks) := by
  refine ⟨md5Chunks_eq md5 hchunks, sha256Chunks_eq sha256 hchunks, leftover_padded (length_littleEndian 8) _,
    leftover_padded (length_bigEndian 8) _, fun hm => ⟨?_, ?_⟩⟩
  · rw [md5Hash_eq md5' hm, md5Chunks_eq md5 hchunks]
  · rw [sha256Hash_eq sha256' hm, sha256Chunks_eq sha256 hchunks]

theorem digest_of_chunks_abc :
    md5Chunks ⟨Vector.replicate 4 0, 0, 0, Vector.replicate 64 0⟩ [[0x61], [], [0x62, 0x63]] = some (md5Digest [0x61, 0x62, 0x63]) ∧
      sha256Chunks ⟨Vector.replicate 8 0, 0, Vector.replicate 64 0⟩ [[0x61], [], [0x62, 0x63]] =
        some (sha256Digest [0x61, 0x62, 0x63]) := by
  have h := digest_of_chunks ⟨Vector.replicate 4 0, 0, 0, Vector.replicate 64 0⟩
    ⟨Vector.replicate 4 0, 0, 0, Vector.replicate 64 0⟩ ⟨Vector.replicate 8 0, 0, Vector.replicate 64 0⟩
    ⟨Vector.replicate 8 0, 0, Vector.replicate 64 0⟩
    (by decide : ∀ chunk ∈ ([[0x61], [], [0x62, 0x63]] : List (List UInt8)), chunk.length < 2 ^ 31)
  exact ⟨h.1, h.2.1⟩

end RetroOs.Apps.Digests
