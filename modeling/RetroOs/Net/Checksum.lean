import RetroOs.Lib.CString
import RetroOs.Lib.Loop
import RetroOs.Lib.OnesComplement
import RetroOs.Net.Tcp
import Mathlib.Data.Nat.Bitwise

/-! The Internet checksums of the kernel: five routines that sum the same words in different orders, and the
definition that they have in common. -/
namespace RetroOs.Net
open Lib OnesComplement Nat Memory UInt16

variable {m m' : Memory} {a k n len : Nat} {sum : UInt32} {srcIp dstIp : UInt32} {g : List UInt8 → Nat}
  {l : List UInt8} {v : Nat}

/-! ### The routines -/

def foldNot (sum : UInt32) : UInt16 := ~~~ofNat (fold 65536 sum.toNat)

/-- The loop of `checksum`: words as they lie in memory, and an odd byte at the end. -/
def sumWords (m : Memory) : Nat → Nat → UInt32 → UInt32
  | _, 0, sum => sum
  | a, 1, sum => sum + (m a).toUInt32
  | a, len + 2, sum => sumWords m (a + 2) len (sum + UInt32.ofNat (m.load16 a))

/-- `checksum` of `net.cpp` -/
def checksum (m : Memory) (a len : Nat) : UInt16 := foldNot (sumWords m a len 0)

/-- The bytes of the pseudo header, which is the same structure for both protocols. The length is as it is stored. -/
def pseudoHeader (srcIp dstIp : UInt32) (proto : UInt8) (length : UInt16) : Memory :=
  let psh : Memory := fun _ => 0
  ((((psh.store32 0 srcIp.toNat).store32 4 dstIp.toNat).store8 8 0).store8 9 proto).store16 10 length.toNat

def pseudoSize : Nat := 12

def ipProtoTcp : UInt8 := 6
def ipProtoUdp : UInt8 := 17

def tcpChecksum (srcIp dstIp : UInt32) (m : Memory) (tcp : Nat) (tcpLen : UInt16) : UInt16 :=
  let mask : UInt32 := 0xFFFF
  let sum := (srcIp >>> 16 &&& mask) + (srcIp &&& mask) + (dstIp >>> 16 &&& mask) + (dstIp &&& mask) +
    (htons ipProtoTcp.toUInt16).toUInt32 + (htons tcpLen).toUInt32
  let sum := forUpto (fun i sum => sum + UInt32.ofNat (m.load16 (tcp + 2 * i))) (tcpLen.toNat / 2) sum
  foldNot (if tcpLen &&& 1 ≠ 0 then sum + (m (tcp + (tcpLen.toNat - 1))).toUInt32 else sum)

/-- The words from `a` on, with their bytes exchanged. -/
def sumNtohs (m : Memory) (a n : Nat) (sum : UInt32) : UInt32 :=
  forUpto (fun i sum => sum + (htons (ofNat (m.load16 (a + 2 * i)))).toUInt32) n sum

def udpHeaderSize : Nat := 8

def udpChecksum (srcIp dstIp : UInt32) (m : Memory) (udp payload : Nat) (payloadLen : UInt16) : UInt16 :=
  let pseudo := pseudoHeader srcIp dstIp ipProtoUdp (ofNat (m.load16 (udp + 4)))
  let sum := sumNtohs pseudo 0 (pseudoSize / 2) 0
  let sum := sumNtohs m udp (udpHeaderSize / 2) sum
  let sum := sumNtohs m payload (payloadLen.toNat / 2) sum
  htons (foldNot (if payloadLen &&& 1 ≠ 0 then sum + (m (payload + (payloadLen.toNat - 1))).toUInt32 <<< 8 else sum))

namespace NetStack

/-- The loop of `net_checksum`, which folds the sum whenever its top bit is set. -/
def sumWords (m : Memory) : Nat → Nat → UInt32 → UInt32
  | _, 0, sum => sum
  | a, 1, sum => sum + (m a).toUInt32
  | a, len + 2, sum =>
    let sum : UInt32 := sum + UInt32.ofNat (m.load16 a)
    sumWords m (a + 2) len (if sum &&& (0x80000000 : UInt32) ≠ 0 then (sum &&& (0xFFFF : UInt32)) + (sum >>> 16) else sum)

def netChecksum (m : Memory) (a len : Nat) : UInt16 := foldNot (sumWords m a len 0)

/-- `tcp_checksum` of `net_stack.cpp`, with the buffer that `kmalloc` gives. -/
def tcpChecksum (buf : Option Memory) (srcIp dstIp : UInt32) (m : Memory) (tcp : Nat) (tcpLen : UInt16) : UInt16 :=
  match buf with
  | none => 0
  | some buf =>
    let psh := pseudoHeader srcIp dstIp ipProtoTcp (htons tcpLen)
    let buf := (buf.memcpy 0 (psh.bytes 0 pseudoSize)).memcpy pseudoSize (m.bytes tcp tcpLen.toNat)
    netChecksum buf 0 (pseudoSize + tcpLen.toNat)

end NetStack

/-! ### The definition -/

/-- The sum of the words of some bytes, in the order of the network. -/
def netSum (l : List UInt8) : Nat := highFirst 256 (l.map UInt8.toNat)

/-- The same in the order of the memory. -/
def memSum (l : List UInt8) : Nat := lowFirst 256 (l.map UInt8.toNat)

def rfc1071 (l : List UInt8) : UInt16 := UInt16.ofNat (OnesComplement.checksum 65536 (netSum l))


/-! ### What they sum -/

theorem foldNot_toNat (sum : UInt32) : (foldNot sum).toNat = OnesComplement.checksum 65536 sum.toNat := by
  have hlt := (fold_spec (b := 65536) (by decide) sum.toNat).1
  rw [foldNot, UInt16.toNat_not, UInt16.toNat_ofNat', Nat.mod_eq_of_lt hlt]
  rfl

private theorem memSum_le (l : List UInt8) : memSum l ≤ (l.length + 1) / 2 * 65535 := by
  have h := lowFirst_le (c := 256) (l := l.map UInt8.toNat) (by decide) fun x hx => by
    obtain ⟨y, -, rfl⟩ := List.mem_map.mp hx
    exact y.toNat_lt
  rwa [List.length_map] at h

theorem netSum_le (l : List UInt8) : netSum l ≤ (l.length + 1) / 2 * 65535 := by
  have h := highFirst_le (c := 256) (l := l.map UInt8.toNat) fun x hx => by
    obtain ⟨y, -, rfl⟩ := List.mem_map.mp hx
    exact y.toNat_lt
  rwa [List.length_map] at h

theorem memSum_append {k : List UInt8} (h : l.length % 2 = 0) : memSum (l ++ k) = memSum l + memSum k := by
  rw [memSum, List.map_append, lowFirst_append 256 (by rwa [List.length_map])]
  rfl

theorem netSum_append {k : List UInt8} (h : l.length % 2 = 0) : netSum (l ++ k) = netSum l + netSum k := by
  rw [netSum, List.map_append, highFirst_append 256 (by rwa [List.length_map])]
  rfl

theorem memSum_two (m : Memory) (a len : Nat) : memSum (m.bytes a (len + 2)) = m.load16 a + memSum (m.bytes (a + 2) len) := by
  rw [bytes_succ, bytes_succ]
  rfl

private theorem netSum_two (m : Memory) (a len : Nat) :
    netSum (m.bytes a (len + 2)) = (htons (ofNat (m.load16 a))).toNat + netSum (m.bytes (a + 2) len) := by
  have h0 := (m a).toNat_lt
  have h1 := (m (a + 1)).toNat_lt
  have hword : (htons (ofNat (m.load16 a))).toNat = 256 * (m a).toNat + (m (a + 1)).toNat := by
    rw [htons_toNat, UInt16.toNat_ofNat', Memory.load16]
    omega
  rw [hword, bytes_succ, bytes_succ]
  rfl

private theorem sumWords_toNat (h : sum.toNat + memSum (m.bytes a len) < 2 ^ 32) :
    (sumWords m a len sum).toNat = sum.toNat + memSum (m.bytes a len) := by
  induction len using twoStepInduction generalizing a sum with
  | zero => rfl
  | one =>
    have hone : memSum (m.bytes a 1) = (m a).toNat := rfl
    rw [hone] at h ⊢
    rw [sumWords, UInt32.toNat_add, UInt8.toNat_toUInt32, Nat.mod_eq_of_lt h]
  | more len ih _ =>
    rw [memSum_two] at h ⊢
    have hsum : (sum + UInt32.ofNat (m.load16 a)).toNat = sum.toNat + m.load16 a := by
      rw [UInt32.toNat_add, UInt32.toNat_ofNat']
      omega
    rw [sumWords, ih (by rw [hsum]; omega), hsum, add_assoc]

private theorem netStack_sumWords (h : sum.toNat < 2 ^ 31) :
    fold 65536 (NetStack.sumWords m a len sum).toNat = fold 65536 (sum.toNat + memSum (m.bytes a len)) := by
  induction len using twoStepInduction generalizing a sum with
  | zero => rfl
  | one =>
    have hone : memSum (m.bytes a 1) = (m a).toNat := rfl
    have hbyte := (m a).toNat_lt
    rw [hone, NetStack.sumWords, UInt32.toNat_add, UInt8.toNat_toUInt32, Nat.mod_eq_of_lt (by omega)]
  | more len ih _ =>
    have hword := m.load16_lt a
    have hsum : (sum + UInt32.ofNat (m.load16 a)).toNat = sum.toNat + m.load16 a := by
      rw [UInt32.toNat_add, UInt32.toNat_ofNat']
      omega
    rw [memSum_two, NetStack.sumWords, ← add_assoc, ← hsum]
    have hlt := (sum + UInt32.ofNat (m.load16 a)).toNat_lt
    generalize sum + UInt32.ofNat (m.load16 a) = sum' at hlt ⊢
    have hstep : ((sum' &&& (0xFFFF : UInt32)) + sum' >>> 16).toNat = sum'.toNat % 65536 + sum'.toNat / 65536 := by
      rw [UInt32.toNat_add, UInt32.toNat_and, UInt32.toNat_shiftRight]
      have hmask : sum'.toNat &&& (0xFFFF : UInt32).toNat = sum'.toNat % 65536 := and_two_pow_sub_one_eq_mod _ 16
      rw [hmask, shiftRight_eq_div_pow]
      simp
      omega
    split
    · rw [ih (by rw [hstep]; omega), hstep]
      exact fold_step_add (by decide) _ _
    · next htop =>
      refine ih ?_
      have hbit := congrArg UInt32.toNat (not_not.mp htop)
      rw [UInt32.toNat_and, show (0x80000000 : UInt32).toNat = 2 ^ 31 from rfl, Nat.and_two_pow,
        testBit_eq_decide_div_mod_eq] at hbit
      by_contra hge
      have hone : sum'.toNat / 2 ^ 31 % 2 = 1 := by omega
      rw [hone] at hbit
      exact absurd hbit (by decide)

private theorem words_toNat (sum : UInt32) {f : Nat → UInt32} (hnil : g [] = 0)
    (hg : ∀ l k, l.length % 2 = 0 → g (l ++ k) = g l + g k) (hf : ∀ i, (f i).toNat = g (m.bytes (a + 2 * i) 2))
    (h : sum.toNat + g (m.bytes a (2 * n)) < 2 ^ 32) :
    (forUpto (fun i sum => sum + f i) n sum).toNat = sum.toNat + g (m.bytes a (2 * n)) := by
  induction n with
  | zero =>
    rw [Nat.mul_zero, show m.bytes a 0 = [] from rfl, hnil]
    rfl
  | succ n ih =>
    have hlen : (m.bytes a (2 * n)).length % 2 = 0 := by
      rw [length_bytes]
      omega
    rw [mul_succ, bytes_add, hg _ _ hlen] at h ⊢
    rw [forUpto, UInt32.toNat_add, ih (by omega), hf n]
    omega

private theorem bytes_odd (m : Memory) (a len : Nat) :
    m.bytes a len = m.bytes a (2 * (len / 2)) ++ if len % 2 = 1 then [m (a + (len - 1))] else [] := by
  conv_lhs => rw [← div_add_mod len 2, bytes_add]
  congr 1
  split
  · next h =>
    rw [h, show 2 * (len / 2) = len - 1 by omega]
    rfl
  · next h =>
    rw [show len % 2 = 0 by omega]
    rfl

theorem odd_iff (len : UInt16) : len &&& 1 ≠ 0 ↔ len.toNat % 2 = 1 := by
  have hand : (len &&& 1).toNat = len.toNat % 2 := by
    rw [UInt16.toNat_and]
    exact Nat.and_one_is_mod _
  rw [ne_eq, ← UInt16.toNat_inj, hand]
  exact Nat.mod_two_ne_zero

theorem checksum_toNat (h : len ≤ 65535) : (checksum m a len).toNat = OnesComplement.checksum 65536 (memSum (m.bytes a len)) := by
  have hle := memSum_le (m.bytes a len)
  rw [Memory.length_bytes] at hle
  have hlt : (0 : UInt32).toNat + memSum (m.bytes a len) < 2 ^ 32 := by
    rw [UInt32.toNat_zero]
    omega
  rw [checksum, foldNot_toNat, sumWords_toNat hlt, UInt32.toNat_zero, Nat.zero_add]

private theorem netChecksum_toNat (m : Memory) (a len : Nat) :
    (NetStack.netChecksum m a len).toNat = OnesComplement.checksum 65536 (memSum (m.bytes a len)) := by
  rw [NetStack.netChecksum, foldNot_toNat, OnesComplement.checksum, netStack_sumWords (by decide), UInt32.toNat_zero,
    zero_add]
  rfl

def pseudoBytes (srcIp dstIp : UInt32) (proto : UInt8) (length : UInt16) : List UInt8 :=
  (pseudoHeader srcIp dstIp proto length).bytes 0 pseudoSize

private theorem memSum_pseudo (srcIp dstIp : UInt32) (proto : UInt8) (length : UInt16) :
    memSum (pseudoBytes srcIp dstIp proto length) = srcIp.toNat % 65536 + srcIp.toNat / 65536 + dstIp.toNat % 65536 +
      dstIp.toNat / 65536 + 256 * proto.toNat + length.toNat := by
  have hs := srcIp.toNat_lt
  have hd := dstIp.toNat_lt
  have hl := length.toNat_lt
  rw [pseudoBytes, pseudoSize]
  simp only [memSum_two, Nat.reduceAdd, Nat.zero_add]
  simp [pseudoHeader, load16, store16, store8, store32, bytes, memSum, lowFirst]
  omega

theorem length_pseudo (srcIp dstIp : UInt32) (proto : UInt8) (length : UInt16) :
    (pseudoBytes srcIp dstIp proto length).length % 2 = 0 := by
  rw [pseudoBytes, length_bytes]
  rfl

private theorem loop_toNat {f : Nat → UInt32} {len : UInt16} {last : UInt32} (hnil : g [] = 0)
    (hg : ∀ l k, l.length % 2 = 0 → g (l ++ k) = g l + g k) (hf : ∀ i, (f i).toNat = g (m.bytes (a + 2 * i) 2))
    (hlast : last.toNat = g [m (a + (len.toNat - 1))]) (h : sum.toNat + g (m.bytes a len.toNat) < 2 ^ 32) :
    (if len &&& 1 ≠ 0 then forUpto (fun i sum => sum + f i) (len.toNat / 2) sum + last
      else forUpto (fun i sum => sum + f i) (len.toNat / 2) sum).toNat = sum.toNat + g (m.bytes a len.toNat) := by
  have heven : (m.bytes a (2 * (len.toNat / 2))).length % 2 = 0 := by
    rw [length_bytes]
    omega
  rw [bytes_odd, hg _ _ heven] at h ⊢
  have hwords := words_toNat (n := len.toNat / 2) sum hnil hg hf (by omega)
  by_cases hodd : len.toNat % 2 = 1
  · rw [if_pos hodd] at h ⊢
    rw [if_pos ((odd_iff len).mpr hodd), UInt32.toNat_add, hwords, hlast]
    omega
  · rw [if_neg hodd] at h ⊢
    rw [if_neg (mt (odd_iff len).mp hodd), hwords, hnil]
    rfl

private theorem tcpChecksum_toNat (srcIp dstIp : UInt32) (m : Memory) (tcp : Nat) (len : UInt16) :
    (tcpChecksum srcIp dstIp m tcp len).toNat = OnesComplement.checksum 65536
      (memSum (pseudoBytes srcIp dstIp ipProtoTcp (htons len) ++ m.bytes tcp len.toNat)) := by
  have hlen := len.toNat_lt
  have hs := srcIp.toNat_lt
  have hd := dstIp.toNat_lt
  have hn := (htons len).toNat_lt
  have hle := memSum_le (m.bytes tcp len.toNat)
  rw [Memory.length_bytes] at hle
  have hlow : ∀ x : UInt32, (x &&& (0xFFFF : UInt32)).toNat = x.toNat % 65536 := fun x => by
    rw [UInt32.toNat_and]
    exact Nat.and_two_pow_sub_one_eq_mod _ 16
  have hhigh : ∀ x : UInt32, (x >>> 16 &&& (0xFFFF : UInt32)).toNat = x.toNat / 65536 := fun x => by
    have hx := x.toNat_lt
    rw [hlow, UInt32.toNat_shiftRight, Nat.shiftRight_eq_div_pow]
    exact Nat.mod_eq_of_lt (by simp; omega)
  have hproto : (htons ipProtoTcp.toUInt16).toNat = 256 * 6 := by decide
  have hsum : ((srcIp >>> 16 &&& (0xFFFF : UInt32)) + (srcIp &&& (0xFFFF : UInt32)) + (dstIp >>> 16 &&& (0xFFFF : UInt32)) +
      (dstIp &&& (0xFFFF : UInt32)) + (htons ipProtoTcp.toUInt16).toUInt32 + (htons len).toUInt32).toNat =
      srcIp.toNat % 65536 + srcIp.toNat / 65536 + dstIp.toNat % 65536 + dstIp.toNat / 65536 + 256 * 6 + (htons len).toNat := by
    simp only [UInt32.toNat_add, hhigh, hlow, UInt16.toNat_toUInt32, hproto]
    omega
  rw [memSum_append (length_pseudo ..), memSum_pseudo, tcpChecksum, foldNot_toNat, show ipProtoTcp.toNat = 6 from rfl]
  congr 1
  rw [loop_toNat (g := memSum) (m := m) (a := tcp) rfl fun _ _ => memSum_append]
  · rw [hsum]
  · intro i
    have := m.load16_lt (tcp + 2 * i)
    rw [memSum_two, UInt32.toNat_ofNat', mod_eq_of_lt (by omega)]
    rfl
  · rfl
  · rw [hsum]
    omega

private theorem netStack_tcpChecksum_toNat (buf : Memory) (srcIp dstIp : UInt32) (m : Memory) (tcp : Nat) (len : UInt16) :
    (NetStack.tcpChecksum (some buf) srcIp dstIp m tcp len).toNat = OnesComplement.checksum 65536
      (memSum (pseudoBytes srcIp dstIp ipProtoTcp (htons len) ++ m.bytes tcp len.toNat)) := by
  rw [NetStack.tcpChecksum, netChecksum_toNat]
  congr 2
  have hpsh := Memory.length_bytes (pseudoHeader srcIp dstIp ipProtoTcp (htons len)) 0 pseudoSize
  have hseg := Memory.length_bytes m tcp len.toNat
  have hkeep := Memory.memcpy_agreeOn (a := 0) (n := pseudoSize) (b := pseudoSize)
    (buf.memcpy 0 ((pseudoHeader srcIp dstIp ipProtoTcp (htons len)).bytes 0 pseudoSize)) (m.bytes tcp len.toNat)
    (.inl (Nat.le_of_eq (Nat.zero_add _)))
  rw [Memory.bytes_add, Nat.zero_add, hkeep.bytes, Memory.bytes_memcpy buf (Nat.le_of_eq hpsh.symm),
    List.take_of_length_le (Nat.le_of_eq hpsh), Memory.bytes_memcpy _ (Nat.le_of_eq hseg.symm),
    List.take_of_length_le (Nat.le_of_eq hseg), pseudoBytes]

private theorem netSum_word (m : Memory) (a i : Nat) :
    (htons (ofNat (m.load16 (a + 2 * i)))).toUInt32.toNat = netSum (m.bytes (a + 2 * i) 2) := by
  rw [netSum_two, toNat_toUInt32]
  rfl

private theorem sumNtohs_toNat (m : Memory) (a n : Nat) (sum : UInt32) (h : sum.toNat + netSum (m.bytes a (2 * n)) < 2 ^ 32) :
    (sumNtohs m a n sum).toNat = sum.toNat + netSum (m.bytes a (2 * n)) :=
  words_toNat sum rfl (fun _ _ => netSum_append) (netSum_word m a) h

private theorem udpChecksum_toNat (srcIp dstIp : UInt32) (m : Memory) (udp payload : Nat) (len : UInt16) :
    (htons (udpChecksum srcIp dstIp m udp payload len)).toNat = OnesComplement.checksum 65536
      (netSum (pseudoBytes srcIp dstIp ipProtoUdp (ofNat (m.load16 (udp + 4))) ++
        (m.bytes udp udpHeaderSize ++ m.bytes payload len.toNat))) := by
  have hlen := len.toNat_lt
  have hp := netSum_le (pseudoBytes srcIp dstIp ipProtoUdp (ofNat (m.load16 (udp + 4))))
  have hh := netSum_le (m.bytes udp udpHeaderSize)
  have hd := netSum_le (m.bytes payload len.toNat)
  rw [pseudoBytes, length_bytes, pseudoSize] at hp
  rw [length_bytes, udpHeaderSize] at hh
  rw [length_bytes] at hd
  rw [netSum_append (length_pseudo ..), netSum_append (by rw [length_bytes]; rfl), udpChecksum, htons_htons, foldNot_toNat]
  congr 1
  rw [pseudoBytes]
  generalize pseudoHeader srcIp dstIp ipProtoUdp (ofNat (m.load16 (udp + 4))) = psh at hp ⊢
  have hpseudo : (sumNtohs psh 0 (pseudoSize / 2) 0).toNat = netSum (psh.bytes 0 12) := by
    have h := sumNtohs_toNat psh 0 6 0
    rw [UInt32.toNat_zero, zero_add, show 2 * 6 = 12 from rfl] at h
    exact h (by omega)
  have hheader : (sumNtohs m udp (udpHeaderSize / 2) (sumNtohs psh 0 (pseudoSize / 2) 0)).toNat =
      netSum (psh.bytes 0 12) + netSum (m.bytes udp 8) := by
    have h := sumNtohs_toNat m udp 4 (sumNtohs psh 0 (pseudoSize / 2) 0)
    rw [hpseudo, show 2 * 4 = 8 from rfl] at h
    exact h (by omega)
  have hlast : ((m (payload + (len.toNat - 1))).toUInt32 <<< 8).toNat = netSum [m (payload + (len.toNat - 1))] := by
    have := (m (payload + (len.toNat - 1))).toNat_lt
    rw [UInt32.toNat_shiftLeft, UInt8.toNat_toUInt32, shiftLeft_eq]
    simp [netSum, highFirst]
    omega
  rw [sumNtohs, loop_toNat (m := m) (a := payload) rfl (fun _ _ => netSum_append) (netSum_word m payload) hlast, hheader, add_assoc]
  · rfl
  · rw [hheader]
    omega

/-! ### The checksums agree -/

private theorem htons_rfc1071 {x : UInt16} (h : x.toNat = OnesComplement.checksum 65536 (memSum l)) :
    htons x = rfc1071 l := by
  have hswap : OnesComplement.checksum 65536 (netSum l) = swap 256 (OnesComplement.checksum 65536 (memSum l)) :=
    checksum_highFirst (c := 256) (by decide) _
  rw [← UInt16.toNat_inj, htons_toNat, rfc1071, UInt16.toNat_ofNat', Nat.mod_eq_of_lt (checksum_lt (by decide) _), hswap, h]
  rfl

private theorem bytes_split (m : Memory) (a : Nat) (h : k + 2 ≤ len) :
    m.bytes a len = m.bytes a k ++ (m.bytes (a + k) 2 ++ m.bytes (a + k + 2) (len - k - 2)) := by
  conv_lhs => rw [show len = k + (2 + (len - k - 2)) by omega]
  rw [bytes_add, bytes_add]

theorem bytes_store16 (m : Memory) (a : Nat) (h : k + 2 ≤ len) :
    (m.store16 (a + k) v).bytes a len =
      m.bytes a k ++ ((m.store16 (a + k) v).bytes (a + k) 2 ++ m.bytes (a + k + 2) (len - k - 2)) := by
  have hfront := store16_agreeOn m v (a := a) (n := k) (b := a + k) (.inl (le_refl _))
  have hback := store16_agreeOn m v (a := a + k + 2) (n := len - k - 2) (b := a + k) (.inr (le_refl _))
  rw [bytes_split _ a h, hfront.bytes, hback.bytes]

private theorem sum_store16 (hg : ∀ l k, l.length % 2 = 0 → g (l ++ k) = g l + g k) (m : Memory) (a : Nat) (hk : k % 2 = 0) (h : k + 2 ≤ len) :
    g ((m.store16 (a + k) v).bytes a len) + g (m.bytes (a + k) 2) =
      g (m.bytes a len) + g ((m.store16 (a + k) v).bytes (a + k) 2) := by
  have hlen : (m.bytes a k).length % 2 = 0 := by rwa [length_bytes]
  have htwo : ∀ m : Memory, (m.bytes (a + k) 2).length % 2 = 0 := fun m => by rw [length_bytes]
  rw [bytes_store16 m a h, bytes_split m a h, hg _ _ hlen, hg _ _ (htwo _), hg _ _ hlen, hg _ _ (htwo _)]
  omega

theorem memSum_store16 (m : Memory) (a : Nat) (hk : k % 2 = 0) (h : k + 2 ≤ len) (h0 : m.load16 (a + k) = 0)
    (hv : v < 2 ^ 16) : memSum ((m.store16 (a + k) v).bytes a len) = memSum (m.bytes a len) + v := by
  have hword : ∀ m : Memory, memSum (m.bytes (a + k) 2) = m.load16 (a + k) := fun m => memSum_two m (a + k) 0
  have hsum := sum_store16 (g := memSum) (fun _ _ => memSum_append) m a (v := v) hk h
  rwa [hword, hword, load16_store16 _ _ hv, h0] at hsum

private theorem netSum_store16 (m : Memory) (a : Nat) {v : UInt16} (hk : k % 2 = 0) (h : k + 2 ≤ len) (h0 : m.load16 (a + k) = 0) :
    netSum ((m.store16 (a + k) v.toNat).bytes a len) = netSum (m.bytes a len) + (htons v).toNat := by
  have hword : ∀ m : Memory, netSum (m.bytes (a + k) 2) = (htons (UInt16.ofNat (m.load16 (a + k)))).toNat :=
    fun m => netSum_two m (a + k) 0
  have hsum := sum_store16 (g := netSum) (fun _ _ => netSum_append) m a (v := v.toNat) hk h
  rwa [hword, hword, Memory.load16_store16 _ _ v.toNat_lt, h0, UInt16.ofNat_toNat] at hsum

/-- For one segment and one payload, and the buffer that the second stack gets for its copy, if it gets one. -/
structure ChecksumsAgree (srcIp dstIp : UInt32) (m : Memory) (a payload : Nat) (len : UInt16) (buf : Memory) : Prop where
  net : htons (checksum m a len.toNat) = rfc1071 (m.bytes a len.toNat)
  netStack : checksum m a len.toNat = NetStack.netChecksum m a len.toNat
  tcp : htons (tcpChecksum srcIp dstIp m a len) =
    rfc1071 (pseudoBytes srcIp dstIp ipProtoTcp (htons len) ++ m.bytes a len.toNat)
  tcpStack : tcpChecksum srcIp dstIp m a len = NetStack.tcpChecksum (some buf) srcIp dstIp m a len
  tcpNoBuffer : NetStack.tcpChecksum none srcIp dstIp m a len = 0
  udp : htons (udpChecksum srcIp dstIp m a payload len) =
    rfc1071 (pseudoBytes srcIp dstIp ipProtoUdp (ofNat (m.load16 (a + 4))) ++
      (m.bytes a udpHeaderSize ++ m.bytes payload len.toNat))
  netStored : ∀ k, k % 2 = 0 → k + 2 ≤ len.toNat → m.load16 (a + k) = 0 →
    checksum (m.store16 (a + k) (checksum m a len.toNat).toNat) a len.toNat = 0
  tcpStored : ∀ k, k % 2 = 0 → k + 2 ≤ len.toNat → m.load16 (a + k) = 0 →
    tcpChecksum srcIp dstIp (m.store16 (a + k) (tcpChecksum srcIp dstIp m a len).toNat) a len = 0
  udpStored : m.load16 (a + 6) = 0 → a + udpHeaderSize ≤ payload →
    udpChecksum srcIp dstIp (m.store16 (a + 6) (udpChecksum srcIp dstIp m a payload len).toNat) a payload len = 0

/-- The checksums of both stacks are those of RFC 1071, and a stored result makes the sum over the whole 0. -/
theorem checksums_agree (srcIp dstIp : UInt32) (m : Memory) (a payload : Nat) (len : UInt16) (buf : Memory) :
    ChecksumsAgree srcIp dstIp m a payload len buf := by
  have hlen : len.toNat ≤ 65535 := Nat.le_of_lt_succ len.toNat_lt
  have hb : 2 ≤ 65536 := by decide
  have hnet := fun m : Memory => checksum_toNat (m := m) (a := a) hlen
  have htcp := fun m : Memory => tcpChecksum_toNat srcIp dstIp m a len
  have hudp := fun m : Memory => udpChecksum_toNat srcIp dstIp m a payload len
  refine ⟨htons_rfc1071 (hnet m), ?_, htons_rfc1071 (htcp m), ?_, rfl, ?_, fun k hk hle h0 => ?_, fun k hk hle h0 => ?_,
    fun h0 hpay => ?_⟩
  · rw [← UInt16.toNat_inj, hnet, netChecksum_toNat]
  · rw [← UInt16.toNat_inj, htcp, netStack_tcpChecksum_toNat]
  · rw [← UInt16.toNat_inj, hudp, rfc1071, UInt16.toNat_ofNat', Nat.mod_eq_of_lt (checksum_lt hb _)]
  · rw [← UInt16.toNat_inj, hnet, memSum_store16 m a hk hle h0 (checksum m a len.toNat).toNat_lt, hnet]
    exact checksum_complete hb _
  · rw [← UInt16.toNat_inj, htcp, memSum_append (length_pseudo ..),
      memSum_store16 m a hk hle h0 (tcpChecksum srcIp dstIp m a len).toNat_lt, ← Nat.add_assoc, htcp,
      memSum_append (length_pseudo ..)]
    exact checksum_complete hb _
  · -- neither the length nor the payload is where the result is stored
    generalize hr : udpChecksum srcIp dstIp m a payload len = r
    have hold := hudp m
    rw [hr] at hold
    have hnew := hudp (m.store16 (a + 6) r.toNat)
    have hlength := Memory.store16_agreeOn m r.toNat (a := a + 4) (n := 2) (b := a + 6) (.inl (Nat.le_refl _))
    have hdata := Memory.store16_agreeOn m r.toNat (a := payload) (n := len.toNat) (b := a + 6) (.inr (by
      rw [udpHeaderSize] at hpay
      omega))
    have heven : ∀ m : Memory, (m.bytes a udpHeaderSize).length % 2 = 0 := fun m => by
      rw [Memory.length_bytes]
      rfl
    rw [netSum_append (length_pseudo ..), netSum_append (heven m)] at hold
    rw [hlength.load16, hdata.bytes, netSum_append (length_pseudo ..), netSum_append (heven _),
      netSum_store16 m a (by decide) (by decide) h0, hold, Nat.add_right_comm, ← Nat.add_assoc, checksum_complete hb,
      ← UInt16.toNat_zero, UInt16.toNat_inj] at hnew
    rw [← htons_htons (udpChecksum srcIp dstIp (m.store16 (a + 6) r.toNat) a payload len), hnew]
    rfl

theorem tcpStack_no_buffer : tcpChecksum 0 0 (fun _ => 0) 0 0 ≠ NetStack.tcpChecksum none 0 0 (fun _ => 0) 0 0 := by
  intro h
  have hsum := tcpChecksum_toNat 0 0 (fun _ => 0) 0 0
  rw [h, memSum_append (length_pseudo ..), memSum_pseudo] at hsum
  have hlow : fold 65536 1536 = 1536 := fold_of_lt (by decide)
  have hvalue : OnesComplement.checksum 65536 1536 = 65535 - 1536 := by rw [OnesComplement.checksum, hlow, comp]
  exact absurd (hsum.trans hvalue) (by decide)

end RetroOs.Net
