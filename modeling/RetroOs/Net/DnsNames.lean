import RetroOs.Lib.Chain
import RetroOs.Lib.Rounds
import RetroOs.Net.Transmit

/-! Names on the wire: what a name says and how long it is, and the rounds of the loop that decodes it. -/
namespace RetroOs.Net
open Lib List Nat Returns Option

namespace DnsName
variable {m : Memory} {len cap maxLen start p q n : Nat} {labels : List (List UInt8)} {label out : List UInt8}
  {b : UInt8}

/-- The two high bits of a byte mark a pointer. -/
def IsPointer (b : UInt8) : Prop := b &&& 0xC0 = 0xC0

instance (b : UInt8) : Decidable (IsPointer b) := inferInstanceAs (Decidable (_ = _))

/-- Where a pointer leads. -/
def target (m : Memory) (p : Nat) : Nat := (m p &&& 0x3F).toNat * 256 + (m (p + 1)).toNat

/-- From `p` the labels lead to `q`, through pointers or not; all of them lie in the first `len` bytes. -/
inductive Follows (m : Memory) (len : Nat) : Nat → List (List UInt8) → Nat → Prop
  | refl (p : Nat) : Follows m len p [] p
  | pointer {p q : Nat} {labels : List (List UInt8)} (hptr : IsPointer (m p)) (hin : p + 1 < len) (htarget : target m p < len)
    (hrest : Follows m len (target m p) labels q) : Follows m len p labels q
  | label {p q : Nat} {labels : List (List UInt8)} (hpos : m p ≠ 0) (hshort : (m p).toNat ≤ 63) (hin : p + (m p).toNat < len)
    (hrest : Follows m len (p + 1 + (m p).toNat) labels q) : Follows m len p (m.bytes (p + 1) (m p).toNat :: labels) q

/-- The name at `p`, up to its first pointer or its end, has `n` bytes. -/
inductive Extent (m : Memory) : Nat → Nat → Prop
  | root {p : Nat} (hend : m p = 0) : Extent m p 1
  | pointer {p : Nat} (hptr : IsPointer (m p)) : Extent m p 2
  | label {p n : Nat} (hpos : m p ≠ 0) (hshort : (m p).toNat ≤ 63) (hrest : Extent m (p + 1 + (m p).toNat) n) :
    Extent m p (1 + (m p).toNat + n)

/-- A label behind what is written so far, with a dot between them. -/
def addLabel (out label : List UInt8) : List UInt8 := (if out.isEmpty then out else out ++ [dot]) ++ label

/-- The labels of a name that lies in the first `len` bytes. -/
def Says (m : Memory) (len p : Nat) (labels : List (List UInt8)) : Prop := ∃ q < len, Follows m len p labels q ∧ m q = 0

/-- Neither a label nor a pointer. -/
def Reserved (b : UInt8) : Prop := 63 < b.toNat ∧ ¬ IsPointer b

instance (b : UInt8) : Decidable (Reserved b) := inferInstanceAs (Decidable (_ ∧ _))

/-- The labels from `p` on lead, with a text of at most `cap` characters, to the end of the name; or with a shorter one to a
byte that is no label, or to a pointer out of the first `len` bytes. -/
def Fits (m : Memory) (len cap p : Nat) : Prop :=
  ∃ labels q, Follows m len p labels q ∧ q < len ∧ (labels.foldl addLabel []).length ≤ cap ∧
    (m q = 0 ∨ (labels.foldl addLabel []).length < cap ∧ (Reserved (m q) ∨ IsPointer (m q) ∧ q + 1 < len ∧ len ≤ target m q))

private theorem target_lt (m : Memory) (p : Nat) : target m p < 2 ^ 14 := by
  have hhigh : (m p &&& 0x3F).toNat ≤ 63 := by
    rw [UInt8.toNat_and]
    exact and_le_right
  have hlow := (m (p + 1)).toNat_lt
  rw [target]
  omega

theorem IsPointer.large (h : IsPointer b) : 63 < b.toNat := by
  have hle : (b &&& 0xC0).toNat ≤ b.toNat := by
    rw [UInt8.toNat_and]
    exact and_le_left
  rw [show b &&& 0xC0 = 0xC0 from h] at hle
  exact lt_of_lt_of_le (by decide) hle

theorem IsPointer.ne_zero (h : IsPointer b) : b ≠ 0 := by
  rintro rfl
  exact absurd h.large (by decide)

theorem not_isPointer_of_short (h : b.toNat ≤ 63) : ¬ IsPointer b := fun hptr => absurd hptr.large (not_lt.mpr h)

theorem toNat_pos (h : b ≠ 0) : 0 < b.toNat := pos_of_ne_zero fun hz => h (UInt8.toNat_inj.mp hz)

theorem length_addLabel (out label : List UInt8) :
    (addLabel out label).length = (if out.isEmpty then out else out ++ [dot]).length + label.length := length_append

theorem length_lt_addLabel (out : List UInt8) (hlabel : label ≠ []) : out.length < (addLabel out label).length := by
  have hpos := length_pos_of_ne_nil hlabel
  rw [length_addLabel]
  split
  · omega
  · rw [length_append, length_singleton]
    omega

theorem length_le_foldl (out : List UInt8) (hlabels : ∀ l ∈ labels, l ≠ []) :
    out.length + labels.length ≤ (labels.foldl addLabel out).length := by
  induction labels generalizing out with
  | nil => exact le_refl _
  | cons l ls ih =>
    have hl := length_lt_addLabel out (hlabels l (.head _))
    have hls := ih (addLabel out l) fun x hx => hlabels x (.tail _ hx)
    rw [foldl_cons, length_cons]
    omega

theorem bytes_ne_nil (hpos : m p ≠ 0) : m.bytes (p + 1) (m p).toNat ≠ [] := by
  intro hnil
  have hlen := congrArg length hnil
  rw [Memory.length_bytes] at hlen
  exact absurd hlen (toNat_pos hpos).ne'

theorem Follows.labels_ne (h : Follows m len p labels q) : ∀ l ∈ labels, l ≠ [] := by
  induction h with
  | refl => exact fun l hl => absurd hl not_mem_nil
  | pointer _ _ _ _ ih => exact ih
  | label hpos _ _ _ ih =>
    intro l hl
    rcases mem_cons.mp hl with rfl | hl
    · exact bytes_ne_nil hpos
    · exact ih l hl

theorem Follows.lt (h : Follows m len p labels q) (hq : q < len) : p < len := by
  cases h with
  | refl => exact hq
  | pointer _ hin => omega
  | label _ _ hin => omega

theorem Says.of_pointer (h : Says m len p labels) (hptr : IsPointer (m p)) : Says m len (target m p) labels := by
  obtain ⟨q, hq, hfollows, hend⟩ := h
  cases hfollows with
  | refl => exact absurd hend hptr.ne_zero
  | pointer _ _ _ hrest => exact ⟨q, hq, hrest, hend⟩
  | label _ hshort => exact absurd hptr (not_isPointer_of_short hshort)

theorem Says.of_label (h : Says m len p labels) (hpos : m p ≠ 0) (hshort : (m p).toNat ≤ 63) :
    ∃ rest, labels = m.bytes (p + 1) (m p).toNat :: rest ∧ Says m len (p + 1 + (m p).toNat) rest := by
  obtain ⟨q, hq, hfollows, hend⟩ := h
  cases hfollows with
  | refl => exact absurd hend hpos
  | pointer hptr => exact absurd hptr (not_isPointer_of_short hshort)
  | label _ _ _ hrest => exact ⟨_, rfl, q, hq, hrest, hend⟩

theorem Says.labels_ne (h : Says m len p labels) : ∀ l ∈ labels, l ≠ [] := by
  obtain ⟨q, -, hfollows, -⟩ := h
  exact hfollows.labels_ne

end DnsName

open DnsName

/-- Where `dns_decode_name` is: the next byte, what is written, and what a jump has made of the length. -/
structure NameCursor where
  ptr : Nat
  out : List UInt8
  jump : Option Nat

namespace NameCursor
variable (m : Memory) (len maxLen start : Nat) (c : NameCursor)

def first (ptr : Nat) : NameCursor := ⟨ptr, [], none⟩

/-- The loop goes on. -/
def Continues : Prop := m c.ptr ≠ 0 ∧ c.out.length < maxLen - 1

instance : Decidable (c.Continues m maxLen) := inferInstanceAs (Decidable (_ ∧ _))

/-- What is written with the dot in front of the next label. -/
def dotted : List UInt8 := if c.out.isEmpty then c.out else c.out ++ [dot]

/-- The bytes of the label that are copied. -/
def copied : Nat := min (m c.ptr).toNat (maxLen - 1 - c.dotted.length)

/-- Once through the loop; where it stops is the result. -/
def round : Round NameCursor (Option (List UInt8 × Nat)) :=
  if c.Continues m maxLen then
    if IsPointer (m c.ptr) then
      if len ≤ target m c.ptr then .stops none
      else .goes ⟨target m c.ptr, c.out, some (c.jump.getD (c.ptr - start + 2))⟩
    else if 63 < (m c.ptr).toNat then .stops none
    else .goes ⟨c.ptr + 1 + c.copied m maxLen, c.dotted ++ m.bytes (c.ptr + 1) (c.copied m maxLen), c.jump⟩
  else .stops (some (c.out, c.jump.getD (c.ptr - start + 1)))

/-- The positions of the bytes that are read in a round. -/
def reads : List Nat :=
  c.ptr ::
    if c.Continues m maxLen then
      if IsPointer (m c.ptr) then [c.ptr + 1]
      else if 63 < (m c.ptr).toNat then []
      else range' (c.ptr + 1) (c.copied m maxLen)
    else []

/-- What is read is in the first `len` bytes, and there is place for what is written and its terminator. -/
def Inside : Prop := (∀ x ∈ c.reads m maxLen, x < len) ∧ c.out.length < maxLen


variable {m len maxLen start c}

theorem round_end (len start : Nat) (h : ¬ c.Continues m maxLen) :
    c.round m len maxLen start = .stops (some (c.out, c.jump.getD (c.ptr - start + 1))) := if_neg h

theorem round_pointer (start : Nat) (h : c.Continues m maxLen) (hptr : IsPointer (m c.ptr)) (hin : target m c.ptr < len) :
    c.round m len maxLen start = .goes ⟨target m c.ptr, c.out, some (c.jump.getD (c.ptr - start + 2))⟩ := by
  rw [round, if_pos h, if_pos hptr, if_neg (not_le.mpr hin)]

theorem round_outside (h : c.Continues m maxLen) (hptr : IsPointer (m c.ptr)) (hout : len ≤ target m c.ptr) :
    c.round m len maxLen start = .stops none := by
  rw [round, if_pos h, if_pos hptr, if_pos hout]

theorem round_reserved (h : c.Continues m maxLen) (hres : Reserved (m c.ptr)) : c.round m len maxLen start = .stops none := by
  rw [round, if_pos h, if_neg hres.2, if_pos hres.1]

theorem round_label (len start : Nat) (h : c.Continues m maxLen) (hshort : (m c.ptr).toNat ≤ 63) : c.round m len maxLen start =
    .goes ⟨c.ptr + 1 + c.copied m maxLen, c.dotted ++ m.bytes (c.ptr + 1) (c.copied m maxLen), c.jump⟩ := by
  rw [round, if_pos h, if_neg (not_isPointer_of_short hshort), if_neg (not_lt.mpr hshort)]

private theorem length_full (h : c.Continues m maxLen) (hfull : maxLen - 1 ≤ (addLabel c.out (m.bytes (c.ptr + 1) (m c.ptr).toNat)).length) :
    (c.dotted ++ m.bytes (c.ptr + 1) (c.copied m maxLen)).length = maxLen - 1 := by
  have hroom := h.2
  have hcut : maxLen - 1 ≤ c.dotted.length + (m c.ptr).toNat := by
    rwa [length_addLabel, Memory.length_bytes] at hfull
  have hdot : c.dotted.length ≤ c.out.length + 1 := by
    rw [dotted]
    split
    · exact le_succ _
    · rw [length_append, length_singleton]
  rw [length_append, Memory.length_bytes, copied]
  omega

private theorem copied_full (hfull : maxLen - 1 ≤ (addLabel c.out (m.bytes (c.ptr + 1) (m c.ptr).toNat)).length) :
    c.copied m maxLen = maxLen - 1 - (addLabel c.out []).length := by
  rw [length_addLabel, Memory.length_bytes] at hfull
  rw [length_addLabel, length_nil, add_zero]
  exact Nat.min_eq_right (Nat.sub_le_iff_le_add'.mpr hfull)

theorem copied_eq (h : (addLabel c.out (m.bytes (c.ptr + 1) (m c.ptr).toNat)).length ≤ maxLen - 1) :
    c.copied m maxLen = (m c.ptr).toNat := by
  rw [length_addLabel, Memory.length_bytes] at h
  have hroom : c.dotted.length + (m c.ptr).toNat ≤ maxLen - 1 := h
  exact min_eq_left (by omega)

private theorem inside_end (h : ¬ c.Continues m maxLen) (hptr : c.ptr < len) (hout : c.out.length < maxLen) : c.Inside m len maxLen := by
  refine ⟨fun x hx => ?_, hout⟩
  rw [reads, if_neg h] at hx
  rw [mem_singleton.mp hx]
  exact hptr

theorem inside_pointer (h : c.Continues m maxLen) (hptr : IsPointer (m c.ptr)) : c.Inside m len maxLen ↔ c.ptr + 1 < len := by
  have hout : c.out.length < maxLen := lt_of_lt_of_le h.2 (sub_le ..)
  rw [Inside, reads, if_pos h, if_pos hptr]
  constructor
  · exact fun hin => hin.1 _ (.tail _ (.head _))
  · refine fun hin => ⟨fun x hx => ?_, hout⟩
    rcases mem_cons.mp hx with rfl | hx
    · exact lt_of_succ_lt hin
    · rw [mem_singleton.mp hx]
      exact hin

private theorem inside_reserved (h : c.Continues m maxLen) (hres : Reserved (m c.ptr)) (hptr : c.ptr < len) : c.Inside m len maxLen := by
  refine ⟨fun x hx => ?_, lt_of_lt_of_le h.2 (sub_le ..)⟩
  rw [reads, if_pos h, if_neg hres.2, if_pos hres.1] at hx
  rw [mem_singleton.mp hx]
  exact hptr

theorem inside_label (h : c.Continues m maxLen) (hshort : (m c.ptr).toNat ≤ 63)
    (hfits : (addLabel c.out (m.bytes (c.ptr + 1) (m c.ptr).toNat)).length ≤ maxLen - 1) :
    c.Inside m len maxLen ↔ c.ptr + (m c.ptr).toNat < len := by
  have hpos := toNat_pos h.1
  rw [Inside, reads, if_pos h, if_neg (not_isPointer_of_short hshort), if_neg (not_lt.mpr hshort), copied_eq hfits]
  constructor
  · refine fun hin => hin.1 _ (.tail _ (mem_range'_1.mpr ?_))
    omega
  · refine fun hin => ⟨fun x hx => ?_, lt_of_lt_of_le h.2 (sub_le ..)⟩
    rcases mem_cons.mp hx with rfl | hx
    · omega
    · have hrange := mem_range'_1.mp hx
      omega

private theorem round_longer {d : NameCursor} (h : c.round m len maxLen start = .goes d)
    (hj : ¬ (IsPointer (m c.ptr) ∧ target m c.ptr < len)) : c.out.length < d.out.length := by
  by_cases hgo : c.Continues m maxLen
  · by_cases hptr : IsPointer (m c.ptr)
    · rw [round_outside hgo hptr (not_lt.mp fun hin => hj ⟨hptr, hin⟩)] at h
      cases h
    · by_cases hlong : 63 < (m c.ptr).toNat
      · rw [round_reserved hgo ⟨hlong, hptr⟩] at h
        cases h
      · rw [round_label _ _ hgo (not_lt.mp hlong)] at h
        cases h
        have hroom := hgo.2
        have hpos := toNat_pos hgo.1
        rw [length_append, Memory.length_bytes, copied, dotted]
        split
        · omega
        · rw [length_append, length_singleton]
          omega
  · rw [round_end _ _ hgo] at h
    cases h

end NameCursor

namespace DnsName
open NameCursor
variable {m : Memory} {len cap maxLen start p q n : Nat} {labels : List (List UInt8)} {label out : List UInt8}

theorem decodeLoop_succ (m : Memory) (len maxLen start n : Nat) (c : NameCursor) :
    decodeLoop m len maxLen start (n + 1) c.ptr c.out c.jump = match c.round m len maxLen start with
      | .stops r => some r
      | .goes d => decodeLoop m len maxLen start n d.ptr d.out d.jump
      | .waits => none := by
  rw [decodeLoop, NameCursor.round]
  by_cases hgo : c.Continues m maxLen
  · rw [if_pos hgo, if_pos (show m c.ptr ≠ 0 ∧ c.out.length < maxLen - 1 from hgo)]
    by_cases hptr : IsPointer (m c.ptr)
    · rw [if_pos hptr, if_pos (show m c.ptr &&& 0xC0 = 0xC0 from hptr)]
      dsimp only
      by_cases hout : len ≤ target m c.ptr
      · rw [if_pos hout, if_pos (show (m c.ptr &&& 0x3F).toNat * 256 + (m (c.ptr + 1)).toNat ≥ len from hout)]
      · rw [if_neg hout, if_neg (show ¬ (m c.ptr &&& 0x3F).toNat * 256 + (m (c.ptr + 1)).toNat ≥ len from hout)]
        rfl
    · rw [if_neg hptr, if_neg (show ¬ m c.ptr &&& 0xC0 = 0xC0 from hptr)]
      dsimp only
      by_cases hlong : 63 < (m c.ptr).toNat
      · rw [if_pos hlong, if_pos (show _ > 63 from hlong)]
      · rw [if_neg hlong, if_neg (show ¬ _ > 63 from hlong)]
        rfl
  · rw [if_neg hgo, if_neg (show ¬ (m c.ptr ≠ 0 ∧ c.out.length < maxLen - 1) from hgo)]

variable {c : NameCursor} {r : Option (List UInt8 × Nat)} {jump : Option Nat}

private theorem decodeLoop_some (h : decodeLoop m len maxLen start n c.ptr c.out c.jump = some r) :
    Returns (round m len maxLen start) c r := by
  induction n generalizing c with
  | zero => cases h
  | succ n ih =>
    rw [decodeLoop_succ] at h
    cases hround : c.round m len maxLen start with
    | goes d =>
      rw [hround] at h
      exact .go hround (ih h)
    | stops r' =>
      rw [hround] at h
      cases h
      exact .stop hround
    | waits =>
      rw [hround] at h
      cases h

/-- A pointer that the loop follows. -/
def Jumps (m : Memory) (len p : Nat) : Prop := IsPointer (m p) ∧ target m p < len

private theorem exists_chase (h : Returns (round m len maxLen start) c r) (hroom : c.out.length < maxLen - 1) :
    ∃ l, Chain (fun p => ¬ Jumps m len p) (target m) c.ptr l := by
  induction h with
  | @stop c r hs =>
    refine ⟨[], chain_nil.mpr fun hj => ?_⟩
    rw [round_pointer _ ⟨hj.1.ne_zero, hroom⟩ hj.1 hj.2] at hs
    cases hs
  | @go c d r hg _ ih =>
    by_cases hj : Jumps m len c.ptr
    · rw [round_pointer _ ⟨hj.1.ne_zero, hroom⟩ hj.1 hj.2] at hg
      cases hg
      obtain ⟨l, hl⟩ := ih hroom
      exact ⟨c.ptr :: l, chain_cons.mpr ⟨rfl, not_not.mpr hj, hl⟩⟩
    · exact ⟨[], chain_nil.mpr hj⟩

private theorem chase_length {l : List Nat} {stop : Nat → Prop} (h : Chain stop (target m) p l) : l.length ≤ 2 ^ 14 + 1 := by
  have hnodup := h.nodup
  cases l with
  | nil => exact zero_le _
  | cons a l =>
    obtain ⟨-, -, htail⟩ := chain_cons.mp h
    have hsub : l ⊆ range (2 ^ 14) := by
      intro x hx
      obtain rfl | ⟨y, rfl⟩ := htail.mem_next hx
      · exact mem_range.mpr (target_lt m a)
      · exact mem_range.mpr (target_lt m y)
    have hle := ((nodup_cons.mp hnodup).2.subperm hsub).length_le
    rw [length_range] at hle
    exact succ_le_succ hle

private theorem decodeLoop_chase (start : Nat) (jump : Option Nat) (r : Option (List UInt8 × Nat)) {l : List Nat} (hroom : out.length < maxLen - 1)
    (h : Path (fun p => ¬ Jumps m len p) (target m) p l q) :
    ∃ jump', (∀ n, decodeLoop m len maxLen start (l.length + n) p out jump = decodeLoop m len maxLen start n q out jump') ∧
      (Returns (round m len maxLen start) ⟨p, out, jump⟩ r ↔ Returns (round m len maxLen start) ⟨q, out, jump'⟩ r) := by
  induction l generalizing p jump with
  | nil =>
    obtain rfl : p = q := h
    exact ⟨jump, fun n => by rw [length_nil, zero_add], Iff.rfl⟩
  | cons a l ih =>
    obtain ⟨rfl, hj, h⟩ := h
    obtain ⟨hptr, hin⟩ := not_not.mp hj
    have hround := round_pointer (c := ⟨p, out, jump⟩) start ⟨hptr.ne_zero, hroom⟩ hptr hin
    obtain ⟨jump', hloop, hreturns⟩ := ih (some (jump.getD (p - start + 2))) h
    refine ⟨jump', fun n => ?_, (goes_iff hround).trans hreturns⟩
    rw [← hloop, length_cons, add_right_comm]
    exact (decodeLoop_succ m len maxLen start (l.length + n) ⟨p, out, jump⟩).trans (by rw [hround])

/-- The fuel is enough for a loop that ends: between two labels there are at most as many pointers as targets, and there
are at most as many labels as there is place for. -/
theorem decodeLoop_returns {k : Nat} (h : Returns (round m len maxLen start) c r) (hk : maxLen - 1 - c.out.length ≤ k)
    (hn : (k + 1) * (2 ^ 14 + 2) ≤ n) : decodeLoop m len maxLen start n c.ptr c.out c.jump = some r := by
  induction k generalizing c n with
  | zero =>
    obtain ⟨n, rfl⟩ : ∃ j, n = j + 1 := ⟨n - 1, by omega⟩
    have hround := round_end len start (show ¬ c.Continues m maxLen from fun hc => by have := hc.2; omega)
    rw [decodeLoop_succ, hround, (stops_iff hround).mp h]
  | succ k ih =>
    by_cases hroom : c.out.length < maxLen - 1
    · obtain ⟨l, q, hstop, hpath⟩ := exists_chase h hroom
      have hlen := chase_length ⟨q, hstop, hpath⟩
      obtain ⟨jump', hloop, hreturns⟩ := decodeLoop_chase start c.jump r hroom hpath
      have hq := hreturns.mp h
      rw [succ_mul] at hn
      obtain ⟨n, rfl⟩ : ∃ j, n = l.length + (j + 1) := ⟨n - l.length - 1, by omega⟩
      rw [hloop]
      refine (decodeLoop_succ m len maxLen start n ⟨q, c.out, jump'⟩).trans ?_
      cases hround : NameCursor.round m len maxLen start ⟨q, c.out, jump'⟩ with
      | stops r' => rw [(stops_iff hround).mp hq]
      | waits => exact absurd hq (not_waits hround)
      | goes d =>
        -- no pointer that is followed is left, so this is a label
        have hlonger : c.out.length < d.out.length :=
          round_longer (c := ⟨q, c.out, jump'⟩) hround hstop
        refine ih ((goes_iff hround).mp hq) (by omega) ?_
        generalize (k + 1) * (2 ^ 14 + 2) = fuel at hn ⊢
        omega
    · obtain ⟨n, rfl⟩ : ∃ j, n = j + 1 := ⟨n - 1, by omega⟩
      have hround := round_end len start (show ¬ c.Continues m maxLen from fun hc => hroom hc.2)
      rw [decodeLoop_succ, hround, (stops_iff hround).mp h]

theorem decode_iff (hmax : 0 < maxLen) : decode m len p maxLen = some r ↔ Returns (round m len maxLen p) (first p) r := by
  constructor
  · exact fun h => decodeLoop_some (c := first p) h
  · refine fun h => decodeLoop_returns (k := maxLen - 1) h (Nat.sub_le ..) ?_
    rw [Nat.sub_add_cancel hmax]

/-- The loop follows labels that there is place for; where they fill it, it may stop in front of the last pointers. -/
theorem Follows.reach (start : Nat) (jump : Option Nat) (h : Follows m len p labels q) (hfits : (labels.foldl addLabel out).length ≤ maxLen - 1) :
    ∃ p' jump', Follows m len p' [] q ∧ (p' = q ∨ maxLen - 1 ≤ (labels.foldl addLabel out).length) ∧
      (∀ r, Returns (round m len maxLen start) ⟨p, out, jump⟩ r ↔
        Returns (round m len maxLen start) ⟨p', labels.foldl addLabel out, jump'⟩ r) ∧
      (Throughout (round m len maxLen start) (Inside m len maxLen) ⟨p', labels.foldl addLabel out, jump'⟩ →
        Throughout (round m len maxLen start) (Inside m len maxLen) ⟨p, out, jump⟩) := by
  induction h generalizing out jump with
  | refl p => exact ⟨p, jump, .refl p, .inl rfl, fun r => Iff.rfl, id⟩
  | @pointer p q labels hptr hin htarget hrest ih =>
    by_cases hroom : out.length < maxLen - 1
    · have hgo : Continues m maxLen ⟨p, out, jump⟩ := ⟨hptr.ne_zero, hroom⟩
      have hround := round_pointer start hgo hptr htarget
      obtain ⟨p', jump', hleads, hend, hreturns, hall⟩ := ih _ hfits
      refine ⟨p', jump', hleads, hend, fun r => (goes_iff hround).trans (hreturns r), fun h => ?_⟩
      exact (Throughout.goes_iff hround).mpr ⟨(inside_pointer hgo hptr).mpr hin, hall h⟩
    · have hlong := length_le_foldl out hrest.labels_ne
      obtain rfl : labels = [] := eq_nil_of_length_eq_zero (by omega)
      exact ⟨p, jump, .pointer hptr hin htarget hrest, .inr (not_lt.mp hroom), fun r => Iff.rfl, id⟩
  | @label p q labels hpos hshort hin hrest ih =>
    have hlong := length_le_foldl (addLabel out (m.bytes (p + 1) (m p).toNat)) hrest.labels_ne
    have hlonger := length_lt_addLabel out (bytes_ne_nil hpos)
    rw [foldl_cons] at hfits ⊢
    have hlabel : (addLabel out (m.bytes (p + 1) (m p).toNat)).length ≤ maxLen - 1 := by omega
    have hgo : Continues m maxLen ⟨p, out, jump⟩ := ⟨hpos, show out.length < _ by omega⟩
    have hround := round_label len start hgo hshort
    rw [copied_eq (c := ⟨p, out, jump⟩) hlabel] at hround
    obtain ⟨p', jump', hleads, hend, hreturns, hall⟩ := ih _ hfits
    refine ⟨p', jump', hleads, hend, fun r => (goes_iff hround).trans (hreturns r), fun h => ?_⟩
    exact (Throughout.goes_iff hround).mpr ⟨(inside_label hgo hshort hlabel).mpr hin, hall h⟩

theorem Follows.extent (h : Follows m len p labels q) (hend : m q = 0) : ∃ n, Extent m p n := by
  induction h with
  | refl p => exact ⟨1, .root hend⟩
  | pointer hptr => exact ⟨2, .pointer hptr⟩
  | label hpos hshort _ _ ih =>
    obtain ⟨n, hn⟩ := ih hend
    exact ⟨_, .label hpos hshort hn⟩

theorem Follows.decodes (start : Nat) (jump : Option Nat) (h : Follows m len p labels q) (hend : m q = 0) (hroom : (labels.foldl addLabel out).length < maxLen - 1)
    (hextent : Extent m p n) (hstart : jump = none → start ≤ p) :
    Returns (round m len maxLen start) ⟨p, out, jump⟩ (some (labels.foldl addLabel out, jump.getD (p - start + n))) := by
  induction h generalizing out jump n with
  | refl p =>
    have hn : n = 1 := by
      cases hextent with
      | root => rfl
      | pointer hptr => exact absurd hend hptr.ne_zero
      | label hpos => exact absurd hend hpos
    subst hn
    exact .stop (round_end _ _ fun hgo => hgo.1 hend)
  | @pointer p q labels hptr hin htarget hrest ih =>
    have hn : n = 2 := by
      cases hextent with
      | root h0 => exact absurd h0 hptr.ne_zero
      | pointer => rfl
      | label _ hshort => exact absurd hptr (not_isPointer_of_short hshort)
    subst hn
    have hlong := length_le_foldl out hrest.labels_ne
    obtain ⟨k, hk⟩ := hrest.extent hend
    exact .go (round_pointer start ⟨hptr.ne_zero, show out.length < _ by omega⟩ hptr htarget) (ih _ hend hroom hk fun hnone => by cases hnone)
  | @label p q labels hpos hshort hin hrest ih =>
    have hlong := length_le_foldl (addLabel out (m.bytes (p + 1) (m p).toNat)) hrest.labels_ne
    have hlonger := length_lt_addLabel out (bytes_ne_nil hpos)
    rw [foldl_cons] at hroom ⊢
    have hgo : Continues m maxLen ⟨p, out, jump⟩ := ⟨hpos, show out.length < _ by omega⟩
    have hround := round_label len start hgo hshort
    have hfits : (addLabel out (m.bytes (p + 1) (m p).toNat)).length ≤ maxLen - 1 := by omega
    rw [copied_eq (c := ⟨p, out, jump⟩) hfits] at hround
    cases hextent with
    | root h0 => exact absurd h0 hpos
    | pointer hptr => exact absurd hptr (not_isPointer_of_short hshort)
    | @label _ k _ _ hk =>
      have hreturns := ih jump hend hroom hk fun hnone =>
        (hstart hnone).trans (by omega)
      have hlength : jump.getD (p + 1 + (m p).toNat - start + k) = jump.getD (p - start + (1 + (m p).toNat + k)) := by
        cases jump with
        | some j => rfl
        | none =>
          have := hstart rfl
          rw [getD_none, getD_none]
          omega
      rw [← hlength]
      exact .go hround hreturns

/-- The loop is right about a name: it ends, it stays in the response and in the output, and it fails where it cannot give
the whole text. -/
structure DecodesSafely (m : Memory) (len p maxLen : Nat) : Prop where
  ends : decode m len p maxLen ≠ none
  inside : Throughout (round m len maxLen p) (Inside m len maxLen) (first p)
  refuses : ∀ text n, decode m len p maxLen = some (some (text, n)) → ∃ labels, Says m len p labels ∧ text = labels.foldl addLabel []

theorem Fits.safe (h : Fits m len (maxLen - 1) p) (hmax : 0 < maxLen) : DecodesSafely m len p maxLen := by
  obtain ⟨labels, q, hfollows, hq, hfits, hend⟩ := h
  obtain ⟨p', jump, hleads, hat, hreturns, hall⟩ := hfollows.reach p none hfits
  have hout : (labels.foldl addLabel []).length < maxLen := by omega
  have hsafe : ∀ r, NameCursor.round m len maxLen p ⟨p', labels.foldl addLabel [], jump⟩ = .stops r →
      Inside m len maxLen ⟨p', labels.foldl addLabel [], jump⟩ →
      (∀ text n, r = some (text, n) → ∃ labels, Says m len p labels ∧ text = labels.foldl addLabel []) → DecodesSafely m len p maxLen := by
    intro r hround hinside hsaid
    have hdecode := (decode_iff hmax).mpr ((hreturns r).mpr (.stop hround))
    refine ⟨by rw [hdecode]; exact some_ne_none r, hall ((Throughout.stops_iff hround).mpr hinside), fun text n ht => ?_⟩
    rw [hdecode] at ht
    exact hsaid text n (some.inj ht)
  rcases hend with hzero | ⟨hroom, hbad⟩
  · have hstop : ¬ Continues m maxLen ⟨p', labels.foldl addLabel [], jump⟩ := by
      rintro ⟨hne, hlt⟩
      rcases hat with rfl | hfull
      · exact hne hzero
      · exact absurd hlt (not_lt.mpr hfull)
    refine hsafe _ (round_end _ _ hstop) (inside_end hstop (hleads.lt hq) hout) fun text n ht => ?_
    cases ht
    exact ⟨labels, ⟨q, hq, hfollows, hzero⟩, rfl⟩
  · obtain rfl := hat.resolve_right (not_le.mpr hroom)
    rcases hbad with hres | ⟨hptr, hin, htarget⟩
    · have hgo : Continues m maxLen ⟨p', labels.foldl addLabel [], jump⟩ :=
        ⟨fun h0 => absurd hres.1 (show ¬ 63 < (m p').toNat by rw [h0]; decide), hroom⟩
      exact hsafe _ (round_reserved hgo hres) (inside_reserved hgo hres hq) fun text n ht => by cases ht
    · have hgo : Continues m maxLen ⟨p', labels.foldl addLabel [], jump⟩ := ⟨hptr.ne_zero, hroom⟩
      exact hsafe _ (round_outside hgo hptr htarget) ((inside_pointer hgo hptr).mpr hin) fun text n ht => by cases ht

/-- The name at `p` is cut: behind `out` its text comes to `cap` characters in a label. The loop ends there, and takes the
name for `n` bytes long: up to there with one byte more, or up to the end of its first pointer. -/
inductive Cut (m : Memory) (len cap : Nat) : List UInt8 → Nat → Nat → Prop
  | here {out : List UInt8} {p : Nat} (hroom : out.length < cap) (hpos : m p ≠ 0) (hshort : (m p).toNat ≤ 63)
    (hfull : cap ≤ (addLabel out (m.bytes (p + 1) (m p).toNat)).length) (hin : p + 1 + (cap - (addLabel out []).length) < len) :
    Cut m len cap out p (cap - (addLabel out []).length + 2)
  | pointer {out : List UInt8} {p n : Nat} (hptr : IsPointer (m p)) (hin : p + 1 < len) (htarget : target m p < len)
    (hrest : Cut m len cap out (target m p) n) : Cut m len cap out p 2
  | label {out : List UInt8} {p n : Nat} (hpos : m p ≠ 0) (hshort : (m p).toNat ≤ 63) (hin : p + (m p).toNat < len)
    (hrest : Cut m len cap (addLabel out (m.bytes (p + 1) (m p).toNat)) (p + 1 + (m p).toNat) n) :
    Cut m len cap out p (1 + (m p).toNat + n)

theorem Cut.room (h : Cut m len cap out p n) : out.length < cap := by
  induction h with
  | here hroom => exact hroom
  | pointer _ _ _ _ ih => exact ih
  | label hpos _ _ _ ih => exact (length_lt_addLabel _ (bytes_ne_nil hpos)).trans ih

theorem Cut.decodes (start : Nat) (jump : Option Nat) (h : Cut m len (maxLen - 1) out p n) (hstart : jump = none → start ≤ p) :
    (∃ text, text.length = maxLen - 1 ∧
      Returns (round m len maxLen start) ⟨p, out, jump⟩ (some (text, jump.getD (p - start + n)))) ∧
      Throughout (round m len maxLen start) (Inside m len maxLen) ⟨p, out, jump⟩ := by
  induction h generalizing jump with
  | @here out p hroom hpos hshort hfull hin =>
    have hgo : Continues m maxLen ⟨p, out, jump⟩ := ⟨hpos, hroom⟩
    have hround := round_label len start hgo hshort
    have hlength := length_full hgo hfull
    have hcopied := copied_full (c := ⟨p, out, jump⟩) hfull
    rw [hcopied] at hround hlength
    generalize maxLen - 1 - (addLabel out []).length = k at hround hlength hin hcopied ⊢
    have hstop : ¬ Continues m maxLen ⟨p + 1 + k, dotted ⟨p, out, jump⟩ ++ m.bytes (p + 1) k, jump⟩ := fun h =>
      absurd h.2 (not_lt.mpr hlength.ge)
    have hend := round_end len start hstop
    refine ⟨⟨_, hlength, ?_⟩, (Throughout.goes_iff hround).mpr ⟨⟨fun x hx => ?_, lt_of_lt_of_le hroom (sub_le ..)⟩,
      (Throughout.stops_iff hend).mpr (inside_end hstop hin (by rw [hlength]; omega))⟩⟩
    · have hn : jump.getD (p - start + (k + 2)) = jump.getD (p + 1 + k - start + 1) := by
        cases jump with
        | some j => rfl
        | none =>
          have := hstart rfl
          rw [getD_none, getD_none]
          omega
      rw [hn]
      exact .go hround (.stop hend)
    · rw [reads, if_pos hgo, if_neg (not_isPointer_of_short hshort), if_neg (not_lt.mpr hshort), hcopied] at hx
      rcases mem_cons.mp hx with rfl | hx
      · omega
      · have hrange : p + 1 ≤ x ∧ x < p + 1 + k := mem_range'_1.mp hx
        omega
  | @pointer out p n hptr hin htarget hrest ih =>
    have hgo : Continues m maxLen ⟨p, out, jump⟩ := ⟨hptr.ne_zero, hrest.room⟩
    have hround := round_pointer start hgo hptr htarget
    obtain ⟨⟨text, hlength, hreturns⟩, hall⟩ := ih (some (jump.getD (p - start + 2))) fun hnone => by cases hnone
    exact ⟨⟨text, hlength, .go hround hreturns⟩, (Throughout.goes_iff hround).mpr ⟨(inside_pointer hgo hptr).mpr hin, hall⟩⟩
  | @label out p n hpos hshort hin hrest ih =>
    have hfits := hrest.room.le
    have hgo : Continues m maxLen ⟨p, out, jump⟩ := ⟨hpos, (length_lt_addLabel out (bytes_ne_nil hpos)).trans_le hfits⟩
    have hround := round_label len start hgo hshort
    rw [copied_eq (c := ⟨p, out, jump⟩) hfits] at hround
    obtain ⟨⟨text, hlength, hreturns⟩, hall⟩ := ih jump fun hnone => (hstart hnone).trans (by omega)
    refine ⟨⟨text, hlength, ?_⟩, (Throughout.goes_iff hround).mpr ⟨(inside_label hgo hshort hfits).mpr hin, hall⟩⟩
    have hn : jump.getD (p - start + (1 + (m p).toNat + n)) = jump.getD (p + 1 + (m p).toNat - start + n) := by
      cases jump with
      | some j => rfl
      | none =>
        have := hstart rfl
        rw [getD_none, getD_none]
        omega
    rw [hn]
    exact .go hround hreturns

/-- What a loop that ends and reads the response only comes to, from any round of it on: the end of a name, a byte at which it
fails, or the label that fills the output. -/
theorem name_of_returns (h : Returns (round m len maxLen start) c r)
    (hall : Throughout (round m len maxLen start) (Inside m len maxLen) c) (hroom : c.out.length < maxLen - 1) :
    (∃ labels q, Follows m len c.ptr labels q ∧ q < len ∧ (labels.foldl addLabel c.out).length < maxLen - 1 ∧
      (m q = 0 ∨ Reserved (m q) ∨ IsPointer (m q) ∧ q + 1 < len ∧ len ≤ target m q)) ∨
      ∃ n, Cut m len (maxLen - 1) c.out c.ptr n := by
  induction h with
  | @stop c r hs =>
    have hinside := hall.head
    refine .inl ⟨[], c.ptr, .refl _, hinside.1 _ (.head _), hroom, ?_⟩
    by_cases hend : m c.ptr = 0
    · exact .inl hend
    · have hgo : c.Continues m maxLen := ⟨hend, hroom⟩
      by_cases hpointer : IsPointer (m c.ptr)
      · refine .inr (.inr ⟨hpointer, (inside_pointer hgo hpointer).mp hinside, not_lt.mp fun hin => ?_⟩)
        rw [round_pointer _ hgo hpointer hin] at hs
        cases hs
      · refine .inr (.inl ⟨not_le.mp fun hshort => ?_, hpointer⟩)
        rw [round_label _ _ hgo hshort] at hs
        cases hs
  | @go c d r hg hd ih =>
    have hinside := hall.head
    have hrest := ((Throughout.goes_iff hg).mp hall).2
    have hgo : c.Continues m maxLen := by
      by_contra hstop
      rw [round_end _ _ hstop] at hg
      cases hg
    by_cases hpointer : IsPointer (m c.ptr)
    · have htarget : target m c.ptr < len := not_le.mp fun hout => by
        rw [round_outside hgo hpointer hout] at hg
        cases hg
      rw [round_pointer _ hgo hpointer htarget] at hg
      cases hg
      have hin := (inside_pointer hgo hpointer).mp hinside
      rcases ih hrest hroom with ⟨labels, q, hfollows, h⟩ | ⟨n, hcut⟩
      · exact .inl ⟨labels, q, .pointer hpointer hin htarget hfollows, h⟩
      · exact .inr ⟨2, .pointer hpointer hin htarget hcut⟩
    · have hshort : (m c.ptr).toNat ≤ 63 := not_lt.mp fun hlong => by
        rw [round_reserved hgo ⟨hlong, hpointer⟩] at hg
        cases hg
      rw [round_label _ _ hgo hshort] at hg
      cases hg
      by_cases hfits : (addLabel c.out (m.bytes (c.ptr + 1) (m c.ptr).toNat)).length < maxLen - 1
      · have hin := (inside_label hgo hshort hfits.le).mp hinside
        rw [copied_eq hfits.le] at ih hrest
        rcases ih hrest hfits with ⟨labels, q, hfollows, h⟩ | ⟨n, hcut⟩
        · exact .inl ⟨_, q, .label hgo.1 hshort hin hfollows, h⟩
        · exact .inr ⟨_, .label hgo.1 hshort hin hcut⟩
      · have hfull := not_lt.mp hfits
        have hptr : c.ptr + 1 + c.copied m maxLen < len := hrest.head.1 _ (.head _)
        exact .inr ⟨_, .here hroom hgo.1 hshort hfull (copied_full hfull ▸ hptr)⟩

theorem DecodesSafely.fits (h : DecodesSafely m len p maxLen) : 0 < maxLen ∧ Fits m len (maxLen - 1) p := by
  have hmax : 0 < maxLen := lt_of_le_of_lt (zero_le _) h.inside.head.2
  obtain ⟨r, hr⟩ := ne_none_iff_exists'.mp h.ends
  have hreturns := (decode_iff hmax).mp hr
  -- A text that is returned is that of a name.
  have hsaid : ∀ text n, r = some (text, n) → text.length ≤ maxLen - 1 → Fits m len (maxLen - 1) p := by
    rintro text n rfl hlength
    obtain ⟨labels, ⟨q, hq, hfollows, hend⟩, rfl⟩ := h.refuses text n hr
    exact ⟨labels, q, hfollows, hq, hlength, .inl hend⟩
  refine ⟨hmax, ?_⟩
  by_cases hroom : 0 < maxLen - 1
  · rcases name_of_returns hreturns h.inside hroom with ⟨labels, q, hfollows, hq, hlength, hend⟩ | ⟨n, hcut⟩
    · exact ⟨labels, q, hfollows, hq, hlength.le, hend.imp_right fun hbad => ⟨hlength, hbad⟩⟩
    · obtain ⟨⟨text, hlength, hcuts⟩, -⟩ := hcut.decodes p none fun _ => le_refl p
      exact hsaid _ _ (hreturns.unique hcuts) hlength.le
  · exact hsaid _ _ ((stops_iff (round_end _ _ fun hgo => hroom hgo.2)).mp hreturns) (zero_le _)

/-- Exactly then the loop is right about the name at a position of a response. -/
theorem decode_safe_iff (m : Memory) (len p maxLen : Nat) :
    DecodesSafely m len p maxLen ↔ 0 < maxLen ∧ Fits m len (maxLen - 1) p :=
  ⟨fun h => h.fits, fun h => h.2.safe h.1⟩

/-- A response of 14 bytes whose name is a pointer to itself. -/
def selfPointer : Memory := Memory.memcpy (fun _ => 0) 12 [0xC0, 12]

theorem selfPointer_decodes_for_ever : ¬ DecodesSafely selfPointer 14 12 Dns.maxName := by
  intro h
  obtain ⟨-, labels, q, hfollows, -, -, hend⟩ := h.fits
  have hself : ∀ p labels q, Follows selfPointer 14 p labels q → p = 12 → q = 12 := by
    intro p labels q hf
    induction hf with
    | refl => exact id
    | pointer hptr _ _ _ ih =>
      rintro rfl
      exact ih (by decide +kernel)
    | label _ hshort =>
      rintro rfl
      exact absurd hshort (by decide +kernel)
  obtain rfl := hself _ _ _ hfollows rfl
  rcases hend with h0 | ⟨-, hres | ⟨-, -, hout⟩⟩
  · exact absurd h0 (by decide +kernel)
  · exact absurd hres (by decide +kernel)
  · exact absurd hout (by decide +kernel)

end DnsName
end RetroOs.Net
