import RetroOs.Net.DnsNames

/-! Responses of a name server: the sections of a well-formed one, what the handler reads of a response, and what it makes
of it. -/
namespace RetroOs.Net
open Lib Option Nat NameCursor

namespace Dns
open DnsName

variable {m : Memory} {len p q n k e : Nat} {labels : List (List UInt8)} {s : Dns} {records : List ResourceRecord}
  {text : List UInt8}

/-- A name of at most 255 bytes on the wire, whose own bytes are `n`. -/
def IsName (m : Memory) (len p n : Nat) : Prop :=
  ∃ labels, Says m len p labels ∧ (labels.foldl addLabel []).length ≤ 253 ∧ Extent m p n

/-- The section of `k` questions from `p` to `e`: names with type and class. -/
inductive Questions (m : Memory) (len : Nat) : Nat → Nat → Nat → Prop
  | nil (p : Nat) : Questions m len 0 p p
  | cons {k p n e : Nat} (hname : IsName m len p n) (hin : p + n + questionSize ≤ len)
    (hrest : Questions m len k (p + n + questionSize) e) : Questions m len (k + 1) p e

structure ResourceRecord where
  type : UInt16
  data : List UInt8

def recordType (m : Memory) (p : Nat) : UInt16 := htons (UInt16.ofNat (m.load16 p))
def recordLength (m : Memory) (p : Nat) : Nat := (htons (UInt16.ofNat (m.load16 (p + 8)))).toNat

inductive Answers (m : Memory) (len : Nat) : Nat → Nat → List ResourceRecord → Prop
  | nil (p : Nat) : Answers m len 0 p []
  | cons {k p n : Nat} {records : List ResourceRecord} (hname : IsName m len p n)
    (hin : p + n + rrDataSize + recordLength m (p + n) ≤ len) (haddress : recordType m (p + n) = typeA → recordLength m (p + n) = 4)
    (hrest : Answers m len k (p + n + rrDataSize + recordLength m (p + n)) records) :
    Answers m len (k + 1) p
      (⟨recordType m (p + n), m.bytes (p + n + rrDataSize) (recordLength m (p + n))⟩ :: records)

def WellFormed (m : Memory) (len : Nat) (records : List ResourceRecord) : Prop :=
  headerSize ≤ len ∧ ∃ e, Questions m len (qdcount m).toNat headerSize e ∧ Answers m len (ancount m).toNat e records

def word (data : List UInt8) : UInt32 := UInt32.ofNat (Memory.load32 (fun i => data.getD i 0) 0)

def firstAddress (records : List ResourceRecord) : Option UInt32 := (records.find? fun r => r.type = typeA).map fun r => word r.data

/-- The response is the one that the resolver waits for, and reports no error. -/
def Awaits (s : Dns) (m : Memory) : Prop := id m = s.pendingId ∧ flags m &&& 0x000F = 0

/-- What the skipped names of questions are read at lies in the response. -/
def SkipInside (m : Memory) (len : Nat) : Nat → Nat → Prop
  | 0, _ => True
  | n + 1, p =>
    p < len ∧ (m p ≠ 0 → ¬ IsPointer (m p) → SkipInside m len n (p + ((m p).toNat + 1)))

def QuestionsInside (m : Memory) (len : Nat) : Nat → Nat → Prop
  | 0, _ => True
  | k + 1, p =>
    SkipInside m len (2 ^ 32) p ∧ ∀ q ∈ skipLoop m (2 ^ 32) p,
      q < len ∧ QuestionsInside m len k (if m q = 0 then q + 1 + questionSize else q + questionSize)

/-- What is read of the answers lies in the response: each name, the fields behind it where they are looked at, and the
address. A name and its terminator have place in the buffer for it. -/
def AnswersInside (m : Memory) (len : Nat) : Nat → Nat → Prop
  | 0, _ => True
  | k + 1, p =>
    Throughout (round m len maxName p) (NameCursor.Inside m len maxName) (first p) ∧
      ∀ text n, decode m len p maxName = some (some (text, n)) → p + n + rrDataSize ≤ len →
        if recordType m (p + n) = typeA ∧ recordLength m (p + n) = 4 then p + n + rrDataSize + 4 ≤ len
        else AnswersInside m len k (p + n + rrDataSize + recordLength m (p + n))

/-- The same of all that `dns_rx_handler` reads; the header is read where the response has its size. -/
def ResponseInside (s : Dns) (m : Memory) (len : Nat) : Prop :=
  headerSize ≤ len → s.Awaits m → ancount m ≠ 0 →
    QuestionsInside m len (qdcount m).toNat headerSize ∧
      ∀ p ∈ skipQuestions m (qdcount m).toNat headerSize, AnswersInside m len (ancount m).toNat p

def Resolves (s : Dns) (m : Memory) (len : Nat) (records : List ResourceRecord) : Prop :=
  ∃ t, s.rxHandler m len = some t ∧
    match firstAddress records with
    | some ip => t.resolvedIp = ip ∧ t.responseReceived = 1
    | none => t.responseReceived = -1

/-- The handler is right about a response: it takes the address of a well-formed one, and of another one it reads only what
was received, and ends. -/
structure HandlesResponse (s : Dns) (m : Memory) (len : Nat) : Prop where
  resolves : ∀ records, WellFormed m len records → s.Awaits m → Resolves s m len records
  stays : (¬ ∃ records, WellFormed m len records) → s.rxHandler m len ≠ none ∧ s.ResponseInside m len

/-- The first pointer of the name at `p`. -/
inductive PointerAt (m : Memory) : Nat → Nat → Prop
  | here {p : Nat} (hptr : IsPointer (m p)) : PointerAt m p p
  | label {p q : Nat} (hpos : m p ≠ 0) (hshort : (m p).toNat ≤ 63) (hrest : PointerAt m (p + 1 + (m p).toNat) q) : PointerAt m p q

inductive PlainQuestions (m : Memory) (len : Nat) : Nat → Nat → Nat → Prop
  | nil (p : Nat) : PlainQuestions m len 0 p p
  | cons {k p n e : Nat} (hname : IsName m len p n) (hin : p + n + questionSize ≤ len)
    (hplain : ∀ q, PointerAt m p q → m (q + 2) ≠ 0) (hrest : PlainQuestions m len k (p + n + questionSize) e) :
    PlainQuestions m len (k + 1) p e

/-- The handler comes over the name of a question to `q`: the zero byte at its end, or what is behind a pointer. -/
inductive Skips (m : Memory) (len : Nat) : Nat → Nat → Prop
  | root {p : Nat} (hin : p < len) (hend : m p = 0) : Skips m len p p
  | pointer {p : Nat} (hin : p + 2 < len) (hptr : IsPointer (m p)) : Skips m len p (p + 2)
  | label {p q : Nat} (hin : p < len) (hpos : m p ≠ 0) (hptr : ¬ IsPointer (m p)) (hrest : Skips m len (p + ((m p).toNat + 1)) q) :
    Skips m len p q

/-- And over a question: a zero byte at `q` is taken for the end of the name, also behind a pointer. -/
inductive SkipsQuestions (m : Memory) (len : Nat) : Nat → Nat → Nat → Prop
  | nil (p : Nat) : SkipsQuestions m len 0 p p
  | cons {k p q e : Nat} (hname : Skips m len p q)
    (hrest : SkipsQuestions m len k (if m q = 0 then q + 1 + questionSize else q + questionSize) e) : SkipsQuestions m len (k + 1) p e

/-- A name with a text of fewer than 255 characters, whose own bytes are `n`. -/
def ShortName (m : Memory) (len p n : Nat) : Prop :=
  ∃ labels, Says m len p labels ∧ (labels.foldl addLabel []).length < 255 ∧ Extent m p n

/-- From `p` on a text of fewer than 255 characters leads to a byte that is no label, or to a pointer out of the response. -/
def RefusedName (m : Memory) (len p : Nat) : Prop :=
  ∃ labels q, Follows m len p labels q ∧ q < len ∧ (labels.foldl addLabel []).length < 255 ∧
    (Reserved (m q) ∨ IsPointer (m q) ∧ q + 1 < len ∧ len ≤ target m q)

/-- A name in the response that the handler comes over in `n` bytes: of the length that it has, or cut where its text fills the
buffer. -/
def ReadName (m : Memory) (len p n : Nat) : Prop := ShortName m len p n ∨ Cut m len 255 [] p n

/-- Up to `k` records from `p` on: to a name that is refused, to the end of the response in front of the fields of a record, or
to an address that lies in the response. -/
inductive Parses (m : Memory) (len : Nat) : Nat → Nat → Prop
  | nil (p : Nat) : Parses m len 0 p
  | refused {k p : Nat} (hname : RefusedName m len p) : Parses m len (k + 1) p
  | short {k p n : Nat} (hname : ReadName m len p n) (hout : len < p + n + rrDataSize) : Parses m len (k + 1) p
  | address {k p n : Nat} (hname : ReadName m len p n) (htype : recordType m (p + n) = typeA) (hlength : recordLength m (p + n) = 4)
    (hin : p + n + rrDataSize + 4 ≤ len) : Parses m len (k + 1) p
  | next {k p n : Nat} (hname : ReadName m len p n) (hother : ¬ (recordType m (p + n) = typeA ∧ recordLength m (p + n) = 4))
    (hin : p + n + rrDataSize ≤ len) (hrest : Parses m len k (p + n + rrDataSize + recordLength m (p + n))) : Parses m len (k + 1) p

/-- In a well-formed response whose questions the handler looks at, it does not take the type of one for the end of its
name. -/
def PlainlyAsked (s : Dns) (m : Memory) (len : Nat) : Prop :=
  ∀ records, WellFormed m len records → s.Awaits m → ancount m ≠ 0 → ∀ e, Questions m len (qdcount m).toNat headerSize e →
    PlainQuestions m len (qdcount m).toNat headerSize e

/-- What the handler needs of a response that it looks at, and of the resolver. -/
structure Orderly (s : Dns) (m : Memory) (len : Nat) : Prop where
  unanswered : ∀ records, WellFormed m len records → s.Awaits m → ancount m ≠ 0 → firstAddress records = none →
    s.responseReceived = 0 ∨ s.responseReceived = -1
  sections : (¬ ∃ records, WellFormed m len records) → headerSize ≤ len → s.Awaits m → ancount m ≠ 0 →
    ∃ e, SkipsQuestions m len (qdcount m).toNat headerSize e ∧ Parses m len (ancount m).toNat e

theorem IsName.short (h : IsName m len p n) : ShortName m len p n := by
  obtain ⟨labels, hsaid, htext, hextent⟩ := h
  exact ⟨labels, hsaid, lt_of_le_of_lt htext (by decide), hextent⟩

theorem ShortName.fits (h : ShortName m len p n) : Fits m len (maxName - 1) p := by
  obtain ⟨labels, ⟨q, hq, hfollows, hend⟩, htext, -⟩ := h
  exact ⟨labels, q, hfollows, hq, htext.le, .inl hend⟩

theorem ShortName.decode (h : ShortName m len p n) : ∃ text, decode m len p maxName = some (some (text, n)) := by
  obtain ⟨labels, ⟨q, hq, hfollows, hend⟩, htext, hextent⟩ := h
  have hroom : (labels.foldl addLabel []).length < maxName - 1 := htext
  have hreturns := hfollows.decodes p none hend hroom hextent fun _ => le_refl p
  rw [Option.getD_none, Nat.sub_self, Nat.zero_add] at hreturns
  exact ⟨_, (decode_iff (by decide)).mpr hreturns⟩

theorem RefusedName.decode (h : RefusedName m len p) :
    decode m len p maxName = some none ∧
      Throughout (round m len maxName p) (NameCursor.Inside m len maxName) (first p) := by
  obtain ⟨labels, q, hfollows, hq, htext, hbad⟩ := h
  have hsafe : DecodesSafely m len p maxName := (decode_safe_iff m len p maxName).mpr
    ⟨by decide, labels, q, hfollows, hq, htext.le, .inr ⟨htext, hbad⟩⟩
  have hfits : (labels.foldl addLabel []).length ≤ maxName - 1 := htext.le
  obtain ⟨p', jump, -, hat, hreturns, -⟩ := hfollows.reach p none hfits
  obtain rfl := hat.resolve_right (not_le.mpr htext)
  refine ⟨(decode_iff (by decide)).mpr ((hreturns none).mpr (.stop ?_)), hsafe.inside⟩
  rcases hbad with hres | ⟨hptr, -, hout⟩
  · exact round_reserved ⟨fun h0 => absurd hres.1 (show ¬ 63 < (m p').toNat by rw [h0]; decide), htext⟩ hres
  · exact round_outside ⟨hptr.ne_zero, htext⟩ hptr hout

theorem ReadName.decode (h : ReadName m len p n) : ∃ text, decode m len p maxName = some (some (text, n)) := by
  rcases h with hshort | hcut
  · exact hshort.decode
  · obtain ⟨⟨text, -, hreturns⟩, -⟩ := Cut.decodes p none (show Cut m len (maxName - 1) [] p n from hcut) fun _ => le_refl p
    rw [Option.getD_none, Nat.sub_self, Nat.zero_add] at hreturns
    exact ⟨text, (decode_iff (by decide)).mpr hreturns⟩

theorem ReadName.inside (h : ReadName m len p n) :
    Throughout (round m len maxName p) (NameCursor.Inside m len maxName) (first p) := by
  rcases h with hshort | hcut
  · exact (hshort.fits.safe (by decide)).inside
  · exact (Cut.decodes p none (show Cut m len (maxName - 1) [] p n from hcut) fun _ => le_refl p).2

/-- There is no other way for the name of a record to be read. -/
theorem name_of_decode {r : Option (List UInt8 × Nat)} (h : decode m len p maxName = some r)
    (hall : Throughout (round m len maxName p) (NameCursor.Inside m len maxName) (first p)) :
    RefusedName m len p ∨ ∃ n, ReadName m len p n := by
  rcases name_of_returns ((decode_iff (by decide)).mp h) hall (show 0 < maxName - 1 by decide) with ⟨labels, q, hfollows, hq, htext, hend | hbad⟩ | ⟨n, hcut⟩
  · obtain ⟨n, hn⟩ := hfollows.extent hend
    exact .inr ⟨n, .inl ⟨labels, ⟨q, hq, hfollows, hend⟩, htext, hn⟩⟩
  · exact .inl ⟨labels, q, hfollows, hq, htext, hbad⟩
  · exact .inr ⟨n, .inr hcut⟩

theorem Skips.loop (h : Skips m len p q) (hn : len ≤ p + n) : skipLoop m n p = some q ∧ SkipInside m len n p ∧ q < len := by
  induction h generalizing n with
  | @root p hin hend =>
    obtain ⟨n, rfl⟩ : ∃ j, n = j + 1 := ⟨n - 1, by omega⟩
    exact ⟨by rw [skipLoop, if_pos hend], ⟨hin, fun hne => absurd hend hne⟩, hin⟩
  | @pointer p hin hptr =>
    obtain ⟨n, rfl⟩ : ∃ j, n = j + 1 := ⟨n - 1, by omega⟩
    refine ⟨?_, ⟨by omega, fun _ hnot => absurd hptr hnot⟩, hin⟩
    rw [skipLoop, if_neg hptr.ne_zero, if_pos (show m p &&& 0xC0 = 0xC0 from hptr)]
  | @label p q hin hpos hptr _ ih =>
    obtain ⟨n, rfl⟩ : ∃ j, n = j + 1 := ⟨n - 1, by omega⟩
    obtain ⟨hloop, hinside, hq⟩ := ih (n := n) (by omega)
    refine ⟨?_, ⟨hin, fun _ _ => hinside⟩, hq⟩
    rw [skipLoop, if_neg hpos, if_neg (show ¬ m p &&& 0xC0 = 0xC0 from hptr), hloop]

theorem SkipsQuestions.reach (h : SkipsQuestions m len k p e) (hlen : len ≤ 2 ^ 32) :
    skipQuestions m k p = some e ∧ QuestionsInside m len k p := by
  induction h with
  | nil p => exact ⟨rfl, trivial⟩
  | @cons k p q e hname _ ih =>
    obtain ⟨hloop, hinside, hq⟩ := hname.loop (n := 2 ^ 32) (le_add_left_of_le hlen)
    refine ⟨?_, hinside, fun x hx => ?_⟩
    · rw [skipQuestions, hloop]
      exact ih.1
    · cases hloop.symm.trans hx
      exact ⟨hq, ih.2⟩

private theorem skips_of_loop (h : skipLoop m n p = some q) (hinside : SkipInside m len n p) (hq : q < len) : Skips m len p q := by
  induction n generalizing p with
  | zero => cases h
  | succ n ih =>
    rw [skipLoop] at h
    obtain ⟨hp, hrest⟩ := hinside
    split_ifs at h with hend hptr
    · cases h
      exact .root hp hend
    · cases h
      exact .pointer hq hptr
    · exact .label hp hend hptr (ih h (hrest hend hptr))

private theorem exists_skipsQuestions (h : skipQuestions m k p = some e) (hinside : QuestionsInside m len k p) : SkipsQuestions m len k p e := by
  induction k generalizing p with
  | zero =>
    cases h
    exact .nil _
  | succ k ih =>
    obtain ⟨q, hloop, h⟩ := bind_eq_some_iff.mp h
    obtain ⟨hname, hrest⟩ := hinside
    obtain ⟨hq, hrest⟩ := hrest q hloop
    exact .cons (skips_of_loop hloop hname hq) (ih h hrest)

private theorem skips_of_extent (h : Extent m p n) (hin : p + n < len) (hplain : ∀ q, PointerAt m p q → m (q + 2) ≠ 0) :
    ∃ q, Skips m len p q ∧ (if m q = 0 then q + 1 else q) = p + n := by
  induction h with
  | @root p hend => exact ⟨p, .root (by omega) hend, if_pos hend⟩
  | @pointer p hptr => exact ⟨p + 2, .pointer hin hptr, if_neg (hplain p (.here hptr))⟩
  | @label p n hpos hshort _ ih =>
    obtain ⟨q, hq, hend⟩ := ih (by omega) fun q hq => hplain q (.label hpos hshort hq)
    rw [show p + 1 + (m p).toNat = p + ((m p).toNat + 1) by omega] at hq
    exact ⟨q, .label (by omega) hpos (not_isPointer_of_short hshort) hq, by omega⟩

theorem PlainQuestions.skips (h : PlainQuestions m len k p e) : SkipsQuestions m len k p e := by
  induction h with
  | nil p => exact .nil p
  | @cons k p n e hname hin hplain _ ih =>
    obtain ⟨-, -, -, hextent⟩ := hname
    have hlt : p + n < len := Nat.lt_of_lt_of_le (Nat.lt_add_of_pos_right (by decide)) hin
    obtain ⟨q, hq, hend⟩ := skips_of_extent hextent hlt hplain
    refine .cons hq ?_
    rw [show (if m q = 0 then q + 1 + questionSize else q + questionSize) = p + n + questionSize by
      rw [← hend]
      split <;> rfl]
    exact ih

private theorem word_bytes (m : Memory) (p : Nat) : word (m.bytes p 4) = UInt32.ofNat (m.load32 p) := rfl

theorem findAnswer_name (h : DnsName.decode m len p maxName = some (some (text, n))) :
    findAnswer m len (k + 1) p =
      if p + n + rrDataSize > len then some none
      else if recordType m (p + n) = typeA ∧ recordLength m (p + n) = 4 then some (some (UInt32.ofNat (m.load32 (p + n + rrDataSize))))
      else findAnswer m len k (p + n + rrDataSize + recordLength m (p + n)) := by
  rw [findAnswer, h]
  rfl

theorem Answers.finds (h : Answers m len k p records) :
    findAnswer m len k p = some (firstAddress records) := by
  induction h with
  | nil p => rfl
  | @cons k p n records hname hin haddress _ ih =>
    obtain ⟨text, htext⟩ := hname.short.decode
    rw [findAnswer_name htext, if_neg (by omega), firstAddress, List.find?_cons]
    by_cases htype : recordType m (p + n) = typeA
    · rw [if_pos ⟨htype, haddress htype⟩, decide_eq_true htype, map_some, haddress htype, word_bytes]
    · rw [if_neg fun h => htype h.1, decide_eq_false htype, ih, firstAddress]

theorem answersInside_name (h : DnsName.decode m len p maxName = some (some (text, n)))
    (hname : Throughout (round m len maxName p) (NameCursor.Inside m len maxName) (first p))
    (hrest : p + n + rrDataSize ≤ len →
      if recordType m (p + n) = typeA ∧ recordLength m (p + n) = 4 then p + n + rrDataSize + 4 ≤ len
      else AnswersInside m len k (p + n + rrDataSize + recordLength m (p + n))) : AnswersInside m len (k + 1) p := by
  refine ⟨hname, fun text' n' h' => ?_⟩
  obtain ⟨-, rfl⟩ := Prod.mk.inj (some.inj (some.inj (h.symm.trans h')))
  exact hrest

theorem Parses.reads (h : Parses m len k p) : findAnswer m len k p ≠ none ∧ AnswersInside m len k p := by
  induction h with
  | nil p => exact ⟨some_ne_none _, trivial⟩
  | refused hname =>
    obtain ⟨hdecode, hinside⟩ := hname.decode
    refine ⟨?_, hinside, fun text n h => ?_⟩
    · rw [findAnswer, hdecode]
      exact some_ne_none _
    · rw [hdecode] at h
      cases h
  | short hname hout =>
    obtain ⟨text, htext⟩ := hname.decode
    refine ⟨?_, answersInside_name htext hname.inside fun hin => absurd hout (not_lt.mpr hin)⟩
    rw [findAnswer_name htext, if_pos hout]
    exact some_ne_none _
  | address hname htype hlength hin =>
    obtain ⟨text, htext⟩ := hname.decode
    refine ⟨?_, answersInside_name htext hname.inside fun _ => ?_⟩
    · rw [findAnswer_name htext, if_neg (by omega), if_pos ⟨htype, hlength⟩]
      exact some_ne_none _
    · rw [if_pos ⟨htype, hlength⟩]
      exact hin
  | next hname hother hin _ ih =>
    obtain ⟨text, htext⟩ := hname.decode
    refine ⟨?_, answersInside_name htext hname.inside fun _ => ?_⟩
    · rw [findAnswer_name htext, if_neg (not_lt.mpr hin), if_neg hother]
      exact ih.1
    · rw [if_neg hother]
      exact ih.2

private theorem parses_of_reads (h : findAnswer m len k p ≠ none) (hinside : AnswersInside m len k p) : Parses m len k p := by
  induction k generalizing p with
  | zero => exact .nil p
  | succ k ih =>
    obtain ⟨hname, hrest⟩ := hinside
    have hdecode : decode m len p maxName ≠ none := fun hnone => h (by rw [findAnswer, hnone]; rfl)
    obtain ⟨r, hr⟩ := ne_none_iff_exists'.mp hdecode
    rcases name_of_decode hr hname with hrefused | ⟨n, hread⟩
    · exact .refused hrefused
    · obtain ⟨text, htext⟩ := hread.decode
      rw [findAnswer_name htext] at h
      by_cases hin : p + n + rrDataSize ≤ len
      · have hrest := hrest text n htext hin
        by_cases haddress : recordType m (p + n) = typeA ∧ recordLength m (p + n) = 4
        · rw [if_pos haddress] at hrest
          exact .address hread haddress.1 haddress.2 hrest
        · rw [if_neg (not_lt.mpr hin), if_neg haddress] at h
          rw [if_neg haddress] at hrest
          exact .next hread haddress hin (ih h hrest)
      · exact .short hread (not_le.mp hin)

/-- The resolver with what the answers say. -/
def told (s : Dns) : Option UInt32 → Dns
  | some ip => { s with resolvedIp := ip, responseReceived := 1 }
  | none => if s.responseReceived = 0 then { s with responseReceived := -1 } else s

theorem rxHandler_answers {found : Option UInt32} (hlen : headerSize ≤ len) (hawaits : s.Awaits m) (hcount : ancount m ≠ 0)
    (hskip : skipQuestions m (qdcount m).toNat headerSize = some e) (hfind : findAnswer m len (ancount m).toNat e = some found) :
    s.rxHandler m len = some (s.told found) := by
  have hflags : ¬ flags m &&& 0x000F ≠ 0 := not_not.mpr hawaits.2
  have hanswer : answer m len = some found := by
    rw [answer, if_neg (not_lt.mpr hlen), if_neg hflags, if_neg hcount, hskip]
    exact hfind
  rw [rxHandler, if_neg (not_lt.mpr hlen), if_neg (not_not.mpr hawaits.1), if_neg (not_or.mpr ⟨hflags, hcount⟩), hanswer]
  cases found with
  | some ip => rfl
  | none => rfl

private theorem rxHandler_finds {t : Dns} (hlen : headerSize ≤ len) (hawaits : s.Awaits m) (hcount : ancount m ≠ 0)
    (h : s.rxHandler m len = some t) :
    ∃ e, skipQuestions m (qdcount m).toNat headerSize = some e ∧ findAnswer m len (ancount m).toNat e ≠ none := by
  have hflags : ¬ flags m &&& 0x000F ≠ 0 := not_not.mpr hawaits.2
  rw [rxHandler, if_neg (not_lt.mpr hlen), if_neg (not_not.mpr hawaits.1), if_neg (not_or.mpr ⟨hflags, hcount⟩), answer,
    if_neg (not_lt.mpr hlen), if_neg hflags, if_neg hcount] at h
  cases hskip : skipQuestions m (qdcount m).toNat headerSize with
  | none =>
    rw [hskip] at h
    cases h
  | some e =>
    refine ⟨e, rfl, fun hnone => ?_⟩
    rw [hskip, bind_eq_bind, bind_some, hnone] at h
    cases h

theorem Orderly.resolves (h : s.Orderly m len) (hplain : s.PlainlyAsked m len) (hlen : len ≤ 2 ^ 32)
    (hform : WellFormed m len records) (hawaits : s.Awaits m) : s.Resolves m len records := by
  have ⟨hheader, e, hquestions, hanswers⟩ := hform
  by_cases hcount : ancount m = 0
  · have hnone : s.rxHandler m len = some { s with responseReceived := -1 } := by
      rw [rxHandler, if_neg (not_lt.mpr hheader), if_neg (not_not.mpr hawaits.1), if_pos (.inr hcount)]
    rw [hcount] at hanswers
    cases hanswers
    exact ⟨_, hnone, rfl⟩
  · have hskip := ((hplain records hform hawaits hcount e hquestions).skips.reach hlen).1
    refine ⟨_, rxHandler_answers hheader hawaits hcount hskip hanswers.finds, ?_⟩
    cases hfirst : firstAddress records with
    | some ip => exact ⟨rfl, rfl⟩
    | none =>
      rw [told]
      rcases h.unanswered records hform hawaits hcount hfirst with h0 | h1
      · rw [if_pos h0]
      · rw [if_neg (by rw [h1]; decide)]
        exact h1

theorem Orderly.stays (h : s.Orderly m len) (hlen : len ≤ 2 ^ 32) (hform : ¬ ∃ records, WellFormed m len records) :
    s.rxHandler m len ≠ none ∧ s.ResponseInside m len := by
  by_cases hlooks : headerSize ≤ len ∧ s.Awaits m ∧ ancount m ≠ 0
  · obtain ⟨hheader, hawaits, hcount⟩ := hlooks
    obtain ⟨e, hskips, hparses⟩ := h.sections hform hheader hawaits hcount
    obtain ⟨hskip, hquestions⟩ := hskips.reach hlen
    obtain ⟨found, hfound⟩ := ne_none_iff_exists'.mp hparses.reads.1
    refine ⟨?_, fun _ _ _ => ⟨hquestions, fun p hp => ?_⟩⟩
    · rw [rxHandler_answers hheader hawaits hcount hskip hfound]
      exact some_ne_none _
    · cases hskip.symm.trans hp
      exact hparses.reads.2
  · refine ⟨?_, fun hheader hawaits hcount => absurd ⟨hheader, hawaits, hcount⟩ hlooks⟩
    rw [rxHandler]
    by_cases hheader : len < headerSize
    · rw [if_pos hheader]
      exact some_ne_none _
    · by_cases hid : id m = s.pendingId
      · rw [if_neg hheader, if_neg (not_not.mpr hid), if_pos]
        · exact some_ne_none _
        · by_contra hno
          obtain ⟨hflags, hcount⟩ := not_or.mp hno
          exact hlooks ⟨not_lt.mp hheader, ⟨hid, not_not.mp hflags⟩, hcount⟩
      · rw [if_neg hheader, if_pos hid]
        exact some_ne_none _

theorem HandlesResponse.orderly (h : s.HandlesResponse m len) (hplain : s.PlainlyAsked m len) (hlen : len ≤ 2 ^ 32) :
    s.Orderly m len where
  unanswered records hform hawaits hcount hnone := by
    have ⟨hheader, e, hquestions, hanswers⟩ := hform
    have hskip := ((hplain records hform hawaits hcount e hquestions).skips.reach hlen).1
    obtain ⟨t, ht, hreceived⟩ := h.resolves records hform hawaits
    rw [rxHandler_answers hheader hawaits hcount hskip hanswers.finds, hnone, told, some_inj] at ht
    rw [hnone, ← ht] at hreceived
    by_cases hzero : s.responseReceived = 0
    · exact .inl hzero
    · rw [if_neg hzero] at hreceived
      exact .inr hreceived
  sections hform hheader hawaits hcount := by
    obtain ⟨hends, hinside⟩ := h.stays hform
    obtain ⟨t, ht⟩ := ne_none_iff_exists'.mp hends
    obtain ⟨hquestions, hanswers⟩ := hinside hheader hawaits hcount
    obtain ⟨e, hskip, hfind⟩ := rxHandler_finds hheader hawaits hcount ht
    exact ⟨e, exists_skipsQuestions hskip hquestions, parses_of_reads hfind (hanswers e hskip)⟩

/-- Where no type of a question is taken for the end of its name, the handler is right about a response exactly if the response
is orderly. -/
theorem handles_iff_orderly {m : Memory} {length : UInt16} (hplain : s.PlainlyAsked m length.toNat) :
    s.HandlesResponse m length.toNat ↔ s.Orderly m length.toNat := by
  have hlen : length.toNat ≤ 2 ^ 32 := length.toNat_lt.le.trans (by decide)
  exact ⟨fun h => h.orderly hplain hlen, fun h => ⟨fun _ hform hawaits => h.resolves hplain hlen hform hawaits, h.stays hlen⟩⟩

private theorem isName_label (hpos : m p ≠ 0) (hshort : (m p).toNat ≤ 63) (hin : p + 1 + (m p).toNat < len)
    (hend : m (p + 1 + (m p).toNat) = 0) : IsName m len p (1 + (m p).toNat + 1) := by
  refine ⟨_, ⟨_, hin, .label hpos hshort (by omega) (.refl _), hend⟩, ?_, .label hpos hshort (.root hend)⟩
  rw [List.foldl_cons, List.foldl_nil, length_addLabel, Memory.length_bytes, if_pos List.isEmpty_nil, List.length_nil]
  omega

theorem IsName.pointed (h : IsName m len (target m p) n) (hptr : IsPointer (m p)) (hin : p + 1 < len) (htarget : target m p < len) :
    IsName m len p 2 := by
  obtain ⟨labels, ⟨q, hq, hfollows, hend⟩, htext, -⟩ := h
  exact ⟨labels, ⟨q, hq, .pointer hptr hin htarget hfollows, hend⟩, htext, .pointer hptr⟩

/-- The bytes of an address record whose name is the one behind the header. -/
def addressRecord : List UInt8 := [0xC0, 12, 0, 1, 0, 1, 0, 0, 1, 0x2C, 0, 4, 93, 184, 216, 34]

def oneQuestion : Memory :=
  Memory.memcpy (fun _ => 0) 0 ([0, 0, 0x81, 0x80, 0, 1, 0, 1, 0, 0, 0, 0] ++ [1, 0x61, 0, 0, 1, 0, 1] ++ addressRecord)

theorem handles_iff_orderly_oneQuestion : init.HandlesResponse oneQuestion 35 := by
  have hlabel : IsName oneQuestion 35 12 3 := isName_label (by decide) (by decide) (by decide) (by decide)
  have hpointed : IsName oneQuestion 35 19 2 := hlabel.pointed (by decide) (by decide) (by decide)
  refine (@handles_iff_orderly init oneQuestion 35 fun _ _ _ _ e hquestions => ?_).mpr
    ⟨fun _ _ _ _ _ => .inl rfl, fun _ _ _ _ => ⟨19, ?_, ?_⟩⟩
  · rw [show (qdcount oneQuestion).toNat = 0 + 1 by decide] at hquestions ⊢
    cases hquestions with
    | cons hname hin hrest =>
      refine .cons hname hin (fun q hq => ?_) ?_
      · rcases hq with ⟨hptr⟩ | ⟨-, -, hrest⟩
        · exact absurd hptr (by decide)
        · rcases hrest with ⟨hptr⟩ | ⟨hpos, -, -⟩
          · exact absurd hptr (by decide)
          · exact absurd rfl hpos
      · cases hrest
        exact .nil _
  · exact .cons (.label (by decide) (by decide) (by decide) (.root (by decide) (by decide))) (.nil _)
  · rw [show (ancount oneQuestion).toNat = 0 + 1 by decide]
    exact .address (.inl hpointed.short) (by decide) (by decide) (by decide)

/-- A response with a second question, for the name of the first. -/
def twoQuestions : Memory := Memory.memcpy (fun _ => 0) 0
  ([0, 0, 0x81, 0x80, 0, 2, 0, 1, 0, 0, 0, 0] ++ [1, 0x61, 0, 0, 1, 0, 1] ++ [0xC0, 12, 0, 1, 0, 1] ++ addressRecord)

/-- The type of the second question is taken for the end of its name. -/
theorem twoQuestions_loses_the_address : ¬ init.HandlesResponse twoQuestions 41 := by
  intro h
  have hlabel : IsName twoQuestions 41 12 3 := isName_label (by decide) (by decide) (by decide) (by decide)
  have hsecond : IsName twoQuestions 41 19 2 := hlabel.pointed (by decide) (by decide) (by decide)
  have hanswer : IsName twoQuestions 41 25 2 := hlabel.pointed (by decide) (by decide) (by decide)
  have hform : WellFormed twoQuestions 41 [⟨1, [93, 184, 216, 34]⟩] :=
    ⟨by decide, 25, .cons hlabel (by decide) (.cons hsecond (by decide) (.nil _)), .cons hanswer (by decide) (by decide) (.nil _)⟩
  have hskips : SkipsQuestions twoQuestions 41 2 12 26 :=
    .cons (.label (by decide) (by decide) (by decide) (.root (by decide) (by decide))) (.cons (.pointer (by decide) (by decide)) (.nil _))
  have hrefused : RefusedName twoQuestions 41 26 :=
    ⟨_, 39, .label (by decide) (by decide) (by decide) (.refl _), by decide, by decide, .inr ⟨by decide, by decide, by decide⟩⟩
  have hfind : findAnswer twoQuestions 41 1 26 = some none := by
    rw [findAnswer, hrefused.decode.1]
    rfl
  obtain ⟨t, ht, hip⟩ := h.resolves _ hform ⟨by decide, by decide⟩
  cases ht
  have hreceived : (init.told none).responseReceived = 1 := hip.2
  exact absurd hreceived (by decide)

end Dns
end RetroOs.Net
