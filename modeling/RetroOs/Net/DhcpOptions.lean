import RetroOs.Net.Dhcp

/-! The options of a DHCP message: the sequence that the received bytes hold, what the search for an option reads and finds
in it, and the options that were added to a packet. -/
namespace RetroOs.Net
open Lib List Nat Memory

namespace Dhcp

variable {data : Memory} {received length i j n o lim : Nat} {code : UInt8} {os : List Nat}

def optionByte (data : Memory) (i : Nat) : UInt8 := data (optionsOffset + i)

def valueLength (data : Memory) (i : Nat) : Nat := (data (optionsOffset + i + 1)).toNat

def IsCode (b : UInt8) : Prop := b ≠ optPad ∧ b ≠ optEnd

/-- The options from offset `i` on that lie in the first `lim` bytes, by their positions in the message. -/
inductive Tlv (data : Memory) (lim : Nat) : Nat → List Nat → Prop
  | done {i : Nat} (hout : lim ≤ i) : Tlv data lim i []
  | pad {i : Nat} {os : List Nat} (hin : i < lim) (hpad : optionByte data i = optPad) (hrest : Tlv data lim (i + 1) os) :
    Tlv data lim i os
  | last {i : Nat} (hin : i < lim) (hend : optionByte data i = optEnd) : Tlv data lim i []
  | option {i : Nat} {os : List Nat} (hcode : IsCode (optionByte data i)) (hin : i + (2 + valueLength data i) ≤ lim)
    (hrest : Tlv data lim (i + (2 + valueLength data i)) os) : Tlv data lim i ((optionsOffset + i) :: os)
  | cut {i : Nat} (hin : i < lim) (hcode : IsCode (optionByte data i)) (hout : lim < i + (2 + valueLength data i)) :
    Tlv data lim i []

/-- The positions of the bytes that the search reads. -/
def findReads (data : Memory) (code : UInt8) : Nat → Nat → List Nat
  | 0, _ => []
  | n + 1, i =>
    if i < optionsSize then
      let c := optionByte data i
      if c = optPad then (optionsOffset + i) :: findReads data code n (i + 1)
      else if c = optEnd ∨ c = code then [optionsOffset + i]
      else (optionsOffset + i) :: (optionsOffset + i + 1) :: findReads data code n (i + (2 + valueLength data i))
    else []

structure Searches (data : Memory) (received : Nat) (code : UInt8) (n i : Nat) : Prop where
  reads : ∀ x ∈ findReads data code n i, x < optionsOffset + received
  whole : ∀ o ∈ findOption data code n i, o + 2 + (data (o + 1)).toNat ≤ optionsOffset + min received optionsSize
  first : ∀ os, Tlv data (min received optionsSize) i os → findOption data code n i = os.find? fun o => data o = code

inductive Leads (data : Memory) (received : Nat) (code : UInt8) : Nat → Nat → Prop
  | refl (i : Nat) : Leads data received code i i
  | pad {i j : Nat} (hsize : i < optionsSize) (hin : i < received) (hpad : optionByte data i = optPad)
    (hrest : Leads data received code (i + 1) j) : Leads data received code i j
  | option {i j : Nat} (hsize : i < optionsSize) (hin : i + 1 < received) (hcode : IsCode (optionByte data i))
    (hother : optionByte data i ≠ code) (hrest : Leads data received code (i + (2 + valueLength data i)) j) :
    Leads data received code i j

def Ends (data : Memory) (received : Nat) (code : UInt8) (j : Nat) : Prop :=
  optionsSize ≤ j ∨ j < optionsSize ∧ j < received ∧ optionByte data j = optEnd ∨
    IsCode (optionByte data j) ∧ optionByte data j = code ∧ j + (2 + valueLength data j) ≤ min received optionsSize

def Arrives (data : Memory) (received : Nat) (code : UInt8) (i : Nat) : Prop :=
  ∃ j, Leads data received code i j ∧ Ends data received code j

private theorem find_here (h : optionByte data i = code) (os : List Nat) :
    ((optionsOffset + i) :: os).find? (fun o => data o = code) = some (optionsOffset + i) :=
  find?_cons_of_pos (decide_eq_true h)

private theorem find_behind (h : optionByte data i ≠ code) (os : List Nat) :
    ((optionsOffset + i) :: os).find? (fun o => data o = code) = os.find? fun o => data o = code :=
  find?_cons_of_neg fun h' => h (of_decide_eq_true h')

theorem findOption_done (h : optionsSize ≤ i) : findOption data code n i = none := by
  cases n with
  | zero => rfl
  | succ n => rw [findOption, if_neg (not_lt.mpr h)]

theorem findOption_pad (hsize : i < optionsSize) (hpad : optionByte data i = optPad) :
    findOption data code (n + 1) i = findOption data code n (i + 1) := by
  rw [findOption, if_pos hsize]
  exact if_pos hpad

theorem findOption_last (hsize : i < optionsSize) (hend : optionByte data i = optEnd) : findOption data code (n + 1) i = none := by
  have hpad : ¬ data (optionsOffset + i) = optPad := fun h => absurd (h.symm.trans hend) (by decide)
  rw [findOption, if_pos hsize, if_neg hpad]
  exact if_pos hend

theorem findOption_found (hsize : i < optionsSize) (hcode : IsCode (optionByte data i)) (hfound : optionByte data i = code) :
    findOption data code (n + 1) i = some (optionsOffset + i) := by
  have hfound' : data (optionsOffset + i) = code := hfound
  rw [findOption, if_pos hsize, if_neg (show ¬ data (optionsOffset + i) = optPad from hcode.1),
    if_neg (show ¬ data (optionsOffset + i) = optEnd from hcode.2), if_pos hfound']

theorem findOption_option (hsize : i < optionsSize) (hcode : IsCode (optionByte data i)) (hother : optionByte data i ≠ code) :
    findOption data code (n + 1) i = findOption data code n (i + (2 + valueLength data i)) := by
  rw [findOption, if_pos hsize, if_neg (show ¬ data (optionsOffset + i) = optPad from hcode.1),
    if_neg (show ¬ data (optionsOffset + i) = optEnd from hcode.2), if_neg (show ¬ data (optionsOffset + i) = code from hother)]
  rfl

private theorem findReads_done (h : optionsSize ≤ i) : findReads data code n i = [] := by
  cases n with
  | zero => rfl
  | succ n => rw [findReads, if_neg (not_lt.mpr h)]

private theorem findReads_pad (hsize : i < optionsSize) (hpad : optionByte data i = optPad) :
    findReads data code (n + 1) i = (optionsOffset + i) :: findReads data code n (i + 1) := by
  rw [findReads, if_pos hsize]
  exact if_pos hpad

theorem findReads_stop (hsize : i < optionsSize) (hpad : optionByte data i ≠ optPad)
    (hstop : optionByte data i = optEnd ∨ optionByte data i = code) : findReads data code (n + 1) i = [optionsOffset + i] := by
  rw [findReads, if_pos hsize]
  exact (if_neg hpad).trans (if_pos hstop)

private theorem findReads_option (hsize : i < optionsSize) (hcode : IsCode (optionByte data i)) (hother : optionByte data i ≠ code) :
    findReads data code (n + 1) i =
      (optionsOffset + i) :: (optionsOffset + i + 1) :: findReads data code n (i + (2 + valueLength data i)) := by
  rw [findReads, if_pos hsize]
  exact (if_neg hcode.1).trans (if_neg (not_or.mpr ⟨hcode.2, hother⟩))

private theorem searches_done (h : optionsSize ≤ i) : Searches data received code n i := by
  refine ⟨fun x hx => ?_, fun o ho => ?_, fun os hos => ?_⟩
  · rw [findReads_done h] at hx
    exact absurd hx not_mem_nil
  · rw [findOption_done h] at ho
    cases ho
  · rw [findOption_done h]
    cases hos with
    | done => rfl
    | pad hin => omega
    | last => rfl
    | option _ hin => omega
    | cut => rfl

private theorem searches_pad (hsize : i < optionsSize) (hpad : optionByte data i = optPad) :
    Searches data received code (n + 1) i ↔ i < received ∧ Searches data received code n (i + 1) := by
  constructor
  · rintro ⟨hreads, hwhole, hfirst⟩
    rw [findReads_pad hsize hpad] at hreads
    rw [findOption_pad hsize hpad] at hwhole hfirst
    have hin : i < received := lt_of_add_lt_add_left (hreads _ (.head _))
    exact ⟨hin, fun x hx => hreads x (.tail _ hx), hwhole, fun os hos => hfirst os (.pad (by omega) hpad hos)⟩
  · rintro ⟨hin, hreads, hwhole, hfirst⟩
    refine ⟨?_, ?_, fun os hos => ?_⟩
    · rw [findReads_pad hsize hpad]
      exact forall_mem_cons.mpr ⟨Nat.add_lt_add_left hin _, hreads⟩
    · rw [findOption_pad hsize hpad]
      exact hwhole
    · rw [findOption_pad hsize hpad]
      cases hos with
      | done hout => omega
      | pad _ _ hrest => exact hfirst os hrest
      | last _ hend => exact absurd (hpad.symm.trans hend) (by decide)
      | option hcode => exact absurd hpad hcode.1
      | cut _ hcode => exact absurd hpad hcode.1

private theorem searches_last (hsize : i < optionsSize) (hend : optionByte data i = optEnd) :
    Searches data received code (n + 1) i ↔ i < received := by
  have hpad : optionByte data i ≠ optPad := fun h => absurd (h.symm.trans hend) (by decide)
  constructor
  · rintro ⟨hreads, -, -⟩
    rw [findReads_stop hsize hpad (.inl hend)] at hreads
    exact lt_of_add_lt_add_left (hreads _ (.head _))
  · intro hin
    refine ⟨fun x hx => ?_, fun o ho => ?_, fun os hos => ?_⟩
    · rw [findReads_stop hsize hpad (.inl hend)] at hx
      rw [mem_singleton.mp hx]
      exact Nat.add_lt_add_left hin _
    · rw [findOption_last hsize hend] at ho
      cases ho
    · rw [findOption_last hsize hend]
      cases hos with
      | done => rfl
      | pad _ h => exact absurd h hpad
      | last => rfl
      | option hcode => exact absurd hend hcode.2
      | cut => rfl

private theorem searches_found (hsize : i < optionsSize) (hcode : IsCode (optionByte data i)) (hfound : optionByte data i = code) :
    Searches data received code (n + 1) i ↔ i + (2 + valueLength data i) ≤ min received optionsSize := by
  constructor
  · rintro ⟨-, hwhole, -⟩
    have h := hwhole _ (findOption_found hsize hcode hfound)
    rw [valueLength]
    omega
  · intro hin
    refine ⟨fun x hx => ?_, fun o ho => ?_, fun os hos => ?_⟩
    · rw [findReads_stop hsize hcode.1 (.inr hfound)] at hx
      rw [mem_singleton.mp hx]
      omega
    · cases (findOption_found hsize hcode hfound).symm.trans ho
      rw [valueLength] at hin
      omega
    · rw [findOption_found hsize hcode hfound]
      cases hos with
      | done hout => omega
      | pad _ h => exact absurd h hcode.1
      | last _ h => exact absurd h hcode.2
      | option => exact (find_here hfound _).symm
      | cut _ _ hout => omega

private theorem searches_option (hsize : i < optionsSize) (hcode : IsCode (optionByte data i)) (hother : optionByte data i ≠ code) :
    Searches data received code (n + 1) i ↔ i + 1 < received ∧ Searches data received code n (i + (2 + valueLength data i)) := by
  constructor
  · rintro ⟨hreads, hwhole, hfirst⟩
    rw [findReads_option hsize hcode hother] at hreads
    rw [findOption_option hsize hcode hother] at hwhole hfirst
    have hin := hreads _ (.tail _ (.head _))
    refine ⟨by omega, fun x hx => hreads x (.tail _ (.tail _ hx)), hwhole, fun os hos => ?_⟩
    by_cases hout : min received optionsSize < i + (2 + valueLength data i)
    · -- what is behind a value that is cut is not looked at as an option
      have hnil : os = [] := by
        cases hos with
        | done => rfl
        | pad hin => omega
        | last => rfl
        | option _ hin => omega
        | cut => rfl
      rw [hnil, hfirst [] (.cut (by omega) hcode hout)]
    · exact (hfirst _ (.option hcode (not_lt.mp hout) hos)).trans (find_behind hother os)
  · rintro ⟨hin, hreads, hwhole, hfirst⟩
    refine ⟨?_, ?_, fun os hos => ?_⟩
    · rw [findReads_option hsize hcode hother]
      exact forall_mem_cons.mpr ⟨by omega, forall_mem_cons.mpr ⟨by omega, hreads⟩⟩
    · rw [findOption_option hsize hcode hother]
      exact hwhole
    · rw [findOption_option hsize hcode hother]
      cases hos with
      | done hout => omega
      | pad _ h => exact absurd h hcode.1
      | last _ h => exact absurd h hcode.2
      | option _ _ hrest => exact (hfirst _ hrest).trans (find_behind hother _).symm
      | cut _ _ hout => exact hfirst [] (.done hout.le)

private theorem searches_iff (hn : optionsSize ≤ i + n) : Searches data received code n i ↔ Arrives data received code i := by
  constructor
  · intro h
    induction n generalizing i with
    | zero => exact ⟨i, .refl i, .inl hn⟩
    | succ n ih =>
      by_cases hsize : i < optionsSize
      · by_cases hpad : optionByte data i = optPad
        · obtain ⟨hin, hrest⟩ := (searches_pad hsize hpad).mp h
          obtain ⟨j, hleads, hends⟩ := ih (by omega) hrest
          exact ⟨j, .pad hsize hin hpad hleads, hends⟩
        · by_cases hend : optionByte data i = optEnd
          · exact ⟨i, .refl i, .inr (.inl ⟨hsize, (searches_last hsize hend).mp h, hend⟩)⟩
          · by_cases hfound : optionByte data i = code
            · exact ⟨i, .refl i, .inr (.inr ⟨⟨hpad, hend⟩, hfound, (searches_found hsize ⟨hpad, hend⟩ hfound).mp h⟩)⟩
            · obtain ⟨hin, hrest⟩ := (searches_option hsize ⟨hpad, hend⟩ hfound).mp h
              obtain ⟨j, hleads, hends⟩ := ih (by omega) hrest
              exact ⟨j, .option hsize hin ⟨hpad, hend⟩ hfound hleads, hends⟩
      · exact ⟨i, .refl i, .inl (not_lt.mp hsize)⟩
  · rintro ⟨j, hleads, hends⟩
    induction hleads generalizing n with
    | refl i =>
      by_cases hsize : i < optionsSize
      · obtain ⟨n, rfl⟩ : ∃ k, n = k + 1 := ⟨n - 1, by omega⟩
        rcases hends with hout | ⟨-, hin, hend⟩ | ⟨hcode, hfound, hin⟩
        · exact absurd hsize (not_lt.mpr hout)
        · exact (searches_last hsize hend).mpr hin
        · exact (searches_found hsize hcode hfound).mpr hin
      · exact searches_done (not_lt.mp hsize)
    | pad hsize hin hpad _ ih =>
      obtain ⟨n, rfl⟩ : ∃ k, n = k + 1 := ⟨n - 1, by omega⟩
      exact (searches_pad hsize hpad).mpr ⟨hin, ih (by omega) hends⟩
    | option hsize hin hcode hother _ ih =>
      obtain ⟨n, rfl⟩ : ∃ k, n = k + 1 := ⟨n - 1, by omega⟩
      exact (searches_option hsize hcode hother).mpr ⟨hin, ih (by omega) hends⟩

private theorem findOption_code (h : findOption data code n i = some o) : data o = code ∧ IsCode code := by
  induction n generalizing i with
  | zero => cases h
  | succ n ih =>
    by_cases hsize : i < optionsSize
    · by_cases hpad : optionByte data i = optPad
      · rw [findOption_pad hsize hpad] at h
        exact ih h
      · by_cases hend : optionByte data i = optEnd
        · rw [findOption_last hsize hend] at h
          cases h
        · by_cases hfound : optionByte data i = code
          · rw [findOption_found hsize ⟨hpad, hend⟩ hfound] at h
            cases h
            exact ⟨hfound, by rw [← hfound]; exact ⟨hpad, hend⟩⟩
          · rw [findOption_option hsize ⟨hpad, hend⟩ hfound] at h
            exact ih h
    · rw [findOption_done (not_lt.mp hsize)] at h
      cases h

end Dhcp

open Dhcp

structure DhcpOption where
  code : UInt8
  value : List UInt8
  short : value.length < 2 ^ 8

namespace DhcpOption
variable {data : Memory} {n i o : Nat} {code : UInt8} {opt : DhcpOption} {opts : List DhcpOption} {value value' : List UInt8}

/-- The options of a packet to which these were added, with the end behind them. -/
def encode : List DhcpOption → List UInt8
  | [] => [optEnd]
  | opt :: opts => addOption opt.code opt.value ++ encode opts

/-- The option at a position of a message has this value. -/
def HasValue (data : Memory) (o : Nat) (value : List UInt8) : Prop :=
  (data (o + 1)).toNat = value.length ∧ data.bytes (o + 2) value.length = value

def FindsAdded (data : Memory) (opts : List DhcpOption) : Prop :=
  ∀ opt ∈ opts, ∃ o, findOption data opt.code optionsSize 0 = some o ∧ HasValue data o opt.value

def Findable (opts : List DhcpOption) : Prop :=
  (∀ opt ∈ opts, IsCode opt.code) ∧ ∀ opt ∈ opts, ∀ opt' ∈ opts, opt.code = opt'.code → opt.value = opt'.value

private theorem length_encode_cons (opt : DhcpOption) (opts : List DhcpOption) :
    (encode (opt :: opts)).length = 2 + opt.value.length + (encode opts).length := by
  rw [encode, addOption, length_append, length_cons, length_cons]
  omega

theorem HasValue.unique (h : HasValue data o value) (h' : HasValue data o value') : value = value' := by
  have hlen : value.length = value'.length := h.1.symm.trans h'.1
  rw [← h.2, ← h'.2, hlen]

private theorem encode_at (h : data.bytes (optionsOffset + i) (encode (opt :: opts)).length = encode (opt :: opts)) :
    optionByte data i = opt.code ∧ HasValue data (optionsOffset + i) opt.value ∧ valueLength data i = opt.value.length ∧
      data.bytes (optionsOffset + (i + (2 + valueLength data i))) (encode opts).length = encode opts := by
  rw [length_encode_cons, show 2 + opt.value.length + (encode opts).length = opt.value.length + (encode opts).length + 1 + 1 by omega,
    bytes_succ, bytes_succ, bytes_add] at h
  obtain ⟨hcode, hrest⟩ := cons.inj h
  obtain ⟨hlength, hrest⟩ := cons.inj hrest
  obtain ⟨hvalue, hrest⟩ := append_inj hrest (length_bytes ..)
  have hsize : (data (optionsOffset + i + 1)).toNat = opt.value.length := by
    rw [hlength, UInt8.toNat_ofNat']
    exact mod_eq_of_lt opt.short
  refine ⟨hcode, ⟨hsize, hvalue⟩, hsize, ?_⟩
  rw [valueLength, hsize, show optionsOffset + (i + (2 + opt.value.length)) = optionsOffset + i + 1 + 1 + opt.value.length by omega]
  exact hrest

private theorem find_added (hcodes : ∀ opt ∈ opts, IsCode opt.code) (hn : optionsSize ≤ i + n)
    (hfits : i + (encode opts).length ≤ optionsSize) (hdata : data.bytes (optionsOffset + i) (encode opts).length = encode opts)
    (hfirst : opts.find? (fun opt => opt.code = code) = some opt) :
    ∃ o, findOption data code n i = some o ∧ HasValue data o opt.value := by
  induction opts generalizing n i with
  | nil => cases hfirst
  | cons x xs ih =>
    obtain ⟨hbyte, hvalue, hlength, hrest⟩ := encode_at hdata
    rw [length_encode_cons] at hfits
    have hsize : i < optionsSize := by omega
    have hcode : IsCode (optionByte data i) := hbyte ▸ hcodes x (.head _)
    obtain ⟨n, rfl⟩ : ∃ k, n = k + 1 := ⟨n - 1, by omega⟩
    by_cases hx : x.code = code
    · rw [find?_cons, decide_eq_true hx] at hfirst
      cases hfirst
      exact ⟨_, findOption_found hsize hcode (hbyte.trans hx), hvalue⟩
    · rw [find?_cons, decide_eq_false hx] at hfirst
      rw [findOption_option hsize hcode fun h => hx (hbyte.symm.trans h)]
      exact ih (fun y hy => hcodes y (.tail _ hy)) (by omega) (by rw [hlength]; omega) hrest hfirst

private theorem findsAdded_iff (hfits : (encode opts).length ≤ optionsSize)
    (hdata : data.bytes optionsOffset (encode opts).length = encode opts) : FindsAdded data opts ↔ Findable opts := by
  constructor
  · intro h
    refine ⟨fun opt hopt => ?_, fun opt hopt opt' hopt' hsame => ?_⟩
    · obtain ⟨o, ho, -⟩ := h opt hopt
      exact (findOption_code ho).2
    · obtain ⟨o, ho, hvalue⟩ := h opt hopt
      obtain ⟨o', ho', hvalue'⟩ := h opt' hopt'
      rw [hsame] at ho
      cases ho.symm.trans ho'
      exact hvalue.unique hvalue'
  · rintro ⟨hcodes, hvalues⟩ opt hopt
    obtain ⟨first, hfirst⟩ : ∃ first, opts.find? (fun x => x.code = opt.code) = some first :=
      Option.isSome_iff_exists.mp (find?_isSome.mpr ⟨opt, hopt, decide_eq_true rfl⟩)
    have hsame := find?_some hfirst
    rw [← hvalues first (mem_of_find?_eq_some hfirst) opt hopt (of_decide_eq_true hsame)]
    exact find_added hcodes (Nat.le_add_left ..) (by rwa [Nat.zero_add]) hdata hfirst

/-- Exactly then the search for an option is right about a message; and exactly then it finds what was added to a packet. -/
theorem search_iff (data : Memory) (length : Nat) (code : UInt8) {packet : Memory} {opts : List DhcpOption}
    (hfits : (encode opts).length ≤ optionsSize) (hpacket : packet.bytes optionsOffset (encode opts).length = encode opts) :
    (Searches data (length - optionsOffset) code optionsSize 0 ↔ Arrives data (length - optionsOffset) code 0) ∧
      (FindsAdded packet opts ↔ Findable opts) :=
  ⟨searches_iff (Nat.le_add_left ..), findsAdded_iff hfits hpacket⟩

def offered : List DhcpOption := [⟨optMsgType, [msgOffer], by decide⟩, ⟨optLeaseTime, [0, 0, 0, 100], by decide⟩]

theorem search_iff_offered :
    (Searches (memcpy (fun _ => 0) optionsOffset (encode offered)) 308 optMsgType optionsSize 0 ↔
      Arrives (memcpy (fun _ => 0) optionsOffset (encode offered)) 308 optMsgType 0) ∧
      (FindsAdded (memcpy (fun _ => 0) optionsOffset (encode offered)) offered ↔ Findable offered) :=
  search_iff _ 548 optMsgType (by decide +kernel) (by decide +kernel)

theorem search_reads_behind :
    ¬ Searches (memcpy (fun _ => 0) optionsOffset (addOption optMsgType [msgOffer])) (243 - optionsOffset) optServerId
      optionsSize 0 :=
  fun h => absurd (h.reads 243 (by decide +kernel)) (by decide)

end DhcpOption
end RetroOs.Net
