import RetroOs.Drivers.Fat16Files
import RetroOs.Drivers.Fat16Store

/-! Names as a lookup sees them: which strings come back from the 8.3 form they are stored in, and what a new
entry does to the lookups in its directory. -/
namespace RetroOs.Drivers
open Lib List Subtype Nat Memory
namespace Fat16

/-! ### Names without case -/

/-- What a lookup compares of a displayed name: the bytes before the first 0, in upper case. -/
def folded (name : List UInt8) : List UInt8 := (name.takeWhile (· ≠ 0)).map upper

def foldString (s : CString) : List UInt8 := s.map fun c => upper c.val

theorem upper_toNat (c : UInt8) :
    (upper c).toNat = if 97 ≤ c.toNat ∧ c.toNat ≤ 122 then c.toNat - 32 else c.toNat := by
  have hle : (97 ≤ c ∧ c ≤ 122) ↔ 97 ≤ c.toNat ∧ c.toNat ≤ 122 := by
    rw [UInt8.le_iff_toNat_le, UInt8.le_iff_toNat_le]
    rfl
  rw [upper]
  split
  · next h =>
    rw [if_pos (hle.mp h), UInt8.toNat_sub_of_le _ _ (UInt8.le_iff_toNat_le.mpr ?_)]
    · rfl
    · exact le_trans (by decide) (hle.mp h).1
  · next h => rw [if_neg fun hn => h (hle.mpr hn)]

theorem upper_eq_iff {c k : UInt8} (h : k.toNat < 65 ∨ 122 < k.toNat) : upper c = k ↔ c = k := by
  rw [← UInt8.toNat_inj, ← UInt8.toNat_inj, upper_toNat]
  split <;> omega

theorem upper_upper (c : UInt8) : upper (upper c) = upper c := by
  rw [← UInt8.toNat_inj, upper_toNat (upper c), if_neg]
  rw [upper_toNat]
  split <;> omega

private theorem upper_ne_dot {c : UInt8} (h : c ≠ 46) : upper c ≠ 46 := mt (upper_eq_iff (by decide)).mp h

private theorem upper_ne_blank {c : UInt8} (h : c ≠ 32) : upper c ≠ 32 := mt (upper_eq_iff (by decide)).mp h

theorem sameName_iff (l : List UInt8) (s : CString) : sameName l s = true ↔ folded l = foldString s := by
  induction l generalizing s with
  | nil => cases s <;> simp [sameName, folded, foldString]
  | cons a l ih =>
    cases s with
    | nil => by_cases h : a = 0 <;> simp [sameName, folded, foldString, h]
    | cons c s =>
      have hc := upper_ne_zero c.property
      by_cases h : a = 0
      · have h0 : upper 0 = 0 := by decide
        simp [sameName, folded, foldString, h, h0, hc.symm]
      · have hih := ih s
        simp [sameName, folded, foldString, h, hih]

/-! ### The stored form -/

/-- No dot and no blank. -/
def Plain (s : CString) : Prop := ∀ c ∈ s, c.val ≠ 46 ∧ c.val ≠ 32

instance : DecidablePred Plain := fun s => inferInstanceAs (Decidable (∀ c ∈ s, _))

def dot : CChar := ⟨46, by decide⟩

/-- A name of up to eight characters, or with a dot and one to three more; no other dot, no blank, and not
with the mark of a deleted entry in front. -/
def EightThree (name : CString) : Prop :=
  name.head?.map val ≠ some 0xE5 ∧ ∃ base ext : CString, Plain base ∧ Plain ext ∧ base.length ≤ 8 ∧
    ext.length ≤ 3 ∧ (name = base ∨ ext ≠ [] ∧ name = base ++ dot :: ext)

variable {base ext : CString} {n : NameBuffer} {l : List UInt8} {s : CString} {x : UInt8}

private theorem parse_base (hs : ∀ c ∈ base, c.val ≠ 46) (hn : n.inExt = false) (hl : n.filename.length ≤ 8) :
    base.foldl parseChar n = { n with filename := (n.filename ++ foldString base).take 8 } := by
  induction base generalizing n with
  | nil =>
    rw [foldString, map_nil, append_nil, take_of_length_le hl]
    rfl
  | cons c base ih =>
    obtain ⟨hc, hs⟩ := forall_mem_cons.mp hs
    have hparse : parseChar n c = if n.filename.length < 8 then { n with filename := n.filename ++ [upper c.val] } else n := by
      simp [parseChar, upper_ne_dot hc, hn]
    rw [foldl_cons, hparse]
    split
    · next hlt =>
      have hlen : (n.filename ++ [upper c.val]).length ≤ 8 := by
        rw [length_append, length_singleton]
        exact hlt
      rw [ih (n := { n with filename := n.filename ++ [upper c.val] }) hs hn hlen]
      simp [foldString]
    · next hge =>
      have h8 : n.filename.length = 8 := by omega
      rw [ih hs hn hl]
      simp [foldString, h8]

private theorem parse_ext {p : List UInt8} (hs : ∀ c ∈ ext, c.val ≠ 46) (hn : n.inExt = true) (hei : n.ei = p.length)
    (hpre : n.ext = p ++ replicate (3 - p.length) 32) (hl : p.length ≤ 3) :
    (ext.foldl parseChar n).filename = n.filename ∧
      (ext.foldl parseChar n).ext = (p ++ foldString ext).take 3 ++ replicate (3 - (p.length + ext.length)) 32 := by
  induction ext generalizing n p with
  | nil =>
    refine ⟨rfl, ?_⟩
    simpa [foldString, take_of_length_le hl] using hpre
  | cons c ext ih =>
    obtain ⟨hc, hs⟩ := forall_mem_cons.mp hs
    have hparse : parseChar n c = if n.ei < 3 then { n with ext := n.ext.set n.ei (upper c.val), ei := n.ei + 1 } else n := by
      simp [parseChar, upper_ne_dot hc, hn]
    rw [foldl_cons, hparse]
    split
    · next hlt =>
      rw [hei] at hlt
      have hset : n.ext.set n.ei (upper c.val) =
          (p ++ [upper c.val]) ++ replicate (3 - (p ++ [upper c.val]).length) 32 := by
        rw [hpre, hei, set_append_right _ _ (Nat.le_refl _), Nat.sub_self, length_append,
          length_singleton, show 3 - p.length = (3 - (p.length + 1)) + 1 by omega, replicate_succ,
          set_cons_zero, append_assoc]
        rfl
      obtain ⟨hf, he⟩ := ih (n := { n with ext := n.ext.set n.ei (upper c.val), ei := n.ei + 1 })
        (p := p ++ [upper c.val]) hs hn (by simp [hei]) hset (by simp; omega)
      refine ⟨hf, he.trans ?_⟩
      simp [foldString, add_assoc, add_comm 1]
    · next hge =>
      have h3 : p.length = 3 := by omega
      obtain ⟨hf, he⟩ := ih hs hn hei hpre hl
      refine ⟨hf, he.trans ?_⟩
      simp [foldString, h3]

/-- The first `n` bytes, filled up with blanks. -/
def padded (n : Nat) (l : List UInt8) : List UInt8 := l.take n ++ replicate (n - l.length) 32

@[simp] theorem padded_length (n : Nat) (l : List UInt8) : (padded n l).length = n := by
  simp only [padded, length_append, length_take, length_replicate]
  omega

private theorem padded_filter {k : Nat} (h : ∀ x ∈ l, x ≠ 32) : (padded k l).filter (· ≠ 32) = l.take k := by
  have hall : (l.take k).filter (· ≠ 32) = l.take k :=
    filter_eq_self.mpr fun x hx => decide_eq_true (h x (mem_of_mem_take hx))
  rw [padded, filter_append, hall, filter_eq_nil_iff.mpr, append_nil]
  intro x hx
  simp [eq_of_mem_replicate hx]

@[simp] theorem foldString_length (s : CString) : (foldString s).length = s.length := length_map _

private theorem encodeName_dotted (hb : ∀ c ∈ base, c.val ≠ 46) (he : ∀ c ∈ ext, c.val ≠ 46) :
    encodeName (base ++ dot :: ext) = padded 8 (foldString base) ++ padded 3 (foldString ext) := by
  have hbase := parse_base (n := { filename := [], ext := [32, 32, 32], inExt := false, ei := 0 }) hb rfl (zero_le _)
  have hdot : ∀ n : NameBuffer, parseChar n dot = { n with inExt := true, ei := 0 } := fun n => by
    have hup : upper dot.val = 46 := by decide
    simp [parseChar, hup]
  obtain ⟨hf, hx⟩ := parse_ext (n := { filename := (foldString base).take 8, ext := [32, 32, 32], inExt := true, ei := 0 })
    (p := []) he rfl rfl rfl (zero_le _)
  rw [nil_append] at hbase
  simp only [encodeName, foldl_append, foldl_cons, hbase, hdot, hf, hx, padded]
  simp only [nil_append, length_nil, zero_add, foldString_length, length_take]
  rw [show 8 - min 8 base.length = 8 - base.length by omega]

private theorem encodeName_base (hb : ∀ c ∈ base, c.val ≠ 46) : encodeName base = padded 8 (foldString base) ++ padded 3 [] := by
  have hbase := parse_base (n := { filename := [], ext := [32, 32, 32], inExt := false, ei := 0 }) hb rfl (zero_le _)
  rw [nil_append] at hbase
  simp only [encodeName, hbase, padded]
  simp only [length_take, foldString_length]
  rw [show 8 - min 8 base.length = 8 - base.length by omega]
  rfl

private theorem toName_padded {x y : List UInt8} (hx : ∀ c ∈ x, c ≠ 32) (hy : ∀ c ∈ y, c ≠ 32) :
    toName (padded 8 x) (padded 3 y) = x.take 8 ++ if y = [] then [] else 46 :: y.take 3 := by
  have hhead : (padded 3 y).head? = some 32 ↔ y = [] := by
    cases y with
    | nil => simp [padded]
    | cons c y => simp [padded, hy c]
  simp only [toName, hhead, padded_filter hx, padded_filter hy]

private theorem folded_self (h : ∀ x ∈ l, x ≠ 0 ∧ upper x = x) : folded l = l := by
  have htake : l.takeWhile (· ≠ 0) = l := takeWhile_eq_self_iff.mpr fun x hx => decide_eq_true (h x hx).1
  rw [folded, htake]
  calc l.map upper = l.map id := map_congr_left fun x hx => (h x hx).2
    _ = l := map_id l

private theorem mem_foldString (h : x ∈ foldString s) : ∃ c ∈ s, upper c.val = x := mem_map.mp h

private theorem foldString_fixed (h : x ∈ foldString s) : x ≠ 0 ∧ upper x = x := by
  obtain ⟨c, -, rfl⟩ := mem_foldString h
  exact ⟨upper_ne_zero c.property, upper_upper _⟩

private theorem foldString_ne_blank (h : ∀ c ∈ s, c.val ≠ 32) : ∀ x ∈ foldString s, x ≠ 32 := by
  intro x hx
  obtain ⟨c, hc, rfl⟩ := mem_foldString hx
  exact upper_ne_blank (h c hc)

private theorem foldString_eq_nil : foldString s = [] ↔ s = [] := map_eq_nil_iff

def stored (name : CString) : List UInt8 := toName ((encodeName name).take 8) ((encodeName name).drop 8)

private theorem folded_stored {name : CString} (hb : Plain base) (he : Plain ext)
    (h : encodeName name = padded 8 (foldString base) ++ padded 3 (foldString ext)) :
    folded (stored name) = (foldString base).take 8 ++ if ext = [] then [] else 46 :: (foldString ext).take 3 := by
  have htake : (encodeName name).take 8 = padded 8 (foldString base) := by
    rw [h, take_left' (padded_length ..)]
  have hdrop : (encodeName name).drop 8 = padded 3 (foldString ext) := by
    rw [h, drop_left' (padded_length ..)]
  have hdot : (46 : UInt8) ≠ 0 ∧ upper 46 = 46 := by decide
  rw [stored, htake, hdrop, toName_padded (foldString_ne_blank fun c hc => (hb c hc).2)
    (foldString_ne_blank fun c hc => (he c hc).2)]
  simp only [foldString_eq_nil]
  refine folded_self fun x hx => ?_
  rcases mem_append.mp hx with hx | hx
  · exact foldString_fixed (mem_of_mem_take hx)
  · split at hx
    · cases hx
    · rcases mem_cons.mp hx with rfl | hx
      · exact hdot
      · exact foldString_fixed (mem_of_mem_take hx)

private theorem head_padded {rest : List UInt8} : (padded 8 l ++ rest).head? = some (l.head?.getD 32) := by
  cases l with
  | nil => rfl
  | cons x l => rfl

private theorem head_foldString (s : CString) : (foldString s).head?.getD 32 = 0xE5 ↔ s.head?.map val = some 0xE5 := by
  cases s with
  | nil => simp [foldString]
  | cons c s => simp [foldString, upper_eq_iff (c := c.val) (k := 0xE5) (by decide)]

theorem findable_iff (name : CString) :
    Findable name ↔ (encodeName name).head? ≠ some 0xE5 ∧ folded (stored name) = foldString name := by
  rw [Findable, sameName_iff]
  rfl

private theorem findable_base (hb : Plain base) : Findable base ↔ base.head?.map val ≠ some 0xE5 ∧ base.length ≤ 8 := by
  have henc := encodeName_base fun c hc => (hb c hc).1
  have hfold := folded_stored hb (show Plain [] from fun c hc => nomatch hc) henc
  rw [if_pos rfl, append_nil] at hfold
  rw [findable_iff, henc, head_padded, Ne, Option.some.injEq, head_foldString, hfold]
  rw [take_eq_self_iff, foldString_length]

private theorem findable_dotted (hb : Plain base) (he : Plain ext) :
    Findable (base ++ dot :: ext) ↔
      (base ++ dot :: ext).head?.map val ≠ some 0xE5 ∧ base.length ≤ 8 ∧ ext ≠ [] ∧ ext.length ≤ 3 := by
  have henc := encodeName_dotted (fun c hc => (hb c hc).1) fun c hc => (he c hc).1
  have hfold := folded_stored hb he henc
  have hname : foldString (base ++ dot :: ext) = foldString base ++ 46 :: foldString ext := by
    rw [foldString, map_append, map_cons]
    rfl
  have hhead : base.head?.map val = some 0xE5 ↔ (base ++ dot :: ext).head?.map val = some 0xE5 := by
    cases base with
    | nil => simp [dot]
    | cons c base => rfl
  rw [findable_iff, henc, head_padded, Ne, Option.some.injEq, head_foldString, hhead, hfold, hname]
  refine and_congr_right fun _ => ⟨fun heq => ?_, fun ⟨h8, hne, h3⟩ => ?_⟩
  · have hlen := congrArg length heq
    by_cases hne : ext = []
    · simp [hne] at hlen
      omega
    · simp [hne] at hlen
      exact ⟨by omega, hne, by omega⟩
  · rw [if_neg hne, take_of_length_le (by rwa [foldString_length]), take_of_length_le (by rwa [foldString_length])]

/-! ### Every name -/

/-- A byte is in both fields of a name parsed so far only if it was put there. -/
def NoDot (n : NameBuffer) : Prop := (∀ x ∈ n.filename, x ≠ 46) ∧ ∀ x ∈ n.ext, x ≠ 46

theorem NoDot.parseChar {n : NameBuffer} (h : NoDot n) (c : CChar) : NoDot (parseChar n c) := by
  simp only [Fat16.parseChar]
  split
  · exact h
  · next hc =>
    split
    · split
      · refine ⟨h.1, fun x hx => ?_⟩
        rcases mem_or_eq_of_mem_set hx with hx | rfl
        · exact h.2 x hx
        · exact hc
      · exact h
    · split
      · refine ⟨fun x hx => ?_, h.2⟩
        rcases mem_append.mp hx with hx | hx
        · exact h.1 x hx
        · rwa [mem_singleton.mp hx]
      · exact h

theorem NoDot.foldl {n : NameBuffer} (h : NoDot n) (s : CString) : NoDot (s.foldl Fat16.parseChar n) := by
  induction s generalizing n with
  | nil => exact h
  | cons c s ih => exact ih (h.parseChar c)

private theorem encodeName_ne_dot (name : CString) : ∀ x ∈ encodeName name, x ≠ 46 := by
  have hparse := NoDot.foldl (n := { filename := [], ext := [32, 32, 32], inExt := false, ei := 0 }) ⟨by simp, by simp⟩ name
  intro x hx
  rcases mem_append.mp hx with hx | hx
  · rcases mem_append.mp hx with hx | hx
    · exact hparse.1 x hx
    · rw [eq_of_mem_replicate hx]
      decide
  · exact hparse.2 x hx

private theorem mem_folded (h : x ∈ folded l) : ∃ y ∈ l, upper y = x := by
  obtain ⟨y, hy, rfl⟩ := mem_map.mp h
  exact ⟨y, (takeWhile_sublist _).subset hy, rfl⟩

private theorem toName_ne_blank (filename ext : List UInt8) : ∀ x ∈ toName filename ext, x ≠ 32 := by
  have hfilter : ∀ l : List UInt8, ∀ x ∈ l.filter (· ≠ 32), x ≠ 32 := fun l x hx => of_decide_eq_true (mem_filter.mp hx).2
  intro x hx
  rcases mem_append.mp hx with hx | hx
  · exact hfilter _ x hx
  · split at hx
    · cases hx
    · rcases mem_cons.mp hx with rfl | hx
      · decide
      · exact hfilter _ x hx

private theorem toName_count_dot {filename ext : List UInt8} (hf : ∀ x ∈ filename, x ≠ 46) (he : ∀ x ∈ ext, x ≠ 46) :
    (toName filename ext).count 46 ≤ 1 := by
  have hnone : ∀ l : List UInt8, (∀ x ∈ l, x ≠ 46) → (l.filter (· ≠ 32)).count 46 = 0 := fun l hl =>
    count_eq_zero.mpr fun hmem => hl 46 (mem_filter.mp hmem).1 rfl
  rw [toName, count_append, hnone _ hf, zero_add]
  split
  · exact zero_le 1
  · rw [count_cons_self, hnone _ he]

private theorem folded_count_dot (l : List UInt8) : (folded l).count 46 ≤ l.count 46 := by
  have hmap : ∀ k : List UInt8, (k.map upper).count 46 = k.count 46 := by
    intro k
    rw [count_eq_countP, countP_map, count_eq_countP]
    apply countP_congr
    intro x _
    simp [upper_eq_iff (c := x) (k := 46) (by decide)]
  rw [folded, hmap]
  exact (takeWhile_sublist _).count_le 46

theorem Findable.plain {name : CString} (h : Findable name) :
    (∀ c ∈ name, c.val ≠ 32) ∧ (foldString name).count 46 ≤ 1 := by
  have heq := ((findable_iff name).mp h).2
  have hdot := encodeName_ne_dot name
  rw [← heq]
  constructor
  · intro c hc hblank
    have hmem : (32 : UInt8) ∈ foldString name := by
      apply mem_map.mpr
      exact ⟨c, hc, by rw [hblank]; decide⟩
    rw [← heq] at hmem
    obtain ⟨y, hy, hup⟩ := mem_folded hmem
    exact toName_ne_blank _ _ y hy ((upper_eq_iff (by decide)).mp hup)
  · refine (folded_count_dot _).trans (toName_count_dot ?_ ?_)
    · exact fun x hx => hdot x (mem_of_mem_take hx)
    · exact fun x hx => hdot x (mem_of_mem_drop hx)

private theorem split_dot (name : CString) : (∀ c ∈ name, c.val ≠ 46) ∨
    ∃ base ext : CString, name = base ++ dot :: ext ∧ ∀ c ∈ base, c.val ≠ 46 := by
  induction name with
  | nil => exact .inl fun c hc => nomatch hc
  | cons c name ih =>
    by_cases hc : c.val = 46
    · exact .inr ⟨[], name, by rw [nil_append, show c = dot from Subtype.ext hc], fun c hc => nomatch hc⟩
    · rcases ih with h | ⟨base, ext, rfl, h⟩
      · exact .inl (forall_mem_cons.mpr ⟨hc, h⟩)
      · exact .inr ⟨c :: base, ext, rfl, forall_mem_cons.mpr ⟨hc, h⟩⟩

theorem findable_iff_eightThree (name : CString) : Findable name ↔ EightThree name := by
  constructor
  · intro h
    obtain ⟨hblank, hcount⟩ := h.plain
    rcases split_dot name with hdot | ⟨base, ext, rfl, hbase⟩
    · have hp : Plain name := fun c hc => ⟨hdot c hc, hblank c hc⟩
      obtain ⟨hhead, hlen⟩ := (findable_base hp).mp h
      exact ⟨hhead, name, [], hp, fun c hc => (nomatch hc), hlen, zero_le 3, .inl rfl⟩
    · obtain ⟨hb32, he32⟩ := forall_mem_append.mp hblank
      have he32 := (forall_mem_cons.mp he32).2
      have hext : ∀ c ∈ ext, c.val ≠ 46 := by
        intro c hc h46
        have hmem : (46 : UInt8) ∈ foldString ext := mem_map.mpr ⟨c, hc, by rw [h46]; decide⟩
        have hpos := count_pos_iff.mpr hmem
        rw [foldString, map_append, map_cons, show upper dot.val = 46 by decide, count_append,
          count_cons_self] at hcount
        rw [foldString] at hpos
        omega
      have hb : Plain base := fun c hc => ⟨hbase c hc, hb32 c hc⟩
      have he : Plain ext := fun c hc => ⟨hext c hc, he32 c hc⟩
      obtain ⟨hhead, h8, hne, h3⟩ := (findable_dotted hb he).mp h
      exact ⟨hhead, base, ext, hb, he, h8, h3, .inr ⟨hne, rfl⟩⟩
  · rintro ⟨hhead, base, ext, hb, he, h8, h3, rfl | ⟨hne, rfl⟩⟩
    · exact (findable_base hb).mpr ⟨hhead, h8⟩
    · exact (findable_dotted hb he).mpr ⟨hhead, h8, hne, h3⟩

/-! ### Lookups around a new entry -/

section
variable {m m' : Memory} {a e : Nat} {slots : List Nat} {name name' : CString}

theorem liveSlots_cons (m : Memory) (e : Nat) (slots : List Nat) :
    liveSlots m (e :: slots) = if m e = 0 then [] else if Live m e then e :: liveSlots m slots else liveSlots m slots := by
  rw [liveSlots, takeWhile_cons]
  by_cases h0 : m e = 0
  · simp [h0]
  · by_cases hlive : Live m e
    · simp [h0, hlive, liveSlots]
    · simp [h0, hlive, liveSlots]

theorem find_new (hfree : freeSlot m slots = some a) (hkeep : ∀ e ∈ slots, e ≠ a → m.AgreeOn m' e 32) (h0 : m' a ≠ 0)
    (hlive : Live m' a) (hname : hasName m' name a) (hnone : (liveSlots m slots).find? (hasName m name) = none) :
    (liveSlots m' slots).find? (hasName m' name) = some a := by
  induction slots with
  | nil => cases hfree
  | cons e slots ih =>
    by_cases hea : e = a
    · subst hea
      rw [liveSlots_cons, if_neg h0, if_pos hlive, find?_cons, hname]
    · have hagree := hkeep e (.head _) hea
      have hused : ¬ (m e = 0 ∨ m e = 0xE5) := by
        intro hf
        rw [freeSlot, find?_cons, decide_eq_true hf] at hfree
        exact hea (Option.some.inj hfree)
      obtain ⟨hne, -⟩ := not_or.mp hused
      have hfree' : freeSlot m slots = some a := by
        rwa [freeSlot, find?_cons, decide_eq_false hused] at hfree
      have hne' : m' e ≠ 0 := by rwa [hagree e (le_refl e) (by omega)]
      rw [liveSlots_cons, if_neg hne] at hnone
      rw [liveSlots_cons, if_neg hne']
      simp only [Live.congr hagree]
      split at hnone
      · next hl =>
        rw [find?_cons] at hnone
        split at hnone
        · cases hnone
        · next hno =>
          rw [if_pos hl, find?_cons, hasName_congr hagree, hno]
          exact ih hfree' (fun x hx => hkeep x (mem_cons_of_mem e hx)) hnone
      · next hl =>
        rw [if_neg hl]
        exact ih hfree' (fun x hx => hkeep x (mem_cons_of_mem e hx)) hnone

theorem find_old (hfree : m a = 0 ∨ m a = 0xE5) (hkeep : ∀ e ∈ slots, e ≠ a → m.AgreeOn m' e 32) (h0 : m' a ≠ 0)
    (hname : ¬ hasName m' name a) (hfind : (liveSlots m slots).find? (hasName m name) = some e) :
    (liveSlots m' slots).find? (hasName m' name) = some e := by
  induction slots with
  | nil => cases hfind
  | cons x slots ih =>
    have hih := ih fun y hy => hkeep y (mem_cons_of_mem x hy)
    rw [liveSlots_cons] at hfind
    by_cases hxa : x = a
    · subst hxa
      rcases hfree with hzero | hdel
      · rw [if_pos hzero] at hfind
        cases hfind
      · have hdead : ¬ Live m x := fun hl => hl.1 hdel
        rw [if_neg (by rw [hdel]; decide), if_neg hdead] at hfind
        have hrest := hih hfind
        rw [liveSlots_cons, if_neg h0]
        split
        · rw [find?_cons, eq_false_of_ne_true hname]
          exact hrest
        · exact hrest
    · have hagree := hkeep x (.head _) hxa
      have hsame : m' x = m x := hagree x (le_refl x) (by omega)
      rw [liveSlots_cons, hsame]
      split at hfind
      · cases hfind
      · next hne =>
        rw [if_neg hne]
        simp only [Live.congr hagree]
        split at hfind
        · next hl =>
          rw [if_pos hl]
          rw [find?_cons] at hfind ⊢
          rw [hasName_congr hagree]
          split at hfind
          · exact hfind
          · exact hih hfind
        · next hl =>
          rw [if_neg hl]
          exact hih hfind

theorem hasName_fold (h : foldString name = foldString name') (m : Memory) (a : Nat) : hasName m name a = hasName m name' a := by
  rw [Bool.eq_iff_iff, hasName, hasName, sameName_iff, sameName_iff, h]

private theorem hasName_stored (h : m.bytes a 11 = encodeName name) : hasName m name' a ↔ folded (stored name) = foldString name' := by
  have hfile : (entryAt m a).filename = (m.bytes a 11).take 8 := rfl
  have hext : (entryAt m a).ext = (m.bytes a 11).drop 8 := rfl
  rw [hasName, hfile, hext, h, sameName_iff, stored]

end

structure Resolves (b : Bpb) (d d' : Disk) (dir : Nat) (name : CString) (attr cluster : Nat) : Prop where
  added : ∃ a, (d.bytes a = 0 ∨ d.bytes a = 0xE5) ∧ d'.bytes.bytes a 32 = entryBytes name attr cluster ∧
    findEntry b d' dir name = some (some a)
  kept : ∀ n e, findEntry b d dir n = some (some e) →
    findEntry b d' dir n = some (some e) ∧ d'.bytes.bytes e 32 = d.bytes.bytes e 32

section
variable {b : Bpb} {d : Disk} {dir attr c : Nat} {slots : List Nat} {name : CString}

private theorem addEntry_done (h : DirSlots b d dir slots) (hok : (addEntry b d dir name attr c).2 = some 0) :
    (liveSlots d.bytes slots).find? (hasName d.bytes name) = none ∧ ∃ a, freeSlot d.bytes slots = some a ∧
      (addEntry b d dir name attr c).1 = patchSector d a (entryBytes name attr c) := by
  rw [addEntry, h.findEntry, h.findFree] at hok ⊢
  cases hfind : (liveSlots d.bytes slots).find? (hasName d.bytes name) with
  | some e =>
    rw [hfind] at hok
    exact absurd hok (by simp)
  | none =>
    cases hfree : freeSlot d.bytes slots with
    | none =>
      rw [hfind, hfree] at hok
      exact absurd hok (by simp)
    | some a => exact ⟨rfl, a, rfl, rfl⟩

theorem DirSlots.slot {a : Nat} (h : DirSlots b d dir slots) (ha : a ∈ slots) : Slot b a := by
  cases h with
  | root => exact .inl ha
  | sub _ hv _ =>
    obtain ⟨c, hc, ha⟩ := mem_flatMap.mp ha
    exact .inr ⟨c, hv c hc, ha⟩

/-- The slot `a` has a new entry, and the other slots and the table are as before. -/
structure Entered (b : Bpb) (d d' : Disk) (a : Nat) (name : CString) (attr cluster : Nat) : Prop where
  bytes : d'.bytes.bytes a 32 = entryBytes name attr cluster
  nameBytes : d'.bytes.bytes a 11 = encodeName name
  used : d'.bytes a ≠ 0
  attributes : (entryAt d'.bytes a).attributes = attr % 256
  first : firstCluster d' a = cluster % 2 ^ 16
  keep : ∀ e, e % 32 = 0 → e ≠ a → d.bytes.AgreeOn d'.bytes e 32
  fat : ∀ x < 256 * b.sectorsPerFat, getFatEntry b d' x = getFatEntry b d x

theorem patchSector_entered (hg : Geometry b) {a : Nat} (hslot : Slot b a) (name : CString) (attr cluster : Nat) :
    Entered b d (patchSector d a (entryBytes name attr cluster)) a name attr cluster := by
  have halign := hslot.aligned
  have hbytes : (patchSector d a (entryBytes name attr cluster)).bytes = d.bytes.memcpy a (entryBytes name attr cluster) :=
    patchSector_bytes (by rw [entryBytes_length]; omega)
  constructor
  · rw [hbytes, bytes_memcpy _ (by simp), take_of_length_le (by simp)]
  · rw [hbytes, entryBytes_eq, memcpy_name]
  · rw [hbytes, entryBytes_eq]
    exact memcpy_name_ne_zero _ _ _ _
  · rw [hbytes, (entryAt_entryBytes ..).1]
  · rw [firstCluster, hbytes, (entryAt_entryBytes ..).2]
  · exact fun e he hea => slotWrite_agreeOn halign he hea (patch_buffer (by simp))
  · exact fun x hx => slotWrite_fat hg hslot hx

section
variable {d' : Disk} {a : Nat} {t : CString}

theorem Entered.live (h : Entered b d d' a name attr c) (hattr : attr = attrArchive ∨ attr = attrDirectory)
    (hE5 : (encodeName name).head? ≠ some 0xE5) : Live d'.bytes a := by
  refine ⟨fun hmark => hE5 ?_, ?_⟩
  · rwa [← h.nameBytes, bytes_head, Option.some.injEq]
  · rw [h.attributes]
    rcases hattr with rfl | rfl <;> decide

theorem Entered.hasName_iff (h : Entered b d d' a name attr c) (hname : folded (stored name) = foldString name) :
    hasName d'.bytes t a ↔ foldString name = foldString t := by
  rw [hasName_stored h.nameBytes, hname]

end

/-- A new entry is found by its name, and every other entry by its own, where the name comes back from the form it
is stored in. -/
theorem addEntry_resolves_iff (hg : Geometry b) (h : DirSlots b d dir slots) (hattr : attr = attrArchive ∨ attr = attrDirectory)
    (hok : (addEntry b d dir name attr c).2 = some 0) :
    Resolves b d (addEntry b d dir name attr c).1 dir name attr c ↔ EightThree name := by
  obtain ⟨hnone, a, hfree, hcall⟩ := addEntry_done h hok
  have hmem : a ∈ slots := mem_of_find?_eq_some hfree
  have hunused : d.bytes a = 0 ∨ d.bytes a = 0xE5 := by simpa using find?_some hfree
  have hent : Entered b d _ a name attr c := patchSector_entered hg (h.slot hmem) name attr c
  rw [← hcall] at hent
  have hdir : DirSlots b (addEntry b d dir name attr c).1 dir slots := h.congr fun x hx => hent.fat x hx.fat
  have hkeep : ∀ e ∈ slots, e ≠ a → d.bytes.AgreeOn (addEntry b d dir name attr c).1.bytes e 32 :=
    fun e he hea => hent.keep e (h.aligned he) hea
  generalize (addEntry b d dir name attr c).1 = d' at hdir hkeep hent ⊢
  rw [← findable_iff_eightThree, findable_iff]
  constructor
  · rintro ⟨⟨e, he, hnew, hfound⟩, -⟩
    rw [hdir.findEntry, Option.some.injEq] at hfound
    obtain ⟨hin, -, hlive⟩ := mem_liveSlots (mem_of_find?_eq_some hfound)
    have hname := find?_some hfound
    have hstored' : d'.bytes.bytes e 11 = encodeName name := by
      have htake : (d'.bytes.bytes e 32).take 11 = d'.bytes.bytes e 11 := by
        rw [bytes, bytes, ← map_take, take_range]
        rfl
      rw [← htake, hnew, entryBytes_eq, take_left' (encodeName_length name)]
    rw [hasName_stored hstored'] at hname
    refine ⟨fun hE5 => hlive.1 ?_, hname⟩
    rwa [← hstored', bytes_head, Option.some.injEq] at hE5
  · rintro ⟨hE5, hback⟩
    have hlive := hent.live hattr hE5
    constructor
    · refine ⟨a, hunused, hent.bytes, ?_⟩
      rw [hdir.findEntry, find_new hfree hkeep hent.used hlive ((hent.hasName_iff hback).mpr rfl) hnone]
    · intro n e hold
      rw [h.findEntry, Option.some.injEq] at hold
      obtain ⟨hin, hne0, hold_live⟩ := mem_liveSlots (mem_of_find?_eq_some hold)
      -- an entry that had the new name's characters would have ended the call
      have hother : ¬ hasName d'.bytes n a := by
        intro hn
        have hsame : hasName d.bytes name e = true := by
          rw [hasName_fold ((hent.hasName_iff hback).mp hn)]
          exact find?_some hold
        exact find?_eq_none.mp hnone e (mem_of_find?_eq_some hold) hsame
      have hea : e ≠ a := by
        rintro rfl
        exact hunused.elim hne0 hold_live.1
      exact ⟨by rw [hdir.findEntry, find_old hunused hkeep hent.used hother hold], (hkeep e hin hea).bytes⟩

end

/-- A name of one character in the root directory. -/
theorem addEntry_resolves_b :
    Resolves (init smallDisk) smallDisk (addEntry (init smallDisk) smallDisk 0 (.ofString "b") attrArchive 0).1 0 (.ofString "b")
      attrArchive 0 := by
  have hok : (addEntry (init smallDisk) smallDisk 0 (.ofString "b") attrArchive 0).2 = some 0 := by decide +kernel
  refine (addEntry_resolves_iff smallDisk_geometry .root (.inl rfl) hok).mpr ⟨by decide, .ofString "b", [], ?_⟩
  exact ⟨by decide +kernel, fun c hc => (nomatch hc), by decide, by decide, .inl rfl⟩

/-- A name of nine characters is stored as eight: its file is not found by it. -/
theorem longname_not_found :
    (createVfs (init smallDisk) smallDisk 0 (.ofString "longname1")).2 = some 0 ∧
      findEntry (init smallDisk) (createVfs (init smallDisk) smallDisk 0 (.ofString "longname1")).1 0 (.ofString "longname1") =
        some none := by decide +kernel

end Fat16
end RetroOs.Drivers
