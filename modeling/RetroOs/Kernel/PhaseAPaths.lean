import RetroOs.Kernel.PhaseABlocks
import RetroOs.Lib.NameWalk
import RetroOs.Lib.PathName
import Mathlib.Data.List.Find

/-! Paths of the Phase A file system: a creation takes the last name off from the right, a lookup goes through
the names from the left, and what the first leaves for the second to find. -/
namespace RetroOs.Kernel
open Lib PathName List Nat Memory Option Function
namespace PhaseA

variable {s t : PhaseA} {path parent name q : CString} {i j d n : Nat} {m m' : Memory} {c : CString} {k : Nat}

/-! ### The lookup as a walk -/

private theorem resolveToken_nil (s : PhaseA) (i : Nat) : resolveToken s i [] = some (some i) := by
  rw [resolveToken, if_neg (by decide), if_pos rfl]

private theorem resolveFrom_eq (s : PhaseA) (i : Nat) (token rest : CString) :
    resolveFrom s i token rest = nameWalk (resolveToken s) i (componentsFrom slash token rest) := by
  induction rest generalizing i token with
  | nil =>
    rw [resolveFrom, componentsFrom, flush]
    split
    · next h =>
      rw [h, resolveToken_nil]
      rfl
    · rw [nameWalk]
      split
      · next h => rw [h]; rfl
      · rfl
  | cons c rest ih =>
    rw [resolveFrom, componentsFrom]
    split
    · by_cases h : token = []
      · rw [h, resolveToken_nil, flush, if_pos rfl, nil_append]
        exact ih i []
      · rw [flush, if_neg h, singleton_append, nameWalk]
        split
        · next next hnext =>
          rw [hnext]
          exact ih next []
        · next hstop =>
          split
          · next next hnext => exact absurd hnext (hstop next)
          · rfl
    · exact ih i (token ++ [c])

theorem resolve_eq (s : PhaseA) (h : path.head? = some slash) :
    resolve s path = nameWalk (resolveToken s) 0 (components slash path.tail) := by
  rw [resolve, if_neg (by rw [← head?_eq_getElem?]; exact not_not.mpr h)]
  split
  · next hroot =>
    rw [hroot]
    rfl
  · exact resolveFrom_eq s 0 [] path.tail

theorem resolve_relative (s : PhaseA) (h : path.head? ≠ some slash) : resolve s path = some none := by
  rw [resolve, if_pos (by rwa [← head?_eq_getElem?])]

/-- What a path can have between its slashes. -/
def Names : Set CString := {c | c ≠ [] ∧ slash ∉ c}

theorem components_names (path : CString) : ∀ c ∈ components slash path, c ∈ Names := fun _ hc => mem_components slash hc

/-- A path leads to the inode. -/
def Reached (s : PhaseA) (i : Nat) : Prop := ∃ q, resolve s q = some (some i)

private theorem reached_iff : Reached s i ↔ NameReaches (resolveToken s) Names 0 i := by
  constructor
  · rintro ⟨q, hq⟩
    by_cases h : q.head? = some slash
    · rw [resolve_eq s h] at hq
      exact ⟨_, components_names _, hq⟩
    · rw [resolve_relative s h] at hq
      cases hq
  · rintro ⟨cs, hcs, hw⟩
    refine ⟨slash :: cs.flatMap (fun c => c ++ [slash]), ?_⟩
    rw [resolve_eq s rfl, tail_cons, components_flatMap slash hcs]
    exact hw

/-! ### The cut of a creation -/

theorem skipName_spec (h : path.head? = some slash) (i : Nat) :
    ∃ k ≤ i, skipName path i = some k ∧ path[k]? = some slash ∧ ∀ j, k < j → j ≤ i → path[j]? ≠ some slash := by
  induction i with
  | zero =>
    have h0 : path[0]? = some slash := by rwa [← head?_eq_getElem?]
    exact ⟨0, le_refl 0, if_pos h0, h0, fun j hlt hle => absurd hlt (not_lt.mpr hle)⟩
  | succ i ih =>
    rw [skipName]
    split
    · next hs => exact ⟨i + 1, le_refl _, rfl, hs, fun j hlt hle => absurd hlt (not_lt.mpr hle)⟩
    · next hs =>
      obtain ⟨k, hk, hskip, hat, hrest⟩ := ih
      refine ⟨k, le_succ_of_le hk, hskip, hat, fun j hlt hle => ?_⟩
      rcases lt_or_eq_of_le hle with hlt' | rfl
      · exact hrest j hlt (le_of_lt_succ hlt')
      · exact hs

private theorem skipSlashes_le (path : CString) (i : Nat) : skipSlashes path i ≤ i := by
  induction i with
  | zero => exact le_refl 0
  | succ i ih =>
    rw [skipSlashes]
    split
    · exact le_succ_of_le ih
    · exact le_refl _

private theorem splitPath_eq (h : path.head? = some slash) :
    ∃ k ≤ skipSlashes path (path.length - 1), path[k]? = some slash ∧
      (∀ j, k < j → j ≤ skipSlashes path (path.length - 1) → path[j]? ≠ some slash) ∧
      ∀ r, splitPath path = some r → r = (if k = 0 then [slash] else path.take k, path.drop (k + 1)) := by
  obtain ⟨k, hk, hskip, hat, hrest⟩ := skipName_spec h (skipSlashes path (path.length - 1))
  refine ⟨k, hk, hat, hrest, fun r hr => ?_⟩
  have hne : path ≠ [] := by
    rintro rfl
    cases h
  cases k with
  | zero =>
    simp only [splitPath, if_neg hne, hskip] at hr
    split at hr
    · exact (some.inj hr).symm
    · cases hr
  | succ k =>
    simp only [splitPath, if_neg hne, hskip] at hr
    split at hr
    · exact (some.inj hr).symm
    · cases hr

theorem splitPath_components (h : path.head? = some slash) (hlast : path.getLast? ≠ some slash)
    (hs : splitPath path = some (parent, name)) :
    parent.head? = some slash ∧ name ∈ Names ∧ components slash path.tail = components slash parent.tail ++ [name] := by
  obtain ⟨k, hk, hat, hrest, hparts⟩ := splitPath_eq h
  have hskip : skipSlashes path (path.length - 1) = path.length - 1 := by
    rw [List.getLast?_eq_getElem?] at hlast
    cases hlen : path.length - 1 with
    | zero => rfl
    | succ i =>
      rw [hlen] at hlast
      rw [skipSlashes, if_neg hlast]
  rw [hskip] at hk hrest
  obtain ⟨hklt, hget⟩ := List.getElem?_eq_some_iff.mp hat
  have hsplit : path = path.take k ++ slash :: path.drop (k + 1) := by
    conv_lhs => rw [← take_append_drop k path, drop_eq_getElem_cons hklt, hget]
  cases hparts _ hs
  have hname : path.drop (k + 1) ∈ Names := by
    constructor
    · intro hnil
      have hlen : path.length = k + 1 := by
        have hle := drop_eq_nil_iff.mp hnil
        omega
      rw [getLast?_eq_getElem?, hlen] at hlast
      exact hlast hat
    · intro hmem
      obtain ⟨x, hx, hxs⟩ := getElem_of_mem hmem
      rw [length_drop] at hx
      rw [getElem_drop] at hxs
      refine hrest (k + 1 + x) (by omega) (by omega) ?_
      rw [getElem?_eq_getElem (by omega), hxs]
  by_cases h0 : k = 0
  · subst h0
    refine ⟨rfl, hname, ?_⟩
    rw [if_pos rfl, hsplit, take_zero, nil_append, tail_cons, drop_succ_cons, drop_zero,
      components_name slash hname.1 hname.2]
    rfl
  · rw [if_neg h0]
    obtain ⟨k, rfl⟩ := exists_eq_succ_of_ne_zero h0
    cases path with
    | nil => cases h
    | cons c path =>
      obtain rfl : c = slash := some.inj h
      refine ⟨rfl, hname, ?_⟩
      have htail : path = path.take k ++ slash :: path.drop (k + 1) := (cons.inj hsplit).2
      have hcomp := components_name slash hname.1 hname.2
      rw [drop_succ_cons] at hcomp
      rw [tail_cons, take_succ_cons, tail_cons, drop_succ_cons]
      conv_lhs => rw [htail, components_append, hcomp]

private theorem splitPath_trailing (h : path.head? = some slash) (hlast : path.getLast? = some slash)
    (hs : splitPath path = some (parent, name)) : name ∉ Names := by
  obtain ⟨k, hk, hat, hrest, hparts⟩ := splitPath_eq h
  obtain ⟨-, rfl⟩ := Prod.mk.inj (hparts _ hs)
  rintro ⟨hne, hslash⟩
  rw [getLast?_eq_getElem?] at hlast
  have hle := hk.trans (skipSlashes_le path _)
  have hlen : k + 1 < path.length := by
    by_contra hge
    exact hne (List.drop_eq_nil_iff.mpr (Nat.not_lt.mp hge))
  obtain ⟨hlt, hget⟩ := List.getElem?_eq_some_iff.mp hlast
  apply hslash
  refine mem_iff_getElem.mpr ⟨path.length - 1 - (k + 1), by rw [length_drop]; omega, ?_⟩
  rw [getElem_drop, ← hget]
  congr 1
  omega

/-! ### What a creation writes and what the lookups read -/

/-- The bytes of an entry that a lookup depends on: its name up to the end of it, and the inode number if there is
a name. -/
def EntryReads (m : Memory) (a x : Nat) : Prop :=
  a ≤ x ∧ x ≤ a + (m.cstr a maxName).length ∨ m.cstr a maxName ≠ [] ∧ a + maxName ≤ x ∧ x < a + entrySize

/-- The bytes of a new entry. -/
def EntryWrites (a : Nat) (name : CString) (x : Nat) : Prop :=
  a ≤ x ∧ x ≤ a + name.length ∨ a + maxName ≤ x ∧ x < a + entrySize

def CreationWrites (s : PhaseA) (path : CString) (cleared : Option Nat) (x : Nat) : Prop :=
  (∃ d ∈ creates s path, EntryWrites (entryAddr (s.inodes d.1).block (s.inodes d.1).size) d.2 x) ∨
    ∃ b ∈ cleared, blockSize * b ≤ x ∧ x < blockSize * b + blockSize

private theorem cstr_keep {a : Nat} (h : ∀ x, a ≤ x → x ≤ a + (m.cstr a k).length → m' x = m x) : m'.cstr a k = m.cstr a k := by
  induction k generalizing a with
  | zero => rfl
  | succ k ih =>
    have ha := h a (Nat.le_refl a) (Nat.le_add_right ..)
    rw [cstr, cstr, ha]
    split
    · next h0 =>
      rw [ih fun x hlo hhi => h x (by omega) ?_]
      rw [cstr, dif_pos h0, length_cons]
      omega
    · rfl

private theorem entry_keep {a : Nat} (h : ∀ x, EntryReads m a x → m' x = m x) :
    m'.cstr a maxName = m.cstr a maxName ∧ (m.cstr a maxName ≠ [] → m'.load32 (a + maxName) = m.load32 (a + maxName)) := by
  refine ⟨cstr_keep fun x hlo hhi => h x (.inl ⟨hlo, hhi⟩), fun hne => ?_⟩
  have hagree : m.AgreeOn m' (a + maxName) 4 := fun x hlo hhi => h x (.inr ⟨hne, hlo, hhi⟩)
  exact hagree.load32

theorem find_keep {b : Nat} (hc : c.length < maxName)
    (h : ∀ j < k, ∀ x, EntryReads m (entryAddr b j) x → m' x = m x) :
    ((range k).find? fun j => m'.strEq (entryAddr b j) c) = (range k).find? fun j => m.strEq (entryAddr b j) c := by
  refine find?_congr fun j hj => ?_
  rw [Bool.eq_iff_iff, strEq_iff hc, strEq_iff hc, (entry_keep (h j (mem_range.mp hj))).1]

private theorem load_keep {b j : Nat} (hne : c ≠ []) (hc : c.length < maxName)
    (h : ∀ j < k, ∀ x, EntryReads m (entryAddr b j) x → m' x = m x)
    (hfind : ((range k).find? fun j => m.strEq (entryAddr b j) c) = some j) :
    m'.load32 (entryAddr b j + maxName) = m.load32 (entryAddr b j + maxName) := by
  have heq : m.strEq (entryAddr b j) c = true := find?_some (p := fun j => m.strEq (entryAddr b j) c) hfind
  have hname := (strEq_iff hc).mp heq
  exact (entry_keep (h j (mem_range.mp (mem_of_find?_eq_some hfind)))).2 (by rwa [hname])

theorem resolveToken_keep (hi : t.inodes i = s.inodes i) (hne : c ≠ [])
    (h : ∀ j < (s.inodes i).size, ∀ x, EntryReads s.bytes (entryAddr (s.inodes i).block j) x → t.bytes x = s.bytes x) :
    resolveToken t i c = resolveToken s i c := by
  rw [resolveToken, resolveToken]
  split
  · rfl
  · next hc =>
    have hc := not_le.mp hc
    rw [findEntry, findEntry, hi, find_keep hc h]
    cases hfind : (range (s.inodes i).size).find? fun j => s.bytes.strEq (entryAddr (s.inodes i).block j) c with
    | none =>
      by_cases hin : (s.inodes i).size = 0 ∨ Inside (s.inodes i).block ((s.inodes i).size - 1) <;> simp [hin]
    | some j =>
      have hload := load_keep hne hc h hfind
      have hinode : t.entryInode i j = s.entryInode i j := by rw [entryInode, entryInode, hi, hload]
      by_cases hin : Inside (s.inodes i).block j <;> simp [hin, hinode]

/-- A directory with one entry more at its end. -/
structure Grew (s t : PhaseA) (d : Nat) (name : CString) (n : Nat) : Prop where
  inode : t.inodes d = { s.inodes d with size := (s.inodes d).size + 1 }
  inside : Inside (s.inodes d).block (s.inodes d).size
  name : t.bytes.cstr (entryAddr (s.inodes d).block (s.inodes d).size) maxName = name
  number : t.bytes.load32 (entryAddr (s.inodes d).block (s.inodes d).size + maxName) = n
  keeps : ∀ j < (s.inodes d).size, ∀ x, EntryReads s.bytes (entryAddr (s.inodes d).block j) x → t.bytes x = s.bytes x

theorem Inside.mono {b : Nat} (h : Inside b k) (hj : j ≤ k) : Inside b j := by
  simp only [Inside, entryAddr_eq] at *
  omega

theorem Grew.other (h : Grew s t d name n) (hne : c ≠ []) (hc : c ≠ name) :
    resolveToken t d c = resolveToken s d c := by
  rw [resolveToken, resolveToken]
  split
  · rfl
  · next hlen =>
    have hlen := not_le.mp hlen
    have hlast : t.bytes.strEq (entryAddr (s.inodes d).block (s.inodes d).size) c = false := by
      rw [Bool.eq_false_iff, Ne, strEq_iff hlen, h.name]
      exact hc.symm
    rw [findEntry, findEntry, h.inode]
    simp only [range_succ, find?_append, find_keep hlen h.keeps]
    cases hfind : (range (s.inodes d).size).find? fun j => s.bytes.strEq (entryAddr (s.inodes d).block j) c with
    | none =>
      have hold : (s.inodes d).size = 0 ∨ Inside (s.inodes d).block ((s.inodes d).size - 1) :=
        .inr (h.inside.mono (sub_le ..))
      simp [hlast, h.inside, hold]
    | some j =>
      have hload := load_keep hne hlen h.keeps hfind
      have hinode : t.entryInode d j = s.entryInode d j := by rw [entryInode, entryInode, h.inode, hload]
      by_cases hin : Inside (s.inodes d).block j <;> simp [hin, hinode]

theorem Grew.new (h : Grew s t d name n) (hne : name ≠ []) (hlen : name.length < maxName) (hn : n < maxInodes)
    (hmissing : findEntry s d name = some none) : resolveToken t d name = some (some n) := by
  have hfind : ((range (s.inodes d).size).find? fun j => s.bytes.strEq (entryAddr (s.inodes d).block j) name) = none := by
    rw [findEntry] at hmissing
    split at hmissing
    · split at hmissing <;> cases hmissing
    · assumption
  have hlast : t.bytes.strEq (entryAddr (s.inodes d).block (s.inodes d).size) name = true :=
    (strEq_iff hlen).mpr h.name
  have hinode : t.entryInode d (s.inodes d).size = n := by rw [entryInode, h.inode, h.number]
  have hentry : findEntry t d name = some (some (s.inodes d).size) := by
    rw [findEntry, h.inode]
    simp [range_succ, find?_append, find_keep hlen h.keeps, hfind, hlast, h.inside]
  rw [resolveToken, if_neg (not_le.mpr hlen), if_neg hne, hentry]
  simp [hinode, hn]

/-! ### A creation and the lookups after it -/

/-- A call that succeeds: with the block it clears, the state after it and the new inode. -/
inductive Creation (s : PhaseA) (path : CString) : Option Nat → PhaseA → Nat → Prop where
  | mkdir {t : PhaseA} (h : s.mkdir path = some (t, true)) : Creation s path (some (allocBlock s).2) t s.inodeCount
  | createFile {t : PhaseA} {n : Nat} (h : s.createFile path = some (t, some n)) : Creation s path none t n

structure Undisturbed (s : PhaseA) (path : CString) (cleared : Option Nat) : Prop where
  unused : ¬ Reached s s.inodeCount
  reads : ∀ i, Reached s i → ∀ j < (s.inodes i).size, ∀ x, EntryReads s.bytes (entryAddr (s.inodes i).block j) x →
    ¬ CreationWrites s path cleared x

/-- The path names the inode or lies below it. -/
def Through (s : PhaseA) (n : Nat) (q : CString) : Prop :=
  q.head? = some slash ∧ ∃ cs, cs <+: components slash q.tail ∧ nameWalk (resolveToken s) 0 cs = some (some n)

/-- The path names the new inode, and every other path what it did, unless it comes to the new inode. -/
structure CreatedAt (s t : PhaseA) (path : CString) (n : Nat) : Prop where
  found : resolve t path = some (some n)
  others : ∀ q, Through t n q ∨ resolve t q = resolve s q

section
variable {u : PhaseA} {cleared : Option Nat} {b : Nat} {type : InodeType} {d : Nat × CString}

private theorem addEntry_writes (hname : name.length < maxName) (hn : n < 2 ^ 32) {dir : Nat} (e : u.addEntry dir b name n = some t) :
    Inside b (u.inodes dir).size ∧
      t.inodes = update u.inodes dir { u.inodes dir with size := (u.inodes dir).size + 1 } ∧
      t.bytes.cstr (entryAddr b (u.inodes dir).size) maxName = name ∧
      t.bytes.load32 (entryAddr b (u.inodes dir).size + maxName) = n ∧
      ∀ x, ¬ EntryWrites (entryAddr b (u.inodes dir).size) name x → t.bytes x = u.bytes x := by
  obtain ⟨hcstr, hid, -⟩ := writeSlot_spec u.bytes (entryAddr b (u.inodes dir).size) hname hn
  simp only [addEntry] at e
  split at e
  · next hin =>
    cases e
    refine ⟨hin, rfl, hcstr, hid, fun x hx => ?_⟩
    simp only [EntryWrites, not_or, not_and, not_le, not_lt, entrySize] at hx
    have hcopy := strcpy_agreeOn u.bytes name (a := x) (n := 1) (b := entryAddr b (u.inodes dir).size) (by omega)
    have hstore := store32_agreeOn (u.bytes.strcpy (entryAddr b (u.inodes dir).size) name) n (a := x) (n := 1)
      (b := entryAddr b (u.inodes dir).size + maxName) (by omega)
    exact hcopy.trans hstore x (le_refl x) (lt_succ_self x)
  · cases e

private theorem grew_of_addEntry (hu : Undisturbed s path cleared) (hd : d ∈ creates s path) (hname : d.2.length < maxName)
    (hkeep : ∀ x, ¬ CreationWrites s path cleared x → u.bytes x = s.bytes x)
    (hinodes : u.inodes = (allocated s type).inodes) (e : u.addEntry d.1 (s.inodes d.1).block d.2 s.inodeCount = some t) :
    Grew s t d.1 d.2 s.inodeCount ∧ (∀ i, i ≠ s.inodeCount → i ≠ d.1 → t.inodes i = s.inodes i) ∧
      ∀ x, ¬ CreationWrites s path cleared x → t.bytes x = s.bytes x := by
  obtain ⟨parent, hsp, hres, hmissing, hcount⟩ := creates_spec hd
  have hdir : Reached s d.1 := ⟨parent, hres⟩
  have hother : ∀ i, i ≠ s.inodeCount → u.inodes i = s.inodes i := by
    intro i hi
    rw [hinodes]
    exact update_of_ne hi ..
  have hself := hother d.1 fun heq => hu.unused (heq ▸ hdir)
  obtain ⟨hin, ht, hstr, hid, hbytes⟩ := addEntry_writes hname (lt_trans hcount (by decide)) e
  rw [hself] at hin ht hstr hid hbytes
  have hall : ∀ x, ¬ CreationWrites s path cleared x → t.bytes x = s.bytes x := fun x hx =>
    (hbytes x fun hw => hx (.inl ⟨d, hd, hw⟩)).trans (hkeep x hx)
  refine ⟨⟨?_, hin, hstr, hid, fun j hj x hx => hall x (hu.reads d.1 hdir j hj x hx)⟩, fun i hi hid' => ?_, hall⟩
  · rw [ht, update_self]
  · rw [ht, update_of_ne hid', hother i hi]

theorem Creation.grew (hc : Creation s path cleared t n) (hu : Undisturbed s path cleared) :
    n = s.inodeCount ∧ ∃ d ∈ creates s path, d.2.length < maxName ∧ Grew s t d.1 d.2 n ∧
      (∀ i, i ≠ s.inodeCount → i ≠ d.1 → t.inodes i = s.inodes i) ∧
      ∀ x, ¬ CreationWrites s path cleared x → t.bytes x = s.bytes x := by
  cases hc with
  | mkdir h =>
    rcases mkdir_steps h with ⟨-, hno⟩ | ⟨-, hi, d, hd, -, hname, e⟩
    · cases hno
    · have hinodes : ((allocated s .dir).clearBlock (allocBlock s).2).inodes = (allocated s .dir).inodes := rfl
      refine ⟨rfl, d, hd, hname, grew_of_addEntry hu hd hname (fun x hx => ?_) hinodes e⟩
      have hfill := fill_agreeOn (allocated s .dir).bytes 0 (a := x) (n := 1) (b := blockSize * (allocBlock s).2)
        (k := blockSize) ?_
      · refine (hfill x (le_refl x) (lt_succ_self x)).trans ?_
        simp only [allocated, allocBlock]
        split <;> rfl
      · by_contra hno
        exact hx (.inr ⟨_, rfl, by omega, by omega⟩)
  | createFile h =>
    rcases createFile_steps h with ⟨-, hno⟩ | ⟨hn, hi, d, hd, hname, e⟩
    · cases hno
    · cases hn
      obtain ⟨parent, -, hres, -⟩ := creates_spec hd
      have hself : ((allocated s .file).inodes d.1).block = (s.inodes d.1).block := by
        have hne : d.1 ≠ s.inodeCount := fun heq => hu.unused (heq ▸ ⟨parent, hres⟩)
        simp only [allocated, update_of_ne hne]
      rw [hself] at e
      refine ⟨rfl, d, hd, hname, grew_of_addEntry hu hd hname (fun x _ => ?_) rfl e⟩
      simp only [allocated, allocBlock]
      split <;> rfl

end

theorem Creation.lookups {cleared : Option Nat} (hc : Creation s path cleared t n) (hu : Undisturbed s path cleared) :
    n = s.inodeCount ∧ ∃ d ∈ creates s path, d.2.length < maxName ∧ Grew s t d.1 d.2 n ∧
      ∀ k, NameReaches (resolveToken s) Names 0 k → ∀ c ∈ Names, (k = d.1 → c ≠ d.2) → resolveToken t k c = resolveToken s k c := by
  obtain ⟨rfl, d, hd, hlen, hgrew, hinodes, hbytes⟩ := hc.grew hu
  refine ⟨rfl, d, hd, hlen, hgrew, fun k hk c hcn hne => ?_⟩
  have hreach := reached_iff.mpr hk
  by_cases hkd : k = d.1
  · subst hkd
    exact hgrew.other hcn.1 (hne rfl)
  · have hki : k ≠ s.inodeCount := fun heq => hu.unused (heq ▸ hreach)
    exact resolveToken_keep (hinodes k hki hkd) hcn.1 fun j hj x hx => hbytes x (hu.reads k hreach j hj x hx)

theorem Creation.createdAt {cleared : Option Nat} (habs : path.head? = some slash) (hlast : path.getLast? ≠ some slash)
    (hc : Creation s path cleared t n) (hu : Undisturbed s path cleared) : CreatedAt s t path n := by
  obtain ⟨rfl, d, hd, hlen, hgrew, hother⟩ := hc.lookups hu
  obtain ⟨parent, hsp, hres, hmissing, hcount⟩ := creates_spec hd
  obtain ⟨hparent, hname, hcomp⟩ := splitPath_components habs hlast hsp
  have hnone : resolveToken s d.1 d.2 = some none := by
    rw [resolveToken, if_neg (not_le.mpr hlen), if_neg hname.1, hmissing]
  have hadded : NameAdded (resolveToken s) (resolveToken t) Names 0 d.1 d.2 s.inodeCount := ⟨hnone, hother⟩
  have hnew := hgrew.new hname.1 hlen hcount hmissing
  rw [resolve_eq s hparent] at hres
  refine ⟨?_, fun q => ?_⟩
  · rw [resolve_eq t habs, hcomp, nameWalk_append (hadded.nameWalk_to (components_names _) .refl hres), nameWalk_cons hnew]
    rfl
  · by_cases hq : q.head? = some slash
    · rw [resolve_eq t hq, resolve_eq s hq]
      rcases hadded.nameWalk_other hnew (components_names _) .refl with hthrough | hsame
      · exact .inl ⟨hq, hthrough⟩
      · exact .inr hsame
    · exact .inr ((resolve_relative t hq).trans (resolve_relative s hq).symm)

/-- A path that a creation was called with names the new inode, and the other paths what they did, exactly if it does
not end in a slash. -/
theorem creation_resolves_iff {cleared : Option Nat} (habs : path.head? = some slash) (hc : Creation s path cleared t n)
    (hu : Undisturbed s path cleared) : CreatedAt s t path n ↔ path.getLast? ≠ some slash := by
  refine ⟨fun h hlast => ?_, fun hlast => hc.createdAt habs hlast hu⟩
  obtain ⟨rfl, d, hd, -, -, hother⟩ := hc.lookups hu
  obtain ⟨parent, hsp, -, -, -⟩ := creates_spec hd
  -- the entry has a name that no walk comes to ask for
  have hname := splitPath_trailing habs hlast hsp
  have hsame : resolve t path = resolve s path := by
    rw [resolve_eq t habs, resolve_eq s habs]
    refine nameWalk_congr (fun k hk c hcc => ?_) (components_names _) .refl
    have hcn := components_names _ c hcc
    exact hother k hk c hcn fun _ heq => hname (heq ▸ hcn)
  exact hu.unused ⟨path, hsame.symm.trans h.found⟩

theorem bootRoot_empty (hne : name ≠ []) (i : Nat) : resolveToken bootRoot 0 name ≠ some (some i) := by
  have hsize : (bootRoot.inodes 0).size = 0 := by decide
  intro hk
  rw [resolveToken] at hk
  split at hk
  · cases hk
  · rw [findEntry] at hk
    simp [hsize] at hk

private theorem bootRoot_reached (h : Reached bootRoot i) : i = 0 := by
  obtain ⟨cs, hcs, hw⟩ := reached_iff.mp h
  cases cs with
  | nil => exact (some.inj (some.inj hw)).symm
  | cons c cs =>
    have hstop := bootRoot_empty (hcs c (.head _)).1
    rw [nameWalk_stop hstop] at hw
    exact absurd hw (hstop i)

theorem bootRoot_undisturbed (path : CString) (cleared : Option Nat) : Undisturbed bootRoot path cleared where
  unused h := absurd (bootRoot_reached h) (by decide)
  reads i hi j hj := by
    obtain rfl := bootRoot_reached hi
    exact absurd hj (not_lt_zero j)

theorem mkdir_a_resolves : ∃ t, bootRoot.mkdir (.ofString "/a") = some (t, true) ∧
    CreatedAt bootRoot t (.ofString "/a") bootRoot.inodeCount := by
  have hev : ∃ r ∈ bootRoot.mkdir (.ofString "/a"), r.2 = true := by decide +kernel
  obtain ⟨⟨t, ok⟩, e, rfl⟩ := hev
  exact ⟨t, e, (creation_resolves_iff rfl (.mkdir e) (bootRoot_undisturbed _ _)).mpr (by decide)⟩

/-- With a slash at the end the call succeeds, and the path leads nowhere. -/
theorem mkdir_trailing_slash : ∃ t, bootRoot.mkdir (.ofString "/a/") = some (t, true) ∧
    resolve t (.ofString "/a/") = some none := by
  have hev : ∃ r ∈ bootRoot.mkdir (.ofString "/a/"), r.2 = true ∧ resolve r.1 (.ofString "/a/") = some none := by decide +kernel
  obtain ⟨⟨t, ok⟩, e, rfl, hnone⟩ := hev
  exact ⟨t, e, hnone⟩

end PhaseA
end RetroOs.Kernel
