import RetroOs.Kernel.PhaseAPaths
import RetroOs.Kernel.PhaseATree
import Mathlib.Data.List.GetD

/-! Paths that lead through files: a lookup does not ask for the type of an inode that it searches, so that the bytes of
a file answer for the names behind it. -/
namespace RetroOs.Kernel
open Lib PathName List Nat Option Function CString
namespace PhaseA

variable {s t u s₀ : PhaseA} {path c : CString} {cs front rest : List CString} {d e f i j n : Nat} {ops : List Op} {op : Op}
  {ok : Bool} {data : List UInt8}

def dirPath (front : List CString) : CString := slash :: front.flatMap fun c => c ++ [slash]

theorem resolve_dirPath (s : PhaseA) (h : ∀ c ∈ front, c ∈ Names) :
    resolve s (dirPath front) = nameWalk (resolveToken s) 0 front := by
  rw [resolve_eq s rfl, dirPath, tail_cons, components_flatMap slash h]

/-- What is in front of a name of the path is a directory, and no file that is written changes what the path names. -/
structure Sound (s : PhaseA) (path : CString) : Prop where
  prefixes : ∀ i, resolve s path = some (some i) → ∀ front c rest, components slash path.tail = front ++ c :: rest →
    ∃ d, resolve s (dirPath front) = some (some d) ∧ (s.inodes d).type = .dir
  content : ∀ f data, resolve (s.write (some f) data).1 path = resolve s path

structure Searchable (s : PhaseA) (d : Nat) : Prop where
  type : (s.inodes d).type = .dir
  apart : ∀ f, (s.inodes f).type = .file → ∀ j < (s.inodes d).size, ∀ x,
    EntryReads s.bytes (entryAddr (s.inodes d).block j) x →
      ¬ (blockSize * (s.inodes f).block ≤ x ∧ x < blockSize * (s.inodes f).block + blockSize)

/-- What the names in front of a name lead to, if it is an inode, is such a directory. A name that does not fit in the
buffer for it is not looked up. -/
def Clear (s : PhaseA) (path : CString) : Prop :=
  path.head? = some slash → ∀ front c rest d, components slash path.tail = front ++ c :: rest → c.length < maxName →
    resolve s (dirPath front) = some (some d) → Searchable s d

/-! ### Paths through directories -/

theorem resolveToken_long (hc : ¬ c.length < maxName) (i : Nat) : resolveToken s i c = none := if_pos (not_lt.mp hc)

theorem resolveToken_short (h : resolveToken s i c = some (some j)) : c.length < maxName := by
  by_contra hc
  rw [resolveToken_long hc] at h
  cases h

theorem Searchable.write (h : Searchable s d) (hne : c ≠ []) (f : Nat) (data : List UInt8) :
    resolveToken (s.write (some f) data).1 d c = resolveToken s d c := by
  rcases write_cases s (some f) data with hs | ⟨i, hi, htype, hw⟩
  · rw [hs]
  · obtain rfl := mem_some.mp hi
    obtain ⟨size, hinodes⟩ := hw.inodes
    have hdf : d ≠ f := by
      rintro rfl
      rw [h.type] at htype
      cases htype
    refine resolveToken_keep (by rw [hinodes, update_of_ne hdf]) hne fun j hj x hx => ?_
    have hout := h.apart f htype j hj x hx
    exact hw.keeps x 1 (by omega) x (le_refl x) (lt_succ_self x)

theorem Clear.sound (h : Clear s path) : Sound s path := by
  by_cases habs : path.head? = some slash
  · have hnames := components_names path.tail
    refine ⟨fun i hi front c rest heq => ?_, fun f data => ?_⟩
    · rw [resolve_eq s habs, heq] at hi
      have hfront : ∀ a ∈ front, a ∈ Names := fun a ha => hnames a (heq ▸ mem_append_left _ ha)
      obtain ⟨d, hd, hrest⟩ := nameWalk_append_some hi
      obtain ⟨e, hlook, -⟩ := nameWalk_cons_some hrest
      rw [← resolve_dirPath s hfront] at hd
      exact ⟨d, hd, (h habs front c rest d heq (resolveToken_short hlook) hd).type⟩
    · rw [resolve_eq _ habs, resolve_eq s habs]
      refine nameWalk_congr_along fun front c rest d heq hd => ?_
      have hfront : ∀ a ∈ front, a ∈ Names := fun a ha => hnames a (heq ▸ mem_append_left _ ha)
      have hc : c ∈ Names := hnames c (heq ▸ mem_append_right _ (.head _))
      by_cases hlen : c.length < maxName
      · rw [← resolve_dirPath s hfront] at hd
        exact (h habs front c rest d heq hlen hd).write hc.1 f data
      · rw [resolveToken_long hlen, resolveToken_long hlen]
  · refine ⟨fun i hi => ?_, fun f data => ?_⟩
    · rw [resolve_relative s habs] at hi
      cases hi
    · rw [resolve_relative _ habs, resolve_relative s habs]

/-! ### States in which no block is shared -/

/-- Each inode has its own block, the root is a directory, and what a directory names is in use. -/
structure Sealed (s : PhaseA) : Prop extends Exclusive s where
  root : (s.inodes 0).type = .dir
  linked : ∀ d, ∀ p ∈ children s d, (s.inodes p.2).type ≠ .unused

theorem Exclusive.searchable (h : Exclusive s) (hd : (s.inodes d).type = .dir) : Searchable s d := by
  refine ⟨hd, fun f hf j hj x hx => ?_⟩
  have hne : d ≠ f := by
    rintro rfl
    rw [hd] at hf
    cases hf
  have hfile : f < s.inodeCount := h.allocated (by rw [hf]; exact InodeType.noConfusion)
  have hblocks := h.blocks_ne (h.dir_lt hd) hfile hne
  have hcap := h.dir_size d hd
  have hin : entryAddr (s.inodes d).block j ≤ x ∧ x < entryAddr (s.inodes d).block j + entrySize := by
    rcases hx with ⟨hlo, hhi⟩ | ⟨-, hlo, hhi⟩
    · have hlen := Memory.cstr_length_le s.bytes (entryAddr (s.inodes d).block j) maxName
      have hsize : entrySize = maxName + 4 := rfl
      omega
    · exact ⟨Nat.le_trans (Nat.le_add_right ..) hlo, hhi⟩
  simp only [entryAddr_eq, dirCapacity_eq, entrySize, maxName, blockSize] at *
  omega

private theorem resolveToken_mem (hd : (s.inodes d).type = .dir) (hne : c ≠ []) (h : resolveToken s d c = some (some i)) :
    ∃ name, (name, i) ∈ children s d := by
  rw [resolveToken, if_neg (not_le.mpr (resolveToken_short h)), if_neg hne] at h
  split at h
  · cases h
  · cases h
  · next j hj =>
    split at h
    · cases some.inj h
      obtain ⟨name, hname⟩ := children_getElem hd (findEntry_found hj).1
      exact ⟨name, mem_of_getElem? hname⟩
    · cases h

/-! ### Files answer for what is behind them -/

def strayEntry (c : CString) : List UInt8 :=
  c.map Subtype.val ++ replicate (maxName - c.length) 0 ++ replicate 4 0xFF

private theorem length_strayEntry (hc : c.length < maxName) : (strayEntry c).length = entrySize := by
  simp only [strayEntry, length_append, length_map, length_replicate, entrySize]
  omega

private theorem resolveToken_empty (hf : (s.inodes f).type = .file) (hne : c ≠ []) (hc : c.length < maxName) :
    resolveToken (s.write (some f) []).1 f c = some none := by
  have hsize : ((s.write (some f) []).1.inodes f).size = 0 := by
    rw [write, if_neg (not_not.mpr hf)]
    simp [setSize, setInode]
  have hfind : findEntry (s.write (some f) []).1 f c = some none := by
    rw [findEntry, hsize]
    exact if_pos (.inl rfl)
  rw [resolveToken, if_neg (not_le.mpr hc), if_neg hne, hfind]

private theorem resolveToken_stray (hf : (s.inodes f).type = .file) (hb : (s.inodes f).block < blocks) (hne : c ≠ [])
    (hc : c.length < maxName) : resolveToken (s.write (some f) (strayEntry c)).1 f c = none := by
  have hlen := length_strayEntry hc
  obtain ⟨m, hm⟩ : ∃ m, m = s.bytes.memcpy (blockSize * (s.inodes f).block) (strayEntry c) := ⟨_, rfl⟩
  have hbyte : ∀ x < entrySize, m (entryAddr (s.inodes f).block 0 + x) = (strayEntry c).getD x 0 := by
    intro x hx
    show m (blockSize * (s.inodes f).block + x) = _
    rw [hm, Memory.memcpy, if_pos (Nat.le_add_right ..), Nat.add_sub_cancel_left, List.getD_eq_getElem _ _ (by rwa [hlen]),
      getD_eq_getElem _ _ (by rwa [hlen])]
  have hname : m.strEq (entryAddr (s.inodes f).block 0) c = true := by
    have hfit : c.length < entrySize := lt_of_lt_of_le hc (by decide)
    refine Memory.strEq_of_bytes (fun x hx => ?_) ?_
    · rw [hbyte x (lt_trans hx hfit), strayEntry, append_assoc, getD_append _ _ _ _ (by rwa [length_map]),
        getD_eq_getElem _ _ (by rwa [length_map]), getElem_map]
    · rw [hbyte c.length hfit, strayEntry, append_assoc, getD_append_right _ _ _ _ (by rw [length_map]),
        List.length_map, Nat.sub_self, List.getD_append _ _ _ _ (by rw [List.length_replicate]; omega),
        getD_replicate _ (by omega)]
  have hnumber : ∀ x < 4, m (entryAddr (s.inodes f).block 0 + maxName + x) = 0xFF := by
    intro x hx
    have hfront : (c.map Subtype.val ++ replicate (maxName - c.length) 0).length = maxName := by
      rw [length_append, length_map, length_replicate]
      omega
    rw [add_assoc, hbyte (maxName + x) (by rw [entrySize]; omega), strayEntry,
      List.getD_append_right _ _ _ _ (by rw [hfront]; omega), hfront, Nat.add_sub_cancel_left, List.getD_replicate _ hx]
  have hwrite : (s.write (some f) (strayEntry c)).1 = (s.setBytes m).setSize f entrySize := by
    rw [write, if_neg (not_not.mpr hf)]
    have htake : (strayEntry c).take blockSize = strayEntry c := take_of_length_le (by rw [hlen]; decide)
    dsimp only
    rw [htake, hlen, hm]
  have hblock : (((s.setBytes m).setSize f entrySize).inodes f).block = (s.inodes f).block := by simp [setSize, setInode, setBytes]
  have hsize : (((s.setBytes m).setSize f entrySize).inodes f).size = entrySize := by simp [setSize, setInode]
  have hbytes : ((s.setBytes m).setSize f entrySize).bytes = m := rfl
  have hfirst : ((range entrySize).find? fun j => m.strEq (entryAddr (s.inodes f).block j) c) = some 0 := by
    rw [show entrySize = 67 + 1 from rfl, range_succ_eq_map]
    exact find?_cons_of_pos hname
  have hfind : findEntry ((s.setBytes m).setSize f entrySize) f c = some (some 0) := by
    rw [findEntry, hblock, hsize, hbytes, hfirst]
    exact if_pos (inside_of_lt hb (zero_le _) (.inl (by decide)))
  have hinode : entryInode ((s.setBytes m).setSize f entrySize) f 0 = 4294967295 := by
    have h0 := hnumber 0 (by decide)
    rw [add_zero] at h0
    rw [entryInode, hblock, hbytes, Memory.load32, h0, hnumber 1 (by decide), hnumber 2 (by decide), hnumber 3 (by decide)]
    rfl
  rw [hwrite, resolveToken, if_neg (not_le.mpr hc), if_neg hne, hfind]
  dsimp only
  rw [hinode]
  exact if_neg (by decide)

section
variable (h : Sealed s) (hs : Sound s path) (habs : path.head? = some slash)
include h hs habs

theorem Sealed.directory (heq : components slash path.tail = front ++ c :: rest) (hc : c.length < maxName)
    (hd : nameWalk (resolveToken s) 0 front = some (some d)) : (s.inodes d).type = .dir := by
  induction hlen : front.length using Nat.strong_induction_on generalizing front c rest d with
  | _ n ih =>
    have hnames := components_names path.tail
    have hfront : ∀ a ∈ front, a ∈ Names := fun a ha => hnames a (heq ▸ mem_append_left _ ha)
    have hcn : c ∈ Names := hnames c (heq ▸ mem_append_right _ (.head _))
    -- every walk along names in front is through directories
    have hbefore : ∀ f₁ c₁ r₁ k, front = f₁ ++ c₁ :: r₁ → nameWalk (resolveToken s) 0 f₁ = some (some k) → c₁.length < maxName →
        (s.inodes k).type = .dir := by
      intro f₁ c₁ r₁ k hsplit hk hshort
      have hsplit' : components slash path.tail = f₁ ++ c₁ :: (r₁ ++ c :: rest) := by
        rw [heq, hsplit, append_assoc, cons_append]
      refine ih f₁.length ?_ hsplit' hshort hk rfl
      rw [← hlen, hsplit, length_append, length_cons]
      omega
    have hused : (s.inodes d).type ≠ .unused := by
      rcases eq_nil_or_concat front with rfl | ⟨f₁, c₁, rfl⟩
      · cases some.inj hd
        rw [h.root]
        exact InodeType.noConfusion
      · rw [concat_eq_append] at hd hbefore hfront
        obtain ⟨k, hk, hlast⟩ := nameWalk_append_some hd
        obtain ⟨j, hj, hend⟩ := nameWalk_cons_some hlast
        cases some.inj hend
        have hkd := hbefore f₁ c₁ [] k rfl hk (resolveToken_short hj)
        obtain ⟨name, hname⟩ := resolveToken_mem hkd (hfront c₁ (mem_append_right _ (mem_singleton.mpr rfl))).1 hj
        exact h.linked k _ hname
    cases htype : (s.inodes d).type with
    | unused => exact absurd htype hused
    | dir => rfl
    | file =>
      have hblock : (s.inodes d).block < blocks :=
        lt_of_lt_of_le (h.block_lt d (h.allocated hused)) h.blocks_le
      -- writing the file changes no lookup on the way to it
      have hway : ∀ data, nameWalk (resolveToken (s.write (some d) data).1) 0 front = some (some d) := by
        intro data
        rw [← hd]
        refine nameWalk_congr_along fun f₁ c₁ r₁ k hsplit hk => ?_
        by_cases hshort : c₁.length < maxName
        · have hcn₁ := hfront c₁ (hsplit ▸ mem_append_right _ (.head _))
          exact (h.searchable (hbefore f₁ c₁ r₁ k hsplit hk hshort)).write hcn₁.1 d data
        · rw [resolveToken_long hshort, resolveToken_long hshort]
      have hresolve : ∀ data, (∀ k, resolveToken (s.write (some d) data).1 d c ≠ some (some k)) →
          resolve s path = resolveToken (s.write (some d) data).1 d c := by
        intro data hstop
        rw [← hs.content d data, resolve_eq _ habs, heq, nameWalk_append (hway data), nameWalk_stop hstop]
      have hempty := resolveToken_empty htype hcn.1 hc
      have hstray := resolveToken_stray htype hblock hcn.1 hc
      have hnone := hresolve [] (by rw [hempty]; exact fun k hk => nomatch hk)
      have hvoid := hresolve (strayEntry c) (by rw [hstray]; exact fun k hk => nomatch hk)
      rw [hempty] at hnone
      rw [hstray] at hvoid
      exact absurd (hnone.symm.trans hvoid) (some_ne_none _)

theorem Sealed.clear : Clear s path := by
  intro _ front c rest d heq hc hd
  have hfront : ∀ a ∈ front, a ∈ Names := fun a ha => components_names path.tail a (heq ▸ mem_append_left _ ha)
  rw [resolve_dirPath s hfront] at hd
  exact h.searchable (h.directory hs habs heq hc hd)

end

/-! ### Runs with room -/

theorem Sealed.keep (h : Sealed s) (ht : Exclusive t)
    (htype : ∀ i, (s.inodes i).type ≠ .unused → (t.inodes i).type = (s.inodes i).type)
    (hc : ∀ d, ∀ p ∈ children t d, (∃ e, ∃ q ∈ children s e, q.2 = p.2) ∨ (t.inodes p.2).type ≠ .unused) : Sealed t := by
  refine ⟨ht, ?_, fun d p hp => ?_⟩
  · rw [htype 0 (by rw [h.root]; exact InodeType.noConfusion), h.root]
  · rcases hc d p hp with ⟨e, q, hq, heq⟩ | hused
    · have hlinked := h.linked e q hq
      rw [heq] at hlinked
      rwa [htype p.2 hlinked]
    · exact hused

private theorem type_resize (h : t.inodes = update s.inodes d { s.inodes d with size := n }) (i : Nat) :
    (t.inodes i).type = (s.inodes i).type := by
  rw [h]
  by_cases hi : i = d
  · rw [hi, update_self]
  · rw [update_of_ne hi]

theorem Made.types {type : InodeType} (h : Exclusive s) (hm : Made s u type) :
    (u.inodes s.inodeCount).type = type ∧ ∀ i, (s.inodes i).type ≠ .unused → (u.inodes i).type = (s.inodes i).type := by
  obtain ⟨m, -, rfl⟩ := hm
  refine ⟨by simp [newInode, setBytes], fun i hi => ?_⟩
  have hne : i ≠ s.inodeCount := Nat.ne_of_lt (h.allocated hi)
  simp [newInode, setBytes, update_of_ne hne]

theorem Sealed.created {type : InodeType} {dir : Nat} {name : CString} (h : Sealed s) (hb : s.blockCount < blocks)
    (hn : s.inodeCount < maxInodes) (hm : Made s u type) (htype : type ≠ .unused) (hs : HasSlot s dir)
    (ha : Appended u t dir name s.inodeCount) : Sealed t := by
  obtain ⟨hnew, hold⟩ := hm.types h.toExclusive
  have hu := h.toExclusive.made hm hn hb
  have hsu : HasSlot u dir := by
    rw [HasSlot, hm.dir_eq h.toExclusive hs.1]
    exact hs
  have hcu := hm.children h.toExclusive hu
  refine h.keep (hu.appended hsu ha) (fun i hi => (ha.resized i).1.trans (hold i hi)) fun d p hp => ?_
  by_cases hd : d = dir
  · subst hd
    rw [ha.children_self hsu, hcu] at hp
    rcases mem_append.mp hp with hp | hp
    · exact .inl ⟨d, p, hp, rfl⟩
    · obtain rfl := mem_singleton.mp hp
      refine .inr ?_
      rw [(ha.resized _).1, hnew]
      exact htype
  · rw [ha.children_other hu hsu (hu.appended hsu ha) hd, hcu] at hp
    exact .inl ⟨d, p, hp, rfl⟩

theorem Sealed.step (h : Sealed s) (hr : Roomy s op) (e : s.exec op = some (t, ok)) : Sealed t := by
  have ht := (exec_exclusive h.toExclusive hr e).1
  cases op with
  | mkdir path =>
    rcases mkdir_cases h.toExclusive hr e with ⟨rfl, rfl⟩ | ⟨-, hb, hn, c, -, hs, u, hm, ha⟩
    · exact h
    · exact h.created hb hn hm InodeType.noConfusion hs ha
  | createFile path =>
    obtain ⟨⟨t, r⟩, he, hret⟩ := map_eq_some_iff.mp e
    cases hret
    rcases createFile_cases h.toExclusive hr he with ⟨rfl, rfl⟩ | ⟨-, hb, hn, c, -, hs, u, hm, ha⟩
    · exact h
    · exact h.created hb hn hm InodeType.noConfusion hs ha
  | createInDir pdir name directory =>
    obtain ⟨⟨t, r⟩, he, hret⟩ := map_eq_some_iff.mp e
    cases hret
    have hused : (if directory then InodeType.dir else .file) ≠ .unused := by cases directory <;> exact InodeType.noConfusion
    rcases createInDir_cases h.toExclusive hr he with ⟨rfl, rfl⟩ | ⟨hb, hn, c, -, -, -, u, hm, hcase⟩
    · exact h
    · rcases hcase with ⟨-, -, rfl⟩ | ⟨-, hs, ha⟩
      · have hcu := hm.children h.toExclusive ht
        refine h.keep ht (hm.types h.toExclusive).2 fun d p hp => .inl ⟨d, p, ?_, rfl⟩
        rwa [hcu] at hp
      · exact h.created hb hn hm hused hs ha
  | write f data =>
    obtain ⟨rfl, -⟩ := Prod.mk.inj (some.inj e)
    rcases write_cases s f data with hs | ⟨i, hi, htype, hw⟩
    · rwa [hs]
    · obtain ⟨size, hinodes⟩ := hw.inodes
      refine h.keep ht (fun j _ => type_resize hinodes j) fun d p hp => .inl ⟨d, p, ?_, rfl⟩
      rwa [hw.children h.toExclusive htype ht] at hp
  | rename old new =>
    rcases rename_cases h.toExclusive hr e with ⟨rfl, rfl⟩ | ⟨-, c, hc, hdir, hs, hi, u, ha, hrem⟩
    · exact h
    · have hu := h.toExclusive.appended hs ha
      obtain ⟨htype, hsize⟩ := ha.resized c.1
      obtain ⟨k, hentry⟩ := children_getElem hdir hi
      have hdu := htype.trans hdir
      have hiu := lt_of_lt_of_le hi hsize
      refine h.keep ht (fun j _ => (type_resize hrem.inodes j).trans (ha.resized j).1) fun d p hp => .inl ?_
      have hpu : p ∈ children u d := by
        by_cases hd : d = c.1
        · subst hd
          rw [hrem.children_self hdu hiu] at hp
          exact mem_of_mem_eraseIdx hp
        · rwa [hrem.children_other hu hdu hiu ht hd] at hp
      by_cases hd : d = c.2.2.1
      · subst hd
        rw [ha.children_self hs] at hpu
        rcases mem_append.mp hpu with hp | hp
        · exact ⟨_, p, hp, rfl⟩
        · obtain rfl := mem_singleton.mp hp
          exact ⟨c.1, _, mem_of_getElem? hentry, rfl⟩
      · rw [ha.children_other h.toExclusive hs hu hd] at hpu
        exact ⟨d, p, hpu, rfl⟩

theorem Sealed.run (h : Sealed s₀) (hrun : Trace RoomyStep s₀ ops s) : Sealed s := by
  induction hrun with
  | nil => exact h
  | snoc _ hstep ih =>
    obtain ⟨hr, ok, e⟩ := hstep
    exact ih.step hr e

private theorem bootstrap_sealed (hb : bootstrap = some s) : Sealed s := by
  obtain ⟨ops, hrun⟩ := bootstrap_run hb
  have hempty : ∀ i, children bootRoot i = [] := fun i =>
    (congrFun (bootRoot_made.children fresh_exclusive bootRoot_exclusive) i).trans
      (fresh_exclusive.children_unused (zero_le i))
  have hroot : Sealed bootRoot := ⟨bootRoot_exclusive, by decide, fun d p hp => by rw [hempty] at hp; cases hp⟩
  exact hroot.run (hrun.mono fun _ _ _ h => h.1)

/-! ### What a path names -/

/-- Paths that are clear of files are sound in any state, and in runs with room no others. -/
theorem resolve_sound_iff (s : PhaseA) (path : CString) :
    (Clear s path → Sound s path) ∧
      ∀ s₀ ops, bootstrap = some s₀ → Trace RoomyStep s₀ ops s → (Sound s path ↔ Clear s path) := by
  refine ⟨fun h => h.sound, fun s₀ ops hb hrun => ⟨fun hs habs => ?_, fun h => h.sound⟩⟩
  exact ((bootstrap_sealed hb).run hrun).clear hs habs habs

theorem desktop_sound : ∃ s₀, bootstrap = some s₀ ∧ Sound s₀ (.ofString "/home/user") := by
  have hev : (bootstrap.map fun s₀ => (resolve s₀ (dirPath []), resolve s₀ (dirPath [.ofString "home"]), (s₀.inodes 0).type,
      (s₀.inodes 1).type)) = some (some (some 0), some (some 1), .dir, .dir) := by decide +kernel
  obtain ⟨s₀, hb, hev⟩ := map_eq_some_iff.mp hev
  obtain ⟨h0, h1, hroot, hhome⟩ : resolve s₀ (dirPath []) = some (some 0) ∧ resolve s₀ (dirPath [.ofString "home"]) = some (some 1) ∧
      (s₀.inodes 0).type = .dir ∧ (s₀.inodes 1).type = .dir := by simpa using hev
  refine ⟨s₀, hb, (resolve_sound_iff s₀ _).1 fun _ front c rest d heq _ hd => ?_⟩
  have hnames : components slash (ofString "/home/user").tail = [ofString "home", ofString "user"] := by decide
  rw [hnames] at heq
  have hdir : (s₀.inodes d).type = .dir := by
    match front, heq with
    | [], _ =>
      rw [h0] at hd
      cases some.inj hd
      exact hroot
    | [a], heq =>
      obtain rfl : ofString "home" = a := (cons.inj heq).1
      rw [h1] at hd
      cases some.inj hd
      exact hhome
    | _ :: _ :: front, heq => simp at heq
  exact (bootstrap_sealed hb).toExclusive.searchable hdir

/-- What is written to the file of the bootstrap makes a path through it lead to the root. -/
theorem readme_resolves : ∃ s₀, bootstrap = some s₀ ∧
    resolve s₀ (.ofString "/home/user/Desktop/readme.txt/x") = some none ∧
    resolve (s₀.write (some 8) (120 :: replicate 67 0)).1 (.ofString "/home/user/Desktop/readme.txt/x") = some (some 0) := by
  have hev : (bootstrap.map fun s₀ => (resolve s₀ (.ofString "/home/user/Desktop/readme.txt/x"),
      resolve (s₀.write (some 8) (120 :: replicate 67 0)).1 (.ofString "/home/user/Desktop/readme.txt/x"))) =
      some (some none, some (some 0)) := by decide +kernel
  obtain ⟨s₀, hb, hev⟩ := map_eq_some_iff.mp hev
  obtain ⟨h0, h1⟩ := Prod.mk.inj hev
  exact ⟨s₀, hb, h0, h1⟩

end PhaseA
end RetroOs.Kernel
