import RetroOs.Kernel.PagingLayout

/-! `vm_clear_user_mappings` frees the pages of the user half with their tables and writes only zeros. -/
namespace RetroOs.Kernel
open Lib List Bool Ram

variable {s t u : Vm} {dirs gs : List Nat} {W : Nat → Prop} {f i : Nat}

/-- From `s` to `t` the frames `gs` were freed, and only the frames in `W` were written, with zeros. -/
structure Tears (s t : Vm) (gs : List Nat) (W : Nat → Prop) : Prop where
  pmm : t.pmm = s.pmm.release gs
  ram : ∀ f, ¬ W f → t.ram f = s.ram f
  zero : ∀ f i, t.ram f i = s.ram f i ∨ t.ram f i = 0
  rest : t = { s with pmm := t.pmm, ram := t.ram }

namespace Tears
variable {hs : List Nat}

theorem refl (s : Vm) : Tears s s [] W := ⟨rfl, fun _ _ => rfl, fun _ _ => .inl rfl, rfl⟩

theorem trans (h : Tears s t gs W) (h' : Tears t u hs W) : Tears s u (gs ++ hs) W where
  pmm := by rw [h'.pmm, h.pmm, Pmm.release_append]
  ram f hf := (h'.ram f hf).trans (h.ram f hf)
  zero f i := (h'.zero f i).elim (fun he => by rw [he]; exact h.zero f i) .inr
  rest := by
    have he := h'.rest
    rw [h.rest] at he
    exact he

theorem mono {W' : Nat → Prop} (h : Tears s t gs W) (hW : ∀ f, W f → W' f) : Tears s t gs W' :=
  ⟨h.pmm, fun f hf => h.ram f (mt (hW f) hf), h.zero, h.rest⟩

theorem kernelDirectory (h : Tears s t gs W) : t.kernelDirectory = s.kernelDirectory := by rw [h.rest]

theorem cr3 (h : Tears s t gs W) : t.cr3 = s.cr3 := by rw [h.rest]

theorem of_present (h : Tears s t gs W) (hp : present (t.ram f i) = true) : t.ram f i = s.ram f i :=
  (h.zero f i).elim id fun he => absurd (he ▸ hp) (by decide)

theorem freeFrame (s : Vm) (w : Word) : Tears s (s.freeFrame w) [frameOf w] W :=
  ⟨Pmm.freeBlock_eq_release rfl, fun _ _ => rfl, fun _ _ => .inl rfl, rfl⟩

private theorem clearWord (s : Vm) (f i : Nat) : Tears s (s.setWord f i 0) [] (· = f) := by
  refine ⟨rfl, fun g hg => setWord_ne hg, fun g j => ?_, rfl⟩
  by_cases hg : g = f
  · by_cases hj : j = i
    · rw [hg, hj]
      exact .inr setWord_self
    · exact .inl (setWord_other hj)
  · exact .inl (congrFun (setWord_ne hg) j)

end Tears

private theorem clearTable_spec (pt n : Nat) (s : Vm) :
    ∃ gs, Tears s (clearTable pt n s) gs (· = pt) ∧ ∀ g ∈ gs, g ∈ tableFrames s.ram pt n := by
  refine forUpto_invariant (fun n t => ∃ gs, Tears s t gs (· = pt) ∧ ∀ g ∈ gs, g ∈ tableFrames s.ram pt n)
    ⟨[], .refl s, by simp⟩ ?_
  rintro j - t ⟨gs, ht, hgs⟩
  have hmono : ∀ g ∈ gs, g ∈ tableFrames s.ram pt (j + 1) := fun g hg => by
    rw [tableFrames_succ]
    exact mem_append_left _ (hgs g hg)
  by_cases hp : present (t.ram pt j) = true
  · simp only [hp, if_true]
    refine ⟨gs ++ ([frameOf (entryAddr (t.ram pt j))] ++ []),
      ht.trans ((Tears.freeFrame t _).trans (.clearWord _ pt j)), fun g hg => ?_⟩
    simp only [append_nil, mem_append, mem_singleton, frameOf_entryAddr] at hg
    rcases hg with hg | rfl
    · exact hmono g hg
    · have hs := ht.of_present hp
      rw [hs] at hp ⊢
      exact mem_tableFrames.mpr ⟨j, Nat.lt_succ_self j, hp, rfl⟩
  · simp only [hp, false_eq_true, if_false]
    exact ⟨gs, ht, hmono⟩

/-- A frame `vm_clear_user_mappings` comes across: a table of the user half, or a page one maps. -/
def ClearWalked (s : Vm) (g : Nat) : Prop :=
  ∃ i, 256 ≤ i ∧ i < 768 ∧ present (s.ram s.cr3 i) = true ∧
    (g = frameOf (s.ram s.cr3 i) ∨ g ∈ tableFrames s.ram (frameOf (s.ram s.cr3 i)) 1024)

/-- The directory maps itself, so the inner loop clears the entry the outer loop frees next. -/
def SelfMapped (s : Vm) : Prop :=
  ∃ i, 256 ≤ i ∧ i < 768 ∧ present (s.ram s.cr3 i) = true ∧ frameOf (s.ram s.cr3 i) = s.cr3

def ClearWrites (s : Vm) (f : Nat) : Prop :=
  f = s.cr3 ∨ ∃ i, 256 ≤ i ∧ i < 768 ∧ present (s.ram s.cr3 i) = true ∧ f = frameOf (s.ram s.cr3 i)

theorem vmClearUserMappings_spec (s : Vm) :
    ∃ gs, Tears s (vmClearUserMappings s) gs (ClearWrites s) ∧
      (∀ g ∈ gs, ClearWalked s g ∨ g = 0 ∧ SelfMapped s) ∧
      ∀ i, 256 ≤ i → i < 768 → present ((vmClearUserMappings s).ram s.cr3 i) = false := by
  have key := @forUpto_invariant Vm (fun k s =>
      let i := 256 + k
      if present (s.ram s.cr3 i) then
        let s := clearTable (frameOf (s.ram s.cr3 i)) 1024 s
        (s.freeFrame (entryAddr (s.ram s.cr3 i))).setWord s.cr3 i 0
      else s) (768 - 256) s
    (fun n t => ∃ gs, Tears s t gs (ClearWrites s) ∧
      (∀ g ∈ gs, ClearWalked s g ∨ g = 0 ∧ SelfMapped s) ∧
      ∀ i, 256 ≤ i → i < 256 + n → present (t.ram s.cr3 i) = false)
    ⟨[], .refl s, by simp, fun i hi hlt => by omega⟩ ?_
  · obtain ⟨gs, ht, hgs, hz⟩ := key
    exact ⟨gs, ht, hgs, fun i hi hlt => hz i hi (by omega)⟩
  rintro k hk t ⟨gs, ht, hgs, hz⟩
  have hcr := ht.cr3
  by_cases hp : present (t.ram t.cr3 (256 + k)) = true
  · simp only [hp, if_true]
    obtain ⟨hs, hc, hhs⟩ := clearTable_spec (frameOf (t.ram t.cr3 (256 + k))) 1024 t
    set u := clearTable (frameOf (t.ram t.cr3 (256 + k))) 1024 t with hu
    have hse := ht.of_present hp
    rw [hcr] at hse hp
    have hps : present (s.ram s.cr3 (256 + k)) = true := hse ▸ hp
    have hwt : ClearWrites s (frameOf (t.ram t.cr3 (256 + k))) := by
      rw [hcr, hse]
      exact .inr ⟨_, by omega, by omega, hps, rfl⟩
    have hwd : ClearWrites s u.cr3 := by
      rw [hc.cr3, hcr]
      exact .inl rfl
    have hstep := ht.trans ((hc.mono fun f hf => hf ▸ hwt).trans
      ((Tears.freeFrame u (entryAddr (u.ram u.cr3 (256 + k)))).trans
        ((Tears.clearWord (u.freeFrame _) u.cr3 (256 + k)).mono fun f hf => hf ▸ hwd)))
    have hT : frameOf (t.ram t.cr3 (256 + k)) = frameOf (s.ram s.cr3 (256 + k)) := by rw [hcr, hse]
    have hucr : u.cr3 = s.cr3 := hc.cr3.trans hcr
    refine ⟨_, hstep, fun g hg => ?_, fun i hi hlt => ?_⟩
    · simp only [append_nil, mem_append, mem_singleton, frameOf_entryAddr] at hg
      rcases hg with hg | hg | rfl
      · exact hgs g hg
      · obtain ⟨j, hj, hpj, rfl⟩ := mem_tableFrames.mp (hhs g hg)
        have hsj := ht.of_present hpj
        rw [hsj, hT]
        rw [hsj, hT] at hpj
        exact .inl ⟨_, by omega, by omega, hps, .inr (mem_tableFrames.mpr ⟨j, hj, hpj, rfl⟩)⟩
      · rw [hucr]
        rcases hc.zero s.cr3 (256 + k) with hz | hz
        · rw [hz, hse]
          exact .inl ⟨_, by omega, by omega, hps, .inl rfl⟩
        · by_cases hself : s.cr3 = frameOf (t.ram t.cr3 (256 + k))
          · exact .inr ⟨by rw [hz]; rfl, _, by omega, by omega, hps, (hself.trans hT).symm⟩
          · rw [hc.ram _ hself, hse] at hz
            exact absurd (hz ▸ hps) (by decide)
    · rw [hucr]
      by_cases hik : i = 256 + k
      · rw [hik]
        exact (congrArg present setWord_self).trans present_zero
      · refine (congrArg present (setWord_other hik)).trans ?_
        rw [Vm.freeFrame_ram]
        rcases hc.zero s.cr3 i with hz' | hz' <;> rw [hz']
        · exact hz i hi (by omega)
        · exact present_zero
  · simp only [hp, false_eq_true, if_false]
    refine ⟨gs, ht, hgs, fun i hi hlt => ?_⟩
    by_cases hik : i = 256 + k
    · rw [hik, ← hcr]
      exact eq_false_of_not_eq_true hp
    · exact hz i hi (by omega)

/-- The tables of the user half are the active directory's alone, and what they map is neither
table nor directory. -/
structure ClearSafe (s : Vm) (dirs : List Nat) : Prop where
  unshared : ∀ i, 256 ≤ i → i < 768 → present (s.ram s.cr3 i) = true →
    ∀ d ∈ s.kernelDirectory :: dirs, ∀ j < 1024, present (s.ram d j) = true →
      frameOf (s.ram d j) = frameOf (s.ram s.cr3 i) → d = s.cr3 ∧ j = i
  pages : ∀ i, 256 ≤ i → i < 768 → present (s.ram s.cr3 i) = true →
    ∀ f ∈ tableFrames s.ram (frameOf (s.ram s.cr3 i)) 1024, ¬ IsStructure s dirs f

theorem vmClearUserMappings_layout (h : Layout s dirs) (hact : s.cr3 ∈ s.kernelDirectory :: dirs)
    (hs : ClearSafe s dirs) :
    Layout (vmClearUserMappings s) dirs ∧
      ∀ f, ¬ ClearWrites s f → (vmClearUserMappings s).ram f = s.ram f := by
  obtain ⟨gs, ht, hgs, hz⟩ := vmClearUserMappings_spec s
  set t := vmClearUserMappings s with htdef
  refine ⟨?_, ht.ram⟩
  have hwalk : ∀ g ∈ gs, ClearWalked s g := fun g hg => (hgs g hg).elim id fun ⟨_, i, _, hi, hp, he⟩ =>
    absurd hact fun hact => h.apart _ hact i (by omega) hp (by rw [he]; exact hact)
  have hlt : ∀ g ∈ gs, g < 2 ^ 20 := by
    intro g hg
    obtain ⟨i, _, _, _, rfl | hm⟩ := hwalk g hg
    · exact frameOf_lt _
    · obtain ⟨j, _, _, rfl⟩ := mem_tableFrames.mp hm
      exact frameOf_lt _
  have hdir : ∀ d ∈ s.kernelDirectory :: dirs, d ∉ gs := by
    intro d hd hg
    obtain ⟨i, hi, hi', hp, he | hm⟩ := hwalk d hg
    · exact h.apart _ hact i (by omega) hp (he ▸ hd)
    · exact hs.pages i hi hi' hp d hm (.inl hd)
  have htable : ∀ d ∈ s.kernelDirectory :: dirs, ∀ j < 1024, present (t.ram d j) = true →
      frameOf (t.ram d j) ∉ gs := by
    intro d hd j hj hp hg
    rw [ht.of_present hp] at hg
    have hps := ht.of_present hp ▸ hp
    obtain ⟨i, hi, hi', hpi, he | hm⟩ := hwalk _ hg
    · obtain ⟨rfl, rfl⟩ := hs.unshared i hi hi' hpi d hd j hj hps he
      exact absurd (hz j hi hi') (by rw [hp]; decide)
    · exact hs.pages i hi hi' hpi _ hm (.inr ⟨d, hd, j, hj, hps, rfl⟩)
  have hfree : ∀ f, f ∉ gs → ¬ s.pmm.Free f → ¬ t.pmm.Free f := by
    intro f hf hn hfr
    rw [ht.pmm] at hfr
    simp only [Pmm.Free, Pmm.maxBlocks_release, Pmm.mmapTest_release hlt, hf, decide_false, Bool.not_false,
      Bool.and_true] at hfr
    exact hn hfr
  refine ⟨?_, ?_, ?_⟩ <;> simp only [ht.kernelDirectory]
  · exact fun d hd => hfree d (hdir d hd) (h.dirHeld d hd)
  · intro d hd j hj hp
    refine hfree _ (htable d hd j hj hp) ?_
    have he := ht.of_present hp
    rw [he] at hp ⊢
    exact h.tableHeld d hd j hj hp
  · intro d hd j hj hp
    have he := ht.of_present hp
    rw [he] at hp ⊢
    exact h.apart d hd j hj hp

/-! ### Word by word -/

theorem Ram.setWord_apply {ram : Ram} {f i g j : Nat} {w : Word} :
    ram.setWord f i w g j = if g = f ∧ j = i then w else ram g j := by
  by_cases h : g = f ∧ j = i
  · rw [if_pos h, h.1, h.2, setWord_self]
  · rw [if_neg h]
    by_cases hg : g = f
    · exact setWord_other fun hj => h ⟨hg, hj⟩
    · rw [setWord_ne hg]

private theorem clearTable_ram (pt n : Nat) (s : Vm) (f i : Nat) : (clearTable pt n s).ram f i =
    if f = pt ∧ i < n ∧ present (s.ram f i) = true then 0 else s.ram f i := by
  have key := @forUpto_invariant Vm (fun j s =>
      if present (s.ram pt j) then (s.freeFrame (entryAddr (s.ram pt j))).setWord pt j 0 else s) n s
    (fun n t => ∀ f i, t.ram f i = if f = pt ∧ i < n ∧ present (s.ram f i) = true then 0 else s.ram f i)
    (by simp) ?_
  · exact key f i
  intro j _ t ht g k
  have hj : t.ram pt j = s.ram pt j := by rw [ht, if_neg (by omega)]
  by_cases hg : g = pt ∧ k = j
  · obtain ⟨rfl, rfl⟩ := hg
    by_cases hp : present (s.ram g k) = true <;> simp [hj, hp]
  · have hu : (if present (t.ram pt j) then (t.freeFrame (entryAddr (t.ram pt j))).setWord pt j 0 else t).ram g k =
        t.ram g k := by
      split
      · rw [Vm.setWord_ram, setWord_apply, if_neg hg, Vm.freeFrame_ram]
      · rfl
    rw [hu, ht]
    exact if_congr ⟨fun h => ⟨h.1, by omega, h.2.2⟩, fun h => ⟨h.1, by omega, h.2.2⟩⟩ rfl rfl

private theorem clearTable_cr3 (pt n : Nat) (s : Vm) : (clearTable pt n s).cr3 = s.cr3 := by
  obtain ⟨gs, h, -⟩ := clearTable_spec pt n s
  exact h.cr3

/-- A word `vm_clear_user_mappings` zeroes below entry `m`: an entry of the directory, or one of a table
it names there. -/
def ClearedBelow (m : Nat) (s : Vm) (f i : Nat) : Prop :=
  present (s.ram f i) = true ∧ (f = s.cr3 ∧ 256 ≤ i ∧ i < m ∨
    i < 1024 ∧ ∃ k, 256 ≤ k ∧ k < m ∧ present (s.ram s.cr3 k) = true ∧ f = frameOf (s.ram s.cr3 k))

def Cleared (s : Vm) (f i : Nat) : Prop := ClearedBelow 768 s f i

/-- After the entries below `m`: only words of the kind were zeroed, and all of them were, unless the
directory was one of its own tables and has no entry left. -/
structure ClearedTo (m : Nat) (s t : Vm) : Prop where
  cr3 : t.cr3 = s.cr3
  word : ∀ f i, t.ram f i = s.ram f i ∨ t.ram f i = 0 ∧ Cleared s f i
  done : (∀ j < 1024, present (t.ram s.cr3 j) = false) ∨
    (∀ j, m ≤ j → j < 768 → t.ram s.cr3 j = s.ram s.cr3 j) ∧ ∀ f i, ClearedBelow m s f i → t.ram f i = 0

theorem ClearedTo.entry {k : Nat} {v : Vm} (h : ClearedTo k s t) (hk : 256 ≤ k) (hlt : k < 768)
    (hp : present (t.ram s.cr3 k) = true) (hcr : v.cr3 = t.cr3)
    (hram : ∀ f i, v.ram f i =
      if f = s.cr3 ∧ i = k ∨ f = frameOf (t.ram s.cr3 k) ∧ i < 1024 ∧ present (t.ram f i) = true then 0
      else t.ram f i) : ClearedTo (k + 1) s v := by
  have hkeep : t.ram s.cr3 k = s.ram s.cr3 k :=
    (h.word s.cr3 k).elim id fun hz => absurd (hz.1 ▸ hp) (by decide)
  have hps : present (s.ram s.cr3 k) = true := hkeep ▸ hp
  rw [hkeep] at hram
  have hzero : ∀ f i, t.ram f i = 0 → v.ram f i = 0 := by
    intro f i hz
    rw [hram, hz, ite_self]
  refine ⟨hcr.trans h.cr3, fun f i => ?_, ?_⟩
  · rw [hram]
    split
    · rename_i hc
      refine .inr ⟨rfl, ?_⟩
      rcases hc with ⟨rfl, rfl⟩ | ⟨rfl, hi, hpi⟩
      · exact ⟨hps, .inl ⟨rfl, hk, hlt⟩⟩
      · have hw := (h.word _ i).elim id fun hz => absurd (hz.1 ▸ hpi) (by decide)
        exact ⟨hw ▸ hpi, .inr ⟨hi, k, hk, hlt, hps, rfl⟩⟩
    · exact h.word f i
  · rcases h.done with hb | ⟨hrest, hall⟩
    · exact absurd (hb k (by omega)) (by rw [hp]; decide)
    by_cases hself : frameOf (s.ram s.cr3 k) = s.cr3
    · -- The table is the directory itself, so the inner loop empties it.
      refine .inl fun j hj => ?_
      rw [hram]
      split
      · exact present_zero
      · rename_i hn
        rw [hself] at hn
        exact eq_false_of_not_eq_true fun hpj => hn (.inr ⟨rfl, hj, hpj⟩)
    · refine .inr ⟨fun j hj hj' => ?_, fun f i hc => ?_⟩
      · rw [hram, if_neg, hrest j (by omega) hj']
        rintro (⟨-, rfl⟩ | ⟨he, -⟩)
        · omega
        · exact hself he.symm
      · obtain ⟨hpi, ⟨rfl, hi, hik⟩ | ⟨hi, e, he, hek, hpe, rfl⟩⟩ := hc
        · by_cases hik' : i = k
          · rw [hram, if_pos (.inl ⟨rfl, hik'⟩)]
          · exact hzero _ _ (hall _ _ ⟨hpi, .inl ⟨rfl, hi, by omega⟩⟩)
        · by_cases hek' : e = k
          · subst hek'
            rcases h.word (frameOf (s.ram s.cr3 e)) i with hw | hw
            · rw [hram, if_pos (.inr ⟨rfl, hi, hw ▸ hpi⟩)]
            · exact hzero _ _ hw.1
          · exact hzero _ _ (hall _ _ ⟨hpi, .inr ⟨hi, e, he, by omega, hpe, rfl⟩⟩)

theorem ClearedTo.skip {k : Nat} (h : ClearedTo k s t) (hlt : k < 768) (hp : present (t.ram s.cr3 k) = false) :
    ClearedTo (k + 1) s t := by
  refine ⟨h.cr3, h.word, h.done.imp_right fun ⟨hrest, hall⟩ => ⟨fun j hj hj' => hrest j (by omega) hj', ?_⟩⟩
  rintro f i ⟨hpi, hc⟩
  have hs : present (s.ram s.cr3 k) = false := hrest k le_rfl hlt ▸ hp
  rcases hc with ⟨rfl, hi, hik⟩ | ⟨hi, e, he, hek, hpe, rfl⟩
  · by_cases hik' : i = k
    · rw [hik', hs] at hpi
      cases hpi
    · exact hall _ _ ⟨hpi, .inl ⟨rfl, hi, by omega⟩⟩
  · by_cases hek' : e = k
    · rw [hek', hs] at hpe
      cases hpe
    · exact hall _ _ ⟨hpi, .inr ⟨hi, e, he, by omega, hpe, rfl⟩⟩

theorem vmClearUserMappings_words (s : Vm) : ClearedTo 768 s (vmClearUserMappings s) := by
  have key := @forUpto_invariant Vm (fun k s =>
      let i := 256 + k
      if present (s.ram s.cr3 i) then
        let s := clearTable (frameOf (s.ram s.cr3 i)) 1024 s
        (s.freeFrame (entryAddr (s.ram s.cr3 i))).setWord s.cr3 i 0
      else s) (768 - 256) s (fun n t => ClearedTo (256 + n) s t)
    ⟨rfl, fun _ _ => .inl rfl, .inr ⟨fun _ _ _ => rfl, ?_⟩⟩ ?_
  · exact key
  · rintro f i ⟨-, ⟨-, hi, hlt⟩ | ⟨-, k, hk, hlt, -⟩⟩ <;> omega
  · intro k hk t ht
    by_cases hp : present (t.ram t.cr3 (256 + k)) = true
    · simp only [hp, if_true]
      refine ht.entry (by omega) (by omega) (ht.cr3 ▸ hp) ?_ fun f i => ?_
      · rw [Vm.setWord_cr3, Vm.freeFrame_cr3, clearTable_cr3]
      · rw [Vm.setWord_ram, setWord_apply, Vm.freeFrame_ram, clearTable_ram, clearTable_cr3, ht.cr3]
        by_cases hd : f = s.cr3 ∧ i = 256 + k
        · rw [if_pos hd, if_pos (.inl hd)]
        · rw [if_neg hd]
          exact if_congr (by simp [hd]) rfl rfl
    · simp only [hp, false_eq_true, if_false]
      exact ht.skip (by omega) (ht.cr3 ▸ eq_false_of_not_eq_true hp)

end RetroOs.Kernel
