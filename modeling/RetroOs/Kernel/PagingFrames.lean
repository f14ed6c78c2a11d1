import RetroOs.Kernel.PagingUpdates

/-! The frames a directory gives up in `pd_destroy`: its own tables, the pages they map, and itself. -/
namespace RetroOs.Kernel
open Lib List Pmm

def tableFrames (ram : Ram) (pt n : Nat) : List Nat :=
  (range n).filterMap fun j => if present (ram pt j) then some (frameOf (ram pt j)) else none

def OwnEntry (ram : Ram) (kd pd i : Nat) : Prop := present (ram pd i) = true ∧ ram pd i ≠ ram kd i

instance (ram : Ram) (kd pd i : Nat) : Decidable (OwnEntry ram kd pd i) := inferInstanceAs (Decidable (_ ∧ _))

def entryFrames (ram : Ram) (kd pd i : Nat) : List Nat :=
  if OwnEntry ram kd pd i then tableFrames ram (frameOf (ram pd i)) 1024 ++ [frameOf (ram pd i)] else []

/-- The frames of the own tables among the first `n` entries of a directory. -/
def dirFrames (ram : Ram) (kd pd n : Nat) : List Nat := (range n).flatMap (entryFrames ram kd pd)

variable {ram ram' : Ram} {kd pd pt i j n f : Nat} {s t : Vm}

theorem tableFrames_succ :
    tableFrames ram pt (n + 1) =
      tableFrames ram pt n ++ if present (ram pt n) then [frameOf (ram pt n)] else [] := by
  rw [tableFrames, range_succ, filterMap_append, ← tableFrames]
  by_cases h : present (ram pt n) = true <;> simp [h]

theorem dirFrames_succ :
    dirFrames ram kd pd (n + 1) = dirFrames ram kd pd n ++ entryFrames ram kd pd n := by
  rw [dirFrames, range_succ, flatMap_append, ← dirFrames]
  simp

theorem mem_tableFrames :
    f ∈ tableFrames ram pt n ↔ ∃ j < n, present (ram pt j) = true ∧ frameOf (ram pt j) = f := by
  simp only [tableFrames, mem_filterMap, mem_range]
  refine exists_congr fun j => and_congr_right fun _ => ?_
  by_cases h : present (ram pt j) = true <;> simp [h]

theorem mem_dirFrames :
    f ∈ dirFrames ram kd pd n ↔ ∃ i < n, OwnEntry ram kd pd i ∧
      (f ∈ tableFrames ram (frameOf (ram pd i)) 1024 ∨ f = frameOf (ram pd i)) := by
  simp only [dirFrames, mem_flatMap, mem_range, entryFrames]
  refine exists_congr fun i => and_congr_right fun _ => ?_
  by_cases h : OwnEntry ram kd pd i <;> simp [h]

theorem dirFrames_lt (hf : f ∈ dirFrames ram kd pd n) : f < 2 ^ 20 := by
  obtain ⟨i, _, _, hm | rfl⟩ := mem_dirFrames.mp hf
  · obtain ⟨j, _, _, rfl⟩ := mem_tableFrames.mp hm
    exact frameOf_lt _
  · exact frameOf_lt _

theorem tableFrames_congr (h : ∀ j < n, ram' pt j = ram pt j) :
    tableFrames ram' pt n = tableFrames ram pt n := by
  refine filterMap_congr fun j hj => ?_
  rw [h j (mem_range.mp hj)]

theorem entryFrames_congr (hk : ram' kd i = ram kd i) (hp : ram' pd i = ram pd i)
    (ht : OwnEntry ram kd pd i → ∀ j < 1024, ram' (frameOf (ram pd i)) j = ram (frameOf (ram pd i)) j) :
    entryFrames ram' kd pd i = entryFrames ram kd pd i := by
  have ho : OwnEntry ram' kd pd i ↔ OwnEntry ram kd pd i := by rw [OwnEntry, OwnEntry, hk, hp]
  simp only [entryFrames, ho, hp]
  by_cases h : OwnEntry ram kd pd i
  · rw [if_pos h, if_pos h, tableFrames_congr (ht h)]
  · rw [if_neg h, if_neg h]

theorem dirFrames_congr (hk : ∀ i < n, ram' kd i = ram kd i) (hp : ∀ i < n, ram' pd i = ram pd i)
    (ht : ∀ i < n, OwnEntry ram kd pd i →
      ∀ j < 1024, ram' (frameOf (ram pd i)) j = ram (frameOf (ram pd i)) j) :
    dirFrames ram' kd pd n = dirFrames ram kd pd n := by
  refine flatMap_congr fun i hi => ?_
  have hi := mem_range.mp hi
  exact entryFrames_congr (hk i hi) (hp i hi) (ht i hi)

theorem tableFrames_of_absent {m : Nat} (hm : n ≤ m) (h : ∀ j, n ≤ j → j < m → present (ram pt j) = false) :
    tableFrames ram pt m = tableFrames ram pt n := by
  induction m, hm using Nat.le_induction with
  | base => rfl
  | succ m hm ih =>
    rw [tableFrames_succ, ih fun j hj hlt => h j hj (by omega), h m hm (by omega)]
    simp

theorem dirFrames_of_not_own {m : Nat} (hm : n ≤ m) (h : ∀ i, n ≤ i → i < m → ¬ OwnEntry ram kd pd i) :
    dirFrames ram kd pd m = dirFrames ram kd pd n := by
  induction m, hm using Nat.le_induction with
  | base => rfl
  | succ m hm ih =>
    rw [dirFrames_succ, ih fun i hi hlt => h i hi (by omega), entryFrames, if_neg (h m hm (by omega)),
      append_nil]

theorem tableFrames_inj (h : (tableFrames ram pt n).Nodup) {j' : Nat} (hj : j < n) (hj' : j' < n)
    (hp : present (ram pt j) = true) (hp' : present (ram pt j') = true)
    (he : frameOf (ram pt j) = frameOf (ram pt j')) : j = j' := by
  induction n with
  | zero => omega
  | succ n ih =>
    rw [tableFrames_succ] at h
    obtain ⟨hn, -, hd⟩ := nodup_append.mp h
    have hlast : ∀ a < n, present (ram pt a) = true → present (ram pt n) = true →
        frameOf (ram pt a) ≠ frameOf (ram pt n) := fun a ha hpa hpn =>
      hd _ (mem_tableFrames.mpr ⟨a, ha, hpa, rfl⟩) _ (by simp [hpn])
    rcases Nat.lt_succ_iff_lt_or_eq.mp hj with hj | rfl <;>
      rcases Nat.lt_succ_iff_lt_or_eq.mp hj' with hj' | rfl
    · exact ih hn hj hj'
    · exact absurd he (hlast j hj hp hp')
    · exact absurd he.symm (hlast j' hj' hp' hp)
    · rfl

theorem dirFrames_inj (h : (dirFrames ram kd pd n).Nodup) {i' : Nat} (hi : i < n) (hi' : i' < n)
    (hf : f ∈ entryFrames ram kd pd i) (hf' : f ∈ entryFrames ram kd pd i') : i = i' := by
  induction n with
  | zero => omega
  | succ n ih =>
    rw [dirFrames_succ] at h
    obtain ⟨hn, -, hd⟩ := nodup_append.mp h
    have hlast : ∀ a < n, f ∈ entryFrames ram kd pd a → f ∉ entryFrames ram kd pd n := fun a ha hfa hfn =>
      hd f (mem_flatMap.mpr ⟨a, mem_range.mpr ha, hfa⟩) f hfn rfl
    rcases Nat.lt_succ_iff_lt_or_eq.mp hi with hi | rfl <;>
      rcases Nat.lt_succ_iff_lt_or_eq.mp hi' with hi' | rfl
    · exact ih hn hi hi'
    · exact absurd hf' (hlast i hi hf)
    · exact absurd hf (hlast i' hi' hf')
    · rfl

theorem entryFrames_nodup (h : (dirFrames ram kd pd n).Nodup) (hi : i < n) :
    (entryFrames ram kd pd i).Nodup :=
  (nodup_flatMap.mp h).1 i (mem_range.mpr hi)

theorem freeTable_eq (pt : Nat) (s : Vm) :
    freeTable pt s = { s with pmm := s.pmm.release (tableFrames s.ram pt 1024) } := by
  refine forUpto_invariant (fun n t => t = { s with pmm := s.pmm.release (tableFrames s.ram pt n) }) rfl ?_
  rintro j - _ rfl
  rw [tableFrames_succ]
  by_cases h : present (s.ram pt j) = true
  · simp only [if_pos h, Vm.freeFrame, release_append,
      freeBlock_eq_release (frameOf_entryAddr _)]
  · simp only [h, Bool.false_eq_true, if_false, append_nil]

/-- `pd_destroy` reads the tables and frees; it writes nothing but the bitmap. -/
theorem pdDestroy_eq (s : Vm) (pd : Nat) (hpd : pd < 2 ^ 20) :
    pdDestroy s pd =
      { s with pmm := s.pmm.release (dirFrames s.ram s.kernelDirectory pd 1024 ++ [pd]) } := by
  have hloop := @forUpto_invariant Vm
    (fun i s =>
      if !present (s.ram pd i) then s
      else if s.ram pd i = s.ram s.kernelDirectory i then s
      else
        let pt := frameOf (s.ram pd i)
        (freeTable pt s).freeFrame (frameAddr pt)) 1024 s
    (fun n t => t = { s with pmm := s.pmm.release (dirFrames s.ram s.kernelDirectory pd n) }) rfl ?_
  · rw [pdDestroy]
    simp only at hloop ⊢
    rw [hloop, Vm.freeFrame, release_append, freeBlock_eq_release (frameOf_frameAddr hpd)]
  rintro i - _ rfl
  rw [dirFrames_succ, entryFrames]
  by_cases hp : present (s.ram pd i) = true
  · by_cases hk : s.ram pd i = s.ram s.kernelDirectory i
    · rw [if_neg fun h : OwnEntry _ _ _ _ => h.2 hk]
      simp only [hk, if_true, ite_self, append_nil]
    · rw [if_pos (show OwnEntry _ _ _ _ from ⟨hp, hk⟩)]
      simp only [hp, Bool.not_true, Bool.false_eq_true, if_false, hk, freeTable_eq, Vm.freeFrame,
        release_append, freeBlock_eq_release (frameOf_frameAddr (frameOf_lt _))]
  · rw [if_neg fun h : OwnEntry _ _ _ _ => hp h.1]
    simp only [Bool.not_eq_true _ ▸ hp, Bool.not_false, if_true, append_nil]

theorem mmapTest_pdDestroy (s : Vm) (hpd : pd < 2 ^ 20) :
    (pdDestroy s pd).pmm.mmapTest f =
      (s.pmm.mmapTest f && !decide (f ∈ dirFrames s.ram s.kernelDirectory pd 1024 ∨ f = pd)) := by
  have hlt : ∀ g ∈ dirFrames s.ram s.kernelDirectory pd 1024 ++ [pd], g < 2 ^ 20 := fun g hg =>
    (mem_append.mp hg).elim dirFrames_lt fun h => (mem_singleton.mp h).symm ▸ hpd
  rw [pdDestroy_eq s pd hpd, mmapTest_release hlt]
  simp only [mem_append, mem_singleton]

end RetroOs.Kernel
