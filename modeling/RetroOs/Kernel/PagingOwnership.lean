import RetroOs.Kernel.PagingIsolation

/-! A record of the tables made for each directory, and what `pd_destroy` gives back by it. -/
namespace RetroOs.Kernel
open Lib List Kernel.System

/-- The system with the entries (directory, index) whose tables were made for the directory. -/
structure Ledger where
  sys : System
  made : List (Nat × Nat)

/-- The entries for which a step makes a table. -/
def newTables (s : System) : VmOp → List (Nat × Nat)
  | .vmMapPage _ virt _ =>
    if present (s.vm.ram s.vm.cr3 (pdIndex virt)) then [] else [(s.vm.cr3, pdIndex virt)]
  | .pagingMap _ virt _ =>
    if present (s.vm.ram s.vm.kernelDirectory (pdIndex virt)) then []
    else [(s.vm.kernelDirectory, pdIndex virt)]
  | .pageFault addr =>
    if !(handleDemandPaging s.vm addr).2 || present (s.vm.ram s.vm.cr3 (pdIndex addr)) then []
    else [(s.vm.cr3, pdIndex addr)]
  | .pdClone src =>
    ((range 768).filter fun i => OwnEntry s.vm.ram s.vm.kernelDirectory src i).map
      ((pdClone s.vm src).2, ·)
  | _ => []

namespace Ledger

/-- The entries of a directory are struck out when it is destroyed. -/
def keptTables (l : Ledger) : VmOp → List (Nat × Nat)
  | .pdDestroy pd => l.made.filter (·.1 ≠ pd)
  | _ => l.made

def exec (l : Ledger) (op : VmOp) : Ledger := ⟨l.sys.exec op, newTables l.sys op ++ l.keptTables op⟩

end Ledger

/-- Directory entries of the linear map of physical memory. -/
def LinearIndex (i : Nat) : Prop := i < 128 ∨ 768 ≤ i ∧ i < 896

/-- The kernel directory and its tables, tables made for kernel addresses, and the pages that either
map, but for those of the linear map, which has every frame. -/
def KernelFrame (l : Ledger) (f : Nat) : Prop :=
  let s := l.sys.vm
  f = s.kernelDirectory ∨
    (∃ i < 1024, present (s.ram s.kernelDirectory i) = true ∧ (f = frameOf (s.ram s.kernelDirectory i) ∨
      ¬ LinearIndex i ∧ ¬ IsStructure s l.sys.dirs f ∧
        f ∈ tableFrames s.ram (frameOf (s.ram s.kernelDirectory i)) 1024)) ∨
    ∃ d i, (d, i) ∈ l.made ∧ d ∈ l.sys.dirs ∧ 768 ≤ i ∧ (f = frameOf (s.ram d i) ∨
      ¬ IsStructure s l.sys.dirs f ∧ f ∈ tableFrames s.ram (frameOf (s.ram d i)) 1024)

structure PrivateFrame (l : Ledger) (d f : Nat) : Prop where
  plain : ¬ IsStructure l.sys.vm l.sys.dirs f
  notKernel : ¬ KernelFrame l f
  unshared : ∀ d' i, (d', i) ∈ l.made → d' ∈ l.sys.dirs →
    f ∈ tableFrames l.sys.vm.ram (frameOf (l.sys.vm.ram d' i)) 1024 → d' = d

/-- What belongs to a directory: itself, the tables made for it, and its private pages. -/
def BelongsTo (l : Ledger) (d f : Nat) : Prop :=
  f = d ∨ ∃ i, (d, i) ∈ l.made ∧ (f = frameOf (l.sys.vm.ram d i) ∨
    f ∈ tableFrames l.sys.vm.ram (frameOf (l.sys.vm.ram d i)) 1024 ∧ PrivateFrame l d f)

structure Destroyable (l : Ledger) (d : Nat) : Prop where
  dir : d ∈ l.sys.dirs
  copies : ∀ i < 1024, present (l.sys.vm.ram d i) = true → (d, i) ∉ l.made →
    l.sys.vm.ram d i = l.sys.vm.ram l.sys.vm.kernelDirectory i
  user : ∀ i, (d, i) ∈ l.made → i < 768
  pages : ∀ i, (d, i) ∈ l.made → ∀ f ∈ tableFrames l.sys.vm.ram (frameOf (l.sys.vm.ram d i)) 1024,
    PrivateFrame l d f

/-- The step finds the frames it takes, and one that frees frames frees no directory or table in use. -/
def KeepsOwners (l : Ledger) : VmOp → Prop
  | .pdCreate => l.sys.vm.pmm.CanAlloc 1
  | .pdClone src => src ∈ l.sys.allDirs ∧
      l.sys.vm.pmm.CanAlloc ((dirFrames l.sys.vm.ram l.sys.vm.kernelDirectory src 768).length + 1)
  | .pdDestroy pd => Destroyable l pd
  | .pdSwitch _ | .schedule _ => True
  | .vmMapPage _ virt _ =>
    l.sys.vm.cr3 ∈ l.sys.allDirs ∧ l.sys.vm.pmm.CanAlloc (mapNeeds l.sys.vm l.sys.vm.cr3 virt)
  | .vmUnmapPage virt =>
    l.sys.vm.cr3 ∈ l.sys.allDirs ∧ ∀ f ∈ unmapFrames l.sys.vm virt, ¬ IsStructure l.sys.vm l.sys.dirs f
  | .pageFault addr => l.sys.vm.cr3 ∈ l.sys.allDirs ∧ FaultSupplied l.sys.vm addr
  | .pagingMap _ virt _ => l.sys.vm.pmm.CanAlloc (mapNeeds l.sys.vm l.sys.vm.kernelDirectory virt)
  | .touch .. => l.sys.vm.cr3 ∈ l.sys.allDirs
  | _ => False

structure DestroysExactly (l : Ledger) (d : Nat) : Prop where
  freed : ∀ f, (pdDestroy l.sys.vm d).pmm.mmapTest f = true ↔
    l.sys.vm.pmm.mmapTest f = true ∧ ¬ BelongsTo l d f
  kernel : ∀ f, KernelFrame l f → (pdDestroy l.sys.vm d).pmm.mmapTest f = l.sys.vm.pmm.mmapTest f

/-- A table that was made is at its entry and at no other; all other entries are the kernel's, up
to their flags. -/
structure Owned (l : Ledger) : Prop where
  layout : Layout l.sys.vm l.sys.dirs
  apart : l.sys.vm.kernelDirectory ∉ l.sys.dirs
  lt : ∀ d ∈ l.sys.dirs, d < 2 ^ 20
  made : ∀ d i, (d, i) ∈ l.made → d ∈ l.sys.allDirs ∧ i < 1024 ∧ present (l.sys.vm.ram d i) = true
  unshared : ∀ d i, (d, i) ∈ l.made → d ∈ l.sys.dirs → ∀ d' ∈ l.sys.allDirs, ∀ j < 1024,
    present (l.sys.vm.ram d' j) = true → frameOf (l.sys.vm.ram d' j) = frameOf (l.sys.vm.ram d i) →
      d' = d ∧ j = i
  copied : ∀ d ∈ l.sys.dirs, ∀ i < 1024, present (l.sys.vm.ram d i) = true → (d, i) ∉ l.made →
    present (l.sys.vm.ram l.sys.vm.kernelDirectory i) = true ∧
      frameOf (l.sys.vm.ram d i) = frameOf (l.sys.vm.ram l.sys.vm.kernelDirectory i)

namespace Owned
variable {l : Ledger} {t : Vm} {op : VmOp} {d f i pd new : Nat} {fs : List Nat} {W : Nat → Prop}

theorem table_ne (h : Owned l) (hm : (d, i) ∈ l.made) (hd : d ∈ l.sys.dirs) {j : Nat} (hj : j < 1024)
    (hp : present (l.sys.vm.ram l.sys.vm.kernelDirectory j) = true) :
    frameOf (l.sys.vm.ram l.sys.vm.kernelDirectory j) ≠ frameOf (l.sys.vm.ram d i) := fun he =>
  h.apart ((h.unshared d i hm hd _ (.head _) j hj hp he).1 ▸ hd)

/-- The record tells `pd_destroy`'s own tables. -/
theorem own_iff (h : Owned l) (hs : Destroyable l d) (hi : i < 1024) :
    OwnEntry l.sys.vm.ram l.sys.vm.kernelDirectory d i ↔ (d, i) ∈ l.made := by
  constructor
  · rintro ⟨hp, hne⟩
    by_contra hm
    exact hne (hs.copies i hi hp hm)
  · intro hm
    have hp := (h.made d i hm).2.2
    refine ⟨hp, fun he => h.table_ne hm hs.dir hi (he ▸ hp) (by rw [he])⟩

private theorem mem_freed_iff (h : Owned l) (hs : Destroyable l d) :
    f ∈ dirFrames l.sys.vm.ram l.sys.vm.kernelDirectory d 1024 ∨ f = d ↔ BelongsTo l d f := by
  rw [mem_dirFrames, or_comm]
  refine or_congr Iff.rfl ⟨?_, ?_⟩
  · rintro ⟨i, hi, ho, hf⟩
    have hm := (h.own_iff hs hi).mp ho
    exact ⟨i, hm, hf.symm.imp id fun hf => ⟨hf, hs.pages i hm f hf⟩⟩
  · rintro ⟨i, hm, hf⟩
    have hi := (h.made d i hm).2.1
    exact ⟨i, hi, (h.own_iff hs hi).mpr hm, hf.symm.imp And.left id⟩

private theorem not_kernel (h : Owned l) (hs : Destroyable l d) (hf : BelongsTo l d f) : ¬ KernelFrame l f := by
  rcases hf with rfl | ⟨i, hm, rfl | ⟨hf, hp⟩⟩
  · rintro (he | ⟨j, hj, hp, he | ⟨-, hn, -⟩⟩ | ⟨d', j, hm, hd', hj, he | ⟨hn, -⟩⟩)
    · exact h.apart (he ▸ hs.dir)
    · exact h.layout.apart _ (.head _) j hj hp (he ▸ .tail _ hs.dir)
    · exact hn (.inl (.tail _ hs.dir))
    · obtain ⟨-, hj', hp⟩ := h.made d' j hm
      exact h.layout.apart d' (.tail _ hd') j hj' hp (he ▸ .tail _ hs.dir)
    · exact hn (.inl (.tail _ hs.dir))
  · obtain ⟨hd, hi, hp⟩ := h.made d i hm
    have hst : IsStructure l.sys.vm l.sys.dirs (frameOf (l.sys.vm.ram d i)) := .inr ⟨d, hd, i, hi, hp, rfl⟩
    rintro (he | ⟨j, hj, hpj, he | ⟨-, hn, -⟩⟩ | ⟨d', j, hm', hd', hj, he | ⟨hn, -⟩⟩)
    · exact h.layout.apart d hd i hi hp (he ▸ (.head _))
    · exact h.table_ne hm hs.dir hj hpj he.symm
    · exact hn hst
    · obtain ⟨rfl, rfl⟩ := h.unshared d' j hm' hd' d hd i hi hp he
      exact absurd (hs.user i hm) (by omega)
    · exact hn hst
  · exact hp.notKernel

private theorem destroysExactly (h : Owned l) (hs : Destroyable l d) : DestroysExactly l d := by
  have htest : ∀ f, (pdDestroy l.sys.vm d).pmm.mmapTest f = true ↔
      l.sys.vm.pmm.mmapTest f = true ∧ ¬ BelongsTo l d f := fun f => by
    rw [mmapTest_pdDestroy l.sys.vm (h.lt d hs.dir), ← h.mem_freed_iff hs]
    simp
  refine ⟨htest, fun f hf => ?_⟩
  have hn : ¬ BelongsTo l d f := fun hb => h.not_kernel hs hb hf
  rw [Bool.eq_iff_iff, htest]
  exact and_iff_left hn

theorem view (h : Owned l) (hl : Layout t l.sys.dirs) (hkd : t.kernelDirectory = l.sys.vm.kernelDirectory)
    (hp : ∀ d ∈ l.sys.allDirs, ∀ i < 1024, present (t.ram d i) = present (l.sys.vm.ram d i))
    (hf : ∀ d ∈ l.sys.allDirs, ∀ i < 1024, frameOf (t.ram d i) = frameOf (l.sys.vm.ram d i)) :
    Owned ⟨⟨t, l.sys.dirs⟩, l.made⟩ where
  layout := hl
  apart := hkd ▸ h.apart
  lt := h.lt
  made d i hm := by
    obtain ⟨hd, hi, hpi⟩ := h.made d i hm
    exact ⟨by simpa only [allDirs, hkd] using hd, hi, (hp d hd i hi).trans hpi⟩
  unshared d i hm hd d' hd' j hj hpj he := by
    simp only [allDirs, hkd] at hd'
    obtain ⟨hda, hi, -⟩ := h.made d i hm
    rw [hp d' hd' j hj] at hpj
    rw [hf d' hd' j hj, hf d hda i hi] at he
    exact h.unshared d i hm hd d' hd' j hj hpj he
  copied d hd i hi hpi hm := by
    have hda : d ∈ l.sys.allDirs := .tail _ hd
    simp only [hkd]
    rw [hp d hda i hi] at hpi
    rw [hp _ mem_cons_self i hi, hf _ mem_cons_self i hi, hf d hda i hi]
    exact h.copied d hd i hi hpi hm

private theorem addTable (h : Owned l) (hl : Layout t l.sys.dirs) (ha : Allocates l.sys.vm t fs W)
    (hd : d ∈ l.sys.allDirs) (hi : i < 1024) (hold : present (l.sys.vm.ram d i) = false)
    (hnew : present (t.ram d i) = true) (hf : frameOf (t.ram d i) ∈ fs)
    (hkeep : ∀ e ∈ l.sys.allDirs, ∀ j < 1024, e ≠ d ∨ j ≠ i → t.ram e j = l.sys.vm.ram e j) :
    Owned ⟨⟨t, l.sys.dirs⟩, (d, i) :: l.made⟩ := by
  have hkd := ha.kernelDirectory
  -- The new table is in a frame that was free, so no older entry points to it.
  have hfresh : ∀ e ∈ l.sys.allDirs, ∀ j < 1024, present (l.sys.vm.ram e j) = true →
      frameOf (l.sys.vm.ram e j) ≠ frameOf (t.ram d i) := fun e he j hj hp heq =>
    h.layout.tableHeld e he j hj hp (heq ▸ ha.grows.free _ hf)
  have hold_of : ∀ e j, (e, j) ∈ l.made → e ≠ d ∨ j ≠ i := fun e j hm => by
    by_contra hn
    simp only [not_or, not_not] at hn
    obtain ⟨rfl, rfl⟩ := hn
    rw [(h.made e j hm).2.2] at hold
    cases hold
  refine ⟨hl, hkd ▸ h.apart, h.lt, fun e j hm => ?_, fun e j hm he e' he' k hk hp heq => ?_, fun e he j hj hp hm => ?_⟩
  · simp only [allDirs, hkd]
    rcases mem_cons.mp hm with heq | hm
    · cases heq
      exact ⟨hd, hi, hnew⟩
    · obtain ⟨hea, hj, hp⟩ := h.made e j hm
      exact ⟨hea, hj, by rw [hkeep e hea j hj (hold_of e j hm), hp]⟩
  · simp only [allDirs, hkd] at he'
    have hea : e ∈ l.sys.allDirs := List.mem_cons_of_mem _ he
    rcases List.mem_cons.mp hm with hej | hm
    · obtain ⟨rfl, rfl⟩ := Prod.mk.inj hej
      by_contra hn
      have hne : e' ≠ e ∨ k ≠ j := by tauto
      rw [hkeep e' he' k hk hne] at hp heq
      exact hfresh e' he' k hk hp heq
    · obtain ⟨-, hj, hpj⟩ := h.made e j hm
      rw [hkeep e hea j hj (hold_of e j hm)] at heq
      by_cases hn : e' ≠ d ∨ k ≠ i
      · rw [hkeep e' he' k hk hn] at hp heq
        exact h.unshared e j hm he e' he' k hk hp heq
      · simp only [not_or, not_not] at hn
        obtain ⟨rfl, rfl⟩ := hn
        exact absurd heq.symm (hfresh e hea j hj hpj)
  · have hea : e ∈ l.sys.allDirs := .tail _ he
    simp only [mem_cons, not_or] at hm
    have hne : e ≠ d ∨ j ≠ i := by
      by_contra hn
      simp only [not_or, not_not] at hn
      exact hm.1 (by rw [hn.1, hn.2])
    rw [hkeep e hea j hj hne] at hp
    obtain ⟨hpk, hfk⟩ := h.copied e he j hj hp hm.2
    have hkne : l.sys.vm.kernelDirectory ≠ d ∨ j ≠ i := by
      by_contra hn
      simp only [not_or, not_not] at hn
      rw [hn.1, hn.2, hold] at hpk
      cases hpk
    simp only [hkd]
    rw [hkeep e hea j hj hne, hkeep _ mem_cons_self j hj hkne]
    exact ⟨hpk, hfk⟩

private theorem addDir (is : List Nat) (h : Owned l) (hl : Layout t (new :: l.sys.dirs)) (ha : Allocates l.sys.vm t fs (fun _ => False))
    (hn : new ∈ fs) (hi : ∀ i ∈ is, i < 1024 ∧ present (t.ram new i) = true ∧ frameOf (t.ram new i) ∈ fs)
    (hinj : ∀ i ∈ is, ∀ j ∈ is, frameOf (t.ram new i) = frameOf (t.ram new j) → i = j)
    (hcopy : ∀ i < 1024, present (t.ram new i) = true → i ∉ is →
      t.ram new i = l.sys.vm.ram l.sys.vm.kernelDirectory i) :
    Owned ⟨⟨t, new :: l.sys.dirs⟩, is.map (new, ·) ++ l.made⟩ := by
  have hkd := ha.kernelDirectory
  have hfree := ha.grows.free new hn
  have hram : ∀ e ∈ l.sys.allDirs, t.ram e = l.sys.vm.ram e := fun e he =>
    ha.ram_held (h.layout.dirHeld e he) id
  have hne : ∀ e ∈ l.sys.allDirs, e ≠ new := fun e he heq => h.layout.dirHeld e he (heq ▸ hfree)
  have hall : ∀ {e}, e ∈ (⟨t, new :: l.sys.dirs⟩ : System).allDirs → e = new ∨ e ∈ l.sys.allDirs := by
    intro e he
    simp only [allDirs, hkd, mem_cons] at he ⊢
    tauto
  have hmade : ∀ {e j}, (e, j) ∈ is.map (new, ·) ++ l.made → e = new ∧ j ∈ is ∨ (e, j) ∈ l.made := by
    intro e j hm
    rcases mem_append.mp hm with hm | hm
    · obtain ⟨i, hi, heq⟩ := mem_map.mp hm
      cases heq
      exact .inl ⟨rfl, hi⟩
    · exact .inr hm
  -- Tables made now are in frames that were free; every other entry leads to one that was not.
  have hfresh : ∀ i ∈ is, ∀ e ∈ l.sys.allDirs, ∀ j < 1024, present (l.sys.vm.ram e j) = true →
      frameOf (l.sys.vm.ram e j) ≠ frameOf (t.ram new i) := fun i hm e he j hj hp heq =>
    h.layout.tableHeld e he j hj hp (heq ▸ ha.grows.free _ (hi i hm).2.2)
  refine ⟨hl, ?_, ?_, fun e j hm => ?_, fun e j hm he e' he' k hk hp heq => ?_, fun e he j hj hp hm => ?_⟩
  · simp only [hkd, mem_cons, not_or]
    exact ⟨hne _ (.head _), h.apart⟩
  · exact fun e he => (mem_cons.mp he).elim (fun heq => heq ▸ hfree.lt) (h.lt e)
  · simp only [allDirs, hkd]
    rcases hmade hm with ⟨rfl, hj⟩ | hm
    · exact ⟨by simp, (hi j hj).1, (hi j hj).2.1⟩
    · obtain ⟨hea, hj, hpj⟩ := h.made e j hm
      rw [hram e hea]
      refine ⟨?_, hj, hpj⟩
      simp only [allDirs, mem_cons] at hea ⊢
      tauto
  · rcases hmade hm with ⟨rfl, hj⟩ | hmo
    · rcases hall he' with rfl | he'
      · by_cases hk' : k ∈ is
        · exact ⟨rfl, hinj k hk' j hj heq⟩
        · have hc := hcopy k hk hp hk'
          rw [hc] at hp heq
          exact absurd heq (hfresh j hj _ (.head _) k hk hp)
      · rw [hram e' he'] at hp heq
        exact absurd heq (hfresh j hj e' he' k hk hp)
    · obtain ⟨hea, hj, hpj⟩ := h.made e j hmo
      have hed : e ∈ l.sys.dirs := (mem_cons.mp he).resolve_left (hne e hea)
      rw [hram e hea] at heq
      rcases hall he' with rfl | he'
      · by_cases hk' : k ∈ is
        · exact absurd heq.symm (hfresh k hk' e hea j hj hpj)
        · have hc := hcopy k hk hp hk'
          rw [hc] at hp heq
          exact absurd heq (h.table_ne hmo hed hk hp)
      · rw [hram e' he'] at hp heq
        exact h.unshared e j hmo hed e' he' k hk hp heq
  · simp only [hkd]
    rw [hram _ mem_cons_self]
    simp only [mem_append, not_or] at hm
    rcases mem_cons.mp he with rfl | he
    · have hj' : j ∉ is := fun hj' => hm.1 (mem_map.mpr ⟨j, hj', rfl⟩)
      have hc := hcopy j hj hp hj'
      rw [hc] at hp ⊢
      exact ⟨hp, rfl⟩
    · rw [hram e (.tail _ he)] at hp ⊢
      exact h.copied e he j hj hp hm.2

theorem remove (h : Owned l) (hl : Layout t (l.sys.dirs.filter (· ≠ d))) (hram : t.ram = l.sys.vm.ram)
    (hkd : t.kernelDirectory = l.sys.vm.kernelDirectory) :
    Owned ⟨⟨t, l.sys.dirs.filter (· ≠ d)⟩, l.made.filter (·.1 ≠ d)⟩ := by
  have hsub : ∀ {e}, e ∈ l.sys.dirs.filter (· ≠ d) → e ∈ l.sys.dirs ∧ e ≠ d := by
    intro e he
    simpa using mem_filter.mp he
  have hkeep : ∀ {e j}, (e, j) ∈ l.made.filter (·.1 ≠ d) → (e, j) ∈ l.made ∧ e ≠ d := by
    intro e j hm
    simpa using mem_filter.mp hm
  refine ⟨hl, fun hm => h.apart (hkd ▸ (hsub hm).1), fun e he => h.lt e (hsub he).1, fun e j hm => ?_,
    fun e j hm he e' he' => ?_, fun e he j hj hp hm => ?_⟩ <;> simp only [hram, hkd, allDirs] at *
  · obtain ⟨hm, hne⟩ := hkeep hm
    obtain ⟨hea, hj, hp⟩ := h.made e j hm
    refine ⟨?_, hj, hp⟩
    simp only [allDirs, mem_cons, mem_filter] at hea ⊢
    rcases hea with hea | hea
    · exact .inl hea
    · exact .inr ⟨hea, by simpa using hne⟩
  · refine h.unshared e j (hkeep hm).1 (hsub he).1 e' ?_
    rcases mem_cons.mp he' with rfl | he'
    · exact .head _
    · exact .tail _ (hsub he').1
  · refine h.copied e (hsub he).1 j hj hp fun hm' => hm (mem_filter.mpr ⟨hm', ?_⟩)
    simpa using (hsub he).2

private theorem not_structure (h : Owned l) (hs : Destroyable l d) (hf : BelongsTo l d f) :
    ¬ IsStructure l.sys.vm (l.sys.dirs.filter (· ≠ d)) f := by
  have hother : ∀ e, e ∈ l.sys.vm.kernelDirectory :: l.sys.dirs.filter (· ≠ d) → e ∈ l.sys.allDirs ∧ e ≠ d := by
    intro e he
    rcases mem_cons.mp he with rfl | he
    · exact ⟨.head _, fun heq => h.apart (heq ▸ hs.dir)⟩
    · have hm : e ∈ l.sys.dirs ∧ e ≠ d := by simpa using mem_filter.mp he
      exact ⟨.tail _ hm.1, hm.2⟩
  rintro (hm | ⟨e, hm, j, hj, hp, rfl⟩)
  · obtain ⟨hfa, hfd⟩ := hother f hm
    rcases hf with rfl | ⟨i, hmi, rfl | ⟨-, hpr⟩⟩
    · exact hfd rfl
    · obtain ⟨hda, hi, hpi⟩ := h.made d i hmi
      exact h.layout.apart d hda i hi hpi hfa
    · exact hpr.plain (.inl hfa)
  · obtain ⟨hea, hed⟩ := hother e hm
    rcases hf with hfd | ⟨i, hmi, hfi | ⟨-, hpr⟩⟩
    · exact h.layout.apart e hea j hj hp (hfd ▸ .tail _ hs.dir)
    · exact hed (h.unshared d i hmi hs.dir e hea j hj hp hfi).1
    · exact hpr.plain (.inr ⟨e, hea, j, hj, hp, rfl⟩)

theorem pdDestroy (h : Owned l) (hs : Destroyable l d) : Owned (l.exec (.pdDestroy d)) := by
  have he := pdDestroy_eq l.sys.vm d (h.lt d hs.dir)
  have hb : ∀ f ∈ dirFrames l.sys.vm.ram l.sys.vm.kernelDirectory d 1024 ++ [d], BelongsTo l d f := fun f hf =>
    (h.mem_freed_iff hs).mp ((mem_append.mp hf).imp id mem_singleton.mp)
  have hlt : ∀ f ∈ dirFrames l.sys.vm.ram l.sys.vm.kernelDirectory d 1024 ++ [d], f < 2 ^ 20 := fun f hf =>
    (mem_append.mp hf).elim dirFrames_lt fun hf => mem_singleton.mp hf ▸ h.lt d hs.dir
  generalize dirFrames l.sys.vm.ram l.sys.vm.kernelDirectory d 1024 ++ [d] = gs at he hb hlt
  simp only [Ledger.exec, exec, Ledger.keptTables, newTables, nil_append, he]
  exact h.remove (h.layout.remove.release hlt fun f hf => h.not_structure hs (hb f hf)) rfl rfl

theorem map (h : Owned l) (hd : d ∈ l.sys.allDirs) (phys virt flags : Word)
    (hc : l.sys.vm.pmm.CanAlloc (mapNeeds l.sys.vm d virt)) :
    Owned ⟨⟨mapPage l.sys.vm d phys virt flags, l.sys.dirs⟩,
      (if present (l.sys.vm.ram d (pdIndex virt)) then [] else [(d, pdIndex virt)]) ++ l.made⟩ := by
  obtain ⟨t, fs, ht, hl, -, ha, hnew, hm⟩ := mapPage_spec (k := 0) phys virt flags h.layout hd hc
  rw [ht]
  have hne : ∀ e ∈ l.sys.allDirs, e ≠ d → t.ram e = l.sys.vm.ram e := fun e he hed =>
    ha.ram_held (h.layout.dirHeld e he) (by
      rintro (heq | ⟨hp, heq⟩)
      · exact hed heq
      · exact h.layout.apart d hd _ (pdIndex_lt virt) hp (heq ▸ he))
  cases hp : present (l.sys.vm.ram d (pdIndex virt)) with
  | true =>
    rw [if_pos rfl, nil_append]
    have hsame : ∀ e ∈ l.sys.allDirs, ∀ j, t.ram e j = l.sys.vm.ram e j := fun e he j => by
      by_cases hed : e = d
      · subst hed
        by_cases hj : j = pdIndex virt
        · rw [hj, hm.kept hp]
        · exact hm.others j hj
      · rw [hne e he hed]
    exact h.view hl ha.kernelDirectory (fun e he j _ => by rw [hsame e he]) fun e he j _ => by rw [hsame e he]
  | false =>
    refine h.addTable hl ha hd (pdIndex_lt virt) hp hm.entry (hnew hp) fun e he j _ hej => ?_
    by_cases hed : e = d
    · subst hed
      exact hm.others j (hej.resolve_left fun hn => hn rfl)
    · rw [hne e he hed]

theorem pageFault (h : Owned l) (addr : Word) (hact : l.sys.vm.cr3 ∈ l.sys.allDirs)
    (hs : FaultSupplied l.sys.vm addr) : Owned (l.exec (.pageFault addr)) := by
  obtain ⟨u, fs, hu, hram, he | ⟨phys, flags, hcan, he⟩⟩ := handleDemandPaging_cases hs
  all_goals
    have hou : Owned ⟨⟨u, l.sys.dirs⟩, l.made⟩ := h.view (h.layout.of_allocates hu fun _ _ => id) hu.kernelDirectory
      (fun _ _ _ _ => by rw [hram]) fun _ _ _ _ => by rw [hram]
    simp only [Ledger.exec, Ledger.keptTables, newTables, exec, he]
  · exact hou
  · have hm := hou.map (d := l.sys.vm.cr3) (by simpa only [allDirs, hu.kernelDirectory] using hact) phys
      (entryAddr addr) flags (by rw [mapNeeds, hram, pdIndex_entryAddr]; exact hcan)
    simpa only [hram, pdIndex_entryAddr, vmMapPage, hu.cr3, Bool.not_true, Bool.false_or] using hm

theorem pdCreate (h : Owned l) (hc : l.sys.vm.pmm.CanAlloc 1) : Owned (l.exec .pdCreate) := by
  obtain ⟨t, new, hcr, -, hl, ha, -, hent⟩ := pdCreate_layout (k := 0) h.layout hc
  simp only [Ledger.exec, Ledger.keptTables, newTables, exec, hcr]
  refine h.addDir [] hl ha (by simp) (by simp) (by simp) fun i hi hp _ => ?_
  rw [hent i] at hp ⊢
  split_ifs at hp ⊢
  · rfl
  · exact absurd hp (by decide)

theorem pdClone (h : Owned l) {src : Nat} (hsrc : src ∈ l.sys.allDirs)
    (hc : l.sys.vm.pmm.CanAlloc ((dirFrames l.sys.vm.ram l.sys.vm.kernelDirectory src 768).length + 1)) :
    Owned (l.exec (.pdClone src)) := by
  obtain ⟨t, new, fs, hcr, -, hl, hcl, -⟩ := pdClone_layout (k := 0) h.layout hsrc (by
    rw [Nat.add_zero]
    exact hc)
  simp only [Ledger.exec, Ledger.keptTables, newTables, exec, hcr]
  have hnd : (dirFrames t.ram l.sys.vm.kernelDirectory new 768).Nodup :=
    (nodup_append.mp (hcl.frames.nodup_iff.mpr hcl.allocates.grows.nodup)).1
  have hmem : ∀ i ∈ (range 768).filter fun i => OwnEntry l.sys.vm.ram l.sys.vm.kernelDirectory src i,
      i < 768 ∧ OwnEntry t.ram l.sys.vm.kernelDirectory new i := fun i hi => by
    obtain ⟨hi, ho⟩ := mem_filter.mp hi
    exact ⟨mem_range.mp hi, hcl.differs i (mem_range.mp hi) (by simpa using ho)⟩
  have hentry : ∀ i, OwnEntry t.ram l.sys.vm.kernelDirectory new i →
      frameOf (t.ram new i) ∈ entryFrames t.ram l.sys.vm.kernelDirectory new i := fun i ho => by
    rw [entryFrames, if_pos ho]
    simp
  refine h.addDir _ hl hcl.allocates hcl.new_mem (fun i hi => ?_) (fun i hi j hj heq => ?_) fun i hi hp hn => ?_
  · obtain ⟨hlt, ho⟩ := hmem i hi
    refine ⟨by omega, ho.1, hcl.frames.mem_iff.mp (mem_append_left _ ?_)⟩
    exact mem_dirFrames.mpr ⟨i, hlt, ho, .inr rfl⟩
  · obtain ⟨hi, hoi⟩ := hmem i hi
    obtain ⟨hj, hoj⟩ := hmem j hj
    exact dirFrames_inj hnd hi hj (hentry i hoi) (heq ▸ hentry j hoj)
  · have hs := hcl.shared i (by
      by_contra hne
      rw [not_or, not_not] at hne
      exact hn (mem_filter.mpr ⟨mem_range.mpr (by omega), by simpa using hne.2⟩))
    rw [hs] at hp ⊢
    split_ifs at hp ⊢
    · rfl
    · exact absurd hp (by decide)

theorem vmUnmapPage (h : Owned l) (virt : Word) (hact : l.sys.vm.cr3 ∈ l.sys.allDirs)
    (hf : ∀ f ∈ unmapFrames l.sys.vm virt, ¬ IsStructure l.sys.vm l.sys.dirs f) :
    Owned (l.exec (.vmUnmapPage virt)) := by
  have hl := vmUnmapPage_layout h.layout hact hf
  have hview : (Kernel.vmUnmapPage l.sys.vm virt).kernelDirectory = l.sys.vm.kernelDirectory ∧
      ∀ d ∈ l.sys.allDirs, (Kernel.vmUnmapPage l.sys.vm virt).ram d = l.sys.vm.ram d := by
    rw [vmUnmapPage_eq]
    split
    · next hp =>
      refine ⟨rfl, fun d hd => Ram.setWord_ne fun he => ?_⟩
      exact h.layout.apart _ hact _ (pdIndex_lt virt) (Bool.and_eq_true_iff.mp hp).1 (he ▸ hd)
    · exact ⟨rfl, fun _ _ => rfl⟩
  exact h.view hl hview.1 (fun d hd _ _ => by rw [hview.2 d hd]) fun d hd _ _ => by rw [hview.2 d hd]

end Owned

/-- Two states whose entries differ in their flags only, and not in the present bit. -/
structure SameEntries (s t : Vm) : Prop where
  pmm : t.pmm = s.pmm
  kernelDirectory : t.kernelDirectory = s.kernelDirectory
  present : ∀ f i, present (t.ram f i) = present (s.ram f i)
  frame : ∀ f i, frameOf (t.ram f i) = frameOf (s.ram f i)

theorem SameEntries.refl (s : Vm) : SameEntries s s := ⟨rfl, rfl, fun _ _ => rfl, fun _ _ => rfl⟩

theorem SameEntries.trans {s t u : Vm} (h : SameEntries s t) (h' : SameEntries t u) : SameEntries s u :=
  ⟨h'.pmm.trans h.pmm, h'.kernelDirectory.trans h.kernelDirectory,
    fun f i => (h'.present f i).trans (h.present f i), fun f i => (h'.frame f i).trans (h.frame f i)⟩

theorem SameEntries.mark (s : Vm) (f i : Nat) (bits : Word) :
    SameEntries s (s.setWord f i (s.ram f i ||| (bits &&& 0x60))) := by
  have hword : ∀ g j, (s.ram.setWord f i (s.ram f i ||| (bits &&& 0x60))) g j = s.ram g j ∨
      (s.ram.setWord f i (s.ram f i ||| (bits &&& 0x60))) g j = s.ram g j ||| (bits &&& 0x60) := by
    intro g j
    by_cases hg : g = f
    · by_cases hj : j = i
      · rw [hg, hj]
        exact .inr Ram.setWord_self
      · exact .inl (Ram.setWord_other hj)
    · exact .inl (congrFun (Ram.setWord_ne hg) j)
  refine ⟨rfl, rfl, fun g j => ?_, fun g j => ?_⟩ <;> rw [Vm.setWord_ram] <;>
    rcases hword g j with he | he <;> rw [he]
  · rw [present_eq, present_eq, BitVec.getLsbD_or, BitVec.getLsbD_and]
    simp
  · rw [frameOf_or, frameOf_and, show frameOf 0x60 = 0 by decide, Nat.and_zero, Nat.or_zero]

private theorem touch_sameEntries (s : Vm) (virt pdeBits pteBits : Word) :
    SameEntries s (touch s virt pdeBits pteBits) := by
  rw [touch]
  split
  · simp only
    split
    · exact (SameEntries.mark ..).trans (.mark ..)
    · exact .mark ..
  · exact .refl s

theorem Layout.sameEntries {s t : Vm} {dirs : List Nat} (h : Layout s dirs) (he : SameEntries s t) :
    Layout t dirs := by
  refine ⟨?_, ?_, ?_⟩ <;> simp only [he.pmm, he.kernelDirectory, he.present, he.frame]
  · exact h.dirHeld
  · exact h.tableHeld
  · exact h.apart

variable {l : Ledger} {op : VmOp} {d : Nat}

theorem Owned.exec (h : Owned l) (hc : KeepsOwners l op) : Owned (l.exec op) := by
  cases op with
  | pdCreate => exact h.pdCreate hc
  | pdClone src => exact h.pdClone hc.1 hc.2
  | pdDestroy pd => exact h.pdDestroy hc
  | pdSwitch pd => exact h.view h.layout.switch rfl (fun _ _ _ _ => rfl) fun _ _ _ _ => rfl
  | schedule pd => exact h.view h.layout.switch rfl (fun _ _ _ _ => rfl) fun _ _ _ _ => rfl
  | vmMapPage phys virt flags => exact h.map hc.1 phys virt flags hc.2
  | vmUnmapPage virt => exact h.vmUnmapPage virt hc.1 hc.2
  | pageFault addr => exact h.pageFault addr hc.1 hc.2
  | pagingMap phys virt flags => exact h.map (.head _) phys virt flags hc
  | touch virt pdeBits pteBits =>
    have he := touch_sameEntries l.sys.vm virt pdeBits pteBits
    exact h.view (h.layout.sameEntries he) he.kernelDirectory (fun d _ i _ => he.present d i) fun d _ i _ => he.frame d i
  | _ => exact hc.elim

/-- The record is empty when `init_paging` is done. -/
def Ledger.booted (img : KernelImage) (s : Vm) : Ledger := ⟨System.booted img s, []⟩

private theorem booted_owned {img : KernelImage} {s₀ : Vm} (hc : s₀.pmm.CanAlloc 130) : Owned (Ledger.booted img s₀) where
  layout := (booted_laidOut hc).layout
  apart := List.not_mem_nil
  lt _ hd := absurd hd List.not_mem_nil
  made _ _ hm := absurd hm List.not_mem_nil
  unshared _ _ hm := absurd hm List.not_mem_nil
  copied _ hd := absurd hd List.not_mem_nil

/-- In a run, with accessed and dirty bits set at any moment, whose steps find their frames:
destroying a directory whose copied entries are still bit for bit the kernel's frees the
directory, the tables made for it and its private pages, and nothing of the kernel's. -/
theorem pdDestroy_frees_own {img : KernelImage} {s₀ : Vm} (hc : s₀.pmm.CanAlloc 130)
    (hr : Runs Ledger.exec KeepsOwners (Ledger.booted img s₀) l) (hd : KeepsOwners l (.pdDestroy d)) :
    DestroysExactly l d := by
  have h : Owned l := hr.invariant (booted_owned hc) fun _ _ => Owned.exec
  exact h.destroysExactly hd

theorem bootVm_destroys :
    DestroysExactly ((Ledger.booted bootImage bootVm).exec .pdCreate) (pdCreate (initPaging bootImage bootVm)).2 := by
  obtain ⟨t, ht, -, hcan, hl⟩ := initPaging_spec (k := 1) bootImage (bootVm_canAlloc.mono (by decide))
  obtain ⟨u, new, hu, -, -, ha, -, hent⟩ := pdCreate_layout (k := 0) hl.layout hcan
  have hs : (Ledger.booted bootImage bootVm).exec .pdCreate = ⟨⟨u, [new]⟩, []⟩ := by
    simp only [Ledger.exec, Ledger.booted, System.booted, ht, System.exec, hu]
    rfl
  refine pdDestroy_frees_own (bootVm_canAlloc.mono (by decide)) (.single ⟨.pdCreate, ?_, rfl⟩) ?_
  · simp only [KeepsOwners, Ledger.booted, booted, ht]
    exact hcan
  · rw [hs, ht, hu]
    refine ⟨.head _, fun i hi hp _ => ?_, fun i hm => absurd hm not_mem_nil,
      fun i hm => absurd hm not_mem_nil⟩
    simp only at hp ⊢
    rw [ha.kernelDirectory, ha.ram_held (hl.layout.dirHeld _ mem_cons_self) id]
    rw [hent i] at hp ⊢
    split_ifs at hp ⊢
    · rfl
    · exact absurd hp (by decide)

private theorem touch_dir {s : Vm} {virt pdeBits pteBits : Word} {d : Nat}
    (hp : present (s.ram s.cr3 (pdIndex virt)) = true) (hd : d ≠ frameOf (s.ram s.cr3 (pdIndex virt))) :
    (touch s virt pdeBits pteBits).ram d = (s.ram.setWord s.cr3 (pdIndex virt)
      (s.ram s.cr3 (pdIndex virt) ||| (pdeBits &&& 0x60))) d := by
  rw [touch, if_pos hp]
  simp only
  split
  · rw [Vm.setWord_ram, Ram.setWord_ne hd, Vm.setWord_ram]
  · rfl

/-- The processor marks a directory entry a process has from the kernel as accessed; destroying the
process then frees the kernel's own table. -/
theorem pdDestroy_frees_kernel :
    ∃ s a b, TwoProcesses s a b ∧
      let T := frameOf (s.vm.ram s.vm.kernelDirectory 768)
      let t := (s.exec (.touch 0xC0100000 0x20 0)).exec (.schedule b)
      present (t.vm.ram t.vm.kernelDirectory 768) = true ∧ frameOf (t.vm.ram t.vm.kernelDirectory 768) = T ∧
        t.vm.pmm.mmapTest T = true ∧ (t.exec (.pdDestroy a)).vm.pmm.mmapTest T = false := by
  obtain ⟨s, a, b, h⟩ := bootVm_processes
  refine ⟨s, a, b, h, ?_⟩
  have hamem : a ∈ s.dirs := by simp [h.dirs]
  have ha : a ∈ s.vm.kernelDirectory :: s.dirs := .tail _ hamem
  have h0 : s.vm.ram s.vm.kernelDirectory 768 = s.vm.ram s.vm.kernelDirectory 0 := h.upper 0 (by decide)
  have hp : present (s.vm.ram s.vm.kernelDirectory 768) = true := by
    rw [h0]
    exact (h.linear 0 (by decide)).1
  have hused : s.vm.pmm.mmapTest (frameOf (s.vm.ram s.vm.kernelDirectory 768)) = true := by
    rw [h0]
    exact h.used 0 (by decide)
  have hpa : s.vm.ram a 768 = s.vm.ram s.vm.kernelDirectory 768 := by
    rw [h.entries a hamem 768 (by decide), hp, if_pos rfl]
  have hflags : entryFlags (s.vm.ram s.vm.kernelDirectory 768) = 3 := by
    rw [h0]
    exact h.flags 0 (by decide)
  have hidx : pdIndex 0xC0100000 = 768 := by decide
  have hT : frameOf (s.vm.ram s.vm.kernelDirectory 768) ∉ s.vm.kernelDirectory :: s.dirs :=
    h.layout.apart _ (.head _) 768 (by decide) hp
  have hpde : s.vm.ram s.vm.cr3 (pdIndex 0xC0100000) = s.vm.ram s.vm.kernelDirectory 768 := by
    rw [h.active, hidx, hpa]
  have hdir : ∀ d ∈ s.vm.kernelDirectory :: s.dirs, (touch s.vm 0xC0100000 0x20 0).ram d =
      (s.vm.ram.setWord a 768 (s.vm.ram s.vm.kernelDirectory 768 ||| 0x20)) d := fun d hd => by
    rw [touch_dir (by rw [hpde, hp]) (by rw [hpde]; exact fun he => hT (he ▸ hd)), hpde, h.active, hidx]
    rfl
  have he := touch_sameEntries s.vm 0xC0100000 0x20 0
  have hexec : (s.exec (.touch 0xC0100000 0x20 0)).exec (.schedule b) =
      ⟨pdSwitch { touch s.vm 0xC0100000 0x20 0 with currentProcess := some b } b, s.dirs⟩ := rfl
  generalize touch s.vm 0xC0100000 0x20 0 = u at he hdir hexec
  -- The mark is in the process's copy of the entry only.
  have hown : OwnEntry u.ram u.kernelDirectory a 768 := by
    refine ⟨by rw [he.present, hpa, hp], fun heq => ?_⟩
    rw [he.kernelDirectory, hdir a ha, hdir _ mem_cons_self, Ram.setWord_self,
      Ram.setWord_ne h.distinct.1] at heq
    have hf := congrArg entryFlags heq
    rw [entryFlags_or, hflags] at hf
    exact absurd hf (by decide)
  have hlt := h.dirs_lt a hamem
  intro T t
  rw [show t = _ from hexec]
  refine ⟨?_, ?_, ?_, ?_⟩
  · exact (congrArg (fun k => present (u.ram k 768)) he.kernelDirectory).trans ((he.present _ _).trans hp)
  · exact (congrArg (fun k => frameOf (u.ram k 768)) he.kernelDirectory).trans (he.frame _ _)
  · exact (congrArg (·.mmapTest T) he.pmm).trans hused
  · refine (mmapTest_pdDestroy _ hlt).trans ?_
    have hm : T ∈ dirFrames u.ram u.kernelDirectory a 1024 :=
      mem_dirFrames.mpr ⟨768, by decide, hown, .inr (by rw [he.frame, hpa])⟩
    exact Bool.and_eq_false_iff.mpr (.inr (by rw [decide_eq_true (.inl hm)]; rfl))

end RetroOs.Kernel
