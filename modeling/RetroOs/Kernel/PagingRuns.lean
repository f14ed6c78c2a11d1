import Mathlib.Order.Interval.Finset.Nat
import RetroOs.Kernel.PagingClear
import RetroOs.Kernel.PagingInit
import RetroOs.Kernel.PmmContiguous
import RetroOs.Lib.Runs

/-! Runs of the virtual memory system: directories made, copied and destroyed, pages mapped and
unmapped, shared segments, faults and context switches in any order. -/
namespace RetroOs.Kernel
open Lib

/-- The machine with the directories that `pd_create` and `pd_clone` made and that still exist. -/
structure System where
  vm : Vm
  dirs : List Nat

inductive VmOp where
  | pdCreate
  | pdClone (sourcePd : Nat)
  | pdDestroy (pd : Nat)
  | pdSwitch (pd : Nat)
  | schedule (pd : Nat)
  | vmMapPage (phys virt flags : Word)
  | vmUnmapPage (virt : Word)
  | vmClearUserMappings
  | pageFault (addr : Word)
  | pagingMap (phys virt flags : Word)
  | sysShmget (key size : Word)
  | sysShmat (shmid : Nat)
  | shmFree (shmid : Nat)
  | touch (virt pdeBits pteBits : Word)

/-- The processor walks to an address in the active directory and sets accessed and dirty bits in
the entries it finds present. -/
def touch (s : Vm) (virt pdeBits pteBits : Word) : Vm :=
  let pde := s.ram s.cr3 (pdIndex virt)
  if present pde then
    let s := s.setWord s.cr3 (pdIndex virt) (pde ||| (pdeBits &&& 0x60))
    let pte := s.ram (frameOf pde) (ptIndex virt)
    if present pte then s.setWord (frameOf pde) (ptIndex virt) (pte ||| (pteBits &&& 0x60)) else s
  else s

namespace System

def exec (s : System) : VmOp → System
  | .pdCreate => ⟨(pdCreate s.vm).1, (pdCreate s.vm).2 :: s.dirs⟩
  | .pdClone src => ⟨(pdClone s.vm src).1, (pdClone s.vm src).2 :: s.dirs⟩
  | .pdDestroy pd => ⟨pdDestroy s.vm pd, s.dirs.filter (· ≠ pd)⟩
  | .pdSwitch pd => { s with vm := pdSwitch s.vm pd }
  | .schedule pd => { s with vm := pdSwitch { s.vm with currentProcess := some pd } pd }
  | .vmMapPage phys virt flags => { s with vm := vmMapPage s.vm phys virt flags }
  | .vmUnmapPage virt => { s with vm := vmUnmapPage s.vm virt }
  | .vmClearUserMappings => { s with vm := vmClearUserMappings s.vm }
  | .pageFault addr => { s with vm := (handleDemandPaging s.vm addr).1 }
  | .pagingMap phys virt flags => { s with vm := pagingMap s.vm phys virt flags }
  | .sysShmget key size => { s with vm := (sysShmget s.vm key size).1 }
  | .sysShmat shmid => { s with vm := (sysShmat s.vm shmid).1 }
  | .shmFree shmid => { s with vm := shmFree s.vm shmid }
  | .touch virt pdeBits pteBits => { s with vm := touch s.vm virt pdeBits pteBits }

/-- A run whose every step meets the condition on the state it starts from. -/
abbrev Runs (cond : System → VmOp → Prop) : System → System → Prop := Lib.Runs exec cond

def booted (img : KernelImage) (s : Vm) : System := ⟨initPaging img s, []⟩

def allDirs (s : System) : List Nat := s.vm.kernelDirectory :: s.dirs

end System

variable {s t : Vm} {addr virt : Word} {n : Nat}

/-- Relations that every allocation and every write to memory keeps. -/
structure AllocClosed (R : Vm → Vm → Prop) : Prop where
  refl (s : Vm) : R s s
  trans {s t u : Vm} : R s t → R t u → R s u
  allocFrame (s : Vm) : R s s.allocFrame.1
  setPage (s : Vm) (f : Nat) (page : Nat → Word) : R s (s.setPage f page)
  setWord (s : Vm) (f i : Nat) (w : Word) : R s (s.setWord f i w)

namespace AllocClosed
variable {R : Vm → Vm → Prop}

theorem loop (h : AllocClosed R) {body : Nat → Vm → Vm} (hb : ∀ i s, R s (body i s)) (n : Nat) (s : Vm) :
    R s (forUpto body n s) :=
  forUpto_invariant (fun _ => R s) (h.refl s) fun i _ t ht => h.trans ht (hb i t)

theorem newPage (h : AllocClosed R) (s : Vm) (page : Nat → Word) :
    R s (s.allocFrame.1.setPage s.allocFrame.2 page) :=
  h.trans (h.allocFrame s) (h.setPage ..)

theorem mapPage (h : AllocClosed R) (s : Vm) (pd : Nat) (phys virt flags : Word) :
    R s (mapPage s pd phys virt flags) := by
  rw [Kernel.mapPage]
  split
  · exact h.setWord ..
  · exact h.trans (h.trans (h.newPage s zeroPage) (h.setWord ..)) (h.setWord ..)

theorem handleDemandPaging (h : AllocClosed R) (s : Vm) (addr : Word) : R s (handleDemandPaging s addr).1 := by
  have key : ∀ (u : Vm) (phys flags : Word), R s u → R s (vmMapPage u phys (entryAddr addr) flags) :=
    fun u phys flags hu => h.trans hu (h.mapPage ..)
  rw [Kernel.handleDemandPaging]
  split
  · exact h.refl s
  split
  · simp only
    split
    · exact h.allocFrame s
    · exact key _ _ _ (h.allocFrame s)
  split
  · exact h.refl s
  split
  · exact key _ _ _ (h.refl s)
  split
  · exact key _ _ _ (h.allocFrame s)
  · exact h.refl s

theorem pdCreate (h : AllocClosed R) (s : Vm) : R s (pdCreate s).1 :=
  h.trans (h.newPage s zeroPage) (h.loop (fun i u => by
    split
    · exact h.setWord ..
    · exact h.refl u) _ _)

theorem cloneTable (h : AllocClosed R) (src dest n : Nat) (s : Vm) : R s (cloneTable src dest n s) :=
  h.loop (fun j u => by
    simp only
    split
    · exact h.trans (h.newPage u _) (h.setWord ..)
    · exact h.refl u) n s

theorem cloneTables (h : AllocClosed R) (src new n : Nat) (s : Vm) : R s (cloneTables src new n s) :=
  h.loop (fun i u => by
    simp only
    split
    · exact h.refl u
    split
    · exact h.refl u
    · exact h.trans (h.trans (h.newPage u zeroPage) (h.setWord ..)) (h.cloneTable ..)) n s

theorem pdClone (h : AllocClosed R) (s : Vm) (src : Nat) : R s (pdClone s src).1 := by
  have hc := h.trans (h.pdCreate s)
    (h.cloneTables src (Kernel.pdCreate s).2 kernelPageDirectoryIndex (Kernel.pdCreate s).1)
  simpa only [Kernel.pdClone] using hc

theorem initPaging (h : AllocClosed R)
    (hd : ∀ (s : Vm) kd cur cr3, R s { s with kernelDirectory := kd, currentDirectory := cur, cr3 := cr3 })
    (img : KernelImage) (s : Vm) : R s (initPaging img s) := by
  have hlinear : ∀ n u, R u (linearMap img n u) := fun n u => h.loop (fun j v =>
    h.trans (h.trans (h.newPage v _) (h.setWord ..)) (h.setWord ..)) n u
  have hdev : ∀ u, R u (hpetMapHardware (apicMapHardware u)) := fun u =>
    h.trans (h.trans (h.mapPage ..) (h.mapPage ..)) (h.mapPage ..)
  rw [Kernel.initPaging]
  exact h.trans (h.trans (h.trans (h.trans (h.allocFrame s) (h.trans (hd ..) (h.setPage ..))) (hlinear ..))
    (hdev _)) (hd ..)

end AllocClosed

def SameDirectories (s t : Vm) : Prop :=
  t.kernelDirectory = s.kernelDirectory ∧ t.currentDirectory = s.currentDirectory

theorem sameDirectories_closed : AllocClosed SameDirectories where
  refl _ := ⟨rfl, rfl⟩
  trans h h' := ⟨h'.1.trans h.1, h'.2.trans h.2⟩
  allocFrame _ := ⟨rfl, rfl⟩
  setPage _ _ _ := ⟨rfl, rfl⟩
  setWord _ _ _ _ := ⟨rfl, rfl⟩

private theorem pdDestroy_directories (s : Vm) (pd : Nat) : SameDirectories s (pdDestroy s pd) := by
  have h := sameDirectories_closed
  have hfree : ∀ u w, SameDirectories u (u.freeFrame w) := fun _ _ => ⟨rfl, rfl⟩
  rw [pdDestroy]
  refine h.trans (h.loop (fun i u => ?_) 1024 s) (hfree _ _)
  split
  · exact h.refl u
  split
  · exact h.refl u
  · simp only [freeTable_eq]
    exact ⟨rfl, rfl⟩

private theorem sysShmget_directories (s : Vm) (key size : Word) : SameDirectories s (sysShmget s key size).1 := by
  rw [sysShmget]
  split
  · exact ⟨rfl, rfl⟩
  split
  · exact ⟨rfl, rfl⟩
  · simp only
    split_ifs <;> exact ⟨rfl, rfl⟩

private theorem sysShmat_directories (s : Vm) (shmid : Nat) : SameDirectories s (sysShmat s shmid).1 := by
  have h := sameDirectories_closed
  rw [sysShmat]
  split
  · simp only
    exact h.trans (h.trans (show SameDirectories s (s.setSegment shmid _) from ⟨rfl, rfl⟩)
      (h.loop (fun i u => h.mapPage ..) _ _)) ⟨rfl, rfl⟩
  · exact h.refl s

/-- No operation after `init_paging` changes either directory pointer. -/
theorem System.exec_directories (s : System) (op : VmOp) : SameDirectories s.vm (s.exec op).vm := by
  cases op with
  | pdCreate => exact sameDirectories_closed.pdCreate s.vm
  | pdClone src => exact sameDirectories_closed.pdClone s.vm src
  | pdDestroy pd => exact pdDestroy_directories s.vm pd
  | pdSwitch pd => exact ⟨rfl, rfl⟩
  | schedule pd => exact ⟨rfl, rfl⟩
  | vmMapPage phys virt flags => exact sameDirectories_closed.mapPage ..
  | vmUnmapPage virt =>
    simp only [exec, vmUnmapPage]
    split
    · exact ⟨rfl, rfl⟩
    · split <;> exact ⟨rfl, rfl⟩
  | vmClearUserMappings =>
    obtain ⟨gs, ht, -⟩ := vmClearUserMappings_spec s.vm
    simp only [exec, SameDirectories]
    rw [ht.rest]
    exact ⟨rfl, rfl⟩
  | pageFault addr => exact sameDirectories_closed.handleDemandPaging s.vm addr
  | pagingMap phys virt flags => exact sameDirectories_closed.mapPage ..
  | sysShmget key size => exact sysShmget_directories s.vm key size
  | sysShmat shmid => exact sysShmat_directories s.vm shmid
  | shmFree shmid =>
    simp only [exec, shmFree]
    split <;> exact ⟨rfl, rfl⟩
  | touch virt pdeBits pteBits =>
    simp only [exec, touch]
    split
    · split <;> exact ⟨rfl, rfl⟩
    · exact ⟨rfl, rfl⟩

theorem System.booted_directories {img : KernelImage} {s₀ : Vm} {s : System} {cond : System → VmOp → Prop}
    (hr : Runs cond (booted img s₀) s) : s.vm.currentDirectory = some s.vm.kernelDirectory :=
  @Lib.Runs.invariant _ _ (fun s => s.vm.currentDirectory = some s.vm.kernelDirectory) _ _ _ _ hr rfl fun s op h _ => by
    have hd := s.exec_directories op
    rw [hd.1, hd.2, h]

/-- 128 MiB of memory, the first 4 MiB in use by the kernel image. -/
def bootVm : Vm where
  pmm := ⟨fun i => if i < 32 then 0xFFFFFFFF else 0, 32768, 1024, by decide⟩
  ram _ _ := 0
  kernelDirectory := 0
  currentDirectory := none
  cr3 := 0
  currentProcess := none
  shmSegments _ := ⟨0, 0, 0, 0, 0, false⟩

def bootImage : KernelImage := ⟨0xC0100000, 0xC0180000, 0xC0180000, 0xC01A0000⟩

theorem bootVm_canAlloc : bootVm.pmm.CanAlloc 31744 := by
  refine ⟨by decide, ?_⟩
  have hsub : Finset.Ico 1024 32768 ⊆ bootVm.pmm.freeFrames := by
    intro f hf
    rw [Finset.mem_Ico] at hf
    refine Pmm.mem_freeFrames.mpr ⟨hf.2, ?_⟩
    rw [Pmm.mmapTest_eq, show bootVm.pmm.bitmap (f / 32) = 0 from if_neg (by omega)]
    exact BitVec.getLsbD_zero
  have := Finset.card_le_card hsub
  rwa [Nat.card_Ico] at this

theorem bootVm_filled : bootVm.pmm.Filled 1024 := by
  intro f _
  rw [Pmm.mmapTest_eq]
  by_cases hf : f < 1024
  · rw [show bootVm.pmm.bitmap (f / 32) = BitVec.allOnes 32 from if_pos (by omega), BitVec.getLsbD_allOnes]
    simp [hf, Nat.mod_lt f (show 32 > 0 by omega)]
  · rw [show bootVm.pmm.bitmap (f / 32) = 0 from if_neg (by omega)]
    simp [hf]

/-- Allocations take the first free frame, so a filled bitmap stays filled. -/
def KeepsFilled (s t : Vm) : Prop :=
  t.pmm.maxBlocks = s.pmm.maxBlocks ∧ ∀ n, s.pmm.Filled n → ∃ m, n ≤ m ∧ t.pmm.Filled m

theorem keepsFilled_closed : AllocClosed KeepsFilled where
  refl _ := ⟨rfl, fun n h => ⟨n, le_rfl, h⟩⟩
  trans h h' := ⟨h'.1.trans h.1, fun n hn => by
    obtain ⟨m, hm, hf⟩ := h.2 n hn
    obtain ⟨k, hk, hf'⟩ := h'.2 m hf
    exact ⟨k, hm.trans hk, hf'⟩⟩
  allocFrame s := ⟨by
    rcases s.pmm.allocBlock_cases with h | ⟨f, -, -, h⟩
    · exact congrArg (fun r => r.1.maxBlocks) h
    · exact h.maxBlocks, fun _ h => h.allocBlock⟩
  setPage _ _ _ := ⟨rfl, fun n h => ⟨n, le_rfl, h⟩⟩
  setWord _ _ _ _ := ⟨rfl, fun n h => ⟨n, le_rfl, h⟩⟩

theorem sameSegments_closed : AllocClosed fun s t => t.shmSegments = s.shmSegments where
  refl _ := rfl
  trans h h' := h'.trans h
  allocFrame _ := rfl
  setPage _ _ _ := rfl
  setWord _ _ _ _ := rfl

structure TwoProcesses (s : System) (a b : Nat) : Prop where
  reachable : System.Runs (fun _ _ => True) (System.booted bootImage bootVm) s
  dirs : s.dirs = [b, a]
  active : s.vm.cr3 = a
  process : s.vm.currentProcess = some a
  layout : Layout s.vm s.dirs
  distinct : s.vm.kernelDirectory ≠ a ∧ s.vm.kernelDirectory ≠ b ∧ a ≠ b
  canAlloc : s.vm.pmm.CanAlloc 31000
  entries : ∀ d ∈ s.dirs, ∀ i < 1024, s.vm.ram d i =
    if present (s.vm.ram s.vm.kernelDirectory i) then s.vm.ram s.vm.kernelDirectory i else 0
  linear : ∀ j < 128, present (s.vm.ram s.vm.kernelDirectory j) = true ∧
    s.vm.ram (frameOf (s.vm.ram s.vm.kernelDirectory j)) = linearTable bootImage j
  upper : ∀ j < 128, s.vm.ram s.vm.kernelDirectory (768 + j) = s.vm.ram s.vm.kernelDirectory j
  used : ∀ j < 128, s.vm.pmm.mmapTest (frameOf (s.vm.ram s.vm.kernelDirectory j)) = true
  flags : ∀ j < 128, entryFlags (s.vm.ram s.vm.kernelDirectory j) = 3
  absent : ∀ i < 1024, 128 ≤ i → ¬ (768 ≤ i ∧ i < 896) → i ≠ 1019 →
    present (s.vm.ram s.vm.kernelDirectory i) = false
  filled : ∃ n, 1024 ≤ n ∧ s.vm.pmm.Filled n
  maxBlocks : s.vm.pmm.maxBlocks = 32768
  dirs_lt : ∀ d ∈ s.dirs, d < 2 ^ 20
  shm : s.vm.shmSegments = bootVm.shmSegments

theorem TwoProcesses.not_free {s : System} {a b f : Nat} (h : TwoProcesses s a b) (hf : f < 1024) :
    ¬ s.vm.pmm.Free f := by
  obtain ⟨n, hn, hfill⟩ := h.filled
  rintro ⟨-, ht⟩
  rw [hfill f (by rw [h.maxBlocks]; omega)] at ht
  simp only [decide_eq_false_iff_not] at ht
  omega

theorem bootVm_processes : ∃ s a b, TwoProcesses s a b := by
  obtain ⟨t, ht, -, hcan, hl⟩ :=
    initPaging_spec (k := 31002) bootImage (bootVm_canAlloc.mono (by decide))
  obtain ⟨t₁, a, hcr₁, hfa, hl₁, ha₁, hcan₁, hent₁⟩ := pdCreate_layout hl.layout hcan
  obtain ⟨t₂, b, hcr₂, hfb, hl₂, ha₂, hcan₂, hent₂⟩ := pdCreate_layout hl₁ hcan₁
  have hk₁ := ha₁.kernelDirectory
  have hk₂ := ha₂.kernelDirectory
  have hkd₁ : t₁.ram t.kernelDirectory = t.ram t.kernelDirectory :=
    ha₁.ram_held (hl.layout.dirHeld _ (.head _)) id
  have hkd₂ : t₂.ram t.kernelDirectory = t.ram t.kernelDirectory := by
    rw [ha₂.ram_held (hk₁ ▸ hl₁.dirHeld _ List.mem_cons_self) id, hkd₁]
  have hdir : t₂.ram t₂.kernelDirectory = t.ram t.kernelDirectory := by rw [hk₂, hk₁, hkd₂]
  have hT : ∀ j < 128, t₂.ram (frameOf (t.ram t.kernelDirectory j)) =
      t.ram (frameOf (t.ram t.kernelDirectory j)) := fun j hj => by
    have hheld := hl.layout.tableHeld _ (.head _) j (by omega) (hl.lower j hj)
    rw [ha₂.ram_held (ha₁.not_free hheld) id, ha₁.ram_held hheld id]
  have hadir : a ∈ t₁.kernelDirectory :: [a] := by simp
  have hruns : ∀ {R : Vm → Vm → Prop}, AllocClosed R →
      (∀ (s : Vm) kd cur cr3, R s { s with kernelDirectory := kd, currentDirectory := cur, cr3 := cr3 }) →
        R bootVm t₂ := fun {R} hR hd => by
    have h₁ := hR.pdCreate t
    have h₂ := hR.pdCreate t₁
    rw [hcr₁] at h₁
    rw [hcr₂] at h₂
    exact hR.trans (hR.trans (ht ▸ hR.initPaging hd bootImage bootVm) h₁) h₂
  have hfilled := hruns keepsFilled_closed fun _ _ _ _ => ⟨rfl, fun n h => ⟨n, le_rfl, h⟩⟩
  let s : System := ⟨{ t₂ with currentProcess := some a, cr3 := a }, [b, a]⟩
  refine ⟨s, a, b, ?_, rfl, rfl, rfl, hl₂.switch, ⟨?_, ?_, ?_⟩, hcan₂, ?_, ?_, ?_, ?_, ?_, ?_,
    hfilled.2 1024 bootVm_filled, hfilled.1, ?_, hruns sameSegments_closed fun _ _ _ _ => rfl⟩
  · have h₀ : System.booted bootImage bootVm = ⟨t, []⟩ := by rw [System.booted, ht]
    rw [h₀]
    refine .head ⟨.pdCreate, trivial, rfl⟩ (.head ⟨.pdCreate, trivial, rfl⟩
      (.single ⟨.schedule a, trivial, ?_⟩))
    simp only [System.exec, hcr₁, hcr₂]
    rfl
  · intro he
    refine hl.layout.dirHeld _ (.head _) ?_
    rw [← hk₁, ← hk₂]
    exact he ▸ hfa
  · intro he
    refine hl₁.dirHeld _ (.head _) ?_
    rw [← hk₂]
    exact he ▸ hfb
  · rintro rfl
    exact hl₁.dirHeld a hadir hfb
  · intro d hd i hi
    rw [hdir]
    rcases List.mem_cons.mp hd with rfl | hd
    · rw [hent₂ i, hk₁, hkd₁]
      simp [hi]
    · obtain rfl := List.mem_singleton.mp hd
      rw [ha₂.ram_held (hl₁.dirHeld d hadir) id, hent₁ i]
      simp [hi]
  · intro j hj
    change present (t₂.ram t₂.kernelDirectory j) = true ∧
      t₂.ram (frameOf (t₂.ram t₂.kernelDirectory j)) = linearTable bootImage j
    rw [hdir, hT j hj]
    exact ⟨hl.lower j hj, hl.tables j hj⟩
  · intro j hj
    rw [hdir]
    exact hl.upper j hj
  · intro j hj
    rw [hdir]
    exact ha₂.used (ha₁.used (hl.used j hj))
  · intro j hj
    rw [hdir]
    exact hl.flags j hj
  · intro i hi h1 h2 h3
    rw [hdir]
    exact hl.absent i hi (by omega) (by omega) fun _ => h3
  · intro d hd
    rcases List.mem_cons.mp hd with rfl | hd
    · exact hfb.lt
    · exact List.mem_singleton.mp hd ▸ hfa.lt

end RetroOs.Kernel
