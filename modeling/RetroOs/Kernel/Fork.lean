import RetroOs.Kernel.HeapRuns
import RetroOs.Kernel.PagingClone
import RetroOs.Kernel.PmmContiguous
import RetroOs.Kernel.ProcessRing

/-! `fork_process` over the whole machine: the clone of the address space, the memory for the child's
record and kernel stack, and the words the child starts from. -/
namespace RetroOs.Kernel
open Lib Memory ProcessTable

/-- The frames `kmalloc` hands out through the linear map, 16 MB to 272 MB. They are not marked used. -/
abbrev HeapFrame (f : Nat) : Prop := 4096 ≤ f ∧ f < 69632

/-- What the kernel reads at its own addresses: in the heap the words of the frames, elsewhere `mem`. -/
def kernelMemory (ram : Ram) (mem : Memory) : Memory := fun a =>
  let phys := a - 0xC0000000
  if HeapFrame (phys / 4096) then
    UInt8.ofNat ((ram (phys / 4096) (phys % 4096 / 4)).toNat / 256 ^ (phys % 4))
  else mem a

/-- The frames after writes at kernel addresses. -/
def Ram.withHeap (ram : Ram) (m : Memory) : Ram := fun f i =>
  if HeapFrame f ∧ i < 1024 then BitVec.ofNat 32 (m.load32 (0xC0000000 + 4096 * f + 4 * i)) else ram f i

/-- `mem` is the kernel's memory but for the heap, whose bytes are in the frames of `vm`. -/
structure Machine where
  vm : Vm
  heap : Heap
  mem : Memory
  table : ProcessTable

def sizeofProcess : Nat := 1808

/-- The child's kernel stack from the top down. It resumes at `fork_child_return` with `eax` zero. -/
def forkFrame (regs : Registers) (forkChildReturn : Word) : List Word :=
  [regs.ss, regs.useresp, regs.eflags ||| 0x200, regs.cs, regs.eip, regs.errCode, regs.intNo, 0, regs.ecx,
    regs.edx, regs.ebx, regs.esp, regs.ebp, regs.esi, regs.edi, regs.ds, forkChildReturn, 0, 0, 0, 0, 0x202]

def pushWords (m : Memory) (top : Nat) : List Word → Memory
  | [] => m
  | w :: ws => pushWords (m.store32 (top - 4) w.toNat) (top - 4) ws

def fork (s : Machine) (regs : Registers) (forkChildReturn : Word) : Option (Machine × Int) :=
  let (vm, newPd) := pdClone s.vm s.table.current.pageDirectory
  if newPd = 0 then some ({ s with vm := vm }, -1)
  else
    (kmallocReal s.heap (kernelMemory vm.ram s.mem) sizeofProcess 0 none).bind fun (h, m, child) =>
      (kmallocReal h m 4096 0 none).map fun (h, m, childKstack) =>
        let (table, pid) := s.table.forkProcess newPd child childKstack
        let m := pushWords m (childKstack + 4096) (forkFrame regs forkChildReturn)
        (⟨{ vm with ram := vm.ram.withHeap m }, h, m, table⟩, pid)

/-- The first call of `kmalloc` in `fork_process` and the second both give memory. -/
def RoomForChild (s : Machine) : Prop :=
  ∃ h m child h' m' childKstack,
    kmallocReal s.heap (kernelMemory s.vm.ram s.mem) sizeofProcess 0 none = some (h, m, child) ∧ child ≠ 0 ∧
    kmallocReal h m 4096 0 none = some (h', m', childKstack) ∧ childKstack ≠ 0

/-- A child, with a record and a kernel stack of its own, comes after its parent in the ring and has
a copy of each page below the kernel's half; its pid is the result. -/
def Forked (s t : Machine) (result : Int) : Prop :=
  ∃ child, child ≠ 0 ∧ t.table.next s.table.currentProcess = child ∧ (t.table.procs child).kernelStackTop ≠ 4096 ∧
    result = (t.table.procs child).id.toInt ∧
    ∀ virt, pdIndex virt < 768 →
      PageCloned s.vm t.vm s.table.current.pageDirectory (t.table.procs child).pageDirectory virt

/-- The call failed and left everything as it was. -/
def Unforked (s t : Machine) (result : Int) : Prop :=
  result = -1 ∧ t.vm.pmm = s.vm.pmm ∧ t.vm.ram = s.vm.ram ∧ t.table = s.table

variable {s : Machine} {L : HeapLayout} {live : List Allocation} {B : Books} {regs : Registers} {ret : Word}
  {t : ProcessTable} {newPd child childKstack : Nat}

private theorem forkProcess_child (hpd : newPd ≠ 0) :
    (t.forkProcess newPd child childKstack).1.next t.currentProcess = child ∧
      ((t.forkProcess newPd child childKstack).1.procs child).kernelStackTop = childKstack + 4096 ∧
      ((t.forkProcess newPd child childKstack).1.procs child).pageDirectory = newPd ∧
      (t.forkProcess newPd child childKstack).2 = ((t.forkProcess newPd child childKstack).1.procs child).id.toInt ∧
      (t.forkProcess newPd child childKstack).1 ≠ t := by
  simp only [forkProcess, if_neg hpd]
  rw [shareFiles_eq]
  generalize hu : ({ t with nextPid := t.nextPid + 1, files := _ } : ProcessTable) = u
  have hcur : u.currentProcess = t.currentProcess := hu ▸ rfl
  refine ⟨?_, ?_, ?_, ?_, fun he => ?_⟩
  · rw [← hcur, link]
    exact setNext_next ..
  · exact link_self_field Process.kernelStackTop (fun _ _ => rfl) _
  · exact link_self_field Process.pageDirectory (fun _ _ => rfl) _
  · refine congrArg BitVec.toInt (Eq.symm ?_)
    exact link_self_field Process.id (fun _ _ => rfl) _
  · have hpid : t.nextPid + 1 = t.nextPid := by
      have hn := congrArg nextPid he
      rw [← hu] at hn
      exact hn
    exact absurd (BitVec.add_right_eq_self.mp hpid) (by decide)

/-- Frames a clone of the parent's address space takes: the directory, and each own table and its pages. -/
def framesNeeded (s : Machine) : Nat :=
  (dirFrames s.vm.ram s.vm.kernelDirectory s.table.current.pageDirectory 768).length + 1

/-- What `fork_process` relies on: the first 8 MB are not handed out, the directories, tables and pages read
are in use and mapped wherever the kernel's directory maps, and neither the kernel's tables nor the lowest
free frames, which the clone takes, are the heap's. -/
structure ForkReady (s : Machine) : Prop where
  reserved : ∀ f < 2048, ¬ s.vm.pmm.Free f
  source : CloneSource s.vm s.table.current.pageDirectory
  pages : PagesHeld s.vm s.table.current.pageDirectory
  kernel : ∀ i < 768, present (s.vm.ram s.vm.kernelDirectory i) = true →
    present (s.vm.ram s.table.current.pageDirectory i) = true
  tables : ∀ i < 768, present (s.vm.ram s.vm.kernelDirectory i) = true →
    ¬ HeapFrame (frameOf (s.vm.ram s.vm.kernelDirectory i))
  heap : ∀ f, HeapFrame f → s.vm.pmm.Free f → framesNeeded s ≤ (s.vm.pmm.freeFrames.filter (· < f)).card

/-- Every frame taken from `s` to `t` is lower than all those left. -/
private structure TakesLowest (s t : Vm) : Prop where
  free : ∀ f, t.pmm.Free f → s.pmm.Free f
  lower : ∀ f g, s.pmm.Free f → ¬ t.pmm.Free f → t.pmm.Free g → f < g

private theorem TakesLowest.allocFrame {s t : Vm} (h : TakesLowest s t) : TakesLowest s t.allocFrame.1 := by
  obtain ⟨hsub, hlow⟩ := h
  rcases t.pmm.allocBlock_cases with he | ⟨x, hx, -, hg⟩
  · have hsame : t.allocFrame.1.pmm = t.pmm := congrArg Prod.fst he
    exact ⟨by rwa [hsame], by rwa [hsame]⟩
  · refine ⟨fun f hf => hsub f (hg.free_iff.mp hf).1, fun f g hf hnf hfree => ?_⟩
    obtain ⟨htg, hgx⟩ := hg.free_iff.mp hfree
    by_cases htf : t.pmm.Free f
    · obtain rfl : f = x := by
        by_contra hne
        exact hnf (hg.free_iff.mpr ⟨htf, by simpa using hne⟩)
      refine lt_of_le_of_ne (not_lt.mp fun hlt => ?_) fun he => hgx (by simp [he])
      exact absurd (Pmm.mmapFirstFree_first hx hlt) (by simp [htg.2])
    · exact hlow f g hf htf htg

private theorem TakesLowest.setPage {s t : Vm} (h : TakesLowest s t) (f : Nat) (page : Nat → Word) :
    TakesLowest s (t.setPage f page) := ⟨h.free, h.lower⟩

private theorem TakesLowest.setWord {s t : Vm} (h : TakesLowest s t) (f i : Nat) (w : Word) :
    TakesLowest s (t.setWord f i w) := h.setPage f _

private theorem pdClone_takesLowest (v : Vm) (src : Nat) : TakesLowest v (pdClone v src).1 := by
  have htable : ∀ srcPt destPt n t, TakesLowest v t → TakesLowest v (cloneTable srcPt destPt n t) := by
    intro srcPt destPt n t ht
    refine forUpto_invariant (fun _ t => TakesLowest v t) ht fun j _ t ht => ?_
    split
    · exact (ht.allocFrame.setPage _ _).setWord _ _ _
    · exact ht
  have hstart : TakesLowest v v := ⟨fun _ => id, fun _ _ hf hnf => absurd hf hnf⟩
  have hcreate : TakesLowest v (pdCreate v).1 := by
    refine forUpto_invariant (fun _ t => TakesLowest v t) (hstart.allocFrame.setPage _ _) fun i _ t ht => ?_
    split
    · exact ht.setWord _ _ _
    · exact ht
  refine forUpto_invariant (fun _ t => TakesLowest v t) hcreate fun i _ t ht => ?_
  split
  · exact ht
  · split
    · exact ht
    · exact htable _ _ _ _ ((ht.allocFrame.setPage _ _).setWord _ _ _)

/-- The clone is outside the heap: were one of its frames there, all the lower ones would be the clone's too. -/
private theorem ForkReady.clone_apart (hv : ForkReady s) {vm : Vm} {new f : Nat} {fs : List Nat}
    (hclone : pdClone s.vm s.table.current.pageDirectory = (vm, new))
    (h : Cloning s.vm vm s.table.current.pageDirectory new 768 fs) (hf : f ∈ fs) : ¬ HeapFrame f := by
  intro hheap
  have hgrows := h.allocates.grows
  have hlow : TakesLowest s.vm vm := by
    have := pdClone_takesLowest s.vm s.table.current.pageDirectory
    rwa [hclone] at this
  have hsub : insert f (s.vm.pmm.freeFrames.filter (· < f)) ⊆ fs.toFinset := by
    refine Finset.insert_subset (List.mem_toFinset.mpr hf) fun g hg => ?_
    obtain ⟨hg, hlt⟩ := Finset.mem_filter.mp hg
    by_contra hn
    have hleft : vm.pmm.Free g := hgrows.free_iff.mpr ⟨Pmm.mem_freeFrames.mp hg, fun hm => hn (List.mem_toFinset.mpr hm)⟩
    exact hlt.not_gt (hlow.lower f g (hgrows.free f hf) (h.allocates.not_free_new hf) hleft)
  have hcard := Finset.card_le_card hsub
  rw [Finset.card_insert_of_notMem (by simp), List.toFinset_card_of_nodup hgrows.nodup,
    h.length_frames hv.source.kernel] at hcard
  exact absurd (hv.heap f hheap (hgrows.free f hf)) (not_le.mpr hcard)

private theorem kernelMemory_congr {ram ram' : Ram} {mem : Memory} (h : ∀ f, HeapFrame f → ram' f = ram f) :
    kernelMemory ram' mem = kernelMemory ram mem := by
  funext a
  simp only [kernelMemory]
  split
  · next hf => rw [h _ hf]
  · rfl

theorem Ram.withHeap_other {ram : Ram} {m : Memory} {f : Nat} (hf : ¬ HeapFrame f) : ram.withHeap m f = ram f :=
  funext fun _ => if_neg fun h => hf h.1

private theorem kernelMemory_withHeap (ram : Ram) (m : Memory) : kernelMemory (ram.withHeap m) m = m := by
  funext a
  simp only [kernelMemory]
  generalize hp : a - 0xC0000000 = p
  split
  · next hf =>
    have ha : 0xC0000000 + 4096 * (p / 4096) + 4 * (p % 4096 / 4) + p % 4 = a := by omega
    have hword : p % 4096 / 4 < 1024 := by omega
    rw [Ram.withHeap, if_pos ⟨hf, hword⟩, BitVec.toNat_ofNat, Nat.mod_eq_of_lt (load32_lt ..),
      load32_byte m _ (Nat.mod_lt p (by decide)), ha]
  · rfl

private theorem kmalloc_returns {st : HeapState} (h : Represents L st B) (size : Nat) (hs : size ≤ 2 ^ 27) :
    ∃ h' m p live' B', kmallocReal st.heap st.mem size 0 none = some (h', m, p) ∧ Represents L ⟨h', m, live'⟩ B' := by
  obtain ⟨b, m, p, B', hcall, -, hr⟩ := h.kmalloc 0 ((requiredSize_le 0 hs).trans (by decide)) none (by simp)
  exact ⟨_, m, p, _, B', hcall, hr⟩

/-- With frames for the whole clone, `fork_process` returns, and it either makes the child or fails
without a trace exactly if the heap has room for the record and the kernel stack. -/
theorem fork_creates_iff (hv : ForkReady s) (hc : s.vm.pmm.CanAlloc (framesNeeded s))
    (hh : Represents L ⟨s.heap, kernelMemory s.vm.ram s.mem, live⟩ B) :
    ∃ t result, fork s regs ret = some (t, result) ∧ (Forked s t result ∨ Unforked s t result ↔ RoomForChild s) := by
  obtain ⟨vm, new, fs, hclone, hcl, -⟩ := pdClone_spec (k := 0) hv.source hc
  have hfree : s.vm.pmm.Free new := hcl.allocates.grows.free _ hcl.new_mem
  have hnew : new ≠ 0 := fun h0 => hv.reserved 0 (by decide) (h0 ▸ hfree)
  have hapart : ∀ f ∈ fs, ¬ HeapFrame f := fun f hf => hv.clone_apart hclone hcl hf
  have hmem : kernelMemory vm.ram s.mem = kernelMemory s.vm.ram s.mem :=
    kernelMemory_congr fun f hf => hcl.allocates.ram f (fun hm => hapart f hm hf) id
  obtain ⟨h₁, m₁, child, live₁, B₁, hk₁, hr₁⟩ := kmalloc_returns hh sizeofProcess (by decide)
  obtain ⟨h₂, m₂, kstack, live₂, B₂, hk₂, hr₂⟩ := kmalloc_returns hr₁ 4096 (by decide)
  obtain ⟨hnext, hstack, hdir, hpid, hne⟩ :=
    @forkProcess_child s.table new child kstack hnew
  have hfork : fork s regs ret = some (⟨{ vm with ram := vm.ram.withHeap (pushWords m₂ (kstack + 4096) (forkFrame regs ret)) },
      h₂, pushWords m₂ (kstack + 4096) (forkFrame regs ret), (s.table.forkProcess new child kstack).1⟩,
      (s.table.forkProcess new child kstack).2) := by
    rw [fork, hclone]
    simp only [if_neg hnew, hmem]
    rw [hk₁, Option.bind_some, hk₂, Option.map_some]
  refine ⟨_, _, hfork, fun hout => ?_, fun hroom => ?_⟩
  · rcases hout with ⟨c, hc0, hcn, hcs, -⟩ | ⟨-, -, -, htable⟩
    · obtain rfl : child = c := hnext.symm.trans hcn
      refine ⟨h₁, m₁, child, h₂, m₂, kstack, hk₁, hc0, hk₂, fun h0 => hcs ?_⟩
      exact hstack.trans (by rw [h0])
    · exact absurd htable hne
  · obtain ⟨h, m, c, h', m', k, hkc, hc0, hkk, hk0⟩ := hroom
    obtain ⟨rfl, rfl, rfl⟩ : h = h₁ ∧ m = m₁ ∧ c = child := by simpa using hkc.symm.trans hk₁
    obtain ⟨rfl, rfl, rfl⟩ : h' = h₂ ∧ m' = m₂ ∧ k = kstack := by simpa using hkk.symm.trans hk₂
    refine Or.inl ⟨c, hc0, hnext, ?_, hpid, fun virt hvirt => ?_⟩
    · intro h0
      rw [hstack] at h0
      omega
    · simp only [hdir]
      refine hcl.pageCloned_keep hvirt (hcl.pageCloned hv.source hv.pages hv.kernel hvirt)
        (fun f hf => Ram.withHeap_other (hapart f hf)) fun i hi hp => Ram.withHeap_other (hv.tables i hi hp)

/-- The frame of the system call 9, `sys_fork`, made by a user program at 4096. -/
def userFrame : Registers where
  ds := 0x23
  edi := 0
  esi := 0
  ebp := 0
  esp := 0
  ebx := 0
  edx := 0
  ecx := 0
  eax := 9
  intNo := 0x80
  errCode := 0
  eip := 0x1000
  cs := 0x1B
  eflags := 0x202
  useresp := 0x2000
  ss := 0x23

theorem onePage_fork :
    ∃ s : Machine, s.vm.pmm = onePageVm.pmm ∧ (∀ f, ¬ HeapFrame f → s.vm.ram f = onePageVm.ram f) ∧
      s.table.current.pageDirectory = 2 ∧ ∃ t result, fork s userFrame 0x1000 = some (t, result) ∧
        (Forked s t result ∨ Unforked s t result ↔ RoomForChild s) := by
  obtain ⟨h, l, -, hr, -⟩ := heapBoot_represents kernelHeap fun _ => 0
  let s : Machine :=
    ⟨{ onePageVm with ram := onePageVm.ram.withHeap h.mem }, h.heap, h.mem,
      bootTable.setCurrent { bootTable.current with pageDirectory := 2 }⟩
  have hram : ∀ f < 5, s.vm.ram f = onePageVm.ram f := fun f hf => Ram.withHeap_other (by omega)
  have hk : s.vm.ram 1 = onePageVm.ram 1 := hram 1 (by decide)
  have hd : s.vm.ram 2 = onePageVm.ram 2 := hram 2 (by decide)
  have htable : ∀ i, s.vm.ram (frameOf (onePageVm.ram 2 i)) = onePageVm.ram (frameOf (onePageVm.ram 2 i)) := fun i => by
    refine hram _ ?_
    simp only [onePageVm]
    split_ifs <;> decide
  have hown : ∀ i, OwnEntry s.vm.ram 1 2 i → OwnEntry onePageVm.ram 1 2 i := fun i ho => by
    rwa [OwnEntry, hk, hd] at ho
  have hkernel : ∀ i, present (s.vm.ram 1 i) = true → False := fun i hp => by
    rw [hk, onePageVm_kernel_zero] at hp
    exact absurd hp (by decide)
  have hframes : framesNeeded s = (dirFrames onePageVm.ram 1 2 768).length + 1 :=
    congrArg (fun l => l.length + 1) (dirFrames_congr (fun i _ => congrFun hk i) (fun i _ => congrFun hd i)
      fun i _ _ j _ => congrFun (htable i) j)
  have hready : ForkReady s := by
    refine ⟨fun f hf hfree => ?_, ⟨onePageVm_source.kernel, onePageVm_source.source, fun i _ hp => (hkernel i hp).elim,
      fun i hi ho => ?_⟩, fun i hi ho j hj hp => ?_, fun i _ hp => (hkernel i hp).elim,
      fun i _ hp => (hkernel i hp).elim, fun f hf hfree => ?_⟩
    · have hbit := hfree.2
      rw [Pmm.mmapTest_eq, show s.vm.pmm.bitmap (f / 32) = BitVec.allOnes 32 from if_pos (by omega),
        BitVec.getLsbD_allOnes, decide_eq_true (Nat.mod_lt f (by decide))] at hbit
      exact absurd hbit (by decide)
    · change ¬ onePageVm.pmm.Free (frameOf (s.vm.ram 2 i))
      rw [hd]
      exact onePageVm_source.tables i hi (hown i ho)
    · change present (s.vm.ram (frameOf (s.vm.ram 2 i)) j) = true at hp
      change ¬ onePageVm.pmm.Free (frameOf (s.vm.ram (frameOf (s.vm.ram 2 i)) j))
      rw [hd, htable] at hp ⊢
      exact onePageVm_pages i hi (hown i ho) j hj hp
    · have hlt : f < 32 * (2112 / 32) := hfree.1
      omega
  refine ⟨s, rfl, fun f hf => Ram.withHeap_other hf, rfl, ?_⟩
  refine @fork_creates_iff s kernelHeap h.live ⟨l, [], []⟩ _ _ hready ?_ ?_
  · rw [hframes]
    exact onePageVm_canAlloc
  · rw [show kernelMemory s.vm.ram s.mem = h.mem from kernelMemory_withHeap ..]
    exact hr

/-- Nothing but frame 0 has been written, and no frame taken. -/
structure OnlyFrameZero (s t : Vm) : Prop where
  pmm : t.pmm = s.pmm
  kernelDirectory : t.kernelDirectory = s.kernelDirectory
  ram : ∀ f ≠ 0, t.ram f = s.ram f

theorem OnlyFrameZero.setPage {s t : Vm} (h : OnlyFrameZero s t) (page : Nat → Word) :
    OnlyFrameZero s (t.setPage 0 page) :=
  ⟨h.pmm, h.kernelDirectory, fun f hf => (Function.update_of_ne hf ..).trans (h.ram f hf)⟩

theorem OnlyFrameZero.setWord {s t : Vm} (h : OnlyFrameZero s t) (i : Nat) (w : Word) :
    OnlyFrameZero s (t.setWord 0 i w) := h.setPage _

theorem OnlyFrameZero.allocFrame {s t : Vm} (h : OnlyFrameZero s t) (hn : s.pmm.allocBlock = (s.pmm, 0)) :
    OnlyFrameZero s t.allocFrame.1 ∧ t.allocFrame.2 = 0 := by
  have ht : t.pmm.allocBlock = (t.pmm, 0) := by rw [h.pmm, hn]
  refine ⟨⟨?_, h.kernelDirectory, h.ram⟩, ?_⟩
  · exact (congrArg Prod.fst ht).trans h.pmm
  · exact (congrArg frameOf (congrArg Prod.snd ht)).trans (Nat.zero_div 4096)

/-- Without a free frame `pd_create` writes the kernel's entries to frame 0 and gives null. -/
theorem pdCreate_no_frame {s : Vm} (hn : s.pmm.allocBlock = (s.pmm, 0)) :
    (pdCreate s).2 = 0 ∧ OnlyFrameZero s (pdCreate s).1 ∧
      (s.kernelDirectory ≠ 0 → ∀ i < 1024, present (s.ram s.kernelDirectory i) = true →
        (pdCreate s).1.ram 0 i = s.ram s.kernelDirectory i) := by
  have h₀ : OnlyFrameZero s s := ⟨rfl, rfl, fun _ _ => rfl⟩
  obtain ⟨ha, hz⟩ := h₀.allocFrame hn
  simp only [pdCreate, hz]
  refine ⟨trivial, ?_⟩
  have hloop : ∀ n, OnlyFrameZero s (forUpto (fun i t => if present (t.ram t.kernelDirectory i) then
      t.setWord 0 i (t.ram t.kernelDirectory i) else t) n (s.allocFrame.1.setPage 0 zeroPage)) ∧
      (s.kernelDirectory ≠ 0 → ∀ i < n, present (s.ram s.kernelDirectory i) = true →
        (forUpto (fun i t => if present (t.ram t.kernelDirectory i) then
          t.setWord 0 i (t.ram t.kernelDirectory i) else t) n (s.allocFrame.1.setPage 0 zeroPage)).ram 0 i =
          s.ram s.kernelDirectory i) := by
    intro n
    refine forUpto_invariant (fun n t => OnlyFrameZero s t ∧ (s.kernelDirectory ≠ 0 → ∀ i < n,
      present (s.ram s.kernelDirectory i) = true → t.ram 0 i = s.ram s.kernelDirectory i))
      ⟨ha.setPage zeroPage, fun _ i hi => absurd hi (Nat.not_lt_zero i)⟩ fun j _ t hboth => ?_
    obtain ⟨ht, hent⟩ := hboth
    have hkd : s.kernelDirectory ≠ 0 → t.ram t.kernelDirectory = s.ram s.kernelDirectory := fun h0 => by
      rw [ht.kernelDirectory, ht.ram _ h0]
    refine ⟨?_, fun h0 i hi hp => ?_⟩
    · split
      · exact ht.setWord _ _
      · exact ht
    · rw [hkd h0]
      rcases Nat.lt_succ_iff_lt_or_eq.mp hi with hi | rfl
      · have hold := hent h0 i hi hp
        split
        · rw [Vm.setWord_ram, Ram.setWord_other hi.ne]
          exact hold
        · exact hold
      · rw [if_pos hp, Vm.setWord_ram, Ram.setWord_self]
  exact hloop 1024

private theorem cloneTables_kernel (t : Vm) (newPd n : Nat) : cloneTables t.kernelDirectory newPd n t = t := by
  refine forUpto_invariant (fun _ u => u = t) rfl fun i _ u hu => ?_
  subst hu
  split
  · rfl
  · rw [if_pos rfl]

private theorem pdClone_no_frame {s : Vm} (hn : s.pmm.allocBlock = (s.pmm, 0)) (src : Nat) :
    (pdClone s src).2 = 0 ∧ OnlyFrameZero s (pdClone s src).1 := by
  have htable : ∀ srcPt n t, OnlyFrameZero s t → OnlyFrameZero s (cloneTable srcPt 0 n t) := by
    intro srcPt n t ht
    refine forUpto_invariant (fun _ t => OnlyFrameZero s t) ht fun j _ t ht => ?_
    split
    · obtain ⟨ha, hz⟩ := ht.allocFrame hn
      simp only [hz]
      exact (ha.setPage _).setWord _ _
    · exact ht
  obtain ⟨hz, hc, -⟩ := pdCreate_no_frame hn
  refine ⟨hz, ?_⟩
  simp only [pdClone, hz]
  refine forUpto_invariant (fun _ t => OnlyFrameZero s t) hc fun i _ t ht => ?_
  split
  · exact ht
  · split
    · exact ht
    · obtain ⟨ha, hza⟩ := ht.allocFrame hn
      simp only [hza]
      exact htable _ _ _ ((ha.setPage _).setWord _ _)

private theorem pdClone_kernel_no_frame {s : Vm} (hn : s.pmm.allocBlock = (s.pmm, 0)) (h0 : s.kernelDirectory ≠ 0)
    {i : Nat} (hi : i < 1024) (hp : present (s.ram s.kernelDirectory i) = true) :
    (pdClone s s.kernelDirectory).1.ram 0 i = s.ram s.kernelDirectory i := by
  obtain ⟨-, ho, hent⟩ := pdCreate_no_frame hn
  cases hcreate : pdCreate s with
  | mk t newPd =>
    rw [hcreate] at ho hent
    have hclone : pdClone s s.kernelDirectory = (t, newPd) := by
      rw [pdClone, hcreate, ← ho.kernelDirectory]
      exact congrArg (·, newPd) (cloneTables_kernel t newPd _)
    rw [hclone]
    exact hent h0 i hi hp

variable (regs ret) in
/-- So `fork_process` reports failure, having written to frame 0 alone. -/
theorem fork_no_frame (hn : s.vm.pmm.allocBlock = (s.vm.pmm, 0)) :
    ∃ vm, pdClone s.vm s.table.current.pageDirectory = (vm, 0) ∧ OnlyFrameZero s.vm vm ∧
      fork s regs ret = some ({ s with vm := vm }, -1) := by
  obtain ⟨hz, ho⟩ := pdClone_no_frame hn s.table.current.pageDirectory
  cases hclone : pdClone s.vm s.table.current.pageDirectory with
  | mk vm newPd =>
    rw [hclone] at hz ho
    obtain rfl : newPd = 0 := hz
    refine ⟨vm, rfl, ho, ?_⟩
    rw [fork, hclone]
    rfl

/-- 32 frames, all in use; the kernel's directory in frame 1 maps the first table. -/
def fullVm : Vm where
  pmm := ⟨fun _ => 0xFFFFFFFF, 32, 32, by decide⟩
  ram f i := if f = 1 ∧ i = 0 then 0x2003 else 0
  kernelDirectory := 1
  currentDirectory := some 1
  cr3 := 1
  currentProcess := some 1
  shmSegments _ := ⟨0, 0, 0, 0, 0, false⟩

def fullMachine : Machine where
  vm := fullVm
  heap := ⟨0, 0, ⟨0, 0, fun _ => 0⟩, false, 0⟩
  mem _ := 0
  table := bootTable

theorem fork_overwrites_frame_zero :
    ∃ t, fork fullMachine userFrame 0x1000 = some (t, -1) ∧ t.vm.ram 0 0 = 0x2003 ∧ fullMachine.vm.ram 0 0 = 0 ∧
      ¬ Forked fullMachine t (-1) ∧ ¬ Unforked fullMachine t (-1) := by
  have hn : fullMachine.vm.pmm.allocBlock = (fullMachine.vm.pmm, 0) := by
    rw [Pmm.allocBlock, if_pos (by decide)]
  obtain ⟨vm, hclone, -, hfork⟩ := fork_no_frame userFrame 0x1000 hn
  have hram : vm.ram 0 0 = 0x2003 := by
    have hent := pdClone_kernel_no_frame (s := fullMachine.vm) hn (by decide) (i := 0) (by decide) (by decide)
    have hpd : fullMachine.table.current.pageDirectory = fullMachine.vm.kernelDirectory := rfl
    rw [← hpd, hclone] at hent
    exact hent
  refine ⟨_, hfork, hram, rfl, ?_, fun h => ?_⟩
  · rintro ⟨child, -, hnext, -, hpid, -⟩
    have hid : (bootTable.procs (bootTable.next 0xC1001000)).id.toInt = 0 := by decide
    rw [← hnext] at hpid
    exact absurd (hpid.trans hid) (by decide)
  · have h0 : vm.ram 0 0 = fullMachine.vm.ram 0 0 := congrFun (congrFun h.2.2.1 0) 0
    rw [hram] at h0
    exact absurd h0 (by decide)

end RetroOs.Kernel
