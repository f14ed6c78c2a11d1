import RetroOs.Kernel.PagingClear
import RetroOs.Kernel.Fork
import RetroOs.Kernel.UserMemory
import RetroOs.Kernel.UserPointers

/-! `exec_process` with the two loaders: the user half of the address space is cleared before the path is
looked up, and a program is laid out in what is left. -/
namespace RetroOs.Kernel.Exec
open Lib UserMemory List Option CString

/-! ### Memory as the kernel reaches it -/

def vmGetPhys (s : Vm) (virt : Word) : Word :=
  if !present (s.ram s.cr3 (pdIndex virt)) then 0
  else
    let pt := frameOf (s.ram s.cr3 (pdIndex virt))
    if !present (s.ram pt (ptIndex virt)) then 0
    else entryAddr (s.ram pt (ptIndex virt)) + entryFlags virt

def setByte (w : Word) (b : Nat) (v : UInt8) : Word := clearByte w b ||| BitVec.ofNat 32 v.toNat <<< (8 * b)

/-- The frame an access that needs these rights reaches without a fault. -/
def reach (allowed : Translation → Bool) (s : Vm) (addr : Word) : Option Nat :=
  (translate s.ram s.cr3 addr).bind fun x => if allowed x then some x.frame else none

/-- An access by the kernel, with a page fault where the processor needs one. The kernel hangs in
`page_fault_handler` where no page can be mapped, and faults for ever where that does not help. -/
def access (allowed : Translation → Bool) (s : Vm) (addr : Word) : Option (Vm × Nat) :=
  match reach allowed s addr with
  | some frame => some (s, frame)
  | none =>
    let (s, handled) := handleDemandPaging s addr
    if handled then (reach allowed s addr).map fun frame => (s, frame) else none

def storeByte (s : Vm) (addr : Word) (v : UInt8) : Option Vm :=
  (access writable s addr).map fun (s, frame) =>
    let offset := (entryFlags addr).toNat
    s.setWord frame (offset / 4) (setByte (s.ram frame (offset / 4)) (offset % 4) v)

/-- A read whose value goes to the log alone. -/
def touchByte (s : Vm) (addr : Word) : Option Vm := (access (fun _ => true) s addr).map (·.1)

/-- `memcpy` and `memset`: the count is taken as unsigned. -/
def storeBytes (addr : Word) (bytes : Word → UInt8) (count : Word) (s : Vm) : Option Vm :=
  (List.range count.toNat).foldlM (fun s i => storeByte s (addr + BitVec.ofNat 32 i) (bytes (BitVec.ofNat 32 i))) s

def storeWord (addr w : Word) (s : Vm) : Option Vm :=
  storeBytes addr (fun i => UInt8.ofNat (w >>> (8 * i.toNat)).toNat) 4 s

/-! ### What both loaders do -/

/-- The pages from one address up to another, none where the first is not below. -/
def pagesBetween (startAddr endAddr : Word) : List Word :=
  let startPage := entryAddr startAddr
  let endPage := entryAddr (endAddr + 0xFFF)
  if startPage < endPage then pagesFrom startPage ((endPage - startPage).toNat / 4096) else []

def mapPages (s : Vm) : List Word → Vm × Bool
  | [] => (s, true)
  | page :: rest =>
    if vmGetPhys s page = 0 then
      let (s, phys) := s.allocFrame
      if phys = 0 then (s, false) else mapPages (vmMapPage s (frameAddr phys) page 7) rest
    else mapPages s rest

/-- A part of the program: where it goes, how long it is there and in the file, and where it is in the file. -/
structure Segment where
  vaddr : Word
  memsz : Word
  filesz : Word
  offset : Word

/-- What a loader left: the address space, the end of what was loaded, and false where memory ran out. -/
structure Loaded where
  vm : Vm
  maxAddr : Word
  ok : Bool

def Segment.raise (g : Segment) (maxAddr : Word) : Word :=
  if g.vaddr + g.memsz > maxAddr then g.vaddr + g.memsz else maxAddr

def loadAll (load : Segment → Vm → Option (Vm × Bool)) : List Segment → Vm → Word → Option Loaded
  | [], s, maxAddr => some ⟨s, maxAddr, true⟩
  | g :: rest, s, maxAddr =>
    (load g s).bind fun (s, ok) => if ok then loadAll load rest s (g.raise maxAddr) else some ⟨s, maxAddr, false⟩

/-- A file as the calls find it: its first four bytes, and the loader's buffer with what lies behind it. -/
structure ProgramFile where
  magic : Nat → UInt8
  buffer : Memory

def ptLoad : Word := 1

/-! ### `load_elf` -/

namespace Elf

def halfWord (buffer : Memory) (at' : Word) : Nat := (from32 buffer at' 0).toNat + 256 * (from32 buffer at' 1).toNat

def isMagic (bytes : Nat → UInt8) : Bool :=
  bytes 0 == 0x7F && bytes 1 == 0x45 && bytes 2 == 0x4C && bytes 3 == 0x46

def eEntry (buffer : Memory) : Word := loadWord buffer 24

def ePhoff (buffer : Memory) : Word := loadWord buffer 28

def ePhnum (buffer : Memory) : Nat := halfWord buffer 44

/-- Where program header `i` is. -/
def phdr (buffer : Memory) (i : Nat) : Word := ePhoff buffer + BitVec.ofNat 32 (32 * i)

def pType (buffer : Memory) (i : Nat) : Word := loadWord buffer (phdr buffer i)

def segment (buffer : Memory) (i : Nat) : Segment where
  offset := loadWord buffer (phdr buffer i + 4)
  vaddr := loadWord buffer (phdr buffer i + 8)
  filesz := loadWord buffer (phdr buffer i + 16)
  memsz := loadWord buffer (phdr buffer i + 20)

def segments (buffer : Memory) : List Segment :=
  ((range (ePhnum buffer)).filter fun i => pType buffer i == ptLoad).map (segment buffer)

/-- The first bytes of the program go to the log, if they are in the segment. -/
def verifyEntry (entryPoint : Word) (g : Segment) (s : Vm) : Option Vm :=
  if g.vaddr ≤ entryPoint ∧ entryPoint < g.vaddr + g.memsz then
    (List.range 4).foldlM (fun s i => touchByte s (entryPoint + BitVec.ofNat 32 i)) s
  else some s

def loadSegment (buffer : Memory) (g : Segment) (s : Vm) : Option (Vm × Bool) :=
  match mapPages s (pagesBetween g.vaddr (g.vaddr + g.memsz)) with
  | (s, false) => some (s, false)
  | (s, true) => do
    let s ← storeBytes g.vaddr (fun i => buffer (g.offset + i).toNat) g.filesz s
    let s ← verifyEntry (eEntry buffer) g s
    let s ← if g.memsz > g.filesz then storeBytes (g.vaddr + g.filesz) (fun _ => 0) (g.memsz - g.filesz) s else some s
    some (s, true)

end Elf

/-- The result is the entry point, 0 where nothing can run, and the end of the program. -/
def loadElf (file : ProgramFile) (s : Vm) : Option (Vm × Word × Word) :=
  if !Elf.isMagic file.buffer then some (s, 0, 0)
  else
    (loadAll (Elf.loadSegment file.buffer) (Elf.segments file.buffer) s 0).map fun l =>
      if l.ok then (l.vm, Elf.eEntry file.buffer, entryAddr (l.maxAddr + 0xFFF)) else (l.vm, 0, 0)

/-! ### `load_pe` -/

/-- A descriptor of the import table: the name of the library, where the addresses go, and the thunks that
say which. -/
structure PeImport where
  dllName : CString
  firstThunk : Word
  thunks : List Word

/-- `pe.h` is not among the sources, so how the headers lie in a file is a parameter, with the constants. -/
structure PeFormat where
  mzMagic : Memory → Bool
  peMagic : Memory → Bool
  imageBase : Memory → Word
  addressOfEntryPoint : Memory → Word
  sections : Memory → List Segment
  importSize : Memory → Word
  imports : Memory → List PeImport

/-- The functions a program can import. -/
structure WinApi where
  exitProcess : Word
  writeConsole : Word

namespace Pe

def resolveImport (api : WinApi) (dll func : CString) : Word :=
  if dll = ofString "kernel32.dll" ∨ dll = ofString "KERNEL32.dll" then
    if func = ofString "ExitProcess" then api.exitProcess
    else if func = ofString "WriteConsoleA" then api.writeConsole
    else 0
  else 0

def loadSection (buffer : Memory) (g : Segment) (s : Vm) : Option (Vm × Bool) :=
  match mapPages s (pagesBetween g.vaddr (g.vaddr + g.memsz)) with
  | (s, false) => some (s, false)
  | (s, true) => do
    let s ← if g.filesz > 0 then storeBytes g.vaddr (fun i => buffer (g.offset + i).toNat) g.filesz s else some s
    let s ← if g.memsz > g.filesz then storeBytes (g.vaddr + g.filesz) (fun _ => 0) (g.memsz - g.filesz) s else some s
    some (s, true)

/-- The sections with the addresses they go to. -/
def sections (format : PeFormat) (buffer : Memory) : List Segment :=
  (format.sections buffer).map fun g => { g with vaddr := format.imageBase buffer + g.vaddr }

/-- The inner loop over the thunks of a descriptor. -/
def resolveThunks (api : WinApi) (buffer : Memory) (dll : CString) : Word → List Word → Vm → Option Vm
  | _, [], s => some s
  | thunk, w :: rest, s => do
    let addr := resolveImport api dll (userString buffer (w + 2))
    let s ← if w &&& 0x80000000 = 0 ∧ addr ≠ 0 then storeWord thunk addr s else some s
    resolveThunks api buffer dll (thunk + 4) rest s

def resolveImports (api : WinApi) (format : PeFormat) (buffer : Memory) (s : Vm) : Option Vm :=
  if format.importSize buffer > 0 then
    (format.imports buffer).foldlM (fun s d =>
      resolveThunks api buffer d.dllName (format.imageBase buffer + d.firstThunk) d.thunks s) s
  else some s

end Pe

def loadPe (api : WinApi) (format : PeFormat) (file : ProgramFile) (s : Vm) : Option (Vm × Word × Word) :=
  if !format.mzMagic file.buffer then some (s, 0, 0)
  else if !format.peMagic file.buffer then some (s, 0, 0)
  else do
    let l ← loadAll (Pe.loadSection file.buffer) (Pe.sections format file.buffer) s 0
    if l.ok then
      let s ← Pe.resolveImports api format file.buffer l.vm
      some (s, format.imageBase file.buffer + format.addressOfEntryPoint file.buffer, entryAddr (l.maxAddr + 0xFFF))
    else some (l.vm, 0, 0)

/-! ### The call -/

/-- What `exec_process` finds around it: what paths lead to, how the headers of the second format lie, and
what a program can import. -/
structure Env where
  resolve : CString → Option ProgramFile
  format : PeFormat
  api : WinApi

structure Caller where
  vm : Vm
  table : ProcessTable
  regs : Registers

def load (env : Env) (path : CString) (s : Vm) : Option (Vm × Word × Word) :=
  match env.resolve path with
  | none => some (s, 0, 0)
  | some file =>
    if Elf.isMagic file.magic then loadElf file s
    else if file.magic 0 == 0x4D && file.magic 1 == 0x5A then loadPe env.api env.format file s
    else some (s, 0, 0)

def userStackVirt : Word := 0xB0000000

def mapStackPage (s : Vm) (virt : Word) : Vm :=
  let (s, phys) := s.allocFrame
  vmMapPage s (frameAddr phys) virt 7

/-- No path is a null pointer; the result is `none` where the kernel never returns. -/
def execProcess (env : Env) (c : Caller) : Option CString → Option (Caller × Int)
  | none => some (c, -1)
  | some path =>
    let kernelPath := path.take 255
    (load env kernelPath (vmClearUserMappings c.vm)).map fun (s, entry, topAddr) =>
      if entry = 0 then ({ c with vm := s }, -1)
      else
        let s := mapStackPage (mapStackPage (mapStackPage s userStackVirt) (userStackVirt - 0x1000)) (userStackVirt + 0x1000)
        ({ vm := s
           table := (c.table.execProcess entry topAddr).1
           regs := { c.regs with eip := entry, useresp := 0xB0001000 } }, 0)


/-! ### What a failed call keeps -/

/-- A page the program itself can use. -/
structure UserMapped (s : Vm) (virt : Word) (x : Translation) : Prop where
  user : virt < kernelVirtualBase
  page : translate s.ram s.cr3 virt = some x
  flags : x.flags &&& 4 ≠ 0
  tableFlags : x.tableFlags &&& 4 ≠ 0

/-- The user mappings of one address space are those of another, with the same contents. -/
structure SpaceKept (s t : Vm) : Prop where
  page : ∀ virt x, UserMapped s virt x → translate t.ram t.cr3 virt = some x
  words : ∀ virt x, UserMapped s virt x → ∀ i < 1024, t.ram x.frame i = s.ram x.frame i

/-- The caller can go on: its mappings and their contents, the fields of its process and its registers. -/
structure Kept (c d : Caller) : Prop where
  space : SpaceKept c.vm d.vm
  table : d.table = c.table
  regs : d.regs = c.regs

/-- `vm_clear_user_mappings` zeroes no word that a user mapping is found through or that it holds. So none goes
through the entries from 256 on. -/
def ClearSpares (s : Vm) : Prop := ∀ virt x, UserMapped s virt x →
  ¬ Cleared s s.cr3 (pdIndex virt) ∧ ¬ Cleared s (frameOf (s.ram s.cr3 (pdIndex virt))) (ptIndex virt) ∧
    ∀ i < 1024, ¬ Cleared s x.frame i

/-- Nothing is mapped, copied or zeroed for a segment. -/
structure Segment.Empty (g : Segment) : Prop where
  pages : pagesBetween g.vaddr (g.vaddr + g.memsz) = []
  memsz : g.memsz = 0
  filesz : g.filesz = 0

def Pe.NoImports (api : WinApi) (format : PeFormat) (buffer : Memory) : Prop :=
  format.importSize buffer > 0 → ∀ d ∈ format.imports buffer, ∀ w ∈ d.thunks,
    ¬ (w &&& 0x80000000 = 0 ∧ resolveImport api d.dllName (userString buffer (w + 2)) ≠ 0)

def LoadsNothing (env : Env) (path : CString) : Prop :=
  ∀ file, env.resolve path = some file →
    if Elf.isMagic file.magic then
      Elf.isMagic file.buffer = true → ∀ g ∈ Elf.segments file.buffer, g.Empty
    else if file.magic 0 == 0x4D && file.magic 1 == 0x5A then
      env.format.mzMagic file.buffer = true → env.format.peMagic file.buffer = true →
        (∀ g ∈ Pe.sections env.format file.buffer, g.Empty) ∧ Pe.NoImports env.api env.format file.buffer
    else True

variable {s t : Vm} {env : Env} {c d : Caller} {path : CString} {virt : Word} {x : Translation} {api : WinApi}
  {file : ProgramFile}

theorem UserMapped.present (h : UserMapped s virt x) : Kernel.present (s.ram s.cr3 (pdIndex virt)) = true ∧
    Kernel.present (s.ram (frameOf (s.ram s.cr3 (pdIndex virt))) (ptIndex virt)) = true ∧
    x.frame = frameOf (s.ram (frameOf (s.ram s.cr3 (pdIndex virt))) (ptIndex virt)) := by
  have hx := h.page
  simp only [translate, Bool.and_eq_true] at hx
  split at hx
  · rename_i hp
    cases hx
    exact ⟨hp.1, hp.2, rfl⟩
  · cases hx

private theorem cleared_ne {f i : Nat} (h : Cleared s f i) (hz : t.ram f i = 0) : t.ram f i ≠ s.ram f i := fun he => by
  have hp := h.1
  rw [← he, hz] at hp
  exact absurd hp (by decide)

private theorem clear_keeps_iff (h : ClearedTo 768 s t) : SpaceKept s t ↔ ClearSpares s := by
  have hsame : ∀ {f i}, ¬ Cleared s f i → t.ram f i = s.ram f i := fun hn =>
    (h.word _ _).elim id fun hz => absurd hz.2 hn
  constructor
  · intro hk virt x hx
    obtain ⟨hpd, hpt, hf⟩ := hx.present
    have htr := hk.page virt x hx
    rcases h.done with hb | ⟨-, hz⟩
    · rw [translate, h.cr3, hb _ (pdIndex_lt _)] at htr
      cases htr
    have hd : ¬ Cleared s s.cr3 (pdIndex virt) := fun hc => by
      rw [translate, h.cr3, hz _ _ hc] at htr
      cases htr
    refine ⟨hd, fun hc => ?_, fun i hi hc => cleared_ne hc (hz _ _ hc) (hk.words virt x hx i hi)⟩
    have hgone : Kernel.present (t.ram (frameOf (s.ram s.cr3 (pdIndex virt))) (ptIndex virt)) = false := by
      rw [hz _ _ hc]
      exact present_zero
    rw [translate, h.cr3, hsame hd, hgone, Bool.and_false] at htr
    cases htr
  · intro hs
    refine ⟨fun virt x hx => ?_, fun virt x hx i hi => hsame ((hs virt x hx).2.2 i hi)⟩
    obtain ⟨hd, hp, -⟩ := hs virt x hx
    rw [← hx.page, translate, translate, h.cr3, hsame hd, hsame hp]

private theorem storeBytes_zero {addr : Word} {bytes : Word → UInt8} : storeBytes addr bytes 0 s = some s := rfl

namespace Segment.Empty
variable {g : Segment} (h : g.Empty) (buffer : Memory)
include h

theorem mapPages (s : Vm) : Exec.mapPages s (pagesBetween g.vaddr (g.vaddr + g.memsz)) = (s, true) := by
  rw [h.pages]
  rfl

private theorem not_entry (entry : Word) : ¬ (g.vaddr ≤ entry ∧ entry < g.vaddr + g.memsz) := by
  rw [h.memsz, show g.vaddr + 0 = g.vaddr by simp]
  exact fun ⟨hle, hlt⟩ => BitVec.not_lt.mpr hle hlt

theorem loadSegment : Elf.loadSegment buffer g s = some (s, true) := by
  rw [Elf.loadSegment, h.mapPages]
  have hv : ∀ entry, Elf.verifyEntry entry g s = some s := fun entry => if_neg (h.not_entry entry)
  simp only [h.filesz, h.memsz, storeBytes_zero, bind_eq_bind, bind_some, hv]
  rfl

theorem loadSection : Pe.loadSection buffer g s = some (s, true) := by
  rw [Pe.loadSection, h.mapPages]
  simp [h.filesz, h.memsz]

end Segment.Empty

private theorem loadAll_empty {ld : Segment → Vm → Option (Vm × Bool)} {gs : List Segment} (maxAddr : Word)
    (h : ∀ g ∈ gs, ld g s = some (s, true)) : ∃ m, loadAll ld gs s maxAddr = some ⟨s, m, true⟩ := by
  induction gs generalizing maxAddr with
  | nil => exact ⟨maxAddr, rfl⟩
  | cons g gs ih =>
    obtain ⟨m, hm⟩ := ih (g.raise maxAddr) fun g hg => h g (.tail _ hg)
    refine ⟨m, ?_⟩
    rw [loadAll, h g mem_cons_self]
    exact hm

private theorem resolveThunks_none {buffer : Memory} {dll : CString} {ws : List Word} {thunk : Word}
    (h : ∀ w ∈ ws, ¬ (w &&& 0x80000000 = 0 ∧ Pe.resolveImport api dll (userString buffer (w + 2)) ≠ 0)) :
    Pe.resolveThunks api buffer dll thunk ws s = some s := by
  induction ws generalizing thunk with
  | nil => rfl
  | cons w ws ih =>
    simp only [Pe.resolveThunks, if_neg (h w mem_cons_self)]
    exact ih fun w hw => h w (.tail _ hw)

theorem Pe.NoImports.resolveImports {format : PeFormat} {buffer : Memory}
    (h : NoImports api format buffer) : Pe.resolveImports api format buffer s = some s := by
  rw [Pe.resolveImports]
  split
  · rename_i hsize
    have hd := h hsize
    generalize format.imports buffer = ds at hd
    induction ds with
    | nil => rfl
    | cons d ds ih =>
      rw [foldlM_cons, resolveThunks_none (hd d mem_cons_self)]
      exact ih fun d hm => hd d (.tail _ hm)
  · rfl

private theorem loadElf_nothing
    (h : Elf.isMagic file.buffer = true → ∀ g ∈ Elf.segments file.buffer, g.Empty) :
    ∃ e top, loadElf file s = some (s, e, top) := by
  rw [loadElf]
  by_cases hm : Elf.isMagic file.buffer = true
  · obtain ⟨m, hl⟩ := loadAll_empty (s := s) 0 fun g hg => (h hm g hg).loadSegment file.buffer
    rw [if_neg (by simp [hm]), hl]
    exact ⟨_, _, rfl⟩
  · rw [if_pos (by simp [hm])]
    exact ⟨0, 0, rfl⟩

private theorem loadPe_nothing
    (h : env.format.mzMagic file.buffer = true → env.format.peMagic file.buffer = true →
      (∀ g ∈ Pe.sections env.format file.buffer, g.Empty) ∧ Pe.NoImports env.api env.format file.buffer) :
    ∃ e top, loadPe env.api env.format file s = some (s, e, top) := by
  rw [loadPe]
  by_cases hz : env.format.mzMagic file.buffer = true
  · rw [if_neg (by simp [hz])]
    by_cases hp : env.format.peMagic file.buffer = true
    · obtain ⟨hs, hi⟩ := h hz hp
      obtain ⟨m, hl⟩ := loadAll_empty (s := s) 0 fun g hg => (hs g hg).loadSection file.buffer
      rw [if_neg (by simp [hp]), hl]
      simp only [bind_eq_bind, bind_some, if_true, hi.resolveImports]
      exact ⟨_, _, rfl⟩
    · rw [if_pos (by simp [hp])]
      exact ⟨0, 0, rfl⟩
  · rw [if_pos (by simp [hz])]
    exact ⟨0, 0, rfl⟩

theorem LoadsNothing.load (h : LoadsNothing env path) (s : Vm) : ∃ e top, Exec.load env path s = some (s, e, top) := by
  rw [Exec.load]
  cases hr : env.resolve path with
  | none => exact ⟨0, 0, rfl⟩
  | some file =>
    have hf := h file hr
    by_cases he : Elf.isMagic file.magic = true
    · rw [if_pos he] at hf
      simp only [if_pos he]
      exact loadElf_nothing hf
    · rw [if_neg he] at hf
      simp only [if_neg he]
      by_cases hm : (file.magic 0 == 0x4D && file.magic 1 == 0x5A) = true
      · rw [if_pos hm] at hf
        rw [if_pos hm]
        exact loadPe_nothing hf
      · rw [if_neg hm]
        exact ⟨0, 0, rfl⟩

private theorem execProcess_failed (h : execProcess env c (some path) = some (d, -1)) :
    ∃ e top, load env (path.take 255) (vmClearUserMappings c.vm) = some (d.vm, e, top) ∧
      d.table = c.table ∧ d.regs = c.regs := by
  rw [execProcess, map_eq_some_iff] at h
  obtain ⟨⟨s, e, top⟩, hl, he⟩ := h
  by_cases h0 : e = 0
  · simp only [if_pos h0, Prod.mk.injEq, and_true] at he
    subst he
    exact ⟨e, top, hl, rfl, rfl⟩
  · simp only [if_neg h0, Prod.mk.injEq] at he
    exact absurd he.2 (by decide)

def Harmless (env : Env) (c : Caller) : Option CString → Prop
  | none => True
  | some path => LoadsNothing env (path.take 255) ∧ ClearSpares c.vm

/-- For a file that gives the loader nothing to do this is exact. -/
theorem failedExec_keeps (path : Option CString) (h : execProcess env c path = some (d, -1)) :
    (Harmless env c path → Kept c d) ∧
      ((∀ p, path = some p → LoadsNothing env (p.take 255)) → Kept c d → Harmless env c path) := by
  cases path with
  | none =>
    cases h
    exact ⟨fun _ => ⟨⟨fun _ _ hx => hx.page, fun _ _ _ _ _ => rfl⟩, rfl, rfl⟩, fun _ _ => trivial⟩
  | some path =>
    obtain ⟨e, top, hl, ht, hr⟩ := execProcess_failed h
    have hiff := clear_keeps_iff (vmClearUserMappings_words c.vm)
    have hvm : LoadsNothing env (path.take 255) → d.vm = vmClearUserMappings c.vm := fun hn => by
      obtain ⟨e', top', hl'⟩ := hn.load (vmClearUserMappings c.vm)
      rw [hl'] at hl
      exact (Prod.mk.inj (some.inj hl)).1.symm
    refine ⟨fun ⟨hn, hs⟩ => ⟨?_, ht, hr⟩, fun hn hk => ⟨hn path rfl, ?_⟩⟩
    · rw [hvm hn]
      exact hiff.mpr hs
    · have hsp := hk.space
      rw [hvm (hn path rfl)] at hsp
      exact hiff.mp hsp

/-- Frame 1 is the directory; frame 2 is its one table, and maps frame 3. -/
def onePage (entry : Nat) : Vm where
  pmm := ⟨fun _ => 0xF, 32, 4, Pmm.oneWord_lt⟩
  ram f i := if f = 1 ∧ i = entry then 0x2007 else if f = 2 ∧ i = 0 then 0x3007 else 0
  kernelDirectory := 1
  currentDirectory := some 1
  cr3 := 1
  currentProcess := some 1
  shmSegments _ := ⟨0, 0, 0, 0, 0, false⟩

def onePageCaller (entry : Nat) : Caller where
  vm := onePage entry
  table := ProcessTable.bootTable
  regs := userFrame

/-- There is no file at all. -/
def emptyEnv : Env where
  resolve _ := none
  format := ⟨fun _ => false, fun _ => false, fun _ => 0, fun _ => 0, fun _ => [], fun _ => 0, fun _ => []⟩
  api := ⟨0, 0⟩

private theorem emptyEnv_fails (c : Caller) :
    execProcess emptyEnv c (some []) = some ({ c with vm := vmClearUserMappings c.vm }, -1) := rfl

private theorem clearSpares_of_kept (h : Kept c { c with vm := vmClearUserMappings c.vm }) : ClearSpares c.vm :=
  (clear_keeps_iff (vmClearUserMappings_words c.vm)).mp h.space

theorem failedExec_keeps_low :
    Kept (onePageCaller 128) { onePageCaller 128 with vm := vmClearUserMappings (onePage 128) } := by
  refine (failedExec_keeps (some []) (emptyEnv_fails (onePageCaller 128))).1 ⟨(fun _ h => nomatch h), ?_⟩
  have hnone : ∀ k, 256 ≤ k → Kernel.present ((onePage 128).ram 1 k) = false := by
    intro k hk
    simp [onePage, show k ≠ 128 by omega]
  have hn : ∀ f i, ¬ Cleared (onePage 128) f i := by
    rintro f i ⟨hp, ⟨rfl, hi, -⟩ | ⟨-, k, hk, -, hpk, -⟩⟩
    · exact absurd hp (by rw [show (onePage 128).cr3 = 1 from rfl, hnone i hi]; decide)
    · exact absurd hpk (by rw [show (onePage 128).cr3 = 1 from rfl, hnone k hk]; decide)
  exact fun _ _ _ => ⟨hn _ _, hn _ _, fun _ _ => hn _ _⟩

theorem missing_loses_page : ¬ ∀ (env : Env) (c d : Caller) (path : Option CString),
    execProcess env c path = some (d, -1) → Kept c d := by
  intro hall
  have hs := clearSpares_of_kept (hall emptyEnv (onePageCaller 256) _ (some []) (emptyEnv_fails _))
  have hx : UserMapped (onePageCaller 256).vm 0x40000000 ⟨3, 7, 7⟩ := ⟨by decide, by decide +kernel, by decide, by decide⟩
  have hi : pdIndex 0x40000000 = 256 := by decide
  exact (hs _ _ hx).1 ⟨by rw [hi]; decide, .inl ⟨rfl, hi.ge, by omega⟩⟩

end RetroOs.Kernel.Exec
