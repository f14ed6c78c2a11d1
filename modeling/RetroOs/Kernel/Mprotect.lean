import RetroOs.Kernel.UserMemoryActions

/-! `sys_mprotect`: which page table entries it rewrites, and when that protects the caller's pages. -/
namespace RetroOs.Kernel.UserMemory
open Lib Option List

def einval : Word := 22

def ptePresent : Word := 1

def pteWrite : Word := 2

def pteUser : Word := 4

/-- Disabled in `paging.h`. -/
def pteNx : Word := 0

def protWrite : Word := 2

def protExec : Word := 4

/-- The flags of an entry for a protection. -/
def protFlags (prot : Word) : Word :=
  let flags := ptePresent
  let flags := if prot &&& protWrite ≠ 0 then flags ||| pteWrite else flags
  if prot &&& protExec = 0 then flags ||| pteNx else flags

def protectPage (flags : Word) (s : Vm) (vaddr : Word) : Vm :=
  match pagingGetPte s vaddr with
  | none => s
  | some (pt, j) => if present (s.ram pt j) then s.setWord pt j (entryAddr (s.ram pt j) ||| flags) else s

def sysMprotect (s : Vm) (addr len prot : Word) : Vm × Word :=
  if addr = 0 then (s, -einval)
  else if entryFlags addr ≠ 0 then (s, -einval)
  else if len = 0 then (s, 0)
  else ((pagesFrom addr (numPages len)).foldl (protectPage (protFlags prot)) s, 0)

variable {s t : Vm} {pages : List Word} {flags addr len prot virt : Word} {frame j d : Nat} {u : Word}
  {x : Translation}

def Rewrites (s : Vm) (pages : List Word) (frame j : Nat) : Prop :=
  (∃ u ∈ pages, pagingGetPte s u = some (frame, j)) ∧ present (s.ram frame j) = true

instance : Decidable (Rewrites s pages frame j) := inferInstanceAs (Decidable (_ ∧ _))

structure Reflagged (s t : Vm) (pages : List Word) (flags : Word) : Prop where
  ram : ∀ frame j, t.ram frame j = if Rewrites s pages frame j then entryAddr (s.ram frame j) ||| flags else s.ram frame j
  rest : t = { s with ram := t.ram }

theorem protFlags_eq (prot : Word) : protFlags prot = if prot &&& protWrite ≠ 0 then 3 else 1 := by
  unfold protFlags
  split <;> split <;> rfl

private theorem protectPage_ram (flags : Word) (s : Vm) (u : Word) (frame j : Nat) : (protectPage flags s u).ram frame j =
    if pagingGetPte s u = some (frame, j) ∧ present (s.ram frame j) = true then entryAddr (s.ram frame j) ||| flags
    else s.ram frame j := by
  rw [protectPage]
  split
  · next hnone => rw [hnone, if_neg fun hc => nomatch hc.1]
  · next pt k hsome =>
    rw [hsome]
    by_cases hp : present (s.ram pt k) = true
    · rw [if_pos hp, Vm.setWord_ram]
      by_cases hword : (pt, k) = (frame, j)
      · cases hword
        rw [if_pos ⟨rfl, hp⟩, Ram.setWord_self]
      · rw [if_neg fun hc => hword (some.inj hc.1)]
        by_cases hframe : frame = pt
        · subst hframe
          exact Ram.setWord_other fun hj => hword (by rw [hj])
        · exact congrFun (Ram.setWord_ne hframe) j
    · rw [if_neg hp, if_neg]
      rintro ⟨hword, hp'⟩
      cases hword
      exact hp hp'

private theorem protectPage_rest (flags : Word) (s : Vm) (u : Word) : protectPage flags s u = { s with ram := (protectPage flags s u).ram } := by
  rw [protectPage]
  split
  · rfl
  · split <;> rfl

private theorem entryAddr_or_or (w : Word) (hflags : frameOf flags = 0) :
    entryAddr (entryAddr w ||| flags) ||| flags = entryAddr w ||| flags := by
  refine word_ext ?_ ?_
  · rw [frameOf_entryAddr_or hflags, frameOf_entryAddr_or hflags]
  · rw [entryFlags_entryAddr_or, entryFlags_entryAddr_or]

private theorem rewrites_concat : Rewrites s (pages ++ [u]) frame j ↔
    Rewrites s pages frame j ∨ pagingGetPte s u = some (frame, j) ∧ present (s.ram frame j) = true := by
  rw [Rewrites, Rewrites, ← or_and_right]
  refine and_congr_left' ⟨?_, ?_⟩
  · rintro ⟨a, ha, hword⟩
    rcases mem_append.mp ha with ha | ha
    · exact .inl ⟨a, ha, hword⟩
    · exact .inr (mem_singleton.mp ha ▸ hword)
  · rintro (⟨a, ha, hword⟩ | hword)
    · exact ⟨a, mem_append_left _ ha, hword⟩
    · exact ⟨u, mem_append_right _ (mem_singleton_self u), hword⟩

private theorem reflagged (hdir : ∀ u frame j, pagingGetPte s u = some (frame, j) → frame ≠ s.currentDirectory.getD s.kernelDirectory)
    (hp : present flags = true) (hflags : frameOf flags = 0) (pages : List Word) :
    Reflagged s (pages.foldl (protectPage flags) s) pages flags := by
  induction pages using reverseRecOn with
  | nil => exact ⟨fun frame j => (if_neg fun ⟨⟨_, hu, _⟩, _⟩ => not_mem_nil hu).symm, rfl⟩
  | append_singleton init u ih =>
    rw [foldl_concat]
    generalize init.foldl (protectPage flags) s = t at ih
    have hpte : pagingGetPte t u = pagingGetPte s u := by
      have hentry : ∀ k, t.ram (s.currentDirectory.getD s.kernelDirectory) k = s.ram (s.currentDirectory.getD s.kernelDirectory) k := by
        intro k
        rw [ih.ram]
        exact if_neg fun ⟨⟨a, _, ha⟩, _⟩ => hdir a _ k ha rfl
      rw [pagingGetPte, pagingGetPte, ih.rest]
      simp only [hentry]
    have hpresent : ∀ frame j, present (t.ram frame j) = present (s.ram frame j) := by
      intro frame j
      rw [ih.ram]
      split
      · next hr => rw [present_entryAddr_or, hp, hr.2]
      · rfl
    refine ⟨fun frame j => ?_, ?_⟩
    · have hor : Rewrites s (init ++ [u]) frame j ↔ _ := rewrites_concat
      rw [protectPage_ram, hpte, hpresent, ih.ram]
      by_cases hlast : pagingGetPte s u = some (frame, j) ∧ present (s.ram frame j) = true
      · rw [if_pos hlast, if_pos (hor.mpr (.inr hlast))]
        split
        · exact entryAddr_or_or _ hflags
        · rfl
      · rw [if_neg hlast]
        exact if_congr (hor.trans (or_iff_left hlast)).symm rfl rfl
    · rw [protectPage_rest, ih.rest]

private theorem sysMprotect_returns (h : (sysMprotect s addr len prot).2 = 0) :
    (sysMprotect s addr len prot).1 = (pagesFrom addr (numPages len)).foldl (protectPage (protFlags prot)) s := by
  rw [sysMprotect] at h ⊢
  split at h
  · exact absurd h (show -einval ≠ (0 : Word) by decide)
  · next hzero =>
    split at h
    · exact absurd h (show -einval ≠ (0 : Word) by decide)
    · next halign =>
      rw [if_neg hzero, if_neg halign]
      split
      · next hlen =>
        subst hlen
        rfl
      · rfl

/-- A process about to call, with the directories of all processes. `current_directory` stays at the kernel's own. -/
structure AddressSpaces where
  vm : Vm
  dirs : List Nat
  ready : Ready vm dirs
  current : vm.currentDirectory = some vm.kernelDirectory

def InRange (addr len virt : Word) : Prop := entryAddr virt ∈ pagesFrom addr ((len.toNat + 4095) / 4096)

instance : Decidable (InRange addr len virt) := inferInstanceAs (Decidable (_ ∈ _))

/-- The pages of the range that are present keep their frames and the user bit and have the protection, and no other page of the
active address space and no other address space changes. -/
structure Protects (m : AddressSpaces) (addr len prot : Word) (t : Vm) : Prop where
  range : ∀ virt x, InRange addr len virt → translate m.vm.ram m.vm.cr3 virt = some x →
    ∃ y, translate t.ram m.vm.cr3 virt = some y ∧ y.frame = x.frame ∧ y.flags &&& pteUser = x.flags &&& pteUser ∧
      (writable y = true ↔ prot &&& protWrite ≠ 0)
  outside : ∀ virt, ¬ InRange addr len virt → translate t.ram m.vm.cr3 virt = translate m.vm.ram m.vm.cr3 virt
  others : ∀ d ∈ m.vm.kernelDirectory :: m.dirs, d ≠ m.vm.cr3 → ∀ virt, translate t.ram d virt = translate m.vm.ram d virt

/-- The entry that a directory has for an address is one that the call rewrites. -/
def Hit (s : Vm) (addr len : Word) (d : Nat) (virt : Word) : Prop :=
  Rewrites s (pagesFrom addr (numPages len)) (frameOf (s.ram d (pdIndex virt))) (ptIndex virt)

instance : Decidable (Hit s addr len d virt) := inferInstanceAs (Decidable (Rewrites ..))

structure ProtectFits (m : AddressSpaces) (addr len prot : Word) : Prop where
  rewritten : ∀ d ∈ m.vm.kernelDirectory :: m.dirs, ∀ virt x, translate m.vm.ram d virt = some x → Hit m.vm addr len d virt →
    if d = m.vm.cr3 ∧ InRange addr len virt then
      x.flags &&& pteUser = 0 ∧ (prot &&& protWrite ≠ 0 → x.tableFlags &&& pteWrite ≠ 0)
    else x.flags = protFlags prot
  left : ∀ virt x, translate m.vm.ram m.vm.cr3 virt = some x → InRange addr len virt → ¬ Hit m.vm addr len m.vm.cr3 virt →
    (writable x = true ↔ prot &&& protWrite ≠ 0)

variable {m : AddressSpaces}

private theorem protFlags_present (prot : Word) : present (protFlags prot) = true := by
  rw [protFlags_eq]
  split <;> decide

private theorem protFlags_frame (prot : Word) : frameOf (protFlags prot) = 0 := by
  rw [protFlags_eq]
  split <;> decide

private theorem protFlags_entryFlags (prot : Word) : entryFlags (protFlags prot) = protFlags prot := by
  rw [protFlags_eq]
  split <;> decide

theorem protFlags_user (prot : Word) : protFlags prot &&& pteUser = 0 := by
  rw [protFlags_eq]
  split <;> decide

theorem protFlags_write (prot : Word) : protFlags prot &&& pteWrite ≠ 0 ↔ prot &&& protWrite ≠ 0 := by
  rw [protFlags_eq]
  split
  · next h => exact iff_of_true (by decide) h
  · next h => exact iff_of_false (by decide) h

theorem writable_iff (x : Translation) : writable x = true ↔ x.flags &&& pteWrite ≠ 0 ∧ x.tableFlags &&& pteWrite ≠ 0 := by
  rw [writable, Bool.and_eq_true, bne_iff_ne, bne_iff_ne]
  rfl

private theorem translate_flags {ram : Ram} (h : translate ram d virt = some x) :
    x.flags = entryFlags (ram (frameOf (ram d (pdIndex virt))) (ptIndex virt)) := by
  rw [translate] at h
  split_ifs at h
  exact (congrArg Translation.flags (some.inj h)).symm

namespace AddressSpaces

theorem mem_directories (m : AddressSpaces) : m.vm.kernelDirectory ∈ m.vm.kernelDirectory :: m.dirs := .head _

theorem pagingGetPte_eq (m : AddressSpaces) (u : Word) : pagingGetPte m.vm u =
    if present (m.vm.ram m.vm.kernelDirectory (pdIndex u)) then
      some (frameOf (m.vm.ram m.vm.kernelDirectory (pdIndex u)), ptIndex u) else none := by
  rw [pagingGetPte, m.current]
  rfl

private theorem pagingGetPte_plain (h : pagingGetPte m.vm u = some (frame, j)) : frame ∉ m.vm.kernelDirectory :: m.dirs := by
  rw [m.pagingGetPte_eq] at h
  split at h
  · next hp =>
    cases h
    exact m.ready.layout.apart _ m.mem_directories _ (pdIndex_lt u) hp
  · cases h

theorem translate_mprotect (m : AddressSpaces) (h : (sysMprotect m.vm addr len prot).2 = 0) (hd : d ∈ m.vm.kernelDirectory :: m.dirs)
    (virt : Word) : translate (sysMprotect m.vm addr len prot).1.ram d virt = (translate m.vm.ram d virt).map fun x =>
      if Hit m.vm addr len d virt then { x with flags := protFlags prot } else x := by
  have hr : Reflagged m.vm (sysMprotect m.vm addr len prot).1 (pagesFrom addr (numPages len)) (protFlags prot) := by
    rw [sysMprotect_returns h]
    refine reflagged (fun u frame j hu hframe => ?_) (protFlags_present prot) (protFlags_frame prot) _
    rw [m.current] at hframe
    exact pagingGetPte_plain hu (hframe ▸ m.mem_directories)
  have hdir : (sysMprotect m.vm addr len prot).1.ram d (pdIndex virt) = m.vm.ram d (pdIndex virt) := by
    rw [hr.ram]
    exact if_neg fun ⟨⟨u, _, hu⟩, _⟩ => pagingGetPte_plain hu hd
  have hword : (sysMprotect m.vm addr len prot).1.ram (frameOf (m.vm.ram d (pdIndex virt))) (ptIndex virt) =
      if Hit m.vm addr len d virt then
        entryAddr (m.vm.ram (frameOf (m.vm.ram d (pdIndex virt))) (ptIndex virt)) ||| protFlags prot
      else m.vm.ram (frameOf (m.vm.ram d (pdIndex virt))) (ptIndex virt) := hr.ram _ _
  rw [translate, translate, hdir, hword]
  by_cases hhit : Hit m.vm addr len d virt
  · rw [if_pos hhit, present_entryAddr_or, protFlags_present, hhit.2, frameOf_entryAddr_or (protFlags_frame prot),
      entryFlags_entryAddr_or, protFlags_entryFlags]
    cases present (m.vm.ram d (pdIndex virt)) with
    | false => rfl
    | true => simp only [Bool.and_self, if_true, map_some, if_pos hhit]
  · rw [if_neg hhit]
    split
    · rfl
    · rfl

end AddressSpaces

theorem Protects.fits (h : (sysMprotect m.vm addr len prot).2 = 0)
    (hp : Protects m addr len prot (sysMprotect m.vm addr len prot).1) : ProtectFits m addr len prot := by
  refine ⟨fun d hd virt x hx hhit => ?_, fun virt x hx hin hno => ?_⟩
  · have hafter := m.translate_mprotect h hd virt
    rw [hx, map_some, if_pos hhit] at hafter
    split
    · next hc =>
      obtain ⟨rfl, hin⟩ := hc
      obtain ⟨y, hy, -, huser, hwrite⟩ := hp.range virt x hin hx
      cases hafter.symm.trans hy
      refine ⟨huser.symm.trans (protFlags_user prot), fun hw => ?_⟩
      exact ((writable_iff _).mp (hwrite.mpr hw)).2
    · next hc =>
      have hsame : translate (sysMprotect m.vm addr len prot).1.ram d virt = translate m.vm.ram d virt := by
        by_cases hcr : d = m.vm.cr3
        · subst hcr
          exact hp.outside virt fun hin => hc ⟨rfl, hin⟩
        · exact hp.others d hd hcr virt
      rw [hafter, hx] at hsame
      exact congrArg Translation.flags (some.inj hsame).symm
  · obtain ⟨y, hy, -, -, hwrite⟩ := hp.range virt x hin hx
    have hafter := m.translate_mprotect h m.ready.active virt
    rw [hx, map_some, if_neg hno] at hafter
    cases hafter.symm.trans hy
    exact hwrite

theorem ProtectFits.translate_same (hf : ProtectFits m addr len prot) (h : (sysMprotect m.vm addr len prot).2 = 0)
    (hd : d ∈ m.vm.kernelDirectory :: m.dirs) (hc : ¬ (d = m.vm.cr3 ∧ InRange addr len virt)) :
    translate (sysMprotect m.vm addr len prot).1.ram d virt = translate m.vm.ram d virt := by
  rw [m.translate_mprotect h hd]
  cases hx : translate m.vm.ram d virt with
  | none => rfl
  | some x =>
    rw [map_some]
    split
    · next hhit =>
      have hflags := hf.rewritten d hd virt x hx hhit
      rw [if_neg hc] at hflags
      rw [← hflags]
    · rfl

theorem ProtectFits.protects (hf : ProtectFits m addr len prot) (h : (sysMprotect m.vm addr len prot).2 = 0) :
    Protects m addr len prot (sysMprotect m.vm addr len prot).1 := by
  refine ⟨fun virt x hin hx => ?_, fun virt hout => hf.translate_same h m.ready.active fun hc => hout hc.2,
    fun d hd hne virt => hf.translate_same h hd fun hc => hne hc.1⟩
  have hafter := m.translate_mprotect h m.ready.active virt
  rw [hx, map_some] at hafter
  by_cases hhit : Hit m.vm addr len m.vm.cr3 virt
  · have hown := hf.rewritten _ m.ready.active virt x hx hhit
    rw [if_pos ⟨rfl, hin⟩] at hown
    rw [if_pos hhit] at hafter
    refine ⟨_, hafter, rfl, (protFlags_user prot).trans hown.1.symm, ?_⟩
    rw [writable_iff]
    constructor
    · exact fun hw => (protFlags_write prot).mp hw.1
    · exact fun hw => ⟨(protFlags_write prot).mpr hw, hown.2 hw⟩
  · rw [if_neg hhit] at hafter
    exact ⟨x, hafter, rfl, rfl, hf.left virt x hx hin hhit⟩

structure NothingToDo (m : AddressSpaces) (addr len prot : Word) : Prop where
  kernel : ∀ u ∈ pagesFrom addr (numPages len), ∀ x, translate m.vm.ram m.vm.kernelDirectory u = some x → x.flags = protFlags prot
  caller : ∀ virt x, InRange addr len virt → translate m.vm.ram m.vm.cr3 virt = some x → (writable x = true ↔ prot &&& protWrite ≠ 0)

theorem Hit.kernel (h : Hit m.vm addr len d virt) (hx : translate m.vm.ram d virt = some x) :
    ∃ u ∈ pagesFrom addr (numPages len), ∃ y, translate m.vm.ram m.vm.kernelDirectory u = some y ∧ y.flags = x.flags := by
  obtain ⟨⟨u, hu, hword⟩, hp⟩ := h
  rw [m.pagingGetPte_eq] at hword
  split at hword
  · next hdir =>
    obtain ⟨hframe, hindex⟩ := Prod.mk.inj (some.inj hword)
    have hsome : (translate m.vm.ram m.vm.kernelDirectory u).isSome = true :=
      translate_isSome.mpr ⟨hdir, by rw [hframe, hindex]; exact hp⟩
    obtain ⟨y, hy⟩ := isSome_iff_exists.mp hsome
    refine ⟨u, hu, y, hy, ?_⟩
    rw [translate_flags hy, translate_flags hx, hframe, hindex]
  · cases hword

private theorem fits_iff_nothing (hown : m.vm.cr3 ≠ m.vm.kernelDirectory) : ProtectFits m addr len prot ↔ NothingToDo m addr len prot := by
  constructor
  · intro h
    have hkernel : ∀ u ∈ pagesFrom addr (numPages len), ∀ x, translate m.vm.ram m.vm.kernelDirectory u = some x →
        x.flags = protFlags prot := fun u hu x hx => by
      have hsome := translate_isSome.mp (show (translate m.vm.ram m.vm.kernelDirectory u).isSome = true by rw [hx]; rfl)
      have hflags := h.rewritten _ m.mem_directories u x hx ⟨⟨u, hu, (m.pagingGetPte_eq u).trans (if_pos hsome.1)⟩, hsome.2⟩
      rw [if_neg fun hc => hown hc.1.symm] at hflags
      exact hflags
    refine ⟨hkernel, fun virt x hin hx => ?_⟩
    by_cases hhit : Hit m.vm addr len m.vm.cr3 virt
    · obtain ⟨u, hu, y, hy, hflags⟩ := hhit.kernel hx
      have hwrite := h.rewritten _ m.ready.active virt x hx hhit
      rw [if_pos ⟨rfl, hin⟩] at hwrite
      rw [writable_iff, ← hflags, hkernel u hu y hy, protFlags_write]
      exact and_iff_left_of_imp hwrite.2
    · exact h.left virt x hx hin hhit
  · intro h
    refine ⟨fun d hd virt x hx hhit => ?_, fun virt x hx hin _ => h.caller virt x hin hx⟩
    obtain ⟨u, hu, y, hy, hflags⟩ := hhit.kernel hx
    have hx' : x.flags = protFlags prot := hflags.symm.trans (h.kernel u hu y hy)
    split
    · next hc =>
      obtain ⟨rfl, hin⟩ := hc
      exact ⟨by rw [hx', protFlags_user], fun hw => ((writable_iff x).mp ((h.caller virt x hin hx).mpr hw)).2⟩
    · exact hx'

/-- When `sys_mprotect` protects the pages of its range, and nothing else. -/
theorem sysMprotect_protects_iff (m : AddressSpaces) (addr len prot : Word) (h : (sysMprotect m.vm addr len prot).2 = 0) :
    (Protects m addr len prot (sysMprotect m.vm addr len prot).1 ↔ ProtectFits m addr len prot) ∧
      (m.vm.cr3 ≠ m.vm.kernelDirectory → (ProtectFits m addr len prot ↔ NothingToDo m addr len prot)) :=
  ⟨⟨fun hp => hp.fits h, fun hf => hf.protects h⟩, fits_iff_nothing⟩

private theorem onePageVm_ready : Ready onePageVm [2] := by
  have htable : ∀ d ∈ [1, 2], ∀ i, present (onePageVm.ram d i) = true → frameOf (onePageVm.ram d i) = 3 := by
    intro d hd i hp
    rw [onePageVm] at hp ⊢
    simp only [mem_cons, not_mem_nil, or_false] at hd hp ⊢
    rcases hd with rfl | rfl
    · simp at hp
    · split at hp
      · next hi =>
        rw [if_pos hi]
        decide
      · simp at hp
  refine ⟨⟨by decide, fun d hd i _ hp => ?_, fun d hd i _ hp => ?_⟩, by decide, by decide, by decide⟩
  · rw [htable d hd i hp]
    decide
  · rw [htable d hd i hp]
    decide

/-- A process with one page of its own, at 0x400000. -/
def onePageSpaces : AddressSpaces := ⟨onePageVm, [2], onePageVm_ready, rfl⟩

theorem sysMprotect_protects_iff_onePage :
    (Protects onePageSpaces 0x400000 0x1000 1 (sysMprotect onePageVm 0x400000 0x1000 1).1 ↔
      ProtectFits onePageSpaces 0x400000 0x1000 1) ∧
    (ProtectFits onePageSpaces 0x400000 0x1000 1 ↔ NothingToDo onePageSpaces 0x400000 0x1000 1) :=
  have h := sysMprotect_protects_iff onePageSpaces 0x400000 0x1000 1 rfl
  ⟨h.1, h.2 (by decide)⟩

theorem mprotect_leaves_writable : ∃ m : AddressSpaces, (sysMprotect m.vm 0x400000 0x1000 1).2 = 0 ∧
    translate (sysMprotect m.vm 0x400000 0x1000 1).1.ram m.vm.cr3 0x400000 = some ⟨4, 7, 7⟩ ∧
      ¬ Protects m 0x400000 0x1000 1 (sysMprotect m.vm 0x400000 0x1000 1).1 := by
  have hafter : translate (sysMprotect onePageVm 0x400000 0x1000 1).1.ram onePageVm.cr3 0x400000 = some ⟨4, 7, 7⟩ := by decide +kernel
  refine ⟨onePageSpaces, rfl, hafter, fun h => ?_⟩
  obtain ⟨y, hy, -, -, hwrite⟩ := h.range 0x400000 ⟨4, 7, 7⟩ (by decide +kernel) (by decide +kernel)
  cases hafter.symm.trans hy
  exact absurd (hwrite.mp (by decide)) (by decide)

end RetroOs.Kernel.UserMemory
