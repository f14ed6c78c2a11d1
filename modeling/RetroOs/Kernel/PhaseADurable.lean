import RetroOs.Drivers.Fat16Store
import RetroOs.Kernel.PhaseAImage

/-! The Phase A tables over boots: they are saved to the file TRUTH.DAT and loaded from it, and which
operations a later boot still finds. -/
namespace RetroOs.Kernel
open Lib Drivers Option Fat16
namespace PhaseA

variable {b : Bpb} {d d' : Disk} {s t : PhaseA} {a : Nat} {l : List Nat} {ch : Nat → List Nat} {m m' : Machine}
  {save : Bool} {load : Option Memory} {o : Op}

def truthDat : CString := .ofString "TRUTH.DAT"

/-- `phase_vfs_load`, with the buffer that `kmalloc` gives. The last sector read goes past its end; what
lies there is left out. -/
def vfsLoad (s : PhaseA) (b : Bpb) (d : Disk) (buf : Option Memory) : PhaseA :=
  match Fat16.findEntry b d 0 truthDat with
  | some (some a) =>
    match buf with
    | none => s
    | some buf =>
      let e := Fat16.entryAt d.bytes a
      s.restore (Fat16.readFile b d e.firstCluster e.fileSize buf)
  | _ => s

/-- `phase_vfs_sync` with the flag `g_phase_a_sync_enabled`; `buf` says whether `kmalloc` gives a buffer. -/
def vfsSync (s : PhaseA) (b : Bpb) (d : Disk) (sync buf : Bool) : Disk :=
  if !sync then d
  else if !buf then d
  else
    let d :=
      match Fat16.findEntry b d 0 truthDat with
      | some (some _) => d
      | _ => (Fat16.createVfs b d 0 truthDat).1
    (Fat16.writeFile b d truthDat s.image).1

/-- The bootstrap's root directory, in the tables that the load left. -/
def rootFrom (s : PhaseA) : PhaseA :=
  match allocInode s .dir with
  | none => s
  | some (s₁, root) =>
    let (s₂, b) := allocBlock s₁
    (s₂.setBlock root b).clearBlock b

/-- `fs_phase_a_bootstrap` on a machine just started: the tables, the flag and the disk. The flag is off
until the last step, so that only that one saves. -/
def fsBootstrap (b : Bpb) (d : Disk) (load : Option Memory) (save : Bool) : Option (PhaseA × Bool × Disk) :=
  let s := fresh.vfsLoad b d load
  if s.inodeCount > 0 then some (s, false, d)
  else s.rootFrom.bootHierarchy.map fun s => (s, true, s.vfsSync b d true save)

/-- The tables, once the machine has booted; the flag; the disk; and, for the statements, the tables as
the last operation that succeeded left them. -/
structure Machine where
  tables : Option PhaseA
  sync : Bool
  disk : Disk
  acked : Option PhaseA

inductive Event where
  | boot (load : Option Memory) (save : Bool)
  | op (o : Op) (save : Bool)

/-- The operations save on success; no value where one leaves a buffer or a table. -/
def Machine.step (b : Bpb) (m : Machine) : Event → Option Machine
  | .boot load save => do
    let (s, sync, d) ← fsBootstrap b m.disk load save
    return { tables := some s, sync, disk := d, acked := m.acked }
  | .op o save => do
    let s ← m.tables
    let (t, ok) ← s.exec o
    if ok then return { tables := some t, sync := m.sync, disk := t.vfsSync b m.disk m.sync save, acked := some t }
    else return { m with tables := some t }

/-- What the driver assumes of the volume, and what its operations keep. -/
structure Usable (b : Bpb) (d : Disk) : Prop where
  geometry : Fat16.Geometry b
  cluster : 1 ≤ b.sectorsPerCluster
  tree : ∃ ch, Fat16.TreeInv b d ch
  scans : Fat16.ScansInside b d

structure Room (b : Bpb) (d : Disk) : Prop where
  slot : freeSlot d.bytes (rootSlots b) ≠ none
  clusters : ∃ k, Fat16.FreeClusters b d k ∧ totalSize ≤ k.length * clusterSize b

def NoFile (b : Bpb) (d : Disk) : Prop := Fat16.findEntry b d 0 truthDat = some none

/-- TRUTH.DAT holds the image of the tables. -/
structure Saved (b : Bpb) (d : Disk) (s : PhaseA) : Prop where
  storable : Storable s
  stored : ∃ a l, Fat16.Stored b d truthDat s.image a l

theorem truthDat_findable : Fat16.Findable truthDat := by decide

theorem image_ne_nil (s : PhaseA) : s.image ≠ [] := by
  apply List.ne_nil_of_length_pos
  rw [image_length]
  decide

private theorem image_lt (s : PhaseA) : s.image.length < 2 ^ 32 := by
  rw [image_length]
  decide

theorem Saved.found (h : Saved b d s) : ¬ NoFile b d := by
  obtain ⟨a, l, hst⟩ := h.stored
  rw [NoFile, findEntry_root, hst.found]
  exact fun hno => nomatch hno

theorem sync_new (hu : Usable b d) (hnone : NoFile b d) (hroom : Room b d) (hs : Storable s) :
    Usable b (s.vfsSync b d true true) ∧ Saved b (s.vfsSync b d true true) s := by
  obtain ⟨ch, htree⟩ := hu.tree
  obtain ⟨k, hfree, hk⟩ := hroom.clusters
  have hfind := hnone
  rw [NoFile, findEntry_root, some.injEq] at hfind
  obtain ⟨a, hc⟩ := createVfs_created hu.geometry htree truthDat_findable hfind hroom.slot
  obtain ⟨ch', htree'⟩ := createVfs_tree hu.geometry htree .refl truthDat
  rw [← image_length s] at hk
  obtain ⟨l, ch'', hafter, hscan, hst⟩ := hc.store hu.geometry hu.cluster htree' hu.scans hfree (image_ne_nil s) (image_lt s) hk
  have hsync : s.vfsSync b d true true = (writeFile b (createVfs b d 0 truthDat).1 truthDat s.image).1 := by
    rw [NoFile] at hnone
    simp only [vfsSync, hnone]
    rfl
  rw [hsync]
  exact ⟨⟨hu.geometry, hu.cluster, ⟨_, hafter⟩, hscan⟩, hs, a, l, hst⟩

private theorem sync_again (hu : Usable b d) (h : Saved b d s) (ht : Storable t) :
    Usable b (t.vfsSync b d true true) ∧ Saved b (t.vfsSync b d true true) t := by
  obtain ⟨ch, htree⟩ := hu.tree
  obtain ⟨a, l, hst⟩ := h.stored
  have hfound : Fat16.findEntry b d 0 truthDat = some (some a) :=
    (Fat16.findEntry_root ..).trans (congrArg some hst.found)
  have hle : t.image.length ≤ s.image.length := by rw [image_length, image_length]
  obtain ⟨l', ch', hafter, hscan, hst'⟩ := hst.store hu.geometry hu.cluster htree hu.scans (image_ne_nil t) (image_lt t) hle
  have hsync : t.vfsSync b d true true = (Fat16.writeFile b d truthDat t.image).1 := by
    simp only [vfsSync, hfound]
    rfl
  rw [hsync]
  exact ⟨⟨hu.geometry, hu.cluster, ⟨_, hafter⟩, hscan⟩, ht, a, l', hst'⟩

private theorem fresh_fits (i : Nat) : (fresh.inodes i).Fits :=
  ⟨Nat.two_pow_pos 32, Nat.two_pow_pos 32, Nat.two_pow_pos 32, Nat.two_pow_pos 16, Nat.two_pow_pos 16, Nat.two_pow_pos 16⟩

private theorem load_saved (hu : Usable b d) (h : Saved b d s) (buf : Memory) :
    SameTables s (fresh.vfsLoad b d (some buf)) ∧ Storable (fresh.vfsLoad b d (some buf)) := by
  obtain ⟨a, l, hst⟩ := h.stored
  have hload : fresh.vfsLoad b d (some buf) =
      fresh.restore (readFile b d (firstCluster d a) (entryAt d.bytes a).fileSize buf) := by
    rw [vfsLoad, findEntry_root, hst.found]
    rfl
  have hbytes := hst.read hu.cluster buf
  rw [image_length] at hbytes
  have hm : ∀ x < totalSize, readFile b d (firstCluster d a) (entryAt d.bytes a).fileSize buf x = s.imageByte x := by
    intro x hx
    rw [← image_getD s 0 hx, ← hbytes, Memory.bytes_getD _ _ hx, Nat.zero_add]
  have hsame := restore_image h.storable fresh hm
  rw [hload]
  exact ⟨hsame, hsame.storable h.storable (restore_fits fresh_fits _)⟩

private theorem bootstrap_storable (hb : bootstrap = some s) : Storable s := by
  obtain ⟨ops, hrun⟩ := bootstrap_run hb
  have hroot : Storable bootRoot := by
    obtain ⟨m, -, hroot⟩ := bootRoot_made
    have h1000 : 1000 < 2 ^ 16 := by decide
    have hperms : 0o755 < 2 ^ 16 := by decide
    have hone : 1 < 2 ^ 32 := by decide
    rw [hroot]
    refine ⟨Storable.fits_update fresh_fits ⟨?_, ?_, ?_, h1000, h1000, hperms⟩ 0, Nat.one_pos, hone, hone⟩
    all_goals exact Nat.two_pow_pos 32
  clear hb
  induction hrun with
  | nil => exact hroot
  | snoc _ hs ih =>
    obtain ⟨ok, e⟩ := hs.1.2
    exact ih.exec e

private theorem boot_first (hnone : NoFile b d) (load : Option Memory) (save : Bool) :
    fsBootstrap b d load save = bootstrap.map fun s => (s, true, s.vfsSync b d true save) := by
  have hload : fresh.vfsLoad b d load = fresh := by
    rw [vfsLoad, hnone]
  rw [fsBootstrap, hload]
  exact if_neg (Nat.lt_irrefl 0)

theorem boot_again (hu : Usable b d) (h : Saved b d s) (buf : Memory) (save : Bool) :
    ∃ t, fsBootstrap b d (some buf) save = some (t, false, d) ∧ SameTables s t ∧ Storable t := by
  obtain ⟨hsame, hst⟩ := load_saved hu h buf
  exact ⟨_, if_pos hst.root, hsame, hst⟩

/-- A boot that finds the file has a buffer to load it; an operation that succeeds runs with the flag on
and has a buffer; and a save that creates the file has room. -/
def Event.Clean (b : Bpb) (m : Machine) : Event → Prop
  | .boot load save => (NoFile b m.disk → save = true → Room b m.disk) ∧ (¬ NoFile b m.disk → load ≠ none)
  | .op o save => ∀ s ∈ m.tables, ∀ r ∈ s.exec o, r.2 = true →
      m.sync = true ∧ save = true ∧ (NoFile b m.disk → Room b m.disk)

def CleanStep (b : Bpb) (m : Machine) (e : Event) (m' : Machine) : Prop := e.Clean b m ∧ m.step b e = some m'

/-- A boot that gets its buffer finds the tables as the last operation that succeeded left them. -/
def Durable (b : Bpb) (m : Machine) : Prop :=
  ∀ s ∈ m.acked, ∀ buf save, ∃ m' ∈ m.step b (.boot (some buf) save), ∃ t ∈ m'.tables, SameTables s t

/-- Without the file no operation has succeeded yet; with it the last acknowledged tables are saved. -/
structure Kept (b : Bpb) (m : Machine) : Prop where
  usable : Usable b m.disk
  storable : ∀ s ∈ m.tables, Storable s
  saved : (m.acked = none ∧ NoFile b m.disk) ∨ ∃ s, Saved b m.disk s ∧ ∀ t ∈ m.acked, SameTables t s

theorem step_boot {sync : Bool} (h : fsBootstrap b m.disk load save = some (s, sync, d)) :
    m.step b (.boot load save) = some { tables := some s, sync, disk := d, acked := m.acked } :=
  bind_eq_some_iff.mpr ⟨_, h, rfl⟩

private theorem step_op (h : m.tables = some s) (he : s.exec o = some (t, true)) :
    m.step b (.op o save) = some { tables := some t, sync := m.sync, disk := t.vfsSync b m.disk m.sync save, acked := some t } :=
  bind_eq_some_iff.mpr ⟨s, h, bind_eq_some_iff.mpr ⟨_, he, rfl⟩⟩

def start (d : Disk) : Machine := { tables := none, sync := true, disk := d, acked := none }

theorem Kept.start (hu : Usable b d) (hnone : NoFile b d) : Kept b (start d) where
  usable := hu
  storable _ hs := by cases hs
  saved := .inl ⟨rfl, hnone⟩

theorem Kept.boot (h : Kept b m) (hc : (Event.boot load save).Clean b m)
    (e : m.step b (.boot load save) = some m') : Kept b m' := by
  obtain ⟨⟨s, sync, d⟩, hboot, e⟩ := bind_eq_some_iff.mp e
  cases e
  obtain ⟨hnew, hagain⟩ := hc
  rcases h.saved with ⟨hacked, hnone⟩ | ⟨t, hsaved, hsame⟩
  · rw [boot_first hnone] at hboot
    obtain ⟨u, hb, hu⟩ := Option.map_eq_some_iff.mp hboot
    obtain ⟨rfl, rfl, rfl⟩ : u = s ∧ true = sync ∧ u.vfsSync b m.disk true save = d := by simpa using hu
    have hst := bootstrap_storable hb
    have htables : ∀ v ∈ some u, Storable v := by
      intro v hv
      obtain rfl := Option.some.inj hv
      exact hst
    cases save with
    | false => exact ⟨h.usable, htables, .inl ⟨hacked, hnone⟩⟩
    | true =>
      obtain ⟨husable, hsaved⟩ := sync_new h.usable hnone (hnew hnone rfl) hst
      refine ⟨husable, htables, .inr ⟨_, hsaved, fun t ht => ?_⟩⟩
      rw [hacked] at ht
      cases ht
  · obtain ⟨buf, rfl⟩ := ne_none_iff_exists'.mp (hagain hsaved.found)
    obtain ⟨u, hboot', -, hst⟩ := boot_again h.usable hsaved buf save
    rw [hboot] at hboot'
    obtain ⟨rfl, rfl, rfl⟩ : s = u ∧ sync = false ∧ d = m.disk := by simpa using hboot'
    refine ⟨h.usable, fun v hv => ?_, .inr ⟨t, hsaved, hsame⟩⟩
    cases hv
    exact hst

theorem Kept.sync (h : Kept b m) (ht : Storable t) (hroom : NoFile b m.disk → Room b m.disk) :
    Usable b (t.vfsSync b m.disk true true) ∧ Saved b (t.vfsSync b m.disk true true) t := by
  rcases h.saved with ⟨-, hnone⟩ | ⟨u, hsaved, -⟩
  · exact sync_new h.usable hnone (hroom hnone) ht
  · exact sync_again h.usable hsaved ht

theorem Kept.op (h : Kept b m) (hc : (Event.op o save).Clean b m)
    (e : m.step b (.op o save) = some m') : Kept b m' := by
  obtain ⟨s, hs, e⟩ := bind_eq_some_iff.mp e
  obtain ⟨⟨t, ok⟩, he, e⟩ := bind_eq_some_iff.mp e
  have ht := (h.storable s hs).exec he
  have htables : ∀ v ∈ some t, Storable v := by
    intro v hv
    cases hv
    exact ht
  cases ok with
  | false =>
    cases e
    exact ⟨h.usable, htables, h.saved⟩
  | true =>
    obtain ⟨hsync, rfl, hroom⟩ := hc s hs _ he rfl
    cases e
    rw [hsync]
    obtain ⟨husable, hsaved⟩ := h.sync ht hroom
    refine ⟨husable, htables, .inr ⟨t, hsaved, fun v hv => ?_⟩⟩
    cases hv
    exact .refl _

theorem Kept.step {e : Event} (h : Kept b m) (hc : e.Clean b m) (hs : m.step b e = some m') : Kept b m' := by
  cases e with
  | boot load save => exact h.boot hc hs
  | op o save => exact h.op hc hs

theorem Kept.durable (h : Kept b m) : Durable b m := by
  intro s hs buf save
  obtain ⟨t, hsaved, hsame⟩ := h.saved.resolve_left fun hno => by rw [hno.1] at hs; cases hs
  obtain ⟨u, hboot, hload, -⟩ := boot_again h.usable hsaved buf save
  exact ⟨_, step_boot hboot, u, rfl, (hsame s hs).trans hload⟩

/-- From a disk without the file: in every run whose boots have room and buffers, and whose operations
that succeed run with the flag on, a reboot finds what the last of them left. -/
theorem durable_runs {es : List Event} {m : Machine} (hu : Usable b d) (hnone : NoFile b d)
    (hr : Trace (CleanStep b) (start d) es m) : Durable b m := by
  have hkept : Kept b m := by
    induction hr with
    | nil => exact .start hu hnone
    | snoc _ hs ih => exact ih.step hs.1 hs.2
  exact hkept.durable

private theorem vfsSync_off (s : PhaseA) (b : Bpb) (d : Disk) (buf : Bool) : s.vfsSync b d false buf = d := rfl

private theorem write_succeeds {i : Nat} (htype : (s.inodes i).type = .file) (data : List UInt8) :
    s.exec (.write (some i) data) = some ((s.write (some i) data).1, true) ∧
      ((s.write (some i) data).1.inodes i).size = (data.take blockSize).length := by
  have hwrite : s.write (some i) data = _ := if_neg (not_not_intro htype)
  rw [exec, hwrite]
  refine ⟨rfl, ?_⟩
  simp [setSize, setInode]

/-- A volume of three large clusters after formatting. -/
def wideDisk : Disk where
  bytes x :=
    ([(12, 2), (13, 255), (14, 1), (16, 1), (17, 16), (20, 3), (22, 1), (512, 0xF8), (513, 0xFF), (514, 0xFF),
      (515, 0xFF)].lookup x).getD 0
  written := []
  allocs := []

theorem wideDisk_formatted : Fat16.Formatted (init wideDisk) wideDisk where
  geometry := ⟨by decide +kernel, by decide +kernel⟩
  cluster := by decide +kernel
  fat c h2 hlt := by
    have htable : ∀ c < 256 * (init wideDisk).sectorsPerFat, 2 ≤ c → getFatEntry (init wideDisk) wideDisk c = 0 := by
      decide +kernel
    exact htable c hlt h2
  packed := by decide +kernel
  labels := by decide +kernel

theorem wideDisk_usable : Usable (init wideDisk) wideDisk where
  geometry := wideDisk_formatted.geometry
  cluster := wideDisk_formatted.cluster
  tree := ⟨_, wideDisk_formatted.tree⟩
  scans _ hp := by cases hp

theorem wideDisk_empty : NoFile (init wideDisk) wideDisk := by
  rw [NoFile]
  decide +kernel

theorem wideDisk_room : Room (init wideDisk) wideDisk where
  slot := by decide +kernel
  clusters := by
    refine ⟨[2, 3, 4], ⟨by decide, ?_, by decide, ?_⟩, ?_⟩
    all_goals decide +kernel

private theorem bootstrap_readme : ∃ s, bootstrap = some s ∧ (s.inodes 8).type = .file ∧ (s.inodes 8).size = 60 := by
  have hev : ∃ s ∈ bootstrap, (s.inodes 8).type = .file ∧ (s.inodes 8).size = 60 := by decide +kernel
  exact hev

private theorem wideDisk_boot (hb : bootstrap = some s) : ∃ d,
    (start wideDisk).step (init wideDisk) (.boot none true) =
      some { tables := some s, sync := true, disk := d, acked := none } ∧
    Usable (init wideDisk) d ∧ Saved (init wideDisk) d s := by
  have hboot : fsBootstrap (init wideDisk) wideDisk none true =
      some (s, true, s.vfsSync (init wideDisk) wideDisk true true) := by
    rw [boot_first wideDisk_empty, hb, map_some]
  exact ⟨_, step_boot hboot, sync_new wideDisk_usable wideDisk_empty wideDisk_room (bootstrap_storable hb)⟩

/-- A file is written after the first boot, and a reboot finds it. -/
theorem write_survives : ∃ m s, Trace (CleanStep (init wideDisk)) (start wideDisk)
      [.boot none true, .op (.write (some 8) [1]) true] m ∧
    m.acked = some s ∧ (s.inodes 8).size = 1 ∧ Durable (init wideDisk) m := by
  obtain ⟨s, hb, htype, -⟩ := bootstrap_readme
  obtain ⟨d, hone, -, hsaved⟩ := wideDisk_boot hb
  obtain ⟨hexec, hsize⟩ := write_succeeds htype [1]
  have r₁ : Trace (CleanStep (init wideDisk)) (start wideDisk) [.boot none true]
      { tables := some s, sync := true, disk := d, acked := none } :=
    Trace.nil.snoc ⟨⟨fun _ _ => wideDisk_room, fun hno => absurd wideDisk_empty hno⟩, hone⟩
  have hclean : (Event.op (.write (some 8) [1]) true).Clean (init wideDisk)
      { tables := some s, sync := true, disk := d, acked := none } :=
    fun _ _ _ _ _ => ⟨rfl, rfl, fun hno => absurd hno hsaved.found⟩
  have r₂ := r₁.snoc ⟨hclean, step_op rfl hexec⟩
  exact ⟨_, _, r₂, rfl, hsize, durable_runs wideDisk_usable wideDisk_empty r₂⟩

/-- The save has room: in the clusters of the file, or to create it. -/
def HasSpace (b : Bpb) (d : Disk) : Prop :=
  match Fat16.findEntry b d 0 truthDat with
  | some (some a) => Fat16.HasRoom b d (Fat16.firstCluster d a) totalSize
  | _ => Room b d

def SpaceStep (b : Bpb) (m : Machine) (e : Event) (m' : Machine) : Prop := HasSpace b m.disk ∧ m.step b e = some m'

theorem Room.space (h : Room b d) (hnone : NoFile b d) : HasSpace b d := by
  rw [NoFile] at hnone
  rw [HasSpace, hnone]
  exact h

theorem Saved.space (hu : Usable b d) (h : Saved b d s) : HasSpace b d := by
  obtain ⟨ch, htree⟩ := hu.tree
  obtain ⟨a, l, hst⟩ := h.stored
  have hroom := hst.room
  rw [image_length] at hroom
  rw [HasSpace, findEntry_root, hst.found]
  exact .inl ⟨l, hst.chain, hst.inVolume htree, hroom⟩

/-- The second boot leaves the saving off, so that what it writes is not there at the third. -/
theorem later_write_lost : ∃ d m, Usable (init d) d ∧ NoFile (init d) d ∧
    Trace (SpaceStep (init d)) (start d)
      [.boot none true, .boot (some fun _ => 0) true, .op (.write (some 8) [1]) true] m ∧
    m.acked.isSome ∧ ¬ Durable (init d) m := by
  obtain ⟨s, hb, htype, hold⟩ := bootstrap_readme
  obtain ⟨d, hone, hu, hsaved⟩ := wideDisk_boot hb
  obtain ⟨t, hagain, hsame, -⟩ := boot_again hu hsaved (fun _ => 0) true
  have hspace := hsaved.space hu
  have ht := hsame.inodes 8 (by decide)
  have htype' : (t.inodes 8).type = .file := (congrArg Inode.type ht).trans htype
  obtain ⟨hexec, hsize⟩ := write_succeeds htype' [1]
  have r₁ : Trace (SpaceStep (init wideDisk)) (start wideDisk) [.boot none true]
      { tables := some s, sync := true, disk := d, acked := none } :=
    Trace.nil.snoc ⟨wideDisk_room.space wideDisk_empty, hone⟩
  have r₂ : Trace (SpaceStep (init wideDisk)) (start wideDisk) [.boot none true, .boot (some fun _ => 0) true]
      { tables := some t, sync := false, disk := d, acked := none } :=
    r₁.snoc ⟨hspace, step_boot hagain⟩
  -- The flag is off, so that the disk stays the one of the first boot.
  have hthree : Machine.step (init wideDisk) { tables := some t, sync := false, disk := d, acked := none }
      (.op (.write (some 8) [1]) true) = _ := step_op rfl hexec
  have r₃ := r₂.snoc ⟨hspace, hthree⟩
  refine ⟨wideDisk, _, wideDisk_usable, wideDisk_empty, r₃, rfl, fun h => ?_⟩
  obtain ⟨m', hm', u, hu', hlost⟩ := h _ rfl (fun _ => 0) true
  obtain ⟨v, hthird, hloaded, -⟩ := boot_again hu hsaved (fun _ => 0) true
  cases hm'.symm.trans (step_boot hthird)
  cases hu'
  have hsame' := (hlost.inodes 8 (by decide)).symm.trans (hloaded.inodes 8 (by decide))
  have hsizes := hsize.symm.trans (congrArg Inode.size hsame')
  rw [hold] at hsizes
  exact absurd hsizes (by decide)

end PhaseA
end RetroOs.Kernel
