import ImplusKernel.FileSystem.DiskSpec
import ImplusKernel.Loader.UserlandElf

/-!
# Mounting at boot

`fat32_init` stores the fields of the boot sector in the static `bpb` before it
checks them, and `all_fs_initialize` drops its answer.  Whether a search after a
failed mount can succeed depends on the fields alone.
-/

namespace ImplusKernel.Loader

open ByteMemory Disk Fat32 Syscall

/-- The static `bpb` before anything is stored in it. -/
def unmounted : Bpb := ⟨0, 0, 0, 0, 0, 0⟩

def allFsInitialize (drive : Drive) (m : Machine) : Machine :=
  let (io, bpb, _) := fat32Init drive m.io m.bpb
  { m with io := io, bpb := bpb }

/-- The bytes of the boot sector that are stored. -/
def bpbBytes : List ℕ := [11, 12, 13, 14, 15, 16, 36, 37, 38, 39, 44, 45, 46, 47]

variable {drive : Drive} {bpb : Bpb} {m : Machine}

/-! ## What is stored -/

theorem readLE_eq_zero_iff {mem : Mem} {a n : ℕ} :
    readLE mem a n = 0 ↔ ∀ j < n, mem (a + j) = 0 := by
  induction n generalizing a with
  | zero => simp [readLE]
  | succ n ih =>
      rw [readLE, Nat.add_eq_zero_iff, Nat.mul_eq_zero, ih]
      constructor
      · rintro ⟨hhead, htail⟩ j hj
        cases j with
        | zero => exact UInt8.toNat_inj.mp hhead
        | succ j =>
            rw [← Nat.add_assoc, Nat.add_right_comm]
            exact htail.resolve_left (by decide) j (by omega)
      · intro h
        refine ⟨UInt8.toNat_inj.mpr (h 0 (by omega)), Or.inr fun j hj ↦ ?_⟩
        rw [Nat.add_assoc, Nat.add_comm 1]
        exact h (j + 1) (by omega)

theorem parseBpb_eq_unmounted_iff (sector : Mem) :
    parseBpb sector = unmounted ↔ ∀ i ∈ bpbBytes, sector i = 0 := by
  simp only [parseBpb, unmounted, Bpb.mk.injEq, readLE_eq_zero_iff, bpbBytes, List.forall_mem_cons,
    Nat.forall_lt_succ_left, Nat.not_lt_zero, false_implies, implies_true]
  simp [and_assoc]

/-- The first read of the boot, which takes one command. -/
theorem diskRead_boot (drive : Drive) (io : IoState) :
    (diskRead drive io 0 1).2 = if drive.readStatus io.commands = .ready then
      some (transferred io.sectors (drive.stack io.commands) 0 1) else none := by
  rw [diskRead, if_neg one_ne_zero]
  cases hstatus : drive.readStatus io.commands with
  | ready =>
      simp only [readCommands, hstatus, if_true]
      rfl
  | bsyTimeout => simp [readCommands, hstatus]
  | diskError => simp [readCommands, hstatus]
  | drqTimeout => simp [readCommands, hstatus]

theorem transferred_boot (sectors : ℕ → Mem) (stack : Mem) :
    parseBpb (transferred sectors stack 0 1) = parseBpb (sectors fat32StartLba) := by
  have hfield : ∀ a n, a + n ≤ 512 → readLE (transferred sectors stack 0 1) a n =
      readLE (sectors fat32StartLba) a n := by
    intro a n hfit
    apply readLE_congr
    intro x _ hx
    exact transferred_one _ _ _ (by omega)
  simp only [parseBpb, hfield _ _ (by decide : 11 + 2 ≤ 512), hfield _ _ (by decide : 13 + 1 ≤ 512),
    hfield _ _ (by decide : 14 + 2 ≤ 512), hfield _ _ (by decide : 16 + 1 ≤ 512),
    hfield _ _ (by decide : 36 + 4 ≤ 512), hfield _ _ (by decide : 44 + 4 ≤ 512)]

/-- The boot sector's fields take effect whenever they could be read. -/
theorem fat32Init_eq (drive : Drive) (io : IoState) (bpb : Bpb) :
    (fat32Init drive io bpb).2 = if drive.readStatus io.commands = .ready then
      (parseBpb (io.sectors fat32StartLba), (parseBpb (io.sectors fat32StartLba)).accepted)
    else (bpb, false) := by
  have hread := diskRead_boot drive io
  rw [fat32Init]
  generalize diskRead drive io 0 1 = r at hread
  obtain ⟨io', buf⟩ := r
  by_cases hready : drive.readStatus io.commands = .ready
  · rw [if_pos hready] at hread ⊢
    obtain rfl : buf = some _ := hread
    simp only [transferred_boot]
    cases haccepted : (parseBpb (io.sectors fat32StartLba)).accepted <;> rfl
  · rw [if_neg hready] at hread ⊢
    obtain rfl : buf = none := hread
    rfl

/-! ## Searches -/

/-- A search never gets to an entry of the directory. -/
def Unsearchable (bpb : Bpb) : Prop :=
  maxClusters bpb = 0 ∨ bpb.sectorsPerCluster = 0 ∨ clusterToLba bpb bpb.rootCluster = 0

theorem unsearchable_unmounted : Unsearchable unmounted := Or.inl rfl

theorem searchClusters_empty (hspc : bpb.sectorsPerCluster = 0) (name : List UInt8) (n : ℕ)
    (io : IoState) (cluster : ℕ) :
    (searchClusters drive bpb name n io cluster).2 = none := by
  induction n generalizing io cluster with
  | zero => rfl
  | succ n ih =>
      rw [searchClusters, hspc, List.range_zero, searchSectors]
      dsimp only
      split
      · rfl
      · exact ih _ _

theorem Unsearchable.fat32FindFile (h : Unsearchable bpb) (io : IoState) (name : List UInt8) :
    (Fat32.fat32FindFile drive bpb io name).2 = none := by
  rw [Fat32.fat32FindFile]
  rcases h with hmax | hspc | hlba
  · rw [hmax, searchClusters]
  · exact searchClusters_empty hspc name _ io _
  by_cases hspc : bpb.sectorsPerCluster = 0
  · exact searchClusters_empty hspc name _ io _
  obtain ⟨m, hm⟩ := Nat.exists_eq_succ_of_ne_zero hspc
  cases maxClusters bpb with
  | zero => rfl
  | succ n =>
      rw [searchClusters, hm, List.range_eq_range', List.range'_succ, searchSectors, if_pos hlba]

/-- Every sector begins with an entry of the name `AAAAAAAAAAA`. -/
def uniformDisk : IoState where
  sectors := fun _ i ↦ if i < 11 then 65 else 0
  commands := 0
  written := []
  serial := []

/-- Other geometries find a file on some disk. -/
theorem fat32FindFile_uniformDisk (hworks : drive.Works) (h : ¬Unsearchable bpb) :
    (fat32FindFile drive bpb uniformDisk (List.replicate 11 65)).2 ≠ none := by
  rw [Unsearchable, not_or, not_or] at h
  obtain ⟨hmax, hspc, hlba⟩ := h
  obtain ⟨n, hn⟩ := Nat.exists_eq_succ_of_ne_zero hmax
  obtain ⟨m, hm⟩ := Nat.exists_eq_succ_of_ne_zero hspc
  have hoffsets : ∃ rest, entryOffsets bpb = 0 :: rest := by
    have hbps : bpb.bytesPerSector ≠ 0 := by
      intro hzero
      simp [maxClusters, hzero] at hmax
    obtain ⟨k, hk⟩ := Nat.exists_eq_succ_of_ne_zero
      (show (bpb.bytesPerSector + 31) / 32 ≠ 0 by omega)
    exact ⟨_, by rw [entryOffsets, hk, List.range_succ_eq_map]; rfl⟩
  obtain ⟨rest, hrest⟩ := hoffsets
  have hfound : ∀ stack lba, scanEntries (List.replicate 11 65)
      (transferred uniformDisk.sectors stack lba 1) (entryOffsets bpb) =
        .found (parseEntry (transferred uniformDisk.sectors stack lba 1) 0) := by
    intro stack lba
    have hbyte : ∀ i < 512, transferred uniformDisk.sectors stack lba 1 i =
        if i < 11 then 65 else 0 := fun i hi ↦ transferred_one _ _ _ hi
    have hname :
        sameName (List.replicate 11 65) (transferred uniformDisk.sectors stack lba 1) 0 := by
      rw [sameName, List.all_eq_true]
      intro k hk
      rw [List.mem_range] at hk
      rw [Nat.zero_add, hbyte k (by omega), if_pos hk]
      exact decide_eq_true (List.getD_replicate _ hk)
    rw [hrest, scanEntries, hbyte 0 (by decide), hbyte (0 + 11) (by decide), if_pos hname]
    rfl
  rw [fat32FindFile, hn, searchClusters, hm, List.range_eq_range', List.range'_succ, searchSectors,
    if_neg hlba, diskRead_works hworks.reads _ _ one_ne_zero]
  simp only [hfound]
  exact Option.some_ne_none _

/-! ## After a failed mount -/

/-- The geometry is as it was before the mount, and nothing that searches the
directory succeeds any more. -/
structure StaysUnmounted (drive : Drive) (bpb : Bpb) : Prop where
  geometry : bpb = unmounted
  searches : ∀ io name, (fat32FindFile drive bpb io name).2 = none
  opens : ∀ m : Machine, m.bpb = bpb → ∀ path flags, (syscallFileOpen drive m path flags).2 = -1
  loads : ∀ m : Machine, m.bpb = bpb → ∃ m', loadUserlandElf drive m = some ⟨[], some (m', none)⟩

theorem staysUnmounted_iff (drive : Drive) (bpb : Bpb) :
    StaysUnmounted drive bpb ↔ bpb = unmounted := by
  refine ⟨StaysUnmounted.geometry, ?_⟩
  rintro rfl
  have hsearch (io : IoState) (name : List UInt8) :
      (fat32FindFile drive unmounted io name).2 = none :=
    unsearchable_unmounted.fat32FindFile io name
  refine ⟨rfl, hsearch, ?_, ?_⟩
  · intro m hm path flags
    rw [syscallFileOpen]
    split
    · rfl
    next name _ =>
      have hnone := hsearch m.io name
      rw [← hm] at hnone
      generalize fat32FindFile drive m.bpb m.io name = r at hnone
      obtain ⟨io, file⟩ := r
      obtain rfl : file = none := hnone
      rfl
  · intro m hm
    have hnone := hsearch m.io userlandName
    rw [← hm] at hnone
    rw [loadUserlandElf, readImage]
    generalize fat32FindFile drive m.bpb m.io userlandName = r at hnone
    obtain ⟨io, file⟩ := r
    obtain rfl : file = none := hnone
    exact ⟨_, rfl⟩

/-- A failed mount leaves the kernel unmounted exactly when there is none, or
the boot sector could not be read, or all of its stored bytes are zero.  On a
drive without faults it makes every search fail, whatever the disk holds,
exactly when there is none or the stored geometry is inert. -/
theorem failed_mount_iff (drive : Drive) {m : Machine} (hboot : m.bpb = unmounted) :
    (((fat32Init drive m.io m.bpb).2.2 = false →
        StaysUnmounted drive (allFsInitialize drive m).bpb) ↔
      drive.readStatus m.io.commands ≠ .ready ∨
        (parseBpb (m.io.sectors fat32StartLba)).accepted = true ∨
        ∀ i ∈ bpbBytes, m.io.sectors fat32StartLba i = 0) ∧
    (drive.Works →
      (((fat32Init drive m.io m.bpb).2.2 = false →
          ∀ io name, (fat32FindFile drive (allFsInitialize drive m).bpb io name).2 = none) ↔
        (parseBpb (m.io.sectors fat32StartLba)).accepted = true ∨
          Unsearchable (parseBpb (m.io.sectors fat32StartLba)))) := by
  have hbpb : (allFsInitialize drive m).bpb = (fat32Init drive m.io m.bpb).2.1 := rfl
  rw [hbpb, fat32Init_eq, hboot, staysUnmounted_iff, ← parseBpb_eq_unmounted_iff]
  constructor
  · by_cases hready : drive.readStatus m.io.commands = .ready
    · rw [if_pos hready]
      cases (parseBpb (m.io.sectors fat32StartLba)).accepted <;> simp [hready]
    · simp [hready]
  · intro hworks
    rw [if_pos (hworks _).1]
    cases (parseBpb (m.io.sectors fat32StartLba)).accepted with
    | true => simp
    | false =>
        simp only [true_implies, Bool.false_eq_true, false_or]
        constructor
        · intro hnone
          by_contra hinert
          exact fat32FindFile_uniformDisk hworks hinert (hnone _ _)
        · intro hinert io name
          exact hinert.fat32FindFile io name

/-- The machine before the mount, with the path `A` at `0x2000`. -/
def beforeMount (sectors : ℕ → Mem) : Machine where
  memory := .boot fun x ↦ if x = 0x2000 then 65 else 0
  io := ⟨sectors, 0, [], []⟩
  bpb := unmounted
  files _ := .cleared

theorem failed_mount_blank_drive :
    (fat32Init faultless (beforeMount fun _ _ ↦ 0).io unmounted).2.2 = false ∧
      StaysUnmounted faultless (allFsInitialize faultless (beforeMount fun _ _ ↦ 0)).bpb := by
  have hfail : (fat32Init faultless (beforeMount fun _ _ ↦ 0).io unmounted).2.2 = false := rfl
  exact ⟨hfail, (failed_mount_iff faultless rfl).1.mpr (Or.inr (Or.inr fun _ _ ↦ rfl)) hfail⟩

/-- A boot sector that is valid but for its three FATs, and the directory with
the file `A` where that geometry puts it. -/
def threeFats : ℕ → Mem := fun s ↦
  if s = 2048 then fun
    | 12 => 2 | 13 => 1 | 14 => 32 | 16 => 3 | 36 => 34 | 44 => 2 | _ => 0
  else if s = 2182 then fun i ↦ if i = 0 then 65 else if i < 12 then 32 else 0
  else fun _ ↦ 0

/-- The mount fails, and the file is found and opened all the same. -/
theorem failed_mount_takes_effect :
    (fat32Init faultless (beforeMount threeFats).io unmounted).2.2 = false ∧
      (allFsInitialize faultless (beforeMount threeFats)).bpb = ⟨512, 1, 32, 3, 34, 2⟩ ∧
      (fat32FindFile faultless (allFsInitialize faultless (beforeMount threeFats)).bpb
        (allFsInitialize faultless (beforeMount threeFats)).io sampleName).2 =
          some ⟨sampleName, 0, 0⟩ ∧
      (syscallFileOpen faultless (allFsInitialize faultless (beforeMount threeFats)) 0x2000 0).2 =
        0 :=
  ⟨rfl, rfl, rfl, rfl⟩

end ImplusKernel.Loader
