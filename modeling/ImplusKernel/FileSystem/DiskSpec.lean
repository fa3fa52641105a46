import ImplusKernel.FileSystem.Fat32

/-!
# What the disk operations do

Reads change nothing but the command counter and the serial output; a write
changes at most one sector.  A lookup in the FAT yields the entry on disk
unless the drive fails.
-/

namespace ImplusKernel.Disk

open ByteMemory

variable {drive : Drive} {io : IoState}

/-- Every command succeeds. -/
def Drive.Works (drive : Drive) : Prop :=
  ∀ n, drive.readStatus n = .ready ∧ drive.writeOk n = true

/-- Every read command succeeds. -/
def Drive.Reads (drive : Drive) : Prop := ∀ n, drive.readStatus n = .ready

theorem Drive.Works.reads (h : drive.Works) : drive.Reads := fun n ↦ (h n).1

theorem readCommands_keeps (drive : Drive) (n : ℕ) (io : IoState) :
    (readCommands drive n io).1.sectors = io.sectors ∧
      (readCommands drive n io).1.written = io.written := by
  induction n generalizing io with
  | zero => exact ⟨rfl, rfl⟩
  | succ n ih =>
      rw [readCommands]
      cases drive.readStatus io.commands with
      | ready => exact ih _
      | bsyTimeout => exact ⟨rfl, rfl⟩
      | diskError => exact ⟨rfl, rfl⟩
      | drqTimeout => exact ⟨rfl, rfl⟩

theorem readCommands_works (hreads : drive.Reads) (n : ℕ) (io : IoState) :
    readCommands drive n io = ({ io with commands := io.commands + n }, true) := by
  induction n generalizing io with
  | zero => rfl
  | succ n ih =>
      rw [readCommands, hreads io.commands]
      simp only
      rw [ih]
      simp only [Nat.add_assoc, Nat.add_comm 1 n]

/-- The bytes that a transfer of `n` sectors delivers, and what the stack
held after them. -/
def transferred (sectors : ℕ → Mem) (stack : Mem) (lba n : ℕ) : Mem := fun i ↦
  if i < 512 * n then sectors (sectorOf lba (i / 512)) (i % 512) else stack i

theorem transferred_one (sectors : ℕ → Mem) (stack : Mem) (lba : ℕ) {i : ℕ} (hi : i < 512) :
    transferred sectors stack lba 1 i = sectors (sectorOf lba 0) i := by
  rw [transferred, if_pos (by omega), Nat.div_eq_of_lt hi, Nat.mod_eq_of_lt hi]

theorem diskRead_sectors (drive : Drive) (io : IoState) (lba n : ℕ) :
    (diskRead drive io lba n).1.sectors = io.sectors := by
  unfold diskRead
  by_cases hn : n = 0
  · rw [if_pos hn]
  · rw [if_neg hn]
    exact (readCommands_keeps drive n io).1

theorem diskRead_written (drive : Drive) (io : IoState) (lba n : ℕ) :
    (diskRead drive io lba n).1.written = io.written := by
  unfold diskRead
  by_cases hn : n = 0
  · rw [if_pos hn]
  · rw [if_neg hn]
    exact (readCommands_keeps drive n io).2

theorem diskRead_works (hreads : drive.Reads) (io : IoState) (lba : ℕ) {n : ℕ} (hn : n ≠ 0) :
    diskRead drive io lba n = ({ io with commands := io.commands + n },
      some (transferred io.sectors (drive.stack io.commands) lba n)) := by
  unfold diskRead
  rw [if_neg hn, readCommands_works hreads]
  rfl

/-- A one-sector read. -/
theorem diskRead_one (drive : Drive) (io : IoState) (lba : ℕ) :
    (drive.readStatus io.commands = .ready ∧ diskRead drive io lba 1 =
        ({ io with commands := io.commands + 1 },
          some (transferred io.sectors (drive.stack io.commands) lba 1))) ∨
      drive.readStatus io.commands ≠ .ready ∧ (diskRead drive io lba 1).2 = none := by
  rw [diskRead, if_neg one_ne_zero]
  cases hstatus : drive.readStatus io.commands with
  | ready =>
      refine Or.inl ⟨rfl, ?_⟩
      simp only [readCommands, hstatus, if_true]
      rfl
  | bsyTimeout => exact Or.inr ⟨by simp, by simp [readCommands, hstatus]⟩
  | diskError => exact Or.inr ⟨by simp, by simp [readCommands, hstatus]⟩
  | drqTimeout => exact Or.inr ⟨by simp, by simp [readCommands, hstatus]⟩

/-- A one-sector write. -/
theorem diskWrite_one (drive : Drive) (io : IoState) (lba : ℕ) (buffer : Mem) :
    diskWrite drive io lba buffer 1 =
      if drive.writeOk io.commands then
        ({ io with
          sectors := Function.update io.sectors (sectorOf lba 0) buffer
          commands := io.commands + 1
          written := lba :: io.written }, true)
      else ({ io with commands := io.commands + 1, written := lba :: io.written }, false) := by
  simp [diskWrite, writeCommands]

end ImplusKernel.Disk

namespace ImplusKernel.Fat32

open ByteMemory Disk

variable {drive : Drive} {bpb : Bpb} {io : IoState} {cluster : ℕ}

/-! ## The file allocation table -/

/-- The first sector after the reserved area and the FATs, without
wrap-around. -/
def metadataEnd (bpb : Bpb) : ℕ := bpb.reservedSectors + bpb.numFats * bpb.fatSizeSectors

theorem two_le_of_clusterToLba (h : clusterToLba bpb cluster ≠ 0) :
    2 ≤ cluster := by
  by_contra hlt
  exact h (if_pos (by omega))

def fatSector (bpb : Bpb) (cluster : ℕ) : ℕ :=
  (fatStartLba bpb + cluster * 4 % 2 ^ 32 / bpb.bytesPerSector) % 2 ^ 32

def fatOffset (bpb : Bpb) (cluster : ℕ) : ℕ := cluster * 4 % 2 ^ 32 % bpb.bytesPerSector

/-- The link stored for a cluster, as a lookup reads it over the given
stack contents. -/
def fatEntry (bpb : Bpb) (sectors : ℕ → Mem) (stack : Mem) (cluster : ℕ) : ℕ :=
  readLE (transferred sectors stack (fatSector bpb cluster) 1) (fatOffset bpb cluster) 4 &&&
    0x0FFFFFFF

/-- A lookup reaches the disk. -/
def HasEntry (bpb : Bpb) (cluster : ℕ) : Prop :=
  2 ≤ cluster ∧ cluster < 0x0FFFFFF8 ∧ fatOffset bpb cluster + 4 ≤ bpb.bytesPerSector

theorem fatGetNextCluster_eq (h : HasEntry bpb cluster) :
    fatGetNextCluster drive bpb io cluster =
      match diskRead drive io (fatSector bpb cluster) 1 with
      | (io', none) => (io', 0x0FFFFFFF)
      | (io', some buf) => (io', readLE buf (fatOffset bpb cluster) 4 &&& 0x0FFFFFFF) := by
  obtain ⟨hlow, hhigh, hfit⟩ := h
  unfold fatGetNextCluster
  rw [if_neg (by omega)]
  exact if_neg (not_lt.mpr hfit)

theorem fatGetNextCluster_of_not (h : ¬HasEntry bpb cluster) :
    fatGetNextCluster drive bpb io cluster = (io, 0x0FFFFFFF) := by
  unfold fatGetNextCluster
  by_cases hrange : cluster < 2 ∨ 0x0FFFFFF8 ≤ cluster
  · rw [if_pos hrange]
  · rw [if_neg hrange]
    refine if_pos (not_le.mp fun hfit ↦ h ⟨by omega, by omega, hfit⟩)

theorem fatGetNextCluster_keeps (drive : Drive) (bpb : Bpb) (io : IoState) (cluster : ℕ) :
    (fatGetNextCluster drive bpb io cluster).1.sectors = io.sectors ∧
      (fatGetNextCluster drive bpb io cluster).1.written = io.written := by
  by_cases h : HasEntry bpb cluster
  · rw [fatGetNextCluster_eq h]
    have hsectors := diskRead_sectors drive io (fatSector bpb cluster) 1
    have hwritten := diskRead_written drive io (fatSector bpb cluster) 1
    cases hread : diskRead drive io (fatSector bpb cluster) 1 with
    | mk io' buf =>
        rw [hread] at hsectors hwritten
        cases buf <;> exact ⟨hsectors, hwritten⟩
  · rw [fatGetNextCluster_of_not h]
    exact ⟨rfl, rfl⟩

theorem fatGetNextCluster_ready (hready : drive.readStatus io.commands = .ready)
    (h : HasEntry bpb cluster) :
    fatGetNextCluster drive bpb io cluster =
      ({ io with commands := io.commands + 1 },
        fatEntry bpb io.sectors (drive.stack io.commands) cluster) := by
  rw [fatGetNextCluster_eq h]
  rcases diskRead_one drive io (fatSector bpb cluster) with ⟨-, hread⟩ | ⟨hnot, -⟩
  · rw [hread]
    rfl
  · exact absurd hready hnot

/-- Only a lookup that reaches the disk and is answered keeps a chain going. -/
theorem fatGetNextCluster_goes_on
    (h : chainEnds (fatGetNextCluster drive bpb io cluster).2 = false) :
    HasEntry bpb cluster ∧ drive.readStatus io.commands = .ready := by
  by_cases hentry : HasEntry bpb cluster
  · refine ⟨hentry, ?_⟩
    rw [fatGetNextCluster_eq hentry] at h
    rcases diskRead_one drive io (fatSector bpb cluster) with ⟨hready, -⟩ | ⟨-, hnone⟩
    · exact hready
    · generalize diskRead drive io (fatSector bpb cluster) 1 = r at h hnone
      obtain ⟨io', buf⟩ := r
      obtain rfl : buf = none := hnone
      simp [chainEnds] at h
  · rw [fatGetNextCluster_of_not hentry] at h
    simp [chainEnds] at h

theorem fatGetNextCluster_works (hreads : drive.Reads) (h : HasEntry bpb cluster) :
    fatGetNextCluster drive bpb io cluster =
      ({ io with commands := io.commands + 1 },
        fatEntry bpb io.sectors (drive.stack io.commands) cluster) :=
  fatGetNextCluster_ready (hreads _) h

/-- Up to 512 bytes a sector, links do not depend on the stack. -/
theorem fatEntry_congr {sectors sectors' : ℕ → Mem} (stack stack' : Mem)
    (hbps : bpb.bytesPerSector ≤ 512) (h : HasEntry bpb cluster)
    (hsame : ∀ i < 512, sectors' (sectorOf (fatSector bpb cluster) 0) i =
      sectors (sectorOf (fatSector bpb cluster) 0) i) :
    fatEntry bpb sectors' stack' cluster = fatEntry bpb sectors stack cluster := by
  have hread : readLE (transferred sectors' stack' (fatSector bpb cluster) 1)
      (fatOffset bpb cluster) 4 =
      readLE (transferred sectors stack (fatSector bpb cluster) 1) (fatOffset bpb cluster) 4 := by
    apply readLE_congr
    intro x _ hx
    have hfit := h.2.2
    rw [transferred_one _ _ _ (by omega), transferred_one _ _ _ (by omega)]
    exact hsame x (by omega)
  rw [fatEntry, fatEntry, hread]

/-! ## A small volume -/

/-- A drive on which every command succeeds. -/
def faultless : Drive where
  readStatus := fun _ ↦ .ready
  writeOk := fun _ ↦ true
  stack := fun _ _ ↦ 0

def sampleBpb : Bpb := ⟨512, 1, 32, 2, 34, 2⟩

/-- The name `A`, padded to eleven bytes. -/
def sampleName : List UInt8 := 65 :: List.replicate 10 32

end ImplusKernel.Fat32
