import ImplusKernel.FileSystem.FileWrite

/-!
# File writes and file-system metadata

`cluster_to_lba` multiplies and adds in 32 bits, the first cluster of a file
comes unmasked from its directory entry, and `disk_write` passes 28 bits of a
sector number on to the drive.  So a write can wrap around into the FATs or the
boot sector.  It spares them exactly when no sector that takes data wraps.

Which sectors take data is a matter of the links as they are when the write
follows them, with the data of the clusters before in place, and of how far the
drive answers.
-/

namespace ImplusKernel.Fat32

open ByteMemory Disk

/-! ## Sectors of the metadata -/

/-- A sector of the drive in the reserved area or a FAT. -/
def MetadataSector (bpb : Bpb) (s : ℕ) : Prop := ∃ lba < metadataEnd bpb, s = sectorOf lba 0

/-- A write at `lba` goes past the metadata, also once the drive has its 28
bits of it. -/
def Spares (bpb : Bpb) (lba : ℕ) : Prop :=
  metadataEnd bpb ≤ lba ∧ ¬MetadataSector bpb (sectorOf lba 0)

theorem spares_iff {bpb : Bpb} {lba : ℕ} : Spares bpb lba ↔ metadataEnd bpb ≤ lba % 2 ^ 28 := by
  constructor
  · rintro ⟨-, hnot⟩
    by_contra hlt
    refine hnot ⟨lba % 2 ^ 28, not_le.mp hlt, ?_⟩
    simp only [sectorOf, fat32StartLba]
    omega
  · intro hle
    refine ⟨hle.trans (Nat.mod_le _ _), ?_⟩
    rintro ⟨l, hl, heq⟩
    simp only [sectorOf, fat32StartLba] at heq
    omega

theorem spares_sectorLba_iff {bpb : Bpb} {cluster : ℕ} (hcluster : 2 ≤ cluster) (sec : ℕ) :
    Spares bpb (sectorLba bpb cluster sec) ↔
      metadataEnd bpb + ((cluster - 2) * bpb.sectorsPerCluster + sec) % 2 ^ 28 < 2 ^ 28 := by
  have hlba : sectorLba bpb cluster sec =
      (metadataEnd bpb + ((cluster - 2) * bpb.sectorsPerCluster + sec)) % 2 ^ 32 := by
    rw [sectorLba, clusterToLba, if_neg (by omega), dataStartLba, metadataEnd, Nat.mod_add_mod,
      Nat.add_assoc, Nat.mod_add_mod]
  rw [spares_iff, hlba]
  omega

/-! ## Sectors that take data -/

section Chain

variable (drive : Drive) (bpb : Bpb) (io : IoState) (file : Fat32File) (buffer : Mem)

/-- The disk after the first `k` sectors of cluster number `j` of the file are
in cluster `c`. -/
def laid (j c : ℕ) (disk : ℕ → Mem) : ℕ → ℕ → Mem
  | 0 => disk
  | k + 1 => Function.update (laid j c disk k) (sectorOf (sectorLba bpb c k) 0) fun i ↦
      buffer ((j * bpb.sectorsPerCluster + k) * bpb.bytesPerSector + i)

/-- The command that writes sector `k` of cluster number `j`; each cluster before
took one for each sector and one for its link. -/
def commandOf (j k : ℕ) : ℕ := io.commands + j * (bpb.sectorsPerCluster + 1) + k

/-- The link of cluster number `j`, read once its sectors are written. -/
def linkRead (j c : ℕ) (disk : ℕ → Mem) : ℕ :=
  fatEntry bpb (laid bpb buffer j c disk bpb.sectorsPerCluster)
    (drive.stack (commandOf bpb io j bpb.sectorsPerCluster)) c

/-- The write comes to cluster number `j` of the file, which is `c`, on this
disk. -/
inductive Reaches : ℕ → ℕ → (ℕ → Mem) → Prop
  | first : Reaches 0 file.firstCluster io.sectors
  | next {j c : ℕ} {disk : ℕ → Mem} (h : Reaches j c disk) (hlba : clusterToLba bpb c ≠ 0)
      (hleft : (j + 1) * bpb.sectorsPerCluster * bpb.bytesPerSector < file.size)
      (hsectors : ∀ k < bpb.sectorsPerCluster, drive.writeOk (commandOf bpb io j k) = true)
      (hentry : HasEntry bpb c)
      (hlink : drive.readStatus (commandOf bpb io j bpb.sectorsPerCluster) = .ready)
      (hnext : chainEnds (linkRead drive bpb io buffer j c disk) = false) :
      Reaches (j + 1) (linkRead drive bpb io buffer j c disk)
        (laid bpb buffer j c disk bpb.sectorsPerCluster)

/-- Sector `sec` of cluster number `j`, which is `c`, is given data. -/
structure TakesData (j c sec : ℕ) : Prop where
  reaches : ∃ disk, Reaches drive bpb io file buffer j c disk
  allowed : j < maxClusters bpb
  lba : clusterToLba bpb c ≠ 0
  sec_lt : sec < bpb.sectorsPerCluster
  left : (j * bpb.sectorsPerCluster + sec) * bpb.bytesPerSector < file.size
  before : ∀ k < sec, drive.writeOk (commandOf bpb io j k) = true
  /-- A sector that the file ends in is read first. -/
  part : file.size < (j * bpb.sectorsPerCluster + sec + 1) * bpb.bytesPerSector →
    drive.readStatus (commandOf bpb io j sec) = .ready

end Chain

variable {drive : Drive} {bpb : Bpb} {io io' : IoState} {file : Fat32File} {buffer : Mem}
  {j j' c c' k p : ℕ} {disk disk' : ℕ → Mem}

theorem Reaches.unique (h : Reaches drive bpb io file buffer j c disk)
    (h' : Reaches drive bpb io file buffer j c' disk') : c = c' ∧ disk = disk' := by
  induction h generalizing c' disk' with
  | first =>
      cases h' with
      | first => exact ⟨rfl, rfl⟩
  | next _ _ _ _ _ _ _ ih =>
      cases h' with
      | next h' _ _ _ _ _ _ =>
          obtain ⟨rfl, rfl⟩ := ih h'
          exact ⟨rfl, rfl⟩

/-- What happened at an earlier cluster. -/
theorem Reaches.before (h' : Reaches drive bpb io file buffer j' c' disk') (hj : j < j')
    (h : Reaches drive bpb io file buffer j c disk) :
    clusterToLba bpb c ≠ 0 ∧ (j + 1) * bpb.sectorsPerCluster * bpb.bytesPerSector < file.size ∧
      (∀ k < bpb.sectorsPerCluster, drive.writeOk (commandOf bpb io j k) = true) ∧
      HasEntry bpb c ∧ drive.readStatus (commandOf bpb io j bpb.sectorsPerCluster) = .ready ∧
      chainEnds (linkRead drive bpb io buffer j c disk) = false := by
  induction h' with
  | first => omega
  | next h' hlba hleft hsectors hentry hlink hnext ih =>
      rcases Nat.lt_succ_iff_lt_or_eq.mp hj with hlt | rfl
      · exact ih hlt
      · obtain ⟨rfl, rfl⟩ := h'.unique h
        exact ⟨hlba, hleft, hsectors, hentry, hlink, hnext⟩

/-- The sectors up to number `p` that take data have been written to. -/
def Logged (drive : Drive) (bpb : Bpb) (io : IoState) (file : Fat32File) (buffer : Mem) (p : ℕ)
    (written : List ℕ) : Prop :=
  ∀ lba, lba ∈ written ↔ ∃ j c sec, TakesData drive bpb io file buffer j c sec ∧
    j * bpb.sectorsPerCluster + sec < p ∧ lba = sectorLba bpb c sec

/-- All of them. -/
def LoggedAll (drive : Drive) (bpb : Bpb) (io : IoState) (file : Fat32File) (buffer : Mem)
    (written : List ℕ) : Prop :=
  ∀ lba, lba ∈ written ↔ ∃ j c sec, TakesData drive bpb io file buffer j c sec ∧
    lba = sectorLba bpb c sec

theorem Logged.all {written : List ℕ} (h : Logged drive bpb io file buffer p written)
    (hlast : ∀ j c sec, TakesData drive bpb io file buffer j c sec →
      j * bpb.sectorsPerCluster + sec < p) :
    LoggedAll drive bpb io file buffer written := by
  intro lba
  rw [h lba]
  constructor
  · rintro ⟨j, c, sec, hdata, -, rfl⟩
    exact ⟨j, c, sec, hdata, rfl⟩
  · rintro ⟨j, c, sec, hdata, rfl⟩
    exact ⟨j, c, sec, hdata, hlast j c sec hdata, rfl⟩

/-- The sector with number `j * spc + k`. -/
theorem TakesData.unique {j₁ c₁ sec₁ sec : ℕ} (h₁ : TakesData drive bpb io file buffer j₁ c₁ sec₁)
    (hreaches : Reaches drive bpb io file buffer j c disk) (hsec : sec < bpb.sectorsPerCluster)
    (heq : j₁ * bpb.sectorsPerCluster + sec₁ = j * bpb.sectorsPerCluster + sec) :
    j₁ = j ∧ c₁ = c ∧ sec₁ = sec := by
  obtain ⟨rfl, rfl⟩ := row_inj h₁.sec_lt hsec heq
  obtain ⟨disk₁, hreaches₁⟩ := h₁.reaches
  exact ⟨rfl, (hreaches₁.unique hreaches).1, rfl⟩

theorem Logged.succ {written : List ℕ}
    (h : Logged drive bpb io file buffer (j * bpb.sectorsPerCluster + k) written)
    (hdata : TakesData drive bpb io file buffer j c k) :
    Logged drive bpb io file buffer (j * bpb.sectorsPerCluster + k + 1)
      (sectorLba bpb c k :: written) := by
  intro lba
  rw [List.mem_cons, h lba]
  constructor
  · rintro (rfl | ⟨j', c', sec, hdata', hlt, rfl⟩)
    · exact ⟨j, c, k, hdata, Nat.lt_succ_self _, rfl⟩
    · exact ⟨j', c', sec, hdata', by omega, rfl⟩
  · rintro ⟨j', c', sec, hdata', hlt, rfl⟩
    rcases Nat.lt_succ_iff_lt_or_eq.mp hlt with hlt | heq
    · exact Or.inr ⟨j', c', sec, hdata', hlt, rfl⟩
    · obtain ⟨disk, hreaches⟩ := hdata.reaches
      obtain ⟨-, rfl, rfl⟩ := hdata'.unique hreaches hdata.sec_lt heq
      exact Or.inl rfl

/-- No data after sector number `p`, if cluster number `j` is the last one. -/
theorem sector_lt {spc sec : ℕ} (hsec : sec < spc) (hj : j' < j) : j' * spc + sec < j * spc :=
  (Nat.add_lt_add_left hsec _).trans_le (row_add_le hj spc)

/-! ## The write -/

/-- Before sector number `p`, in cluster number `j`, which is `c`. -/
structure Progress (drive : Drive) (bpb : Bpb) (io : IoState) (file : Fat32File) (buffer : Mem)
    (j c p : ℕ) (now : IoState) : Prop where
  reaches : ∃ disk, Reaches drive bpb io file buffer j c disk ∧
    (p * bpb.bytesPerSector ≤ file.size →
      now.sectors = laid bpb buffer j c disk (p - j * bpb.sectorsPerCluster) ∧
      now.commands = commandOf bpb io j (p - j * bpb.sectorsPerCluster))
  ok : ∀ k, j * bpb.sectorsPerCluster + k < p →
    (j * bpb.sectorsPerCluster + k + 1) * bpb.bytesPerSector ≤ file.size →
    drive.writeOk (commandOf bpb io j k) = true
  logged : Logged drive bpb io file buffer p now.written

section Progress

variable {now now' : IoState}

/-- Sector `k` of cluster number `j` takes data when the loop comes to it. -/
theorem Progress.takesData
    (h : Progress drive bpb io file buffer j c (j * bpb.sectorsPerCluster + k) now)
    (hj : j < maxClusters bpb) (hlba : clusterToLba bpb c ≠ 0) (hk : k < bpb.sectorsPerCluster)
    (hlt : (j * bpb.sectorsPerCluster + k) * bpb.bytesPerSector < file.size)
    (hpart : file.size < (j * bpb.sectorsPerCluster + k + 1) * bpb.bytesPerSector →
      drive.readStatus now.commands = .ready) :
    TakesData drive bpb io file buffer j c k := by
  obtain ⟨disk, hreaches, hnow⟩ := h.reaches
  obtain ⟨-, hcommands⟩ := hnow hlt.le
  rw [Nat.add_sub_cancel_left] at hcommands
  refine ⟨⟨disk, hreaches⟩, hj, hlba, hk, hlt, fun l hl ↦ h.ok l (by omega) ?_,
    hcommands ▸ hpart⟩
  have hmul := Nat.mul_le_mul_right bpb.bytesPerSector
    (show j * bpb.sectorsPerCluster + l + 1 ≤ j * bpb.sectorsPerCluster + k by omega)
  omega

/-- After a sector in full. -/
theorem Progress.full
    (h : Progress drive bpb io file buffer j c (j * bpb.sectorsPerCluster + k) now)
    (hdata : TakesData drive bpb io file buffer j c k)
    (hfull : (j * bpb.sectorsPerCluster + k + 1) * bpb.bytesPerSector ≤ file.size)
    (hok : drive.writeOk now.commands = true) :
    Progress drive bpb io file buffer j c (j * bpb.sectorsPerCluster + k + 1)
      { now with
        sectors := Function.update now.sectors (sectorOf (sectorLba bpb c k) 0) fun i ↦
          buffer ((j * bpb.sectorsPerCluster + k) * bpb.bytesPerSector + i)
        commands := now.commands + 1
        written := sectorLba bpb c k :: now.written } := by
  obtain ⟨disk, hreaches, hnow⟩ := h.reaches
  obtain ⟨hsectors, hcommands⟩ := hnow hdata.left.le
  rw [Nat.add_sub_cancel_left] at hsectors hcommands
  refine ⟨⟨disk, hreaches, fun _ ↦ ?_⟩, fun l hl hle ↦ ?_, h.logged.succ hdata⟩
  · rw [Nat.add_assoc, Nat.add_sub_cancel_left]
    exact ⟨by rw [hsectors]; rfl, by rw [hcommands]; rfl⟩
  · rcases Nat.lt_succ_iff_lt_or_eq.mp hl with hlt | heq
    · exact h.ok l hlt hle
    · obtain rfl : l = k := by omega
      rwa [← hcommands]

theorem TakesData.le_of_part {j' c' sec : ℕ} (h : TakesData drive bpb io file buffer j' c' sec)
    (hp : file.size ≤ p * bpb.bytesPerSector) : j' * bpb.sectorsPerCluster + sec < p :=
  Nat.lt_of_mul_lt_mul_right (h.left.trans_le hp)

/-- After the cluster at which a write fails there is none that takes data. -/
theorem TakesData.le_of_fails {j' c' sec : ℕ} (h : TakesData drive bpb io file buffer j' c' sec)
    (hreaches : Reaches drive bpb io file buffer j c disk) (hk : k < bpb.sectorsPerCluster)
    (hfails : ¬drive.writeOk (commandOf bpb io j k) = true) :
    j' * bpb.sectorsPerCluster + sec < j * bpb.sectorsPerCluster + k + 1 := by
  obtain ⟨disk', hreaches'⟩ := h.reaches
  rcases Nat.lt_trichotomy j' j with hlt | rfl | hgt
  · have := sector_lt h.sec_lt hlt
    omega
  · by_contra hlong
    exact hfails (h.before k (by omega))
  · exact absurd ((hreaches'.before hgt hreaches).2.2.1 k hk) hfails

end Progress

section Steps

variable {now now' : IoState}
  (h : Progress drive bpb io file buffer j c (j * bpb.sectorsPerCluster + k) now)
  (hj : j < maxClusters bpb) (hlba : clusterToLba bpb c ≠ 0) (hk : k < bpb.sectorsPerCluster)
  (hlt : (j * bpb.sectorsPerCluster + k) * bpb.bytesPerSector < file.size)
include h hj hlba hk hlt

theorem Progress.next (hstep : writeSector drive bpb buffer c k now
      ((j * bpb.sectorsPerCluster + k) * bpb.bytesPerSector)
      (file.size - (j * bpb.sectorsPerCluster + k) * bpb.bytesPerSector) = (now', true)) :
    Progress drive bpb io file buffer j c (j * bpb.sectorsPerCluster + k + 1) now' := by
  by_cases hpart : file.size < (j * bpb.sectorsPerCluster + k + 1) * bpb.bytesPerSector
  · rcases writeSector_part_cases now c k ((j * bpb.sectorsPerCluster + k) * bpb.bytesPerSector)
        ((left_lt_iff hlt).mpr hpart) with ⟨hready, hwritten⟩ | ⟨-, hfalse, -⟩
    · rw [hstep] at hwritten
      obtain ⟨disk, hreaches, -⟩ := h.reaches
      refine ⟨⟨disk, hreaches, fun hle ↦ absurd hle (not_le.mpr hpart)⟩, fun l hl hle ↦ ?_, ?_⟩
      · rcases Nat.lt_succ_iff_lt_or_eq.mp hl with hlt' | heq
        · exact h.ok l hlt' hle
        · obtain rfl : l = k := by omega
          exact absurd hle (not_le.mpr hpart)
      · rw [hwritten]
        exact h.logged.succ (h.takesData hj hlba hk hlt fun _ ↦ hready)
    · rw [hstep] at hfalse
      cases hfalse
  · rw [writeSector_full now k _ (not_lt.mp (mt (left_lt_iff hlt).mp hpart)),
      diskWrite_one] at hstep
    by_cases hok : drive.writeOk now.commands = true
    · rw [if_pos hok] at hstep
      obtain ⟨rfl, -⟩ := Prod.mk.inj hstep
      exact h.full (h.takesData hj hlba hk hlt fun hpart' ↦ absurd hpart' hpart)
        (not_lt.mp hpart) hok
    · rw [if_neg hok] at hstep
      cases hstep

theorem Progress.fails (hstep : writeSector drive bpb buffer c k now
      ((j * bpb.sectorsPerCluster + k) * bpb.bytesPerSector)
      (file.size - (j * bpb.sectorsPerCluster + k) * bpb.bytesPerSector) = (now', false)) :
    LoggedAll drive bpb io file buffer now'.written := by
  obtain ⟨disk, hreaches, hnow⟩ := h.reaches
  obtain ⟨-, hcommands⟩ := hnow hlt.le
  rw [Nat.add_sub_cancel_left] at hcommands
  by_cases hpart : file.size < (j * bpb.sectorsPerCluster + k + 1) * bpb.bytesPerSector
  · rcases writeSector_part_cases now c k ((j * bpb.sectorsPerCluster + k) * bpb.bytesPerSector)
        ((left_lt_iff hlt).mpr hpart) with ⟨hready, hwritten⟩ | ⟨hnot, -, hwritten⟩
    · rw [hstep] at hwritten
      rw [hwritten]
      exact (h.logged.succ (h.takesData hj hlba hk hlt fun _ ↦ hready)).all
        fun j' c' sec hdata ↦ hdata.le_of_part hpart.le
    · -- The sector would have been the last one, and it was not read.
      rw [hstep] at hwritten
      rw [hwritten]
      refine h.logged.all fun j' c' sec hdata ↦ ?_
      rcases Nat.lt_succ_iff_lt_or_eq.mp (hdata.le_of_part hpart.le) with hlt' | heq
      · exact hlt'
      · obtain ⟨rfl, rfl, rfl⟩ := hdata.unique hreaches hk heq
        rw [hcommands] at hnot
        exact absurd (hdata.part hpart) hnot
  · rw [writeSector_full now k _ (not_lt.mp (mt (left_lt_iff hlt).mp hpart)),
      diskWrite_one] at hstep
    by_cases hok : drive.writeOk now.commands = true
    · rw [if_pos hok] at hstep
      cases hstep
    · rw [if_neg hok] at hstep
      obtain ⟨rfl, -⟩ := Prod.mk.inj hstep
      rw [hcommands] at hok
      exact (h.logged.succ (h.takesData hj hlba hk hlt fun hpart' ↦ absurd hpart' hpart)).all
        fun j' c' sec hdata ↦ hdata.le_of_fails hreaches hk hok

end Steps

section Links

variable {now : IoState}

/-- At the end of a cluster the next lookup reads its link. -/
theorem Progress.lookup
    (h : Progress drive bpb io file buffer j c ((j + 1) * bpb.sectorsPerCluster) now)
    (hlt : (j + 1) * bpb.sectorsPerCluster * bpb.bytesPerSector < file.size) :
    ∃ disk, Reaches drive bpb io file buffer j c disk ∧
      now.sectors = laid bpb buffer j c disk bpb.sectorsPerCluster ∧
      now.commands = commandOf bpb io j bpb.sectorsPerCluster ∧
      ∀ k < bpb.sectorsPerCluster, drive.writeOk (commandOf bpb io j k) = true := by
  obtain ⟨disk, hreaches, hnow⟩ := h.reaches
  have hsucc : (j + 1) * bpb.sectorsPerCluster =
      j * bpb.sectorsPerCluster + bpb.sectorsPerCluster := by ring
  obtain ⟨hsectors, hcommands⟩ := hnow hlt.le
  rw [hsucc, Nat.add_sub_cancel_left] at hsectors hcommands
  refine ⟨disk, hreaches, hsectors, hcommands, fun k hk ↦ h.ok k (by omega) ?_⟩
  exact (Nat.mul_le_mul_right _ (by omega)).trans hlt.le

theorem Progress.goes
    (h : Progress drive bpb io file buffer j c ((j + 1) * bpb.sectorsPerCluster) now)
    (hlba : clusterToLba bpb c ≠ 0)
    (hlt : (j + 1) * bpb.sectorsPerCluster * bpb.bytesPerSector < file.size)
    (hends : chainEnds (fatGetNextCluster drive bpb now c).2 = false) :
    Progress drive bpb io file buffer (j + 1) (fatGetNextCluster drive bpb now c).2
      ((j + 1) * bpb.sectorsPerCluster) (fatGetNextCluster drive bpb now c).1 := by
  obtain ⟨disk, hreaches, hsectors, hcommands, hok⟩ := h.lookup hlt
  obtain ⟨hentry, hready⟩ := fatGetNextCluster_goes_on hends
  rw [fatGetNextCluster_ready hready hentry] at hends ⊢
  rw [hcommands] at hready
  have hlink : fatEntry bpb now.sectors (drive.stack now.commands) c =
      linkRead drive bpb io buffer j c disk := by
    rw [linkRead, hsectors, hcommands]
  dsimp only at hends ⊢
  rw [hlink] at hends ⊢
  refine ⟨⟨_, hreaches.next hlba hlt hok hentry hready hends, fun _ ↦ ?_⟩, fun k hk ↦ by omega,
    h.logged⟩
  rw [Nat.sub_self]
  refine ⟨hsectors, ?_⟩
  rw [hcommands, commandOf, commandOf]
  ring

theorem Progress.short
    (h : Progress drive bpb io file buffer j c ((j + 1) * bpb.sectorsPerCluster) now)
    (hlt : (j + 1) * bpb.sectorsPerCluster * bpb.bytesPerSector < file.size)
    (hends : chainEnds (fatGetNextCluster drive bpb now c).2 = true) :
    LoggedAll drive bpb io file buffer now.written := by
  obtain ⟨disk, hreaches, hsectors, hcommands, -⟩ := h.lookup hlt
  refine h.logged.all fun j' c' sec hdata ↦ ?_
  obtain ⟨disk', hreaches'⟩ := hdata.reaches
  by_contra hlong
  have hgt : j < j' := by
    by_contra hle
    exact hlong (sector_lt hdata.sec_lt (by omega))
  obtain ⟨-, -, -, hentry, hready, hgoes⟩ := hreaches'.before hgt hreaches
  rw [← hcommands] at hready
  rw [fatGetNextCluster_ready hready hentry, hsectors, hcommands] at hends
  exact Bool.false_ne_true (hgoes.symm.trans hends)

end Links

theorem progress_invariant :
    WriteInvariant drive bpb buffer file (Progress drive bpb io file buffer)
      fun now _ ↦ LoggedAll drive bpb io file buffer now.written where
  next h hj hlba hk hlt hstep := h.next hj hlba hk hlt hstep
  fails h hj hlba hk hlt hstep := h.fails hj hlba hk hlt hstep
  stops {j c now} h hj hlba hlt := by
    obtain ⟨disk, hreaches, -⟩ := h.reaches
    refine h.logged.all fun j' c' sec hdata ↦ ?_
    obtain ⟨disk', hreaches'⟩ := hdata.reaches
    rcases Nat.lt_trichotomy j' j with hlt' | rfl | hgt
    · exact sector_lt hdata.sec_lt hlt'
    · exact absurd ((hreaches'.unique hreaches).1 ▸ hlba) hdata.lba
    · exact absurd hlba (hreaches'.before hgt hreaches).1
  goes h hj hlba hlt hends := h.goes hlba hlt hends
  short {j c now} h hj hlba hlt hends := by
    rw [(fatGetNextCluster_keeps drive bpb now c).2]
    exact h.short hlt hends
  done {j c p now} h hj hlba hp hle := by
    rw [(fatGetNextCluster_keeps drive bpb now c).2]
    exact h.logged.all fun j' c' sec hdata ↦ hdata.le_of_part hle
  rounds h hlt := h.logged.all fun j' c' sec hdata ↦ sector_lt hdata.sec_lt hdata.allowed
  empty h hsize := h.logged.all fun j' c' sec hdata ↦ by
    have hleft := hdata.left
    omega

/-! ## The write as a whole -/

/-- The `lba` arguments of the calls of `disk_write` that a file write makes. -/
def writesOf (drive : Drive) (bpb : Bpb) (io : IoState) (file : Fat32File) (buffer : Mem) :
    List ℕ :=
  (fat32WriteFile drive bpb { io with written := [] } file buffer).1.written

theorem mem_writesOf_iff (hspc : bpb.sectorsPerCluster ≠ 0) {lba : ℕ} :
    lba ∈ writesOf drive bpb io file buffer ↔ ∃ j c sec,
      TakesData drive bpb io file buffer j c sec ∧ lba = sectorLba bpb c sec := by
  have hstart : Progress drive bpb io file buffer 0 file.firstCluster 0
      { io with written := [] } := by
    refine ⟨⟨_, .first, fun _ ↦ ?_⟩, fun k hk ↦ by omega, fun lba ↦ by simp⟩
    rw [Nat.zero_mul, Nat.sub_zero, commandOf, Nat.zero_mul]
    exact ⟨rfl, rfl⟩
  exact progress_invariant.fat32WriteFile hspc hstart lba

/-- No sector that takes data wraps around, in the 28 bits that the drive gets. -/
def NoSectorWraps (drive : Drive) (bpb : Bpb) (io : IoState) (file : Fat32File) (buffer : Mem) :
    Prop :=
  ∀ j c sec, TakesData drive bpb io file buffer j c sec →
    metadataEnd bpb + ((c - 2) * bpb.sectorsPerCluster + sec) % 2 ^ 28 < 2 ^ 28

/-- With an accepted boot sector every write spares the metadata if and only if
no sector that takes data wraps, for every drive, disk, file and buffer. -/
theorem writes_spare_metadata (hacc : bpb.accepted = true) :
    (∀ lba ∈ writesOf drive bpb io file buffer, Spares bpb lba) ↔
      NoSectorWraps drive bpb io file buffer := by
  have hspc : bpb.sectorsPerCluster ≠ 0 := by
    simp only [Bpb.accepted, decide_eq_true_eq] at hacc
    tauto
  constructor
  · intro h j c sec hdata
    rw [← spares_sectorLba_iff (two_le_of_clusterToLba hdata.lba)]
    exact h _ ((mem_writesOf_iff hspc).mpr ⟨j, c, sec, hdata, rfl⟩)
  · intro h lba hlba
    obtain ⟨j, c, sec, hdata, rfl⟩ := (mem_writesOf_iff hspc).mp hlba
    exact (spares_sectorLba_iff (two_le_of_clusterToLba hdata.lba) sec).mpr (h j c sec hdata)

/-- A boot sector with 32 reserved sectors, two FATs of 34 sectors and one
sector a cluster; the root directory, at cluster 2, has one file of one byte
whose entry claims `0xFFFFFFFF` as its first cluster. -/
def wrappingDisk : IoState where
  sectors := fun s ↦
    if s = 2048 then fun
      | 12 => 2 | 13 => 1 | 14 => 32 | 16 => 2 | 36 => 34 | 44 => 2 | _ => 0
    else if s = 2148 then fun
      | 0 => 65 | 11 => 32 | 20 => 255 | 21 => 255 | 26 => 255 | 27 => 255 | 28 => 1
      | i => if i < 11 then 32 else 0
    else fun _ ↦ 0
  commands := 0
  written := []
  serial := []

/-- A file in cluster 3 is written at sector 101. -/
theorem writes_spare_metadata_one_sector :
    writesOf faultless sampleBpb wrappingDisk ⟨sampleName, 3, 1⟩ (fun _ ↦ 7) = [101] ∧
      ∀ lba ∈ writesOf faultless sampleBpb wrappingDisk ⟨sampleName, 3, 1⟩ fun _ ↦ 7,
        Spares sampleBpb lba := by
  refine ⟨rfl, (writes_spare_metadata (by decide)).mpr ?_⟩
  intro j c sec hdata
  obtain ⟨disk, hreaches⟩ := hdata.reaches
  have hsec : sec = 0 := Nat.lt_one_iff.mp hdata.sec_lt
  cases hreaches with
  | first =>
      rw [hsec]
      decide
  | next _ _ hleft _ _ _ _ =>
      simp only [sampleBpb] at hleft
      omega

/-- The boot sector is accepted, the file is found, and writing it goes to
sector 97, the end of the second FAT. -/
theorem write_reaches_fat :
    ∃ io io' file, fat32Init faultless wrappingDisk ⟨0, 0, 0, 0, 0, 0⟩ = (io, sampleBpb, true) ∧
      fat32FindFile faultless sampleBpb io sampleName = (io', some file) ∧
      writesOf faultless sampleBpb io' file (fun _ ↦ 7) = [97] ∧ metadataEnd sampleBpb = 100 :=
  ⟨_, _, ⟨sampleName, 0xFFFFFFFF, 1⟩, rfl, rfl, rfl, rfl⟩

end ImplusKernel.Fat32
