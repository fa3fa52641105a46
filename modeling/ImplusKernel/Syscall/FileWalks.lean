import ImplusKernel.FileSystem.WalkAgreement
import ImplusKernel.Syscall.File

/-!
# Failed file writes

`syscall_file_write` reads the file before it writes it.  Where the walks of
both agree, the write cannot fail half-way.
-/

namespace ImplusKernel.Syscall

open ByteMemory Disk Fat32 Heap

variable {drive : Drive} {m m' : Machine}

/-- A call of `syscall_file_write` on this file and disk that returns −1 leaves
the disk as it was. -/
def FailsUnchanged (drive : Drive) (bpb : Bpb) (sectors : ℕ → Mem) (file : Fat32File) : Prop :=
  ∀ (m m' : Machine) (fd : ℤ) (buffer len : ℕ), m.bpb = bpb → m.io.sectors = sectors →
    (m.files fd.toNat).file = file → syscallFileWrite drive m fd buffer len = some (m', -1) →
    m'.io.sectors = sectors

theorem release_sectors {allData : ℕ} {result r : ℤ}
    (h : m.release allData result = some (m', r)) : m'.io.sectors = m.io.sectors ∧ r = result := by
  rw [Machine.release, Option.bind_eq_bind, Option.bind_eq_some_iff] at h
  obtain ⟨⟨memory, s⟩, -, h⟩ := h
  obtain ⟨rfl, rfl⟩ := Prod.mk.inj (Option.some.inj h)
  exact ⟨rfl, rfl⟩

/-- Loading keeps the disk, and succeeds only on a chain that is long enough. -/
theorem loadFile_sectors (hreads : drive.Reads) (hbps : m.bpb.bytesPerSector = 512)
    (hspc : m.bpb.sectorsPerCluster ≠ 0) {file : Fat32File} {loaded : LoadResult}
    (h : loadFile drive m file = some (m', loaded)) :
    m'.bpb = m.bpb ∧ m'.io.sectors = m.io.sectors ∧
      ∀ allData, loaded = .loaded allData → LongFrom m.bpb m.io.sectors file 0 := by
  rw [loadFile, Option.bind_eq_bind, Option.bind_eq_some_iff] at h
  obtain ⟨⟨memory, r⟩, -, h⟩ := h
  dsimp only at h
  by_cases hptr : r.ptr = 0
  · rw [if_pos hptr] at h
    obtain ⟨rfl, rfl⟩ := Prod.mk.inj (Option.some.inj h)
    exact ⟨rfl, rfl, by simp⟩
  · obtain ⟨io, ok, copied, hread, hkept, hok⟩ :=
      fat32ReadFile_longFrom hreads hbps hspc (m.io.print r.serial) file
    rw [if_neg hptr, hread] at h
    obtain ⟨rfl, rfl⟩ := Prod.mk.inj (Option.some.inj h)
    refine ⟨rfl, hkept, ?_⟩
    intro allData hloaded
    cases ok with
    | true => exact hok.mp rfl
    | false => cases hloaded

theorem failsUnchanged_of_writeSafe (hworks : drive.Works) {bpb : Bpb}
    (hbps : bpb.bytesPerSector = 512) (hspc : bpb.sectorsPerCluster ≠ 0) {sectors : ℕ → Mem}
    {file : Fat32File} (hsafe : WriteSafe bpb sectors file) :
    FailsUnchanged drive bpb sectors file := by
  rintro m m' fd buffer len rfl rfl rfl h
  rw [syscallFileWrite] at h
  dsimp only at h
  split_ifs at h
  · obtain ⟨rfl, -⟩ := Prod.mk.inj (Option.some.inj h)
    rfl
  · obtain ⟨rfl, -⟩ := Prod.mk.inj (Option.some.inj h)
    rfl
  · simp at h
  · simp at h
  rw [Option.bind_eq_bind, Option.bind_eq_some_iff] at h
  obtain ⟨⟨m₁, loaded⟩, hload, h⟩ := h
  obtain ⟨hbpb, hsectors, hlong⟩ := loadFile_sectors hworks.reads hbps hspc hload
  cases loaded with
  | outOfMemory =>
      obtain ⟨rfl, -⟩ := Prod.mk.inj (Option.some.inj h)
      exact hsectors
  | readFailed allData => exact (release_sectors h).1.trans hsectors
  | loaded allData =>
      -- The read has succeeded, so the write does.
      have hwrite : ∀ data, (fat32WriteFile drive m₁.bpb m₁.io (m.files fd.toNat).file data).2 =
          true := by
        intro data
        rw [hbpb]
        exact (hsafe.fat32WriteFile_iff hworks hbps hspc m₁.io hsectors data).mpr
          (hlong allData rfl)
      dsimp only at h
      generalize memcpy m₁.memory.mem _ _ _ = copied at h
      have hok := hwrite fun i ↦ copied ((allData + i) % 2 ^ 64)
      dsimp only [Machine.setMem] at h
      rcases hresult : fat32WriteFile drive m₁.bpb m₁.io (m.files fd.toNat).file
        (fun i ↦ copied ((allData + i) % 2 ^ 64)) with ⟨io, ok⟩
      rw [hresult] at h hok
      obtain rfl : ok = true := hok
      have hcount := (release_sectors h).2
      omega

/-- With an accepted boot sector and 512-byte sectors, on a drive without
faults: reads and writes of a file agree for all data, and no write fails after
it has changed the disk, exactly when a write is safe. -/
theorem reads_and_writes_agree_iff (hworks : drive.Works) {bpb : Bpb}
    (hacc : bpb.accepted = true) (hbps : bpb.bytesPerSector = 512) (io : IoState)
    (file : Fat32File) :
    WalksAgree drive bpb io file ∧ FailsUnchanged drive bpb io.sectors file ↔
      WriteSafe bpb io.sectors file := by
  have hspc : bpb.sectorsPerCluster ≠ 0 := by
    simp only [Bpb.accepted, decide_eq_true_eq] at hacc
    tauto
  have hagree := walksAgree_iff hworks hbps hspc io file
  refine ⟨fun h ↦ hagree.mp h.1, fun hsafe ↦ ⟨hagree.mpr hsafe, ?_⟩⟩
  exact failsUnchanged_of_writeSafe hworks hbps hspc hsafe

/-- A file `A` in cluster 3, whose link is given. -/
def oneChain (next size : ℕ) : IoState where
  sectors := fun s ↦
    if s = 2048 then fun
      | 12 => 2 | 13 => 1 | 14 => 32 | 16 => 1 | 36 => 1 | 44 => 2 | _ => 0
    else if s = 2080 then writeLE (fun _ ↦ 0) 12 4 next
    else if s = 2081 then writeLE (writeLE (fun i ↦ if i = 0 then 65 else if i < 12 then 32 else 0)
      26 2 3) 28 4 size
    else fun _ ↦ 0
  commands := 0
  written := []
  serial := []

/-- One FAT of one sector, which has room for 128 entries. -/
def smallBpb : Bpb := ⟨512, 1, 32, 1, 1, 2⟩

/-- A file of two clusters, 3 and 4. -/
theorem reads_and_writes_agree_two_clusters :
    WriteSafe smallBpb (oneChain 4 1024).sectors ⟨sampleName, 3, 1024⟩ ∧
      WalksAgree faultless smallBpb (oneChain 4 1024) ⟨sampleName, 3, 1024⟩ := by
  have hsafe : WriteSafe smallBpb (oneChain 4 1024).sectors ⟨sampleName, 3, 1024⟩ := by
    rw [WriteSafe, if_neg (by decide)]
    rintro j ⟨c, hc, -, -, hneeded, i, hi, c', hc', sec, hsec, hsame⟩
    have hsize : clusterSize smallBpb = 512 := rfl
    obtain rfl : j = 0 := by
      dsimp only at hneeded
      rw [hsize] at hneeded
      omega
    obtain rfl : i = 0 := by omega
    obtain rfl : sec = 0 := Nat.lt_one_iff.mp hsec
    obtain rfl : 3 = c := Option.some.inj hc
    obtain rfl : 3 = c' := Option.some.inj hc'
    revert hsame
    decide
  have hworks : faultless.Works := fun _ ↦ ⟨rfl, rfl⟩
  exact ⟨hsafe, ((reads_and_writes_agree_iff hworks rfl rfl _ _).mpr hsafe).1⟩

/-- The disk with the cycle, after the file has been found. -/
def foundOnCycle : IoState :=
  (fat32FindFile faultless smallBpb
    (fat32Init faultless (oneChain 3 66048) ⟨0, 0, 0, 0, 0, 0⟩).1 sampleName).1

theorem longFrom_cycle : LongFrom smallBpb foundOnCycle.sectors ⟨sampleName, 3, 66048⟩ 0 := by
  have hall : ∀ k, clusterAt smallBpb foundOnCycle.sectors ⟨sampleName, 3, 66048⟩ k = some 3 := by
    intro k
    induction k with
    | zero => rfl
    | succ k ih =>
        rw [clusterAt_succ ih (by decide)]
        rfl
  exact fun k _ _ ↦ ⟨3, hall k, by decide⟩

/-- The first step fills cluster 3, and later ones do not change what it wrote. -/
theorem cycle_keeps_seven : DiskInvariant smallBpb (fun _ ↦ 7) ⟨sampleName, 3, 66048⟩
    (fun j c p disk ↦ (j = 0 → c = 3) ∧ (0 < p → ∀ b < 512, disk 2082 b = 7))
    fun disk _ ↦ disk 2082 0 = 7 := by
  have hspc : smallBpb.sectorsPerCluster = 1 := rfl
  have huniform : Uniform (fun _ ↦ 7) fun _ ↦ 7 := fun _ ↦ rfl
  refine ⟨?_, ?_, ?_, ?_, ?_, ?_, ?_⟩
  · rintro j c k disk bytes ⟨hfirst, hseven⟩ - hk - hbytes
    refine ⟨hfirst, fun _ b hb ↦ ?_⟩
    have hbyte := huniform.byte hbytes hb
    by_cases hp : 0 < j * smallBpb.sectorsPerCluster + k
    · exact update_pattern (fun _ ↦ 7) hbyte (hseven hp b hb)
    · obtain ⟨rfl, rfl⟩ : j = 0 ∧ k = 0 := by
        rw [hspc] at hp
        omega
      obtain rfl := hfirst rfl
      have hplace : dataAt smallBpb 3 0 = 2082 := by decide
      rw [hplace, Function.update_self, hbyte, if_pos (by dsimp only; omega)]
  · rintro j c disk ⟨hfirst, hseven⟩ hlba -
    by_cases hj : j = 0
    · rw [hfirst hj] at hlba
      exact absurd hlba (by decide)
    · exact hseven (by rw [hspc]; omega) 0 (by decide)
  · rintro j c c' disk ⟨-, hseven⟩ - - - -
    exact ⟨nofun, hseven⟩
  · rintro j c disk ⟨-, hseven⟩ - - - -
    exact hseven (by rw [hspc]; omega) 0 (by decide)
  · rintro j c p disk ⟨-, hseven⟩ - - - hle
    exact hseven (by dsimp only at hle; omega) 0 (by decide)
  · rintro c disk ⟨-, hseven⟩ -
    exact hseven (by decide) 0 (by decide)
  · rintro disk - hzero
    cases hzero

/-- A cluster that links to itself: the file is found and read in full, but a
write gives up after 128 of the 129 clusters, with the disk changed. -/
theorem write_fails_on_cycle :
    (fat32Init faultless (oneChain 3 66048) ⟨0, 0, 0, 0, 0, 0⟩).2 = (smallBpb, true) ∧
      (fat32FindFile faultless smallBpb
        (fat32Init faultless (oneChain 3 66048) ⟨0, 0, 0, 0, 0, 0⟩).1 sampleName) =
          (foundOnCycle, some ⟨sampleName, 3, 66048⟩) ∧
      (∃ io copied, fat32ReadFile faultless smallBpb foundOnCycle ⟨sampleName, 3, 66048⟩ =
        some (io, true, copied)) ∧
      (fat32WriteFile faultless smallBpb foundOnCycle ⟨sampleName, 3, 66048⟩ fun _ ↦ 7).2 =
        false ∧
      foundOnCycle.sectors 2082 0 = 0 ∧
      (fat32WriteFile faultless smallBpb foundOnCycle ⟨sampleName, 3, 66048⟩
        fun _ ↦ 7).1.sectors 2082 0 = 7 := by
  have hworks : faultless.Works := fun _ ↦ ⟨rfl, rfl⟩
  refine ⟨rfl, rfl, ?_, ?_, rfl, ?_⟩
  · exact (fat32ReadFile_true_iff hworks.reads rfl (by decide) _ _).mpr longFrom_cycle
  · rw [Bool.eq_false_iff]
    intro hwrite
    have hbound := fat32WriteFile_bound hworks rfl (by decide) hwrite
    revert hbound
    decide
  · exact cycle_keeps_seven.fat32WriteFile hworks rfl (by decide) ⟨fun _ ↦ rfl, nofun⟩

end ImplusKernel.Syscall
