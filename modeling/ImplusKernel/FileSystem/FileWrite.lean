import ImplusKernel.FileSystem.Volume

/-!
# The loops of a file write

A file is written sector by sector along its chain.  Sector number `p` of the
data, counted from the start of the file, goes to cluster number `p / spc` of the
chain.  What one sector, one link and each way out of the loops do is said once;
an invariant over sector numbers then holds of the whole write.
-/

namespace ImplusKernel.Fat32

open ByteMemory Disk

/-- The body of the loop over the sectors: `true` when the loop goes on. -/
def writeSector (drive : Drive) (bpb : Bpb) (buffer : Mem) (cluster sec : ℕ) (io : IoState)
    (pos bytesLeft : ℕ) : IoState × Bool :=
  let lba := sectorLba bpb cluster sec
  let n := portion bpb bytesLeft
  if n = bpb.bytesPerSector then diskWrite drive io lba (fun i ↦ buffer (pos + i)) 1
  else
    match diskRead drive io lba 1 with
    | (io', none) => (io', false)
    | (io', some buf) =>
        diskWrite drive io' lba (fun i ↦ if i < n then buffer (pos + i) else buf i) 1

variable {drive : Drive} {bpb : Bpb} {buffer : Mem} {cluster size : ℕ}

theorem sub_portion (bpb : Bpb) (bytesLeft : ℕ) :
    bytesLeft - portion bpb bytesLeft = bytesLeft - bpb.bytesPerSector := by
  unfold portion
  split <;> omega

theorem writeSectors_step (io : IoState) (sec : ℕ) (rest : List ℕ) (pos : ℕ) {left : ℕ}
    (hleft : left ≠ 0) (hlba : clusterToLba bpb cluster ≠ 0) :
    writeSectors drive bpb buffer cluster (sec :: rest) io pos left =
      match writeSector drive bpb buffer cluster sec io pos left with
      | (io', false) => (io', none)
      | (io', true) => writeSectors drive bpb buffer cluster rest io'
          (pos + portion bpb left) (left - portion bpb left) := by
  rw [writeSectors, if_neg hleft, if_neg hlba, writeSector]
  dsimp only
  split
  · rfl
  · cases diskRead drive io (sectorLba bpb cluster sec) 1 with
    | mk io' buf =>
        cases buf with
        | none => rfl
        | some buf => rfl

theorem writeSectors_done (cluster : ℕ) (secs : List ℕ) (io : IoState) (pos : ℕ) :
    writeSectors drive bpb buffer cluster secs io pos 0 = (io, some (pos, 0)) := by
  cases secs with
  | nil => rfl
  | cons sec rest => rw [writeSectors, if_pos rfl]

/-- At a cluster without sectors a write fails. -/
theorem writeSectors_range (drive : Drive) (io : IoState) (buffer : Mem) (pos : ℕ)
    (hspc : bpb.sectorsPerCluster ≠ 0) {left : ℕ} (hleft : left ≠ 0)
    (hlba : clusterToLba bpb cluster = 0) :
    writeSectors drive bpb buffer cluster (List.range bpb.sectorsPerCluster) io pos left =
      (io, none) := by
  obtain ⟨m, hm⟩ := Nat.exists_eq_succ_of_ne_zero hspc
  rw [hm, List.range_eq_range', List.range'_succ, writeSectors, if_neg hleft, if_pos hlba]

theorem writeClusters_done (n : ℕ) (io : IoState) (buffer : Mem) (cluster pos : ℕ) :
    writeClusters drive bpb buffer n io cluster pos 0 = (io, true) := by
  cases n with
  | zero => rfl
  | succ n => rw [writeClusters, if_pos rfl]

theorem writeClusters_no_sectors (n : ℕ) (io : IoState) (buffer : Mem) (pos : ℕ)
    (hspc : bpb.sectorsPerCluster ≠ 0) {left : ℕ} (hleft : left ≠ 0)
    (hlba : clusterToLba bpb cluster = 0) :
    writeClusters drive bpb buffer (n + 1) io cluster pos left = (io, false) := by
  rw [writeClusters, if_neg hleft, writeSectors_range drive io buffer pos hspc hleft hlba]

/-! ## One sector -/

/-- A sector in full is one command. -/
theorem writeSector_full (io : IoState) (sec pos : ℕ) {left : ℕ}
    (hfull : bpb.bytesPerSector ≤ left) :
    writeSector drive bpb buffer cluster sec io pos left =
      diskWrite drive io (sectorLba bpb cluster sec) (fun i ↦ buffer (pos + i)) 1 := by
  have hportion : portion bpb left = bpb.bytesPerSector := by
    unfold portion
    split <;> omega
  rw [writeSector, if_pos hportion]

/-- The last sector is read first and keeps what the file does not reach. -/
theorem writeSector_part (io : IoState) (sec pos : ℕ) {left : ℕ}
    (hpart : left < bpb.bytesPerSector) :
    writeSector drive bpb buffer cluster sec io pos left =
      match diskRead drive io (sectorLba bpb cluster sec) 1 with
      | (io', none) => (io', false)
      | (io', some buf) => diskWrite drive io' (sectorLba bpb cluster sec)
          (fun i ↦ if i < left then buffer (pos + i) else buf i) 1 := by
  have hportion : portion bpb left = left := by
    unfold portion
    split <;> omega
  rw [writeSector, hportion, if_neg hpart.ne]

/-- Such a sector is written to if it could be read. -/
theorem writeSector_part_cases (io : IoState) (cluster sec pos : ℕ) {left : ℕ}
    (hpart : left < bpb.bytesPerSector) :
    (drive.readStatus io.commands = .ready ∧
      (writeSector drive bpb buffer cluster sec io pos left).1.written =
        sectorLba bpb cluster sec :: io.written) ∨
      drive.readStatus io.commands ≠ .ready ∧
      (writeSector drive bpb buffer cluster sec io pos left).2 = false ∧
      (writeSector drive bpb buffer cluster sec io pos left).1.written = io.written := by
  rw [writeSector_part io sec pos hpart]
  rcases diskRead_one drive io (sectorLba bpb cluster sec) with ⟨hready, hread⟩ | ⟨hnot, hnone⟩
  · rw [hread]
    refine Or.inl ⟨hready, ?_⟩
    dsimp only
    rw [diskWrite_one]
    split <;> rfl
  · have hwritten := diskRead_written drive io (sectorLba bpb cluster sec) 1
    generalize diskRead drive io (sectorLba bpb cluster sec) 1 = r at hnone hwritten
    obtain ⟨io', buf⟩ := r
    obtain rfl : buf = none := hnone
    exact Or.inr ⟨hnot, rfl, hwritten⟩

theorem left_lt_iff {p bps size : ℕ} (h : p * bps < size) :
    size - p * bps < bps ↔ size < (p + 1) * bps := by
  rw [Nat.add_mul, Nat.one_mul]
  omega

/-! ## Invariants -/

/-- An invariant over the sectors of one cluster, whose data start at sector
number `start`. -/
theorem writeSectors_invariant {P : ℕ → IoState → Prop} {Q : IoState → Prop}
    (hlba : clusterToLba bpb cluster ≠ 0) {start : ℕ}
    (hnext : ∀ k io io', k < bpb.sectorsPerCluster → (start + k) * bpb.bytesPerSector < size →
      P (start + k) io → writeSector drive bpb buffer cluster k io
        ((start + k) * bpb.bytesPerSector) (size - (start + k) * bpb.bytesPerSector) =
          (io', true) → P (start + k + 1) io')
    (hfails : ∀ k io io', k < bpb.sectorsPerCluster → (start + k) * bpb.bytesPerSector < size →
      P (start + k) io → writeSector drive bpb buffer cluster k io
        ((start + k) * bpb.bytesPerSector) (size - (start + k) * bpb.bytesPerSector) =
          (io', false) → Q io')
    {k m pos : ℕ} (hk : k + m = bpb.sectorsPerCluster) {io : IoState} (h : P (start + k) io)
    (hpos : (start + k) * bpb.bytesPerSector < size →
      pos = (start + k) * bpb.bytesPerSector) :
    (∃ io', writeSectors drive bpb buffer cluster (List.range' k m) io pos
        (size - (start + k) * bpb.bytesPerSector) = (io', none) ∧ Q io') ∨
      ∃ io' pos' p, writeSectors drive bpb buffer cluster (List.range' k m) io pos
          (size - (start + k) * bpb.bytesPerSector) =
            (io', some (pos', size - (start + bpb.sectorsPerCluster) * bpb.bytesPerSector)) ∧
        ((start + bpb.sectorsPerCluster) * bpb.bytesPerSector < size →
          pos' = (start + bpb.sectorsPerCluster) * bpb.bytesPerSector) ∧
        P p io' ∧ p ≤ start + bpb.sectorsPerCluster ∧
        (p = start + bpb.sectorsPerCluster ∨ size ≤ p * bpb.bytesPerSector) := by
  induction m generalizing k io pos with
  | zero =>
      obtain rfl : k = bpb.sectorsPerCluster := hk
      exact Or.inr ⟨io, pos, _, rfl, hpos, h, le_rfl, Or.inl rfl⟩
  | succ m ih =>
      rw [List.range'_succ]
      by_cases hleft : size ≤ (start + k) * bpb.bytesPerSector
      · have hmul : (start + k) * bpb.bytesPerSector ≤
            (start + bpb.sectorsPerCluster) * bpb.bytesPerSector :=
          Nat.mul_le_mul_right _ (by omega)
        rw [Nat.sub_eq_zero_of_le hleft, writeSectors_done, Nat.sub_eq_zero_of_le (by omega)]
        exact Or.inr ⟨io, pos, start + k, rfl, fun hlt ↦ by omega, h, by omega, Or.inr hleft⟩
      have hlt := not_le.mp hleft
      rw [hpos hlt, writeSectors_step io k _ _ (by omega) hlba]
      generalize hstep : writeSector drive bpb buffer cluster k io
        ((start + k) * bpb.bytesPerSector) (size - (start + k) * bpb.bytesPerSector) = result
      obtain ⟨io', ok⟩ := result
      cases ok with
      | false => exact Or.inl ⟨io', rfl, hfails k io io' (by omega) hlt h hstep⟩
      | true =>
          have hsucc : (start + (k + 1)) * bpb.bytesPerSector =
              (start + k) * bpb.bytesPerSector + bpb.bytesPerSector := by ring
          have hpos' : (start + (k + 1)) * bpb.bytesPerSector < size →
              (start + k) * bpb.bytesPerSector +
                portion bpb (size - (start + k) * bpb.bytesPerSector) =
                  (start + (k + 1)) * bpb.bytesPerSector := by
            intro hmore
            rw [hsucc, portion, if_pos (by omega)]
          have hrest := ih (k := k + 1) (by omega) (hnext k io io' (by omega) hlt h hstep) hpos'
          rw [sub_portion, Nat.sub_sub, ← hsucc]
          exact hrest

/-- What a write keeps: `P j c p io` before sector number `p` of the data, in
cluster number `j` of the chain, which is `c`; and `Q io ok` at the end. -/
structure WriteInvariant (drive : Drive) (bpb : Bpb) (buffer : Mem) (file : Fat32File)
    (P : ℕ → ℕ → ℕ → IoState → Prop) (Q : IoState → Bool → Prop) : Prop where
  next {j c k : ℕ} {io io' : IoState} (h : P j c (j * bpb.sectorsPerCluster + k) io)
    (hj : j < maxClusters bpb) (hlba : clusterToLba bpb c ≠ 0) (hk : k < bpb.sectorsPerCluster)
    (hlt : (j * bpb.sectorsPerCluster + k) * bpb.bytesPerSector < file.size)
    (hstep : writeSector drive bpb buffer c k io
      ((j * bpb.sectorsPerCluster + k) * bpb.bytesPerSector)
      (file.size - (j * bpb.sectorsPerCluster + k) * bpb.bytesPerSector) = (io', true)) :
    P j c (j * bpb.sectorsPerCluster + k + 1) io'
  fails {j c k : ℕ} {io io' : IoState} (h : P j c (j * bpb.sectorsPerCluster + k) io)
    (hj : j < maxClusters bpb) (hlba : clusterToLba bpb c ≠ 0) (hk : k < bpb.sectorsPerCluster)
    (hlt : (j * bpb.sectorsPerCluster + k) * bpb.bytesPerSector < file.size)
    (hstep : writeSector drive bpb buffer c k io
      ((j * bpb.sectorsPerCluster + k) * bpb.bytesPerSector)
      (file.size - (j * bpb.sectorsPerCluster + k) * bpb.bytesPerSector) = (io', false)) :
    Q io' false
  /-- A cluster without sectors. -/
  stops {j c : ℕ} {io : IoState} (h : P j c (j * bpb.sectorsPerCluster) io)
    (hj : j < maxClusters bpb) (hlba : clusterToLba bpb c = 0)
    (hlt : j * bpb.sectorsPerCluster * bpb.bytesPerSector < file.size) : Q io false
  /-- A link to the next cluster that takes data. -/
  goes {j c : ℕ} {io : IoState} (h : P j c ((j + 1) * bpb.sectorsPerCluster) io)
    (hj : j < maxClusters bpb) (hlba : clusterToLba bpb c ≠ 0)
    (hlt : (j + 1) * bpb.sectorsPerCluster * bpb.bytesPerSector < file.size)
    (hends : chainEnds (fatGetNextCluster drive bpb io c).2 = false) :
    P (j + 1) (fatGetNextCluster drive bpb io c).2 ((j + 1) * bpb.sectorsPerCluster)
      (fatGetNextCluster drive bpb io c).1
  /-- The end of the chain before that of the data. -/
  short {j c : ℕ} {io : IoState} (h : P j c ((j + 1) * bpb.sectorsPerCluster) io)
    (hj : j < maxClusters bpb) (hlba : clusterToLba bpb c ≠ 0)
    (hlt : (j + 1) * bpb.sectorsPerCluster * bpb.bytesPerSector < file.size)
    (hends : chainEnds (fatGetNextCluster drive bpb io c).2 = true) :
    Q (fatGetNextCluster drive bpb io c).1 false
  /-- All data are written; the link is looked up all the same. -/
  done {j c p : ℕ} {io : IoState} (h : P j c p io) (hj : j < maxClusters bpb)
    (hlba : clusterToLba bpb c ≠ 0) (hp : p ≤ (j + 1) * bpb.sectorsPerCluster)
    (hle : file.size ≤ p * bpb.bytesPerSector) : Q (fatGetNextCluster drive bpb io c).1 true
  rounds {c : ℕ} {io : IoState} (h : P (maxClusters bpb) c
      (maxClusters bpb * bpb.sectorsPerCluster) io)
    (hlt : maxClusters bpb * bpb.sectorsPerCluster * bpb.bytesPerSector < file.size) : Q io false
  empty {io : IoState} (h : P 0 file.firstCluster 0 io) (hsize : file.size = 0) : Q io true

variable {file : Fat32File} {P : ℕ → ℕ → ℕ → IoState → Prop} {Q : IoState → Bool → Prop}

theorem WriteInvariant.writeClusters (h : WriteInvariant drive bpb buffer file P Q)
    (hspc : bpb.sectorsPerCluster ≠ 0) {n j c : ℕ} (hn : j + n = maxClusters bpb) {io : IoState}
    (hp : P j c (j * bpb.sectorsPerCluster) io)
    (hlt : j * bpb.sectorsPerCluster * bpb.bytesPerSector < file.size) :
    Q (writeClusters drive bpb buffer n io c (j * bpb.sectorsPerCluster * bpb.bytesPerSector)
        (file.size - j * bpb.sectorsPerCluster * bpb.bytesPerSector)).1
      (writeClusters drive bpb buffer n io c (j * bpb.sectorsPerCluster * bpb.bytesPerSector)
        (file.size - j * bpb.sectorsPerCluster * bpb.bytesPerSector)).2 := by
  induction n generalizing j c io with
  | zero =>
      obtain rfl : j = maxClusters bpb := hn
      have hleft : ¬file.size - maxClusters bpb * bpb.sectorsPerCluster * bpb.bytesPerSector = 0 :=
        by omega
      simp only [Fat32.writeClusters, decide_eq_false hleft]
      exact h.rounds hp hlt
  | succ n ih =>
      have hj : j < maxClusters bpb := by omega
      have hleft : ¬file.size - j * bpb.sectorsPerCluster * bpb.bytesPerSector = 0 := by omega
      by_cases hlba : clusterToLba bpb c = 0
      · rw [writeClusters_no_sectors n io buffer _ hspc hleft hlba]
        exact h.stops hp hj hlba hlt
      rw [Fat32.writeClusters, if_neg hleft, List.range_eq_range']
      rcases writeSectors_invariant (P := P j c) (Q := fun io ↦ Q io false) hlba
          (fun k io io' hk hlt hp hstep ↦ h.next hp hj hlba hk hlt hstep)
          (fun k io io' hk hlt hp hstep ↦ h.fails hp hj hlba hk hlt hstep)
          (Nat.zero_add bpb.sectorsPerCluster)
          (show P j c (j * bpb.sectorsPerCluster + 0) io from hp) (fun _ ↦ rfl) with
        ⟨io', hrun, hq⟩ | ⟨io', pos', p, hrun, hpos, hp', hple, hlast⟩
      · rw [Nat.add_zero] at hrun
        rw [hrun]
        exact hq
      have hsucc : j * bpb.sectorsPerCluster + bpb.sectorsPerCluster =
          (j + 1) * bpb.sectorsPerCluster := by ring
      rw [hsucc] at hrun hpos hple hlast
      rw [Nat.add_zero] at hrun
      rw [hrun]
      dsimp only
      by_cases hmore : file.size ≤ (j + 1) * bpb.sectorsPerCluster * bpb.bytesPerSector
      · -- All data are written; whatever the link says, the loop ends.
        have hle : file.size ≤ p * bpb.bytesPerSector := by
          rcases hlast with rfl | hle
          · exact hmore
          · exact hle
        have hq := h.done hp' hj hlba hple hle
        rw [Nat.sub_eq_zero_of_le hmore]
        split
        · exact hq
        · rw [writeClusters_done]
          exact hq
      have hlt' := not_le.mp hmore
      have hmul : p * bpb.bytesPerSector ≤ (j + 1) * bpb.sectorsPerCluster * bpb.bytesPerSector :=
        Nat.mul_le_mul_right _ hple
      obtain rfl : p = (j + 1) * bpb.sectorsPerCluster := by
        rcases hlast with heq | hle
        · exact heq
        · omega
      cases hends : chainEnds (fatGetNextCluster drive bpb io' c).2 with
      | true =>
          have hnot : ¬file.size - (j + 1) * bpb.sectorsPerCluster * bpb.bytesPerSector = 0 := by
            omega
          rw [if_pos rfl, decide_eq_false hnot]
          exact h.short hp' hj hlba hlt' hends
      | false =>
          rw [if_neg Bool.false_ne_true, hpos hlt']
          exact ih (by omega) (h.goes hp' hj hlba hlt' hends) hlt'

/-- A whole write keeps its invariant. -/
theorem WriteInvariant.fat32WriteFile (h : WriteInvariant drive bpb buffer file P Q)
    (hspc : bpb.sectorsPerCluster ≠ 0) {io : IoState} (hp : P 0 file.firstCluster 0 io) :
    Q (fat32WriteFile drive bpb io file buffer).1 (fat32WriteFile drive bpb io file buffer).2 := by
  rw [Fat32.fat32WriteFile]
  by_cases hsize : file.size = 0
  · rw [hsize, writeClusters_done]
    exact h.empty hp hsize
  · have hrun := h.writeClusters hspc (Nat.zero_add _)
      (show P 0 file.firstCluster (0 * bpb.sectorsPerCluster) io by rwa [Nat.zero_mul])
      (by rw [Nat.zero_mul, Nat.zero_mul]; omega)
    simpa only [Nat.zero_mul, Nat.sub_zero] using hrun

/-! ## Drives that work -/

/-- The sector of the drive that sector `sec` of a cluster is written to. -/
def dataAt (bpb : Bpb) (cluster sec : ℕ) : ℕ := sectorOf (sectorLba bpb cluster sec) 0

/-- A working drive takes the sector; what the file does not reach stays. -/
theorem writeSector_works (hworks : drive.Works) (hbps : bpb.bytesPerSector = 512) (buffer : Mem)
    (io : IoState) (cluster sec pos left : ℕ) :
    ∃ io' bytes, writeSector drive bpb buffer cluster sec io pos left = (io', true) ∧
      io'.sectors = Function.update io.sectors (dataAt bpb cluster sec) bytes ∧
      ∀ i < 512, bytes i =
        if i < left then buffer (pos + i) else io.sectors (dataAt bpb cluster sec) i := by
  by_cases hfull : bpb.bytesPerSector ≤ left
  · rw [writeSector_full io sec pos hfull, diskWrite_one, if_pos (hworks _).2]
    refine ⟨_, _, rfl, rfl, fun i hi ↦ ?_⟩
    rw [if_pos (by omega)]
  · rw [writeSector_part io sec pos (not_le.mp hfull), diskRead_works hworks.reads io _ one_ne_zero]
    simp only [diskWrite_one, (hworks _).2, if_true]
    refine ⟨_, _, rfl, rfl, fun i hi ↦ ?_⟩
    rw [transferred_one _ _ _ hi]
    rfl

/-- What a write to a drive that works keeps of the disk, with sectors of 512
bytes. -/
structure DiskInvariant (bpb : Bpb) (buffer : Mem) (file : Fat32File)
    (P : ℕ → ℕ → ℕ → (ℕ → Mem) → Prop) (Q : (ℕ → Mem) → Bool → Prop) : Prop where
  next {j c k : ℕ} {disk : ℕ → Mem} {bytes : Mem} (h : P j c (j * bpb.sectorsPerCluster + k) disk)
    (hlba : clusterToLba bpb c ≠ 0) (hk : k < bpb.sectorsPerCluster)
    (hlt : (j * bpb.sectorsPerCluster + k) * 512 < file.size)
    (hbytes : ∀ i < 512, bytes i =
      if (j * bpb.sectorsPerCluster + k) * 512 + i < file.size
      then buffer ((j * bpb.sectorsPerCluster + k) * 512 + i) else disk (dataAt bpb c k) i) :
    P j c (j * bpb.sectorsPerCluster + k + 1) (Function.update disk (dataAt bpb c k) bytes)
  stops {j c : ℕ} {disk : ℕ → Mem} (h : P j c (j * bpb.sectorsPerCluster) disk)
    (hlba : clusterToLba bpb c = 0) (hlt : j * bpb.sectorsPerCluster * 512 < file.size) :
    Q disk false
  goes {j c c' : ℕ} {disk : ℕ → Mem} (h : P j c ((j + 1) * bpb.sectorsPerCluster) disk)
    (hj : j < maxClusters bpb) (hlba : clusterToLba bpb c ≠ 0)
   (hlt : (j + 1) * bpb.sectorsPerCluster * 512 < file.size)
    (hnext : nextCluster bpb disk c = some c') :
    P (j + 1) c' ((j + 1) * bpb.sectorsPerCluster) disk
  short {j c : ℕ} {disk : ℕ → Mem} (h : P j c ((j + 1) * bpb.sectorsPerCluster) disk)
    (hj : j < maxClusters bpb) (hlba : clusterToLba bpb c ≠ 0)
    (hlt : (j + 1) * bpb.sectorsPerCluster * 512 < file.size)
    (hnext : nextCluster bpb disk c = none) : Q disk false
  done {j c p : ℕ} {disk : ℕ → Mem} (h : P j c p disk) (hj : j < maxClusters bpb)
    (hlba : clusterToLba bpb c ≠ 0) (hp : p ≤ (j + 1) * bpb.sectorsPerCluster)
    (hle : file.size ≤ p * 512) : Q disk true
  rounds {c : ℕ} {disk : ℕ → Mem} (h : P (maxClusters bpb) c
      (maxClusters bpb * bpb.sectorsPerCluster) disk)
    (hlt : maxClusters bpb * bpb.sectorsPerCluster * 512 < file.size) : Q disk false
  empty {disk : ℕ → Mem} (h : P 0 file.firstCluster 0 disk) (hsize : file.size = 0) : Q disk true

theorem DiskInvariant.fat32WriteFile {P : ℕ → ℕ → ℕ → (ℕ → Mem) → Prop}
    {Q : (ℕ → Mem) → Bool → Prop} (h : DiskInvariant bpb buffer file P Q) (hworks : drive.Works)
    (hbps : bpb.bytesPerSector = 512) (hspc : bpb.sectorsPerCluster ≠ 0) {io : IoState}
    (hp : P 0 file.firstCluster 0 io.sectors) :
    Q (fat32WriteFile drive bpb io file buffer).1.sectors
      (fat32WriteFile drive bpb io file buffer).2 := by
  have hkeeps := fun io c ↦ (fatGetNextCluster_keeps drive bpb io c).1
  have hlink : ∀ io c, nextCluster bpb io.sectors c =
      if chainEnds (fatGetNextCluster drive bpb io c).2 then none
      else some (fatGetNextCluster drive bpb io c).2 := by
    intro io c
    obtain ⟨n, next, hget, hnext⟩ := fatGetNextCluster_next hworks.reads hbps io c
    rw [hget]
    exact hnext
  refine WriteInvariant.fat32WriteFile (P := fun j c p io ↦ P j c p io.sectors)
    (Q := fun io ok ↦ Q io.sectors ok) ?_ hspc hp
  refine ⟨?_, ?_, ?_, ?_, ?_, ?_, ?_, fun h₀ ↦ h.empty h₀⟩
  · intro j c k io io' h₀ _ hlba hk hlt hstep
    rw [hbps] at hlt hstep
    obtain ⟨io₁, bytes, hwrite, hsectors, hbytes⟩ := writeSector_works hworks hbps buffer io c k
      ((j * bpb.sectorsPerCluster + k) * 512)
      (file.size - (j * bpb.sectorsPerCluster + k) * 512)
    obtain ⟨rfl, -⟩ := Prod.mk.inj (hwrite.symm.trans hstep)
    rw [hsectors]
    refine h.next h₀ hlba hk hlt fun i hi ↦ ?_
    simp only [hbytes i hi, Nat.lt_sub_iff_add_lt']
  · intro j c k io io' _ _ _ _ _ hstep
    obtain ⟨io₁, bytes, hwrite, -⟩ := writeSector_works hworks hbps buffer io c k _ _
    rw [hwrite] at hstep
    cases hstep
  · intro j c io h₀ _ hlba hlt
    rw [hbps] at hlt
    exact h.stops h₀ hlba hlt
  · intro j c io h₀ hj hlba hlt hends
    rw [hbps] at hlt
    rw [hkeeps]
    refine h.goes h₀ hj hlba hlt ?_
    rw [hlink, hends, if_neg Bool.false_ne_true]
  · intro j c io h₀ hj hlba hlt hends
    rw [hbps] at hlt
    rw [hkeeps]
    refine h.short h₀ hj hlba hlt ?_
    rw [hlink, hends, if_pos rfl]
  · intro j c p io h₀ hj hlba hp hle
    rw [hbps] at hle
    rw [hkeeps]
    exact h.done h₀ hj hlba hp hle
  · intro c io h₀ hlt
    rw [hbps] at hlt
    exact h.rounds h₀ hlt

end ImplusKernel.Fat32
