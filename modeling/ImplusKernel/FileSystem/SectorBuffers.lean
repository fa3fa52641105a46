import ImplusKernel.FileSystem.DiskSpec
import ImplusKernel.Lib.Traced

/-!
# Sector buffers

The driver keeps sectors in arrays on its stack whose lengths come from the
boot sector, while a transfer moves 512 bytes a sector.  The driver is run with
a record of what it does with these arrays, and of its divisions, in the order
of the source; without the record it is the driver as it was.  Transfers fill
their arrays for every volume that is accepted exactly when sectors have 512
bytes.
-/

namespace ImplusKernel.Fat32

open ByteMemory Disk Traced

/-- `disk_read` into an array of `length` bytes, an access to `count` bytes of
such an array from `offset` on, or a division. -/
inductive DriverEvent
  | transfer (length sectors : ℕ)
  | access (length offset count : ℕ)
  | divide (divisor : ℕ)
deriving DecidableEq, Repr

/-! ## The driver with its events -/

def fatGetNextClusterTraced (drive : Drive) (bpb : Bpb) (io : IoState) (cluster : ℕ) :
    Traced DriverEvent (IoState × ℕ) :=
  if cluster < 2 ∨ 0x0FFFFFF8 ≤ cluster then pure (io, 0x0FFFFFFF)
  else do
    -- The quotient and the remainder of the same offset.
    emit [.divide bpb.bytesPerSector, .divide bpb.bytesPerSector]
    if bpb.bytesPerSector < fatOffset bpb cluster + 4 then pure (io, 0x0FFFFFFF)
    else do
      emit [.transfer bpb.bytesPerSector 1]
      match diskRead drive io (fatSector bpb cluster) 1 with
      | (io', none) => pure (io', 0x0FFFFFFF)
      | (io', some buf) => do
          emit [.access bpb.bytesPerSector (fatOffset bpb cluster) 4]
          pure (io', readLE buf (fatOffset bpb cluster) 4 &&& 0x0FFFFFFF)

/-- The number of bytes that `memcmp_local` looks at. -/
def comparedBytes (filename : List UInt8) (buf : Mem) (i : ℕ) : ℕ :=
  match (List.range 11).find? fun k ↦ filename.getD k 0 ≠ buf (i + k) with
  | some k => k + 1
  | none => 11

def scanEntriesTraced (length : ℕ) (filename : List UInt8) (buf : Mem) :
    List ℕ → Traced DriverEvent ScanResult
  | [] => pure .notHere
  | i :: rest => do
      emit [.access length i 1]
      if buf i = 0x00 then pure .endOfDirectory
      else if buf i = 0xE5 then scanEntriesTraced length filename buf rest
      else do
        emit [.access length (i + 11) 1]
        if buf (i + 11) &&& 0x0F = 0x0F then scanEntriesTraced length filename buf rest
        else if buf (i + 11) &&& 0x08 ≠ 0 then scanEntriesTraced length filename buf rest
        else do
          emit [.access length i (comparedBytes filename buf i)]
          if sameName filename buf i then do
            emit [.access length (i + 20) 2, .access length (i + 26) 2, .access length (i + 28) 4,
              .access length i 11]
            pure (.found (parseEntry buf i))
          else scanEntriesTraced length filename buf rest

def searchSectorsTraced (drive : Drive) (bpb : Bpb) (filename : List UInt8) (cluster : ℕ) :
    List ℕ → IoState → Traced DriverEvent (IoState × SearchResult)
  | [], io => pure (io, .notHere)
  | sec :: rest, io =>
      if clusterToLba bpb cluster = 0 then pure (io, .failed)
      else do
        emit [.transfer bpb.bytesPerSector 1]
        match diskRead drive io (sectorLba bpb cluster sec) 1 with
        | (io', none) => pure (io', .failed)
        | (io', some buf) => do
            let result ← scanEntriesTraced bpb.bytesPerSector filename buf (entryOffsets bpb)
            match result with
            | .found file => pure (io', .found file)
            | .endOfDirectory => pure (io', .failed)
            | .notHere => searchSectorsTraced drive bpb filename cluster rest io'

def searchClustersTraced (drive : Drive) (bpb : Bpb) (filename : List UInt8) :
    ℕ → IoState → ℕ → Traced DriverEvent (IoState × Option Fat32File)
  | 0, io, _ => pure (io, none)
  | c + 1, io, cluster => do
      let result ← searchSectorsTraced drive bpb filename cluster
        (List.range bpb.sectorsPerCluster) io
      match result with
      | (io', .found file) => pure (io', some file)
      | (io', .failed) => pure (io', none)
      | (io', .notHere) => do
          let (io'', next) ← fatGetNextClusterTraced drive bpb io' cluster
          if chainEnds next then pure (io'', none)
          else searchClustersTraced drive bpb filename c io'' next

/-- The loop of `fat32_read_file`; the bytes that it copies play no part. -/
def readLoopTraced (drive : Drive) (bpb : Bpb) :
    ℕ → IoState → ℕ → ℕ → List UInt8 →
      Traced DriverEvent (Option (IoState × Bool × List UInt8))
  | 0, _, _, _, _ => pure none
  | fuel + 1, io, cluster, bytesLeft, copied =>
      if bytesLeft = 0 then pure (some (io, true, copied))
      else
        let lba := clusterToLba bpb cluster
        if lba = 0 then pure (some (io, false, copied))
        else do
          let n := if bytesLeft > clusterSize bpb then clusterSize bpb else bytesLeft
          emit [.transfer (clusterSize bpb) bpb.sectorsPerCluster]
          match diskRead drive io lba bpb.sectorsPerCluster with
          | (io', none) =>
              pure (some (io'.print ["[OS] [FAT32] Disk read failed\n"], false, copied))
          | (io', some buf) => do
              emit [.access (clusterSize bpb) 0 n]
              let copied' := copied ++ (List.range n).map buf
              let left := bytesLeft - n
              let (io'', next) ← fatGetNextClusterTraced drive bpb io' cluster
              if chainEnds next then pure (some (io'', decide (left = 0), copied'))
              else readLoopTraced drive bpb fuel io'' next left copied'

/-- A full sector goes to the drive straight from the caller's buffer; only
the last part of a file passes through the array. -/
def writeSectorsTraced (drive : Drive) (bpb : Bpb) (buffer : Mem) (cluster : ℕ) :
    List ℕ → IoState → ℕ → ℕ → Traced DriverEvent (IoState × Option (ℕ × ℕ))
  | [], io, pos, bytesLeft => pure (io, some (pos, bytesLeft))
  | sec :: rest, io, pos, bytesLeft =>
      if bytesLeft = 0 then pure (io, some (pos, bytesLeft))
      else if clusterToLba bpb cluster = 0 then pure (io, none)
      else
        let lba := sectorLba bpb cluster sec
        let n := portion bpb bytesLeft
        if n = bpb.bytesPerSector then
          match diskWrite drive io lba (fun i ↦ buffer (pos + i)) 1 with
          | (io', false) => pure (io', none)
          | (io', true) =>
              writeSectorsTraced drive bpb buffer cluster rest io' (pos + n) (bytesLeft - n)
        else do
          emit [.transfer bpb.bytesPerSector 1]
          match diskRead drive io lba 1 with
          | (io', none) => pure (io', none)
          | (io', some buf) => do
              emit [.access bpb.bytesPerSector 0 n, .access bpb.bytesPerSector 0 512]
              match diskWrite drive io' lba
                (fun i ↦ if i < n then buffer (pos + i) else buf i) 1 with
              | (io'', false) => pure (io'', none)
              | (io'', true) =>
                  writeSectorsTraced drive bpb buffer cluster rest io'' (pos + n) (bytesLeft - n)

def writeClustersTraced (drive : Drive) (bpb : Bpb) (buffer : Mem) :
    ℕ → IoState → ℕ → ℕ → ℕ → Traced DriverEvent (IoState × Bool)
  | 0, io, _, _, bytesLeft => pure (io, decide (bytesLeft = 0))
  | c + 1, io, cluster, pos, bytesLeft =>
      if bytesLeft = 0 then pure (io, true)
      else do
        let result ← writeSectorsTraced drive bpb buffer cluster
          (List.range bpb.sectorsPerCluster) io pos bytesLeft
        match result with
        | (io', none) => pure (io', false)
        | (io', some (pos', left)) => do
            let (io'', next) ← fatGetNextClusterTraced drive bpb io' cluster
            if chainEnds next then pure (io'', decide (left = 0))
            else writeClustersTraced drive bpb buffer c io'' next pos' left

/-! ## Without the events -/

variable {drive : Drive} {bpb : Bpb}

@[simp]
theorem fatGetNextClusterTraced_value (io : IoState) (cluster : ℕ) :
    (fatGetNextClusterTraced drive bpb io cluster).value =
      fatGetNextCluster drive bpb io cluster := by
  simp only [fatGetNextClusterTraced, fatGetNextCluster, value_ite, value_pure, value_bind]
  refine if_congr Iff.rfl rfl (if_congr Iff.rfl rfl ?_)
  dsimp only [fatSector, fatOffset]
  rcases diskRead drive io
    ((fatStartLba bpb + cluster * 4 % 2 ^ 32 / bpb.bytesPerSector) % 2 ^ 32) 1 with
    ⟨io', _ | buf⟩ <;> rfl

@[simp]
theorem scanEntriesTraced_value (length : ℕ) (filename : List UInt8) (buf : Mem)
    (offsets : List ℕ) :
    (scanEntriesTraced length filename buf offsets).value = scanEntries filename buf offsets := by
  induction offsets with
  | nil => rfl
  | cons i rest ih =>
      simp only [scanEntriesTraced, scanEntries, value_bind, value_ite, value_pure, ih]

@[simp]
theorem searchSectorsTraced_value (filename : List UInt8) (cluster : ℕ) (secs : List ℕ)
    (io : IoState) :
    (searchSectorsTraced drive bpb filename cluster secs io).value =
      searchSectors drive bpb filename cluster secs io := by
  induction secs generalizing io with
  | nil => rfl
  | cons sec rest ih =>
      simp only [searchSectorsTraced, searchSectors, value_ite, value_pure, value_bind]
      refine if_congr Iff.rfl rfl ?_
      rcases diskRead drive io (sectorLba bpb cluster sec) 1 with ⟨io', _ | buf⟩
      · rfl
      · simp only [value_bind, scanEntriesTraced_value]
        cases scanEntries filename buf (entryOffsets bpb) with
        | found file => rfl
        | endOfDirectory => rfl
        | notHere => exact ih io'

theorem searchClustersTraced_value (filename : List UInt8) (n : ℕ) (io : IoState)
    (cluster : ℕ) :
    (searchClustersTraced drive bpb filename n io cluster).value =
      searchClusters drive bpb filename n io cluster := by
  induction n generalizing io cluster with
  | zero => rfl
  | succ n ih =>
      simp only [searchClustersTraced, searchClusters, value_bind, searchSectorsTraced_value]
      rcases searchSectors drive bpb filename cluster (List.range bpb.sectorsPerCluster) io with
        ⟨io', _ | _ | _⟩
      · rfl
      · rfl
      · simp only [value_bind, fatGetNextClusterTraced_value, value_ite, value_pure, ih]

theorem readLoopTraced_value (fuel : ℕ) (io : IoState) (cluster bytesLeft : ℕ)
    (copied : List UInt8) :
    (readLoopTraced drive bpb fuel io cluster bytesLeft copied).value =
      readLoop drive bpb fuel io cluster bytesLeft copied := by
  induction fuel generalizing io cluster bytesLeft copied with
  | zero => rfl
  | succ fuel ih =>
      simp only [readLoopTraced, readLoop, value_ite, value_pure, value_bind]
      refine if_congr Iff.rfl rfl (if_congr Iff.rfl rfl ?_)
      rcases diskRead drive io (clusterToLba bpb cluster) bpb.sectorsPerCluster with
        ⟨io', _ | buf⟩
      · rfl
      · simp only [value_bind, fatGetNextClusterTraced_value, value_ite, value_pure, ih]

@[simp]
theorem writeSectorsTraced_value (buffer : Mem) (cluster : ℕ) (secs : List ℕ) (io : IoState)
    (pos bytesLeft : ℕ) :
    (writeSectorsTraced drive bpb buffer cluster secs io pos bytesLeft).value =
      writeSectors drive bpb buffer cluster secs io pos bytesLeft := by
  induction secs generalizing io pos bytesLeft with
  | nil => rfl
  | cons sec rest ih =>
      simp only [writeSectorsTraced, writeSectors, value_ite, value_pure, value_bind]
      refine if_congr Iff.rfl rfl (if_congr Iff.rfl rfl (if_congr Iff.rfl ?_ ?_))
      · rcases diskWrite drive io (sectorLba bpb cluster sec) (fun i ↦ buffer (pos + i)) 1 with
          ⟨io', _ | _⟩
        · rfl
        · exact ih _ _ _
      · rcases diskRead drive io (sectorLba bpb cluster sec) 1 with ⟨io', _ | buf⟩
        · rfl
        simp only [value_bind]
        rcases diskWrite drive io' (sectorLba bpb cluster sec) (fun i ↦
          if i < portion bpb bytesLeft then buffer (pos + i) else buf i) 1 with ⟨io'', _ | _⟩
        · rfl
        · exact ih _ _ _

theorem writeClustersTraced_value (buffer : Mem) (n : ℕ) (io : IoState)
    (cluster pos bytesLeft : ℕ) :
    (writeClustersTraced drive bpb buffer n io cluster pos bytesLeft).value =
      writeClusters drive bpb buffer n io cluster pos bytesLeft := by
  induction n generalizing io cluster pos bytesLeft with
  | zero => rfl
  | succ n ih =>
      simp only [writeClustersTraced, writeClusters, value_ite, value_pure, value_bind,
        writeSectorsTraced_value]
      refine if_congr Iff.rfl rfl ?_
      rcases writeSectors drive bpb buffer cluster (List.range bpb.sectorsPerCluster) io pos
        bytesLeft with ⟨io', _ | ⟨pos', left⟩⟩
      · rfl
      · simp only [value_bind, fatGetNextClusterTraced_value, value_ite, value_pure, ih]

/-! ## The events of a call -/

def nextClusterEvents (drive : Drive) (bpb : Bpb) (io : IoState) (cluster : ℕ) :
    List DriverEvent :=
  (fatGetNextClusterTraced drive bpb io cluster).events

/-- `fat32_find_file` with its events. -/
def fat32FindFileTraced (drive : Drive) (bpb : Bpb) (io : IoState) (filename : List UInt8) :
    Traced DriverEvent (IoState × Option Fat32File) :=
  searchClustersTraced drive bpb filename (maxClusters bpb) io bpb.rootCluster

def findFileEvents (drive : Drive) (bpb : Bpb) (io : IoState) (filename : List UInt8) :
    List DriverEvent :=
  (fat32FindFileTraced drive bpb io filename).events

/-- `fat32_read_file` with its events. -/
def fat32ReadFileTraced (drive : Drive) (bpb : Bpb) (io : IoState) (file : Fat32File) :
    Traced DriverEvent (Option (IoState × Bool × List UInt8)) :=
  readLoopTraced drive bpb (file.size + 1) io file.firstCluster file.size []

def readFileEvents (drive : Drive) (bpb : Bpb) (io : IoState) (file : Fat32File) :
    List DriverEvent :=
  (fat32ReadFileTraced drive bpb io file).events

/-- `fat32_write_file` with its events. -/
def fat32WriteFileTraced (drive : Drive) (bpb : Bpb) (io : IoState) (file : Fat32File)
    (buffer : Mem) : Traced DriverEvent (IoState × Bool) :=
  writeClustersTraced drive bpb buffer (maxClusters bpb) io file.firstCluster 0 file.size

def writeFileEvents (drive : Drive) (bpb : Bpb) (io : IoState) (file : Fat32File)
    (buffer : Mem) : List DriverEvent :=
  (fat32WriteFileTraced drive bpb io file buffer).events

/-- The events are those of the driver: without them, its functions are left. -/
theorem traced_value (drive : Drive) (bpb : Bpb) (io : IoState) (filename : List UInt8)
    (file : Fat32File) (buffer : Mem) :
    (fat32FindFileTraced drive bpb io filename).value = fat32FindFile drive bpb io filename ∧
      (fat32ReadFileTraced drive bpb io file).value = fat32ReadFile drive bpb io file ∧
      (fat32WriteFileTraced drive bpb io file buffer).value =
        fat32WriteFile drive bpb io file buffer :=
  ⟨searchClustersTraced_value .., readLoopTraced_value .., writeClustersTraced_value ..⟩

/-! ## What can happen -/

/-- The events there are, whatever the drive holds. -/
inductive Issued (bpb : Bpb) : DriverEvent → Prop
  | divide : Issued bpb (.divide bpb.bytesPerSector)
  | sector : Issued bpb (.transfer bpb.bytesPerSector 1)
  | cluster : Issued bpb (.transfer (clusterSize bpb) bpb.sectorsPerCluster)
  | link {offset : ℕ} (h : offset + 4 ≤ bpb.bytesPerSector) :
      Issued bpb (.access bpb.bytesPerSector offset 4)
  | entry {i offset count : ℕ} (hi : i ∈ entryOffsets bpb) (h : offset + count ≤ 32) :
      Issued bpb (.access bpb.bytesPerSector (i + offset) count)
  | copied {n : ℕ} (h : n ≤ clusterSize bpb) : Issued bpb (.access (clusterSize bpb) 0 n)
  | patched {n : ℕ} (h : n ≤ bpb.bytesPerSector) : Issued bpb (.access bpb.bytesPerSector 0 n)
  | stored : Issued bpb (.access bpb.bytesPerSector 0 512)

theorem Issued.divisor {d : ℕ} (h : Issued bpb (.divide d)) : d = bpb.bytesPerSector := by
  cases h
  rfl

theorem comparedBytes_le (filename : List UInt8) (buf : Mem) (i : ℕ) :
    comparedBytes filename buf i ≤ 11 := by
  unfold comparedBytes
  split
  · next k hk =>
    have hlt := List.mem_range.mp (List.mem_of_find?_eq_some hk)
    omega
  · exact le_rfl

theorem fatGetNextClusterTraced_issued (io : IoState) (cluster : ℕ) :
    All (Issued bpb) (fatGetNextClusterTraced drive bpb io cluster) := by
  refine .ite (fun _ ↦ all_pure _) fun _ ↦ .bind (all_emit (by simp [Issued.divide])) ?_
  refine .ite (fun _ ↦ all_pure _) fun hfit ↦ .bind (all_emit (by simp [Issued.sector])) ?_
  split
  · exact all_pure _
  · exact .bind (all_emit (by simp [Issued.link (not_lt.mp hfit)])) (all_pure _)

theorem scanEntriesTraced_issued (filename : List UInt8) (buf : Mem) {offsets : List ℕ}
    (hoffsets : ∀ i ∈ offsets, i ∈ entryOffsets bpb) :
    All (Issued bpb) (scanEntriesTraced bpb.bytesPerSector filename buf offsets) := by
  induction offsets with
  | nil => exact all_pure _
  | cons i rest ih =>
      have hrest := ih fun j hj ↦ hoffsets j (List.mem_cons_of_mem i hj)
      have hentry : ∀ {offset count : ℕ}, offset + count ≤ 32 →
          Issued bpb (.access bpb.bytesPerSector (i + offset) count) :=
        Issued.entry (hoffsets i List.mem_cons_self)
      have hfirst : ∀ {count : ℕ}, count ≤ 32 →
          Issued bpb (.access bpb.bytesPerSector i count) :=
        fun h ↦ @hentry 0 _ (by omega)
      have hname := (comparedBytes_le filename buf i).trans (show 11 ≤ 32 by decide)
      refine .bind (all_emit (by simpa using hfirst (by decide))) ?_
      refine .ite (fun _ ↦ all_pure _) fun _ ↦ .ite (fun _ ↦ hrest) fun _ ↦ ?_
      refine .bind (all_emit (by simpa using hentry (by decide))) ?_
      refine .ite (fun _ ↦ hrest) fun _ ↦ .ite (fun _ ↦ hrest) fun _ ↦ ?_
      refine .bind (all_emit (by simpa using hfirst hname)) ?_
      refine .ite (fun _ ↦ .bind (all_emit ?_) (all_pure _)) fun _ ↦ hrest
      simp only [List.forall_mem_cons]
      exact ⟨hentry (by decide), hentry (by decide), hentry (by decide), hfirst (by decide),
        List.forall_mem_nil _⟩

theorem searchSectorsTraced_issued (filename : List UInt8) (cluster : ℕ) (secs : List ℕ)
    (io : IoState) :
    All (Issued bpb) (searchSectorsTraced drive bpb filename cluster secs io) := by
  induction secs generalizing io with
  | nil => exact all_pure _
  | cons sec rest ih =>
      refine .ite (fun _ ↦ all_pure _) fun _ ↦ .bind (all_emit (by simp [Issued.sector])) ?_
      split
      · exact all_pure _
      refine .bind (scanEntriesTraced_issued filename _ fun _ hi ↦ hi) ?_
      split
      · exact all_pure _
      · exact all_pure _
      · exact ih _

theorem findFileEvents_issued (drive : Drive) (bpb : Bpb) (io : IoState)
    (filename : List UInt8) : All (Issued bpb) (fat32FindFileTraced drive bpb io filename) := by
  unfold fat32FindFileTraced
  generalize maxClusters bpb = c
  generalize bpb.rootCluster = cluster
  induction c generalizing io cluster with
  | zero => exact all_pure _
  | succ c ih =>
      refine .bind (searchSectorsTraced_issued _ _ _ _) ?_
      split
      · exact all_pure _
      · exact all_pure _
      · exact .bind (fatGetNextClusterTraced_issued _ _)
          (.ite (fun _ ↦ all_pure _) fun _ ↦ ih _ _)

theorem readFileEvents_issued (drive : Drive) (bpb : Bpb) (io : IoState) (file : Fat32File) :
    All (Issued bpb) (fat32ReadFileTraced drive bpb io file) := by
  unfold fat32ReadFileTraced
  generalize file.size + 1 = fuel
  generalize file.size = left
  generalize file.firstCluster = cluster
  generalize ([] : List UInt8) = copied
  induction fuel generalizing io left cluster copied with
  | zero => exact all_pure _
  | succ fuel ih =>
      refine .ite (fun _ ↦ all_pure _) fun _ ↦ .ite (fun _ ↦ all_pure _) fun _ ↦ ?_
      refine .bind (all_emit (by simp [Issued.cluster])) ?_
      split
      · exact all_pure _
      refine .bind (all_emit ?_) (.bind (fatGetNextClusterTraced_issued _ _) ?_)
      · rw [List.forall_mem_singleton]
        exact .copied (by split <;> omega)
      · exact .ite (fun _ ↦ all_pure _) fun _ ↦ ih _ _ _ _

theorem writeSectorsTraced_issued (buffer : Mem) (cluster : ℕ) (secs : List ℕ) (io : IoState)
    (pos left : ℕ) :
    All (Issued bpb) (writeSectorsTraced drive bpb buffer cluster secs io pos left) := by
  induction secs generalizing io pos left with
  | nil => exact all_pure _
  | cons sec rest ih =>
      have hportion : portion bpb left ≤ bpb.bytesPerSector := by
        unfold portion
        split <;> omega
      refine .ite (fun _ ↦ all_pure _) fun _ ↦ .ite (fun _ ↦ all_pure _) fun _ ↦ ?_
      refine .ite (fun _ ↦ ?_) fun _ ↦ .bind (all_emit (by simp [Issued.sector])) ?_
      · split
        · exact all_pure _
        · exact ih _ _ _
      · split
        · exact all_pure _
        refine .bind (all_emit (by simp [Issued.patched hportion, Issued.stored])) ?_
        split
        · exact all_pure _
        · exact ih _ _ _

theorem writeFileEvents_issued (drive : Drive) (bpb : Bpb) (io : IoState) (file : Fat32File)
    (buffer : Mem) : All (Issued bpb) (fat32WriteFileTraced drive bpb io file buffer) := by
  unfold fat32WriteFileTraced
  generalize maxClusters bpb = c
  generalize file.firstCluster = cluster
  generalize file.size = left
  generalize 0 = pos
  induction c generalizing io cluster pos left with
  | zero => exact all_pure _
  | succ c ih =>
      refine .ite (fun _ ↦ all_pure _) fun _ ↦ .bind (writeSectorsTraced_issued _ _ _ _ _ _) ?_
      split
      · exact all_pure _
      · exact .bind (fatGetNextClusterTraced_issued _ _)
          (.ite (fun _ ↦ all_pure _) fun _ ↦ ih _ _ _ _)

/-! ## Exact transfers -/

/-- A transfer fills its array, and an access stays inside. -/
def DriverEvent.Fits : DriverEvent → Prop
  | .transfer length sectors => 512 * sectors = length
  | .access length offset count => offset + count ≤ length
  | .divide _ => True

/-- What the driver does with its arrays on a volume with these values, over
all drives, states and arguments. -/
structure BuffersFit (bpb : Bpb) : Prop where
  link : ∀ drive io cluster, ∀ e ∈ nextClusterEvents drive bpb io cluster, e.Fits
  find : ∀ drive io filename, ∀ e ∈ findFileEvents drive bpb io filename, e.Fits
  read : ∀ drive io file, ∀ e ∈ readFileEvents drive bpb io file, e.Fits
  write : ∀ drive io file buffer, ∀ e ∈ writeFileEvents drive bpb io file buffer, e.Fits

theorem entryOffsets_fit (hbps : bpb.bytesPerSector = 512) {i : ℕ} (hi : i ∈ entryOffsets bpb) :
    i + 32 ≤ bpb.bytesPerSector := by
  simp only [entryOffsets, hbps, List.mem_map, List.mem_range] at hi
  obtain ⟨k, hk, rfl⟩ := hi
  omega

theorem Issued.fits (hbps : bpb.bytesPerSector = 512) {e : DriverEvent} (h : Issued bpb e) :
    e.Fits := by
  cases h with
  | divide => trivial
  | sector => exact hbps.symm
  | cluster =>
      rw [DriverEvent.Fits, clusterSize, hbps]
      omega
  | link h => exact h
  | entry hi h =>
      have hentry := entryOffsets_fit hbps hi
      rw [DriverEvent.Fits]
      omega
  | copied h =>
      rw [DriverEvent.Fits]
      omega
  | patched h =>
      rw [DriverEvent.Fits]
      omega
  | stored =>
      rw [DriverEvent.Fits]
      omega

/-- The first two clusters of the data area are not both at sector 0. -/
theorem exists_clusterToLba_ne_zero (bpb : Bpb) (hspc : bpb.sectorsPerCluster ≠ 0)
    (hle : bpb.sectorsPerCluster ≤ 128) : ∃ cluster, clusterToLba bpb cluster ≠ 0 := by
  by_contra hnone
  have hzero : ∀ cluster, clusterToLba bpb cluster = 0 :=
    fun cluster ↦ not_not.mp fun h ↦ hnone ⟨cluster, h⟩
  have h₂ := hzero 2
  have h₃ := hzero 3
  simp only [clusterToLba, Nat.lt_irrefl, if_false, Nat.sub_self, Nat.zero_mul, Nat.add_zero,
    show ¬3 < 2 by decide, show 3 - 2 = 1 from rfl, Nat.one_mul] at h₂ h₃
  omega

/-- A read of one byte transfers a whole cluster. -/
theorem transfer_mem_readFileEvents (drive : Drive) (io : IoState) (name : List UInt8)
    {cluster : ℕ} (hlba : clusterToLba bpb cluster ≠ 0) :
    .transfer (clusterSize bpb) bpb.sectorsPerCluster ∈
      readFileEvents drive bpb io ⟨name, cluster, 1⟩ := by
  simp only [readFileEvents, fat32ReadFileTraced, readLoopTraced, Nat.one_ne_zero, if_false,
    if_neg hlba]
  exact List.mem_append_left _ List.mem_cons_self

theorem accepted_of_fat32Init {io io' : IoState} {old : Bpb}
    (h : fat32Init drive io old = (io', bpb, true)) : bpb.accepted = true := by
  unfold fat32Init at h
  split at h
  · simp at h
  · dsimp only at h
    split at h
    · next haccepted =>
      rw [← (Prod.mk.inj (Prod.mk.inj h).2).1]
      exact haccepted
    · simp at h

theorem buffersFit_iff {io io' : IoState} {old : Bpb}
    (h : fat32Init drive io old = (io', bpb, true)) :
    BuffersFit bpb ↔ bpb.bytesPerSector = 512 := by
  have haccepted := accepted_of_fat32Init h
  simp only [Bpb.accepted, decide_eq_true_eq] at haccepted
  constructor
  · intro hfit
    obtain ⟨cluster, hlba⟩ := exists_clusterToLba_ne_zero bpb (by omega) (by omega)
    have hexact := hfit.read drive io _ _ (transfer_mem_readFileEvents drive io [] hlba)
    rw [DriverEvent.Fits, clusterSize, Nat.mul_comm] at hexact
    exact (Nat.eq_of_mul_eq_mul_left (by omega) hexact).symm
  · intro hbps
    exact ⟨fun _ _ _ e he ↦ (fatGetNextClusterTraced_issued _ _ e he).fits hbps,
      fun _ _ _ e he ↦ (findFileEvents_issued _ _ _ _ e he).fits hbps,
      fun _ _ _ e he ↦ (readFileEvents_issued _ _ _ _ e he).fits hbps,
      fun _ _ _ _ e he ↦ (writeFileEvents_issued _ _ _ _ _ e he).fits hbps⟩

/-- A drive that is empty but for a boot sector with this sector size. -/
def blankVolume (bytesPerSector : ℕ) : IoState where
  sectors := fun s ↦
    if s = fat32StartLba then
      writeLE (writeLE (writeLE (fun _ ↦ 0) 11 6 (bytesPerSector + 0x020020010000)) 36 4 34) 44 4 2
    else fun _ ↦ 0
  commands := 0
  written := []
  serial := []

theorem buffersFit_512 :
    fat32Init faultless (blankVolume 512) ⟨0, 0, 0, 0, 0, 0⟩ =
        ({ (blankVolume 512) with
          commands := 1
          serial := ["[OS] [FAT32] Init Success\n"] }, sampleBpb, true) ∧
      BuffersFit sampleBpb := by
  have hinit : fat32Init faultless (blankVolume 512) ⟨0, 0, 0, 0, 0, 0⟩ =
      ({ (blankVolume 512) with
        commands := 1
        serial := ["[OS] [FAT32] Init Success\n"] }, sampleBpb, true) := rfl
  exact ⟨hinit, (buffersFit_iff hinit).mpr rfl⟩

/-- With sectors of 256 bytes, a search puts 512 bytes into an array of half
that length. -/
theorem search_overruns_256 : ∃ io' bpb,
    fat32Init faultless (blankVolume 256) ⟨0, 0, 0, 0, 0, 0⟩ = (io', bpb, true) ∧
      .transfer 256 1 ∈ findFileEvents faultless bpb io' sampleName ∧
      ¬DriverEvent.Fits (.transfer 256 1) := by
  refine ⟨_, _, rfl, ?_, by simp [DriverEvent.Fits]⟩
  rw [findFileEvents, fat32FindFileTraced, show maxClusters _ = 2175 + 1 from rfl]
  exact List.mem_append_left _ (List.mem_append_left _ List.mem_cons_self)

end ImplusKernel.Fat32
