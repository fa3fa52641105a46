import ImplusKernel.FileSystem.Disk

/-!
# The FAT32 driver

Files are found in the root directory by their 8.3 name and read or written
as a whole along their cluster chain.  Sector numbers are computed in 32 bits
without checks.  A division by a zero `bytes_per_sector`, which `fat32_init`
rejects, would fault; here it gives zero.
-/

namespace ImplusKernel.Fat32

open ByteMemory Disk

/-- `FAT32_BPB`. -/
structure Bpb where
  bytesPerSector : ℕ
  sectorsPerCluster : ℕ
  reservedSectors : ℕ
  numFats : ℕ
  fatSizeSectors : ℕ
  rootCluster : ℕ
deriving DecidableEq, Repr

/-- `FAT32_FILE`, without the terminating zero of the name. -/
structure Fat32File where
  name : List UInt8
  firstCluster : ℕ
  size : ℕ
deriving DecidableEq, Repr

def fatStartLba (bpb : Bpb) : ℕ := bpb.reservedSectors

def dataStartLba (bpb : Bpb) : ℕ :=
  (bpb.reservedSectors + bpb.numFats * bpb.fatSizeSectors) % 2 ^ 32

def clusterToLba (bpb : Bpb) (cluster : ℕ) : ℕ :=
  if cluster < 2 then 0
  else (dataStartLba bpb + (cluster - 2) * bpb.sectorsPerCluster) % 2 ^ 32

/-- The argument `lba + sec` of the transfer of one sector of a cluster. -/
def sectorLba (bpb : Bpb) (cluster sec : ℕ) : ℕ := (clusterToLba bpb cluster + sec) % 2 ^ 32

def maxClusters (bpb : Bpb) : ℕ := bpb.fatSizeSectors * bpb.bytesPerSector % 2 ^ 32 / 4

def clusterSize (bpb : Bpb) : ℕ := bpb.sectorsPerCluster * bpb.bytesPerSector

/-- The values for which the loops stop following a chain. -/
def chainEnds (next : ℕ) : Bool := next < 2 ∨ 0x0FFFFFF8 ≤ next

def fatGetNextCluster (drive : Drive) (bpb : Bpb) (io : IoState) (cluster : ℕ) : IoState × ℕ :=
  if cluster < 2 ∨ 0x0FFFFFF8 ≤ cluster then (io, 0x0FFFFFFF)
  else
    let fatOffset := cluster * 4 % 2 ^ 32
    let sector := (fatStartLba bpb + fatOffset / bpb.bytesPerSector) % 2 ^ 32
    let offset := fatOffset % bpb.bytesPerSector
    if bpb.bytesPerSector < offset + 4 then (io, 0x0FFFFFFF)
    else
      match diskRead drive io sector 1 with
      | (io', none) => (io', 0x0FFFFFFF)
      | (io', some buf) => (io', readLE buf offset 4 &&& 0x0FFFFFFF)

/-! ## Initialisation -/

def parseBpb (sector : Mem) : Bpb where
  bytesPerSector := readLE sector 11 2
  sectorsPerCluster := readLE sector 13 1
  reservedSectors := readLE sector 14 2
  numFats := readLE sector 16 1
  fatSizeSectors := readLE sector 36 4
  rootCluster := readLE sector 44 4

def Bpb.accepted (bpb : Bpb) : Bool :=
  ¬(bpb.bytesPerSector = 0 ∨ 4096 < bpb.bytesPerSector) ∧
  ¬(bpb.sectorsPerCluster = 0 ∨ 128 < bpb.sectorsPerCluster) ∧
  ¬(bpb.numFats = 0 ∨ 2 < bpb.numFats) ∧
  ¬bpb.rootCluster < 2

/-- The static `bpb` is overwritten also when the values are rejected. -/
def fat32Init (drive : Drive) (io : IoState) (bpb : Bpb) : IoState × Bpb × Bool :=
  match diskRead drive io 0 1 with
  | (io', none) => (io', bpb, false)
  | (io', some sector) =>
      let bpb' := parseBpb sector
      if bpb'.accepted then (io'.print ["[OS] [FAT32] Init Success\n"], bpb', true)
      else (io', bpb', false)

/-! ## Directory search -/

inductive ScanResult
  | found (file : Fat32File)
  | endOfDirectory
  | notHere
deriving DecidableEq, Repr

/-- `memcmp_local(filename, &buf[i], 11) == 0`. -/
def sameName (filename : List UInt8) (buf : Mem) (i : ℕ) : Bool :=
  (List.range 11).all fun k ↦ filename.getD k 0 = buf (i + k)

def parseEntry (buf : Mem) (i : ℕ) : Fat32File where
  name := (List.range 11).map fun k ↦ buf (i + k)
  firstCluster := readLE buf (i + 20) 2 <<< 16 ||| readLE buf (i + 26) 2
  size := readLE buf (i + 28) 4

/-- The loop over the entries of a sector, at the given offsets. -/
def scanEntries (filename : List UInt8) (buf : Mem) : List ℕ → ScanResult
  | [] => .notHere
  | i :: rest =>
      if buf i = 0x00 then .endOfDirectory
      else if buf i = 0xE5 then scanEntries filename buf rest
      else if buf (i + 11) &&& 0x0F = 0x0F then scanEntries filename buf rest
      else if buf (i + 11) &&& 0x08 ≠ 0 then scanEntries filename buf rest
      else if sameName filename buf i then .found (parseEntry buf i)
      else scanEntries filename buf rest

/-- `for (i = 0; i < bytes_per_sector; i += 32)`. -/
def entryOffsets (bpb : Bpb) : List ℕ :=
  (List.range ((bpb.bytesPerSector + 31) / 32)).map (32 * ·)

inductive SearchResult
  | found (file : Fat32File)
  | failed
  | notHere
deriving DecidableEq, Repr

/-- The loop over the sectors of a cluster. -/
def searchSectors (drive : Drive) (bpb : Bpb) (filename : List UInt8) (cluster : ℕ) :
    List ℕ → IoState → IoState × SearchResult
  | [], io => (io, .notHere)
  | sec :: rest, io =>
      if clusterToLba bpb cluster = 0 then (io, .failed)
      else
        match diskRead drive io (sectorLba bpb cluster sec) 1 with
        | (io', none) => (io', .failed)
        | (io', some buf) =>
            match scanEntries filename buf (entryOffsets bpb) with
            | .found file => (io', .found file)
            | .endOfDirectory => (io', .failed)
            | .notHere => searchSectors drive bpb filename cluster rest io'

/-- The loop over the clusters of the directory, with the number of clusters
still allowed. -/
def searchClusters (drive : Drive) (bpb : Bpb) (filename : List UInt8) :
    ℕ → IoState → ℕ → IoState × Option Fat32File
  | 0, io, _ => (io, none)
  | c + 1, io, cluster =>
      match searchSectors drive bpb filename cluster (List.range bpb.sectorsPerCluster) io with
      | (io', .found file) => (io', some file)
      | (io', .failed) => (io', none)
      | (io', .notHere) =>
          let (io'', next) := fatGetNextCluster drive bpb io' cluster
          if chainEnds next then (io'', none)
          else searchClusters drive bpb filename c io'' next

def fat32FindFile (drive : Drive) (bpb : Bpb) (io : IoState) (filename : List UInt8) :
    IoState × Option Fat32File :=
  searchClusters drive bpb filename (maxClusters bpb) io bpb.rootCluster

/-! ## Reading and writing -/

/-- The loop of `fat32_read_file`, with the bytes copied to the buffer so
far.  Each round copies at least one byte of what is left. -/
def readLoop (drive : Drive) (bpb : Bpb) :
    ℕ → IoState → ℕ → ℕ → List UInt8 → Option (IoState × Bool × List UInt8)
  | 0, _, _, _, _ => none
  | fuel + 1, io, cluster, bytesLeft, copied =>
      if bytesLeft = 0 then some (io, true, copied)
      else
        let lba := clusterToLba bpb cluster
        if lba = 0 then some (io, false, copied)
        else
          let n := if bytesLeft > clusterSize bpb then clusterSize bpb else bytesLeft
          match diskRead drive io lba bpb.sectorsPerCluster with
          | (io', none) => some (io'.print ["[OS] [FAT32] Disk read failed\n"], false, copied)
          | (io', some buf) =>
              let copied' := copied ++ (List.range n).map buf
              let left := bytesLeft - n
              let (io'', next) := fatGetNextCluster drive bpb io' cluster
              if chainEnds next then some (io'', decide (left = 0), copied')
              else readLoop drive bpb fuel io'' next left copied'

def fat32ReadFile (drive : Drive) (bpb : Bpb) (io : IoState) (file : Fat32File) :
    Option (IoState × Bool × List UInt8) :=
  readLoop drive bpb (file.size + 1) io file.firstCluster file.size []

/-- The number of bytes that go into the next sector. -/
def portion (bpb : Bpb) (bytesLeft : ℕ) : ℕ :=
  if bytesLeft > bpb.bytesPerSector then bpb.bytesPerSector else bytesLeft

/-- The loop over the sectors of a cluster; `none` is `return false`.  The
state is the position in the buffer and the number of bytes left. -/
def writeSectors (drive : Drive) (bpb : Bpb) (buffer : Mem) (cluster : ℕ) :
    List ℕ → IoState → ℕ → ℕ → IoState × Option (ℕ × ℕ)
  | [], io, pos, bytesLeft => (io, some (pos, bytesLeft))
  | sec :: rest, io, pos, bytesLeft =>
      if bytesLeft = 0 then (io, some (pos, bytesLeft))
      else if clusterToLba bpb cluster = 0 then (io, none)
      else
        let lba := sectorLba bpb cluster sec
        let n := portion bpb bytesLeft
        if n = bpb.bytesPerSector then
          match diskWrite drive io lba (fun i ↦ buffer (pos + i)) 1 with
          | (io', false) => (io', none)
          | (io', true) =>
              writeSectors drive bpb buffer cluster rest io' (pos + n) (bytesLeft - n)
        else
          match diskRead drive io lba 1 with
          | (io', none) => (io', none)
          | (io', some buf) =>
              match diskWrite drive io' lba
                (fun i ↦ if i < n then buffer (pos + i) else buf i) 1 with
              | (io'', false) => (io'', none)
              | (io'', true) =>
                  writeSectors drive bpb buffer cluster rest io'' (pos + n) (bytesLeft - n)

/-- The loop over the clusters, with the number of clusters still allowed. -/
def writeClusters (drive : Drive) (bpb : Bpb) (buffer : Mem) :
    ℕ → IoState → ℕ → ℕ → ℕ → IoState × Bool
  | 0, io, _, _, bytesLeft => (io, decide (bytesLeft = 0))
  | c + 1, io, cluster, pos, bytesLeft =>
      if bytesLeft = 0 then (io, true)
      else
        match writeSectors drive bpb buffer cluster (List.range bpb.sectorsPerCluster)
          io pos bytesLeft with
        | (io', none) => (io', false)
        | (io', some (pos', left)) =>
            let (io'', next) := fatGetNextCluster drive bpb io' cluster
            if chainEnds next then (io'', decide (left = 0))
            else writeClusters drive bpb buffer c io'' next pos' left

def fat32WriteFile (drive : Drive) (bpb : Bpb) (io : IoState) (file : Fat32File)
    (buffer : Mem) : IoState × Bool :=
  writeClusters drive bpb buffer (maxClusters bpb) io file.firstCluster 0 file.size

end ImplusKernel.Fat32
