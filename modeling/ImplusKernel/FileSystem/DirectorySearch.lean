import ImplusKernel.FileSystem.Volume

/-!
# Directory searches on any chain

The root directory is the list of the 32-byte entries of the distinct clusters
of its chain, which may run into a cycle.  `fat32_find_file` answers with the
first entry of the name that comes before the end mark.
-/

namespace ImplusKernel.Fat32

open ByteMemory Disk

/-! ## The directory as a list of entries -/

/-- The distinct clusters of the root directory, in the order of the chain.
Cluster numbers have 32 bits, so the bound on the walk is never met. -/
def rootClusters (bpb : Bpb) (sectors : ℕ → Mem) : List ℕ :=
  LinkWalk.nodes (nextCluster bpb sectors) (2 ^ 32 + 1) [] bpb.rootCluster

def sectorEntries (sector : Mem) : List Mem :=
  (List.range 16).map fun e i ↦ sector (32 * e + i)

/-- The entries of a cluster; there are none below cluster 2. -/
def clusterEntries (bpb : Bpb) (sectors : ℕ → Mem) (cluster : ℕ) : List Mem :=
  if cluster < 2 then []
  else (List.range bpb.sectorsPerCluster).flatMap fun sec ↦ sectorEntries
    (sectors (sectorOf (metadataEnd bpb + (cluster - 2) * bpb.sectorsPerCluster + sec) 0))

def rootEntries (bpb : Bpb) (sectors : ℕ → Mem) : List Mem :=
  (rootClusters bpb sectors).flatMap (clusterEntries bpb sectors)

/-- The entries before the first that begins with a zero. -/
def liveEntries (entries : List Mem) : List Mem := entries.takeWhile fun e ↦ e 0 ≠ 0

/-- An entry that is not deleted, is not a label and has the given name. -/
def Carries (name : List UInt8) (entry : Mem) : Prop :=
  entry 0 ≠ 0xE5 ∧ entry 11 &&& 0x08 = 0 ∧ ∀ k < 11, entry k = name.getD k 0

instance (name : List UInt8) (entry : Mem) : Decidable (Carries name entry) :=
  inferInstanceAs (Decidable (_ ∧ _ ∧ _))

/-- A boot sector whose data area is not at its start and whose sector numbers
are computed without wrap-around. -/
structure Addressable (bpb : Bpb) : Prop where
  bps : bpb.bytesPerSector = 512
  spc_pos : 0 < bpb.sectorsPerCluster
  fat_le : bpb.fatSizeSectors ≤ 2 ^ 21
  data_ne : metadataEnd bpb ≠ 0
  address : ∀ cluster, 2 ≤ cluster → cluster < maxClusters bpb →
    ∀ sec < bpb.sectorsPerCluster,
      metadataEnd bpb + (cluster - 2) * bpb.sectorsPerCluster + sec < 2 ^ 32

/-- `fat32_find_file` with its out-parameter, which only a found entry
overwrites. -/
def fat32FindFileInto (drive : Drive) (bpb : Bpb) (io : IoState) (filename : List UInt8)
    (file : Fat32File) : IoState × Bool × Fat32File :=
  match fat32FindFile drive bpb io filename with
  | (io', none) => (io', false, file)
  | (io', some found) => (io', true, found)

variable {drive : Drive} {bpb : Bpb} {name : List UInt8}

/-! ## One entry -/

/-- An entry is read from its 32 bytes. -/
theorem parseEntry_shift {buf buf' : Mem} {i i' : ℕ}
    (h : ∀ j < 32, buf (i + j) = buf' (i' + j)) : parseEntry buf i = parseEntry buf' i' := by
  have hfield : ∀ a n, a + n ≤ 32 → readLE buf (i + a) n = readLE buf' (i' + a) n := by
    intro a n ha
    apply readLE_shift
    intro j hj
    rw [Nat.add_assoc, Nat.add_assoc]
    exact h (a + j) (by omega)
  have hname : (List.range 11).map (fun k ↦ buf (i + k)) =
      (List.range 11).map (fun k ↦ buf' (i' + k)) := by
    apply List.map_congr_left
    intro k hk
    rw [List.mem_range] at hk
    exact h k (by omega)
  rw [parseEntry, parseEntry, hname, hfield 20 2 (by decide), hfield 26 2 (by decide),
    hfield 28 4 (by decide)]

theorem sameName_shift (name : List UInt8) {buf buf' : Mem} {i i' : ℕ}
    (h : ∀ j < 32, buf (i + j) = buf' (i' + j)) :
    sameName name buf i = sameName name buf' i' := by
  rw [sameName, sameName, Bool.eq_iff_iff, List.all_eq_true, List.all_eq_true]
  refine forall₂_congr fun k hk ↦ ?_
  rw [List.mem_range] at hk
  rw [h k (by omega)]

theorem scanEntries_shift (name : List UInt8) {buf buf' : Mem} (base : ℕ) {offsets : List ℕ}
    (h : ∀ i ∈ offsets, ∀ j < 32, buf (i + j) = buf' (base + i + j)) :
    scanEntries name buf offsets = scanEntries name buf' (offsets.map (base + ·)) := by
  induction offsets with
  | nil => rfl
  | cons i rest ih =>
      have hi := h i (List.mem_cons_self ..)
      have hfirst : buf i = buf' (base + i) := hi 0 (by decide)
      rw [List.map_cons, scanEntries, scanEntries, hfirst, hi 11 (by decide),
        sameName_shift name hi, parseEntry_shift hi,
        ih fun i hi ↦ h i (List.mem_cons_of_mem _ hi)]

/-- What an entry means for a search: to go on, to give up, or the file. -/
def inspect (name : List UInt8) (entry : Mem) : Option (Option Fat32File) :=
  if entry 0 = 0 then some none
  else if Carries name entry then some (some (parseEntry entry 0))
  else none

/-- A long-name entry has the label bit set. -/
theorem label_of_longName {b : UInt8} (h : b &&& 0x0F = 0x0F) : b &&& 0x08 ≠ 0 := by
  have hmask : b &&& 0x08 = b &&& 0x0F &&& 0x08 := (UInt8.and_assoc b 0x0F 0x08).symm
  rw [hmask, h]
  decide

theorem sameName_iff (name : List UInt8) (buf : Mem) (i : ℕ) :
    sameName name buf i = true ↔ ∀ k < 11, buf (i + k) = name.getD k 0 := by
  rw [sameName, List.all_eq_true]
  refine forall_congr' fun k ↦ ?_
  rw [List.mem_range, decide_eq_true_eq, eq_comm]

def ScanResult.outcome : ScanResult → Option (Option Fat32File)
  | .found f => some (some f)
  | .endOfDirectory => some none
  | .notHere => none

/-- The loop over a sector inspects its entries one by one. -/
theorem scanEntries_outcome (name : List UInt8) (buf : Mem) (offsets : List ℕ) :
    (scanEntries name buf offsets).outcome =
      (offsets.map fun i k ↦ buf (i + k)).findSome? (inspect name) := by
  induction offsets with
  | nil => rfl
  | cons i rest ih =>
      have hparse : parseEntry buf i = parseEntry (fun k ↦ buf (i + k)) 0 :=
        parseEntry_shift fun j _ ↦ by rw [Nat.zero_add]
      have hcarries : Carries name (fun k ↦ buf (i + k)) ↔
          buf i ≠ 0xE5 ∧ buf (i + 11) &&& 0x08 = 0 ∧ sameName name buf i = true := by
        rw [sameName_iff]
        rfl
      have hinspect : inspect name (fun k ↦ buf (i + k)) =
          if buf i = 0 then some none
          else if Carries name (fun k ↦ buf (i + k)) then some (some (parseEntry buf i))
          else none := by
        rw [hparse]
        rfl
      rw [List.map_cons, List.findSome?_cons, scanEntries, hinspect]
      by_cases hzero : buf i = 0
      · simp [hzero, ScanResult.outcome]
      by_cases hdeleted : buf i = 0xE5
      · simp [hcarries, hdeleted, ih]
      by_cases hlong : buf (i + 11) &&& 0x0F = 0x0F
      · simp [hcarries, hzero, hdeleted, hlong, label_of_longName hlong, ih]
      by_cases hlabel : buf (i + 11) &&& 0x08 = 0
      · by_cases hname : sameName name buf i = true
        · simp [hcarries, hzero, hdeleted, hlong, hlabel, hname, ScanResult.outcome]
        · simp [hcarries, hzero, hdeleted, hlong, hlabel, hname, ih]
      · simp [hcarries, hzero, hdeleted, hlong, hlabel, ih]

/-- The first entry that stops a search, against the list of live entries. -/
theorem findSome?_inspect (name : List UInt8) (entries : List Mem) :
    (entries.findSome? (inspect name)).join =
      ((liveEntries entries).find? fun e ↦ Carries name e).map (parseEntry · 0) := by
  induction entries with
  | nil => rfl
  | cons e rest ih =>
      rw [liveEntries] at ih
      rw [liveEntries, List.findSome?_cons, inspect]
      by_cases hzero : e 0 = 0
      · simp [hzero]
      by_cases hcarries : Carries name e
      · simp [hzero, hcarries]
      · simp [hzero, hcarries, ih]

/-! ## One cluster -/

/-- How the loop over the sectors of a cluster ends. -/
def answer : Option (Option Fat32File) → SearchResult
  | some (some f) => .found f
  | some none => .failed
  | none => .notHere

theorem scanEntries_sectorEntries (hbps : bpb.bytesPerSector = 512) (name : List UInt8)
    (sectors : ℕ → Mem) (stack : Mem) (lba : ℕ) :
    (scanEntries name (transferred sectors stack lba 1) (entryOffsets bpb)).outcome =
      (sectorEntries (sectors (sectorOf lba 0))).findSome? (inspect name) := by
  have hbytes : ∀ i ∈ entryOffsets bpb, ∀ j < 32, transferred sectors stack lba 1 (i + j) =
      sectors (sectorOf lba 0) (0 + i + j) := by
    intro i hi j hj
    rw [entryOffsets, hbps, List.mem_map] at hi
    obtain ⟨e, he, rfl⟩ := hi
    rw [List.mem_range] at he
    rw [Nat.zero_add, transferred_one _ _ _ (by omega)]
  rw [scanEntries_shift name 0 hbytes, scanEntries_outcome, sectorEntries, entryOffsets, hbps]
  simp only [List.map_map, Nat.zero_add]
  rfl

theorem searchSectors_outcome (hreads : drive.Reads) (hbps : bpb.bytesPerSector = 512)
    {cluster : ℕ} (hlba : clusterToLba bpb cluster ≠ 0) (name : List UInt8) (secs : List ℕ)
    (io : IoState) :
    ∃ n, searchSectors drive bpb name cluster secs io = ({ io with commands := n },
      answer ((secs.flatMap fun sec ↦ sectorEntries
        (io.sectors (sectorOf (sectorLba bpb cluster sec) 0))).findSome? (inspect name))) := by
  induction secs generalizing io with
  | nil => exact ⟨io.commands, rfl⟩
  | cons sec rest ih =>
      rw [searchSectors, if_neg hlba, diskRead_works hreads io _ one_ne_zero, List.flatMap_cons,
        List.findSome?_append, ← scanEntries_sectorEntries hbps name io.sectors
          (drive.stack io.commands) (sectorLba bpb cluster sec)]
      dsimp only
      cases scanEntries name (transferred io.sectors (drive.stack io.commands)
          (sectorLba bpb cluster sec) 1) (entryOffsets bpb) with
      | found f => exact ⟨_, rfl⟩
      | endOfDirectory => exact ⟨_, rfl⟩
      | notHere => exact ih { io with commands := io.commands + 1 }

/-- What the code does at a cluster, with the sector numbers it computes. -/
def visitCluster (bpb : Bpb) (sectors : ℕ → Mem) (name : List UInt8) (cluster : ℕ) :
    Option (Option Fat32File) :=
  if clusterToLba bpb cluster = 0 then some none
  else ((List.range bpb.sectorsPerCluster).flatMap fun sec ↦ sectorEntries
    (sectors (sectorOf (sectorLba bpb cluster sec) 0))).findSome? (inspect name)

theorem searchSectors_visit (hreads : drive.Reads) (hbps : bpb.bytesPerSector = 512)
    (hspc : 0 < bpb.sectorsPerCluster) (cluster : ℕ) (name : List UInt8) (io : IoState) :
    ∃ n, searchSectors drive bpb name cluster (List.range bpb.sectorsPerCluster) io =
      ({ io with commands := n }, answer (visitCluster bpb io.sectors name cluster)) := by
  rw [visitCluster]
  by_cases hlba : clusterToLba bpb cluster = 0
  · obtain ⟨m, hm⟩ := Nat.exists_eq_succ_of_ne_zero hspc.ne'
    refine ⟨io.commands, ?_⟩
    rw [hm, List.range_eq_range', List.range'_succ, searchSectors, if_pos hlba, if_pos hlba]
    rfl
  · rw [if_neg hlba]
    exact searchSectors_outcome hreads hbps hlba name _ io

/-! ## The walk -/

/-- The loop over the clusters is a walk along the links of the FAT. -/
theorem searchClusters_walk (hreads : drive.Reads) (hbps : bpb.bytesPerSector = 512)
    (hspc : 0 < bpb.sectorsPerCluster) (name : List UInt8) (n : ℕ) (io : IoState)
    (cluster : ℕ) :
    ∃ k, searchClusters drive bpb name n io cluster = ({ io with commands := k },
      (LinkWalk.search (nextCluster bpb io.sectors) (visitCluster bpb io.sectors name) n
        cluster).join) := by
  induction n generalizing io cluster with
  | zero => exact ⟨io.commands, rfl⟩
  | succ n ih =>
      obtain ⟨k, hsectors⟩ := searchSectors_visit hreads hbps hspc cluster name io
      rw [searchClusters, LinkWalk.search, hsectors]
      cases visitCluster bpb io.sectors name cluster with
      | some result => cases result <;> exact ⟨k, rfl⟩
      | none =>
          obtain ⟨k', next, hget, hnext⟩ :=
            fatGetNextCluster_next hreads hbps { io with commands := k } cluster
          simp only [answer, hget, hnext]
          cases chainEnds next with
          | true => exact ⟨k', rfl⟩
          | false => exact ih { io with commands := k' } next

/-! ## The whole search -/

section Addresses

variable (h : Addressable bpb)

include h

theorem Addressable.maxClusters_eq : maxClusters bpb = bpb.fatSizeSectors * 512 / 4 := by
  have hle := h.fat_le
  rw [maxClusters, h.bps, Nat.mod_eq_of_lt (by omega)]

theorem Addressable.clusterToLba_eq {cluster : ℕ} (hlow : 2 ≤ cluster)
    (hhigh : cluster < maxClusters bpb) : clusterToLba bpb cluster =
      metadataEnd bpb + (cluster - 2) * bpb.sectorsPerCluster := by
  have hlt := h.address cluster hlow hhigh 0 h.spc_pos
  rw [clusterToLba, if_neg (not_lt.mpr hlow), dataStartLba, ← metadataEnd,
    Nat.mod_eq_of_lt (a := metadataEnd bpb) (by omega), Nat.mod_eq_of_lt (by omega)]

/-- On a cluster of the chain the computed sectors are those of the cluster. -/
theorem Addressable.visitCluster_eq {cluster : ℕ} (hlow : 2 ≤ cluster)
    (hhigh : cluster < maxClusters bpb) (sectors : ℕ → Mem) (name : List UInt8) :
    visitCluster bpb sectors name cluster =
      (clusterEntries bpb sectors cluster).findSome? (inspect name) := by
  have hlba := h.clusterToLba_eq hlow hhigh
  have hne : clusterToLba bpb cluster ≠ 0 := by
    have hdata := h.data_ne
    omega
  have hsectors : ∀ sec ∈ List.range bpb.sectorsPerCluster, sectorLba bpb cluster sec =
      metadataEnd bpb + (cluster - 2) * bpb.sectorsPerCluster + sec := by
    intro sec hsec
    rw [sectorLba, hlba]
    exact Nat.mod_eq_of_lt (h.address cluster hlow hhigh sec (List.mem_range.mp hsec))
  rw [visitCluster, if_neg hne, clusterEntries, if_neg (not_lt.mpr hlow),
    LinkWalk.findSome?_flatMap, LinkWalk.findSome?_flatMap]
  apply LinkWalk.findSome?_congr
  intro sec hsec
  rw [hsectors sec hsec]

end Addresses

theorem fat32FindFile_eq (h : Addressable bpb) (hreads : drive.Reads) (io : IoState)
    (hchain : ∀ c ∈ rootClusters bpb io.sectors, c < bpb.fatSizeSectors * 512 / 4)
    (name : List UInt8) :
    (fat32FindFile drive bpb io name).2 =
      ((liveEntries (rootEntries bpb io.sectors)).find? fun e ↦ Carries name e).map
        (parseEntry · 0) := by
  rw [← h.maxClusters_eq] at hchain
  have hmax : maxClusters bpb < 2 ^ 32 + 1 := by
    have hle := h.fat_le
    rw [h.maxClusters_eq]
    omega
  -- There are no more clusters than rounds.
  have hwalk : LinkWalk.search (nextCluster bpb io.sectors) (visitCluster bpb io.sectors name)
      (maxClusters bpb) bpb.rootCluster =
        (rootClusters bpb io.sectors).findSome? (visitCluster bpb io.sectors name) :=
    LinkWalk.search_eq_findSome? (fun c hc ↦ Finset.mem_range.mpr (hchain c hc))
      (Finset.card_range _).le ((Finset.card_range _).trans_lt hmax)
  obtain ⟨k, hsearch⟩ := searchClusters_walk hreads h.bps h.spc_pos name (maxClusters bpb) io
    bpb.rootCluster
  rw [fat32FindFile, hsearch, hwalk, ← findSome?_inspect]
  dsimp only
  by_cases hroot : bpb.rootCluster < 2
  · -- The chain consists of a cluster without sectors, at which the code gives up.
    have hclusters : rootClusters bpb io.sectors = [bpb.rootCluster] := by
      rw [rootClusters, LinkWalk.nodes, if_neg List.not_mem_nil, nextCluster, if_pos (Or.inl hroot)]
    rw [rootEntries, hclusters, List.flatMap_singleton, clusterEntries, if_pos hroot,
      List.findSome?_singleton, visitCluster, clusterToLba, if_pos hroot, if_pos rfl]
    rfl
  · rw [rootEntries, LinkWalk.findSome?_flatMap]
    congr 1
    apply LinkWalk.findSome?_congr
    intro c hc
    refine h.visitCluster_eq ?_ (hchain c hc) io.sectors name
    rcases LinkWalk.linked_of_mem_nodes hc with rfl | ⟨y, hy⟩
    · exact not_lt.mp hroot
    · exact two_le_of_nextCluster hy

/-- A search finds the name exactly if a live entry of the directory carries
it; it stores what the first such entry says, and nothing otherwise. -/
theorem fat32FindFile_first_entry (h : Addressable bpb) (hreads : drive.Reads) (io : IoState)
    (hchain : ∀ c ∈ rootClusters bpb io.sectors, c < bpb.fatSizeSectors * 512 / 4)
    (name : List UInt8) (file : Fat32File) :
    let live := liveEntries (rootEntries bpb io.sectors)
    let result := (fat32FindFileInto drive bpb io name file).2
    (result.1 = true ↔ ∃ e ∈ live, Carries name e) ∧
      (∀ e, live.find? (fun e ↦ Carries name e) = some e → result.2 = parseEntry e 0) ∧
      (result.1 = false → result.2 = file) := by
  have hfind := fat32FindFile_eq h hreads io hchain name
  have hinto : (fat32FindFileInto drive bpb io name file).2 =
      match (fat32FindFile drive bpb io name).2 with
      | none => (false, file)
      | some found => (true, found) := by
    rw [fat32FindFileInto]
    rcases fat32FindFile drive bpb io name with ⟨io', _ | found⟩ <;> rfl
  dsimp only
  rw [hinto, hfind]
  cases hfirst : (liveEntries (rootEntries bpb io.sectors)).find? fun e ↦ Carries name e with
  | none =>
      rw [List.find?_eq_none] at hfirst
      simpa using hfirst
  | some e =>
      have hcarries : Carries name e := by simpa using List.find?_some hfirst
      refine ⟨⟨fun _ ↦ ⟨e, List.mem_of_find?_eq_some hfirst, hcarries⟩, fun _ ↦ rfl⟩, ?_, by simp⟩
      intro e' he'
      obtain rfl := Option.some.inj he'
      rfl

/-- A directory of two clusters that link to each other; the entries of the
first are deleted, the second begins with the file `A`. -/
def cyclicDirectory : IoState where
  sectors := fun s ↦
    if s = 2080 then fun i ↦ if i = 8 then 3 else if i = 12 then 2 else 0
    else if s = 2148 then fun _ ↦ 0xE5
    else if s = 2149 then fun i ↦ if i = 0 then 65 else if i < 12 then 32 else 0
    else fun _ ↦ 0
  commands := 0
  written := []
  serial := []

theorem fat32FindFile_first_entry_cyclic :
    rootClusters sampleBpb cyclicDirectory.sectors = [2, 3] ∧
      (fat32FindFileInto faultless sampleBpb cyclicDirectory sampleName ⟨[], 7, 7⟩).2 =
        (true, ⟨sampleName, 0, 0⟩) := by
  have hclusters : rootClusters sampleBpb cyclicDirectory.sectors = [2, 3] := rfl
  have haddress : Addressable sampleBpb := by
    refine ⟨rfl, by decide, by decide, by decide, ?_⟩
    intro c _ hc sec hsec
    have hmax : maxClusters sampleBpb = 4352 := rfl
    have hspc : sampleBpb.sectorsPerCluster = 1 := rfl
    have hend : metadataEnd sampleBpb = 100 := rfl
    rw [hmax] at hc
    rw [hspc] at hsec ⊢
    rw [hend]
    omega
  have hreads : faultless.Reads := fun _ ↦ rfl
  have hchain : ∀ c ∈ rootClusters sampleBpb cyclicDirectory.sectors,
      c < sampleBpb.fatSizeSectors * 512 / 4 := by
    rw [hclusters]
    decide
  obtain ⟨hfound, hstored, -⟩ := fat32FindFile_first_entry haddress hreads cyclicDirectory hchain
    sampleName ⟨[], 7, 7⟩
  obtain ⟨e, hfirst, hparse⟩ : ∃ e,
      (liveEntries (rootEntries sampleBpb cyclicDirectory.sectors)).find?
        (fun e ↦ Carries sampleName e) = some e ∧ parseEntry e 0 = ⟨sampleName, 0, 0⟩ :=
    ⟨_, rfl, rfl⟩
  have hcarries : Carries sampleName e := by simpa using List.find?_some hfirst
  exact ⟨hclusters, Prod.ext (hfound.mpr ⟨e, List.mem_of_find?_eq_some hfirst, hcarries⟩)
    ((hstored e hfirst).trans hparse)⟩

end ImplusKernel.Fat32
