import ImplusKernel.FileSystem.DirectorySearch
import ImplusKernel.FileSystem.FileContents

/-!
# The root directory

On a valid volume the bytes of the directory's chain form one table of 32-byte
entries.  The walk of `fat32_find_file` along the chain gives the answer of one
scan over the whole table.
-/

namespace ImplusKernel.Fat32

open ByteMemory Disk

variable {drive : Drive} {bpb : Bpb} {clusters : ℕ} {sectors : ℕ → Mem} {chain : List ℕ}

/-- The offsets of `n` entries, from number `start` on. -/
def entries (start n : ℕ) : List ℕ := (List.range' start n).map (32 * ·)

def ScanResult.file : ScanResult → Option Fat32File
  | .found f => some f
  | .endOfDirectory => none
  | .notHere => none

/-- A scan of the whole directory. -/
def scanChain (bpb : Bpb) (sectors : ℕ → Mem) (chain : List ℕ) (name : List UInt8) :
    ScanResult :=
  scanEntries name (chainByte bpb sectors chain)
    (entries 0 (chain.length * (16 * bpb.sectorsPerCluster)))

/-- The file of a name. -/
def lookup (bpb : Bpb) (sectors : ℕ → Mem) (chain : List ℕ) (name : List UInt8) :
    Option Fat32File :=
  (scanChain bpb sectors chain name).file

/-! ## Scans -/

theorem entries_add (start a b : ℕ) :
    entries start (a + b) = entries start a ++ entries (start + a) b := by
  rw [entries, entries, entries, ← List.map_append, List.range'_append_1]

theorem shift_entries (k start n : ℕ) :
    (entries start n).map (32 * k + ·) = entries (k + start) n := by
  rw [entries, entries, ← List.map_add_range', List.map_map, List.map_map]
  apply List.map_congr_left
  intro i _
  simp only [Function.comp_apply]
  omega

theorem ScanResult.file_eq (r : ScanResult) : r.file = r.outcome.join := by
  cases r <;> rfl

theorem scanEntries_append_outcome (name : List UInt8) (buf : Mem) (xs ys : List ℕ) :
    (scanEntries name buf (xs ++ ys)).outcome =
      (scanEntries name buf xs).outcome.or (scanEntries name buf ys).outcome := by
  rw [scanEntries_outcome, scanEntries_outcome, scanEntries_outcome, List.map_append,
    List.findSome?_append]

theorem mem_entries {start n i : ℕ} : i ∈ entries start n ↔
    ∃ e, start ≤ e ∧ e < start + n ∧ i = 32 * e := by
  simp only [entries, List.mem_map, List.mem_range'_1, and_assoc, eq_comm]

/-! ## The search -/

/-- A sector of a cluster holds sixteen entries of the table. -/
theorem scanEntries_sector (hgeo : Geometry bpb clusters) (sectors : ℕ → Mem) {c k : ℕ}
    (rest : List ℕ) (hk : k < bpb.sectorsPerCluster) (name : List UInt8) :
    (scanEntries name (chainByte bpb sectors (c :: rest)) (entries (16 * k) 16)).outcome =
      (sectorEntries (sectors (dataSector bpb c k))).findSome? (inspect name) := by
  have hbytes : ∀ i ∈ entries 0 16, ∀ j < 32, sectors (dataSector bpb c k) (i + j) =
      chainByte bpb sectors (c :: rest) (32 * (16 * k) + i + j) := by
    intro i hi j hj
    obtain ⟨e, -, he, rfl⟩ := mem_entries.mp hi
    have hlt : 32 * (16 * k) + 32 * e + j < clusterSize bpb := by
      rw [hgeo.clusterSize_eq]
      omega
    rw [chainByte_cons_lt hgeo sectors c rest hlt,
      show (32 * (16 * k) + 32 * e + j) / 512 = k by omega,
      show (32 * (16 * k) + 32 * e + j) % 512 = 32 * e + j by omega]
  have hshift := scanEntries_shift name (32 * (16 * k)) hbytes
  rw [shift_entries, Nat.add_zero] at hshift
  rw [← hshift, scanEntries_outcome, sectorEntries, entries, ← List.range_eq_range', List.map_map]
  rfl

/-- What the walk finds in a cluster is what the scan finds in its part of the
table. -/
theorem visitCluster_eq_scan (hgeo : Geometry bpb clusters) (sectors : ℕ → Mem) {c : ℕ}
    (hc : InRange clusters c) (rest : List ℕ) (name : List UInt8) :
    visitCluster bpb sectors name c = (scanEntries name (chainByte bpb sectors (c :: rest))
      (entries 0 (16 * bpb.sectorsPerCluster))).outcome := by
  have hsectors : ∀ m k, k + m ≤ bpb.sectorsPerCluster →
      (scanEntries name (chainByte bpb sectors (c :: rest)) (entries (16 * k) (16 * m))).outcome =
        (List.range' k m).findSome? fun sec ↦
          (sectorEntries (sectors (sectorOf (sectorLba bpb c sec) 0))).findSome?
            (inspect name) := by
    intro m
    induction m with
    | zero => exact fun _ _ ↦ rfl
    | succ m ih =>
        intro k hk
        have hrest := ih (k + 1) (by omega)
        rw [Nat.mul_succ 16 m, Nat.add_comm (16 * m), entries_add, scanEntries_append_outcome,
          scanEntries_sector hgeo sectors rest (by omega) name, ← Nat.mul_succ 16 k, hrest,
          List.range'_succ, List.findSome?_cons, hgeo.sectorOf_sectorLba hc (by omega)]
        cases (sectorEntries (sectors (dataSector bpb c k))).findSome? (inspect name) <;> rfl
  rw [visitCluster, if_neg (hgeo.clusterToLba_ne_zero hc), LinkWalk.findSome?_flatMap,
    List.range_eq_range', ← hsectors bpb.sectorsPerCluster 0 (Nat.zero_add _).le]

/-- The scan of a chain goes through its clusters in turn. -/
theorem scanChain_outcome (hgeo : Geometry bpb clusters) (sectors : ℕ → Mem)
    (hchain : ∀ c ∈ chain, InRange clusters c) (name : List UInt8) :
    (scanChain bpb sectors chain name).outcome =
      chain.findSome? (visitCluster bpb sectors name) := by
  induction chain with
  | nil =>
      rw [scanChain, List.length_nil, Nat.zero_mul]
      rfl
  | cons c rest ih =>
      have hrest : scanChain bpb sectors rest name =
          scanEntries name (chainByte bpb sectors (c :: rest)) (entries
            (16 * bpb.sectorsPerCluster) (rest.length * (16 * bpb.sectorsPerCluster))) := by
        have hshift := shift_entries (16 * bpb.sectorsPerCluster) 0
          (rest.length * (16 * bpb.sectorsPerCluster))
        rw [Nat.add_zero] at hshift
        rw [← hshift]
        apply scanEntries_shift
        intro i _ j _
        rw [← chainByte_cons_add hgeo sectors c rest, hgeo.clusterSize_eq]
        congr 1
        omega
      rw [scanChain, List.length_cons, Nat.add_mul, Nat.one_mul, Nat.add_comm, entries_add,
        scanEntries_append_outcome, Nat.zero_add, ← hrest,
        ih fun c hc ↦ hchain c (List.mem_cons_of_mem _ hc), List.findSome?_cons,
        visitCluster_eq_scan hgeo sectors (hchain c (List.mem_cons_self ..)) rest name]
      cases (scanEntries name (chainByte bpb sectors (c :: rest))
        (entries 0 (16 * bpb.sectorsPerCluster))).outcome <;> rfl

theorem fat32FindFile_chained (hworks : drive.Works) (hgeo : Geometry bpb clusters)
    {io : IoState} (hchain : Chained bpb clusters io.sectors bpb.rootCluster chain)
    (hnodup : chain.Nodup) (name : List UInt8) :
    ∃ n, fat32FindFile drive bpb io name =
      ({ io with commands := n }, lookup bpb io.sectors chain name) := by
  obtain ⟨n, hsearch⟩ := searchClusters_walk hworks.reads hgeo.bps hgeo.spc_pos name
    (maxClusters bpb) io bpb.rootCluster
  have hwalk : LinkWalk.search (nextCluster bpb io.sectors) (visitCluster bpb io.sectors name)
      (maxClusters bpb) bpb.rootCluster = (scanChain bpb io.sectors chain name).outcome := by
    rw [scanChain_outcome hgeo io.sectors hchain.inRange]
    exact LinkWalk.search_list hchain.head_eq (fun j c hc ↦ hchain.nextCluster_eq hgeo hc)
      (hchain.length_le_maxClusters hgeo hnodup)
  refine ⟨n, ?_⟩
  rw [fat32FindFile, hsearch, hwalk, lookup, ScanResult.file_eq]

/-- The directory is determined by the sectors of its chain. -/
theorem lookup_congr {sectors' : ℕ → Mem} (hspc : 0 < bpb.sectorsPerCluster)
    (h : ∀ c ∈ chain, ∀ sec < bpb.sectorsPerCluster, ∀ i < 512,
      sectors' (dataSector bpb c sec) i = sectors (dataSector bpb c sec) i)
    (name : List UInt8) : lookup bpb sectors' chain name = lookup bpb sectors chain name := by
  rw [lookup, lookup, scanChain, scanChain, scanEntries_shift name 0, List.map_congr_left]
  · exact congrArg _ (congrArg _ (List.map_id _))
  · intro i _
    exact Nat.zero_add i
  intro i hi j hj
  obtain ⟨e, -, he, rfl⟩ := mem_entries.mp hi
  have hlt : (32 * e + j) / 512 < chain.length * bpb.sectorsPerCluster := by
    rw [← Nat.mul_assoc, Nat.mul_comm _ 16, Nat.mul_assoc] at he
    omega
  obtain ⟨c, hc, hplace⟩ := place_mem hspc hlt
  rw [Nat.zero_add, chainByte, chainByte, hplace]
  exact h c hc _ (Nat.mod_lt _ hspc) _ (Nat.mod_lt _ (by decide))

/-! ## The files of a volume -/

/-- The disk of a valid volume, with the chains of its root directory and of
the files named in it. -/
structure Volume where
  bpb : Bpb
  sectors : ℕ → Mem
  clusters : ℕ
  rootChain : List ℕ
  chainOf : List UInt8 → List ℕ
  geometry : Geometry bpb clusters
  root_chained : Chained bpb clusters sectors bpb.rootCluster rootChain
  root_nodup : rootChain.Nodup
  chained : ∀ name f, name.length = 11 → lookup bpb sectors rootChain name = some f →
    f.size ≠ 0 → Chained bpb clusters sectors f.firstCluster (chainOf name)
  nodup : ∀ name, (chainOf name).Nodup
  long_enough : ∀ name f, name.length = 11 → lookup bpb sectors rootChain name = some f →
    f.size ≤ (chainOf name).length * clusterSize bpb
  size_le : ∀ name f, name.length = 11 → lookup bpb sectors rootChain name = some f →
    f.size ≤ 0xFFFFFFF8
  root_disjoint : ∀ name, rootChain.Disjoint (chainOf name)
  disjoint : ∀ name name', name ≠ name' → name.length = 11 → name'.length = 11 →
    (chainOf name).Disjoint (chainOf name')

namespace Volume

variable (V : Volume)

/-- The directory entry of a name. -/
def file (name : List UInt8) : Option Fat32File := lookup V.bpb V.sectors V.rootChain name

/-- Byte `i` of sector `s` holds byte number `p` of a file. -/
def Holds (name : List UInt8) (p s i : ℕ) : Prop :=
  s = place V.bpb (V.chainOf name) (p / 512) ∧ i = p % 512

/-- A byte of the disk that belongs to some file. -/
def FileByte (s i : ℕ) : Prop :=
  ∃ name f, name.length = 11 ∧ V.file name = some f ∧ ∃ p < f.size, V.Holds name p s i

variable {V} {name name' : List UInt8} {f : Fat32File} {p q s i : ℕ} {sectors : ℕ → Mem}

theorem place_file (hlen : name.length = 11) (hf : V.file name = some f) (hp : p < f.size) :
    ∃ c ∈ V.chainOf name, InRange V.clusters c ∧
      place V.bpb (V.chainOf name) (p / 512) =
        dataSector V.bpb c (p / 512 % V.bpb.sectorsPerCluster) := by
  have hlong := V.long_enough name f hlen hf
  rw [V.geometry.clusterSize_eq, ← Nat.mul_assoc] at hlong
  have hk : p / 512 < (V.chainOf name).length * V.bpb.sectorsPerCluster := by omega
  obtain ⟨c, hc, hplace⟩ := place_mem V.geometry.spc_pos hk
  exact ⟨c, hc, (V.chained name f hlen hf (by omega)).inRange c hc, hplace⟩

theorem Holds.ge (h : V.Holds name p s i) (hlen : name.length = 11) (hf : V.file name = some f)
    (hp : p < f.size) : fat32StartLba + metadataEnd V.bpb ≤ s := by
  obtain ⟨c, -, -, hplace⟩ := place_file hlen hf hp
  rw [h.1, hplace]
  exact dataSector_ge _ _ _

/-- Different files have no byte in common. -/
theorem Holds.name_eq {f' : Fat32File} (h : V.Holds name p s i) (h' : V.Holds name' q s i)
    (hlen : name.length = 11) (hf : V.file name = some f) (hp : p < f.size)
    (hlen' : name'.length = 11) (hf' : V.file name' = some f') (hq : q < f'.size) :
    name = name' := by
  by_contra hne
  obtain ⟨c, hc, hrange, hplace⟩ := place_file hlen hf hp
  obtain ⟨c', hc', hrange', hplace'⟩ := place_file hlen' hf' hq
  have heq := h.1.symm.trans h'.1
  rw [hplace, hplace'] at heq
  have hcc := (dataSector_inj hrange.1 hrange'.1 (Nat.mod_lt _ V.geometry.spc_pos)
    (Nat.mod_lt _ V.geometry.spc_pos) heq).1
  exact V.disjoint name name' hne hlen hlen' hc (hcc ▸ hc')

section Current

-- The disk as it is now differs from the volume in bytes of files only.
variable (hrest : ∀ s, ∀ i < 512, ¬V.FileByte s i → sectors s i = V.sectors s i)

include hrest

theorem metadata_kept : ∀ s < fat32StartLba + metadataEnd V.bpb, ∀ i < 512,
    sectors s i = V.sectors s i := by
  intro s hs i hi
  refine hrest s i hi ?_
  rintro ⟨name, f, hlen, hf, p, hp, hholds⟩
  exact absurd (hholds.ge hlen hf hp) (not_le.mpr hs)

theorem chained_now (hlen : name.length = 11) (hf : V.file name = some f) (hsize : f.size ≠ 0) :
    Chained V.bpb V.clusters sectors f.firstCluster (V.chainOf name) :=
  (V.chained name f hlen hf hsize).congr V.geometry (metadata_kept hrest)

theorem root_chained_now : Chained V.bpb V.clusters sectors V.bpb.rootCluster V.rootChain :=
  V.root_chained.congr V.geometry (metadata_kept hrest)

theorem lookup_now (name : List UInt8) :
    lookup V.bpb sectors V.rootChain name = V.file name := by
  refine lookup_congr V.geometry.spc_pos ?_ name
  intro c hc sec hsec i hi
  refine hrest _ i hi ?_
  rintro ⟨name, f, hlen, hf, p, hp, hholds⟩
  obtain ⟨c', hc', hrange, hplace⟩ := place_file hlen hf hp
  have heq := hholds.1
  rw [hplace] at heq
  have hcc := (dataSector_inj (V.root_chained.inRange c hc).1 hrange.1 hsec
    (Nat.mod_lt _ V.geometry.spc_pos) heq).1
  exact V.root_disjoint name hc (hcc ▸ hc')

end Current

end Volume

end ImplusKernel.Fat32
