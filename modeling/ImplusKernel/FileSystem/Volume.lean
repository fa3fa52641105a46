import ImplusKernel.FileSystem.DiskSpec
import ImplusKernel.Lib.LinkWalk

/-!
# Valid volumes

A volume with 512-byte sectors whose address computations do not wrap.  On
such a volume a cluster chain is a flat array of bytes: the loops of the
driver read that array, and write exactly its front.
-/

namespace ImplusKernel.Fat32

open ByteMemory Disk

/-! ## Geometry -/

/-- A boot sector for `clusters` data clusters: every sector number the driver
computes is exact, also after it is cut to 28 bits. -/
structure Geometry (bpb : Bpb) (clusters : ℕ) : Prop where
  bps : bpb.bytesPerSector = 512
  spc_pos : 0 < bpb.sectorsPerCluster
  spc_le : bpb.sectorsPerCluster ≤ 128
  fats_pos : 0 < bpb.numFats
  fits : fat32StartLba + metadataEnd bpb + clusters * bpb.sectorsPerCluster ≤ 2 ^ 28
  covers : (clusters + 2) * 4 ≤ bpb.fatSizeSectors * 512
  fat_lt : bpb.fatSizeSectors * 512 < 2 ^ 32
  clusters_le : clusters + 2 ≤ 0x0FFFFFF8

def InRange (clusters cluster : ℕ) : Prop := 2 ≤ cluster ∧ cluster < clusters + 2

/-- The sector of the drive that holds sector `sec` of a cluster. -/
def dataSector (bpb : Bpb) (cluster sec : ℕ) : ℕ :=
  fat32StartLba + metadataEnd bpb + (cluster - 2) * bpb.sectorsPerCluster + sec

variable {bpb : Bpb} {clusters cluster sec : ℕ}

theorem Geometry.fatSize_pos (h : Geometry bpb clusters) : 0 < bpb.fatSizeSectors := by
  have hcovers := h.covers
  omega

theorem Geometry.fatSize_le_metadataEnd (h : Geometry bpb clusters) :
    bpb.reservedSectors + bpb.fatSizeSectors ≤ metadataEnd bpb := by
  have hmul := Nat.mul_le_mul_right bpb.fatSizeSectors h.fats_pos
  rw [metadataEnd]
  omega

theorem Geometry.dataSector_lt (h : Geometry bpb clusters) (hc : InRange clusters cluster)
    (hsec : sec < bpb.sectorsPerCluster) : dataSector bpb cluster sec < 2 ^ 28 := by
  have hfits := h.fits
  obtain ⟨hlow, hhigh⟩ := hc
  have hmul := row_add_le (show cluster - 2 < clusters by omega) bpb.sectorsPerCluster
  rw [dataSector]
  omega

theorem Geometry.clusterToLba_eq (h : Geometry bpb clusters) (hc : InRange clusters cluster) :
    clusterToLba bpb cluster = metadataEnd bpb + (cluster - 2) * bpb.sectorsPerCluster := by
  have hlt := h.dataSector_lt hc h.spc_pos
  rw [dataSector] at hlt
  rw [clusterToLba, if_neg (not_lt.mpr hc.1), dataStartLba, ← metadataEnd,
    Nat.mod_eq_of_lt (a := metadataEnd bpb) (by omega), Nat.mod_eq_of_lt (by omega)]

theorem Geometry.clusterToLba_ne_zero (h : Geometry bpb clusters)
    (hc : InRange clusters cluster) : clusterToLba bpb cluster ≠ 0 := by
  have hsize := h.fatSize_pos
  have hend := h.fatSize_le_metadataEnd
  rw [h.clusterToLba_eq hc]
  omega

theorem Geometry.sectorOf_clusterToLba (h : Geometry bpb clusters)
    (hc : InRange clusters cluster) (hsec : sec < bpb.sectorsPerCluster) :
    sectorOf (clusterToLba bpb cluster) sec = dataSector bpb cluster sec := by
  have hlt := h.dataSector_lt hc hsec
  rw [dataSector] at hlt
  rw [sectorOf, h.clusterToLba_eq hc, dataSector, Nat.mod_eq_of_lt (b := 2 ^ 32) (by omega),
    Nat.mod_eq_of_lt (by omega)]
  omega

theorem Geometry.sectorOf_sectorLba (h : Geometry bpb clusters)
    (hc : InRange clusters cluster) (hsec : sec < bpb.sectorsPerCluster) :
    sectorOf (sectorLba bpb cluster sec) 0 = dataSector bpb cluster sec := by
  have hlt := h.dataSector_lt hc hsec
  rw [← h.sectorOf_clusterToLba hc hsec, sectorOf, sectorOf, sectorLba, h.clusterToLba_eq hc]
  rw [dataSector] at hlt
  rw [Nat.mod_eq_of_lt (a := metadataEnd bpb + _ + sec) (by omega)]
  congr 2
  omega

theorem Geometry.hasEntry (h : Geometry bpb clusters) (hc : InRange clusters cluster) :
    HasEntry bpb cluster := by
  have hle := h.clusters_le
  have hlt := hc.2
  refine ⟨hc.1, by omega, ?_⟩
  rw [fatOffset, h.bps]
  omega

/-- Links are stored below the data. -/
theorem Geometry.fatSector_lt (h : Geometry bpb clusters) (hc : InRange clusters cluster) :
    sectorOf (fatSector bpb cluster) 0 < fat32StartLba + metadataEnd bpb := by
  have hcovers := h.covers
  have hend := h.fatSize_le_metadataEnd
  have hfits := h.fits
  have hlt := hc.2
  rw [sectorOf, fatSector, h.bps, fatStartLba]
  omega

theorem dataSector_ge (bpb : Bpb) (cluster sec : ℕ) :
    fat32StartLba + metadataEnd bpb ≤ dataSector bpb cluster sec := by
  rw [dataSector]
  omega

theorem dataSector_inj {cluster' sec' : ℕ} (hc : 2 ≤ cluster) (hc' : 2 ≤ cluster')
    (hsec : sec < bpb.sectorsPerCluster) (hsec' : sec' < bpb.sectorsPerCluster)
    (heq : dataSector bpb cluster sec = dataSector bpb cluster' sec') :
    cluster = cluster' ∧ sec = sec' := by
  rw [dataSector, dataSector] at heq
  have hsum : (cluster - 2) * bpb.sectorsPerCluster + sec =
      (cluster' - 2) * bpb.sectorsPerCluster + sec' := by omega
  have hrow := row_inj hsec hsec' hsum
  omega

/-! ## Chains -/

/-- The link of a cluster; on 512-byte sectors the stack plays no part. -/
def link (bpb : Bpb) (sectors : ℕ → Mem) (cluster : ℕ) : ℕ :=
  fatEntry bpb sectors (fun _ ↦ 0) cluster

theorem hasEntry_of_range (hbps : bpb.bytesPerSector = 512)
    (hrange : ¬(cluster < 2 ∨ 0x0FFFFFF8 ≤ cluster)) : HasEntry bpb cluster := by
  refine ⟨by omega, by omega, ?_⟩
  rw [fatOffset, hbps]
  omega

/-- The link of a cluster, unless the chain ends there. -/
def nextCluster (bpb : Bpb) (sectors : ℕ → Mem) (cluster : ℕ) : Option ℕ :=
  if cluster < 2 ∨ 0x0FFFFFF8 ≤ cluster then none
  else if chainEnds (link bpb sectors cluster) then none
  else some (link bpb sectors cluster)

theorem two_le_of_nextCluster {sectors : ℕ → Mem} {cluster next : ℕ}
    (h : nextCluster bpb sectors cluster = some next) : 2 ≤ next := by
  rw [nextCluster] at h
  split_ifs at h with hrange hends
  obtain rfl := Option.some.inj h
  by_contra hlt
  exact hends (decide_eq_true (Or.inl (by omega)))

theorem nextCluster_congr {sectors sectors' : ℕ → Mem} (hbps : bpb.bytesPerSector = 512)
    (h : ∀ i < 512, sectors' (sectorOf (fatSector bpb cluster) 0) i =
      sectors (sectorOf (fatSector bpb cluster) 0) i) :
    nextCluster bpb sectors' cluster = nextCluster bpb sectors cluster := by
  rw [nextCluster, nextCluster]
  by_cases hrange : cluster < 2 ∨ 0x0FFFFFF8 ≤ cluster
  · rw [if_pos hrange, if_pos hrange]
  · have hlink : link bpb sectors' cluster = link bpb sectors cluster :=
      fatEntry_congr _ _ hbps.le (hasEntry_of_range hbps hrange) h
    rw [hlink]

theorem fatGetNextCluster_next {drive : Drive} (hreads : drive.Reads)
    (hbps : bpb.bytesPerSector = 512) (io : IoState) (cluster : ℕ) :
    ∃ n next, fatGetNextCluster drive bpb io cluster = ({ io with commands := n }, next) ∧
      nextCluster bpb io.sectors cluster = if chainEnds next then none else some next := by
  by_cases hrange : cluster < 2 ∨ 0x0FFFFFF8 ≤ cluster
  · refine ⟨io.commands, 0x0FFFFFFF, ?_, ?_⟩
    · rw [fatGetNextCluster, if_pos hrange]
    · rw [nextCluster, if_pos hrange]
      rfl
  · have hentry := hasEntry_of_range hbps hrange
    refine ⟨_, _, fatGetNextCluster_works hreads hentry, ?_⟩
    rw [nextCluster, if_neg hrange, link,
      fatEntry_congr (drive.stack io.commands) (fun _ ↦ 0) hbps.le hentry fun _ _ ↦ rfl]

/-- The chain that starts at a cluster. -/
inductive Chained (bpb : Bpb) (clusters : ℕ) (sectors : ℕ → Mem) : ℕ → List ℕ → Prop
  | last {c : ℕ} (hrange : InRange clusters c) (hend : chainEnds (link bpb sectors c) = true) :
      Chained bpb clusters sectors c [c]
  | cons {c : ℕ} {rest : List ℕ} (hrange : InRange clusters c)
      (hrest : Chained bpb clusters sectors (link bpb sectors c) rest) :
      Chained bpb clusters sectors c (c :: rest)

/-- Sector number `k` of a chain. -/
def place (bpb : Bpb) (chain : List ℕ) (k : ℕ) : ℕ :=
  dataSector bpb (chain.getD (k / bpb.sectorsPerCluster) 2) (k % bpb.sectorsPerCluster)

variable {sectors sectors' : ℕ → Mem} {chain : List ℕ} {first : ℕ}

theorem Chained.head_range (h : Chained bpb clusters sectors first chain) :
    InRange clusters first := by
  cases h with
  | last hrange _ => exact hrange
  | cons hrange _ => exact hrange

theorem Chained.inRange (h : Chained bpb clusters sectors first chain) :
    ∀ c ∈ chain, InRange clusters c := by
  induction h with
  | last hrange _ => simpa using hrange
  | cons hrange _ ih => simpa using ⟨hrange, ih⟩

theorem Chained.head_eq (h : Chained bpb clusters sectors first chain) :
    chain[0]? = some first := by
  cases h with
  | last _ _ => rfl
  | cons _ _ => rfl

theorem Geometry.chainEnds_eq_false (h : Geometry bpb clusters) (hc : InRange clusters cluster) :
    chainEnds cluster = false := by
  have hle := h.clusters_le
  have hlow := hc.1
  have hlt := hc.2
  simp only [chainEnds, decide_eq_false_iff_not]
  omega

/-- The links lead from each cluster of a chain to the one behind it. -/
theorem Chained.nextCluster_eq (hgeo : Geometry bpb clusters)
    (h : Chained bpb clusters sectors first chain) {j c : ℕ} (hc : chain[j]? = some c) :
    nextCluster bpb sectors c = chain[j + 1]? := by
  induction h generalizing j with
  | @last c₀ hrange hend =>
      obtain ⟨rfl, rfl⟩ : j = 0 ∧ c₀ = c := by
        cases j with
        | zero => exact ⟨rfl, Option.some.inj hc⟩
        | succ j => cases hc
      rw [nextCluster, hend, if_pos rfl, ite_self]
      rfl
  | @cons c₀ rest hrange hrest ih =>
      cases j with
      | succ j => exact ih hc
      | zero =>
          obtain rfl : c₀ = c := Option.some.inj hc
          have hgoes := hgeo.chainEnds_eq_false hrange
          have hhead : (c₀ :: rest)[0 + 1]? = some (link bpb sectors c₀) := hrest.head_eq
          rw [nextCluster, if_neg (of_decide_eq_false hgoes),
            hgeo.chainEnds_eq_false hrest.head_range, hhead, if_neg Bool.false_ne_true]

/-- A chain is determined by the sectors below the data. -/
theorem Chained.congr (hgeo : Geometry bpb clusters)
    (h : Chained bpb clusters sectors first chain)
    (hsame : ∀ s < fat32StartLba + metadataEnd bpb, ∀ i < 512, sectors' s i = sectors s i) :
    Chained bpb clusters sectors' first chain := by
  have hlink : ∀ c, InRange clusters c → link bpb sectors' c = link bpb sectors c := by
    intro c hc
    exact fatEntry_congr _ _ hgeo.bps.le (hgeo.hasEntry hc) (hsame _ (hgeo.fatSector_lt hc))
  induction h with
  | last hrange hend => exact .last hrange (by rw [hlink _ hrange]; exact hend)
  | cons hrange _ ih => exact .cons hrange (by rw [hlink _ hrange]; exact ih)

theorem place_cons_lt {c k : ℕ} (rest : List ℕ) (hk : k < bpb.sectorsPerCluster) :
    place bpb (c :: rest) k = dataSector bpb c k := by
  rw [place, Nat.div_eq_of_lt hk, Nat.mod_eq_of_lt hk]
  rfl

theorem place_cons_add (hspc : 0 < bpb.sectorsPerCluster) (c : ℕ) (rest : List ℕ) (k : ℕ) :
    place bpb (c :: rest) (bpb.sectorsPerCluster + k) = place bpb rest k := by
  rw [place, place, Nat.add_div_left _ hspc, Nat.add_mod_left]
  rfl

theorem place_mem {k : ℕ} (hspc : 0 < bpb.sectorsPerCluster)
    (hk : k < chain.length * bpb.sectorsPerCluster) :
    ∃ c ∈ chain, place bpb chain k = dataSector bpb c (k % bpb.sectorsPerCluster) := by
  have hdiv : k / bpb.sectorsPerCluster < chain.length := (Nat.div_lt_iff_lt_mul hspc).mpr hk
  exact ⟨chain[k / bpb.sectorsPerCluster], List.getElem_mem hdiv, by
    simp [place, List.getD_eq_getElem?_getD, List.getElem?_eq_getElem hdiv]⟩

/-- The loops of the driver are allowed more rounds than a chain has clusters. -/
theorem Chained.length_le_maxClusters (hgeo : Geometry bpb clusters)
    (h : Chained bpb clusters sectors first chain) (hnodup : chain.Nodup) :
    chain.length ≤ maxClusters bpb := by
  have hcard : chain.length ≤ (Finset.range (clusters + 2)).card :=
    LinkWalk.length_le_card hnodup fun c hc ↦ Finset.mem_range.mpr (h.inRange c hc).2
  rw [Finset.card_range] at hcard
  have hcovers := hgeo.covers
  rw [maxClusters, hgeo.bps, Nat.mod_eq_of_lt hgeo.fat_lt]
  omega

end ImplusKernel.Fat32
