import ImplusKernel.FileSystem.FileWrite

/-!
# The walks of reads and writes

`fat32_read_file` goes from cluster to cluster until no bytes are left.
`fat32_write_file` goes the same way, but for at most `max_clusters` clusters,
and follows links on a disk that it is changing.  On 512-byte sectors a read
succeeds exactly if the chain is long enough, and so does a write that has
enough rounds and overwrites no link it needs.
-/

namespace ImplusKernel.Fat32

open ByteMemory Disk

/-! ## The chain of a file -/

/-- The sector of the drive that the link of a cluster is read from. -/
def linkAt (bpb : Bpb) (cluster : ℕ) : ℕ := sectorOf (fatSector bpb cluster) 0

section Chain

variable (bpb : Bpb) (sectors : ℕ → Mem) (file : Fat32File)

/-- Cluster number `j` of a file; there is none after a cluster without sectors
or the end of the chain. -/
def clusterAt : ℕ → Option ℕ
  | 0 => some file.firstCluster
  | j + 1 => (clusterAt j).bind fun c ↦
      if clusterToLba bpb c = 0 then none else nextCluster bpb sectors c

/-- From number `j` on there is a cluster with sectors for all bytes of the
file. -/
def LongFrom (j : ℕ) : Prop :=
  ∀ k, j ≤ k → k * clusterSize bpb < file.size →
    ∃ c, clusterAt bpb sectors file k = some c ∧ clusterToLba bpb c ≠ 0

/-- The link of cluster number `j`, which is needed, is stored in a sector of a
cluster that is written before the link is read. -/
def Overwritten (j : ℕ) : Prop :=
  ∃ c, clusterAt bpb sectors file j = some c ∧ clusterToLba bpb c ≠ 0 ∧ c < 0x0FFFFFF8 ∧
    (j + 1) * clusterSize bpb < file.size ∧
    ∃ i ≤ j, ∃ c', clusterAt bpb sectors file i = some c' ∧
      ∃ sec < bpb.sectorsPerCluster, dataAt bpb c' sec = linkAt bpb c

end Chain

variable {drive : Drive} {bpb : Bpb} {sectors : ℕ → Mem} {file : Fat32File}

theorem clusterAt_succ {j c : ℕ} (hc : clusterAt bpb sectors file j = some c)
    (hlba : clusterToLba bpb c ≠ 0) :
    clusterAt bpb sectors file (j + 1) = nextCluster bpb sectors c := by
  rw [clusterAt, hc, Option.bind_some, if_neg hlba]

/-- A chain goes on before each of its clusters. -/
theorem clusterAt_before {i j c : ℕ} (hc : clusterAt bpb sectors file j = some c) (hij : i < j) :
    ∃ c', clusterAt bpb sectors file i = some c' ∧ clusterToLba bpb c' ≠ 0 := by
  induction j generalizing c with
  | zero => omega
  | succ j ih =>
      rw [clusterAt, Option.bind_eq_some_iff] at hc
      obtain ⟨c₁, hc₁, hnext⟩ := hc
      have hlba : clusterToLba bpb c₁ ≠ 0 := by
        intro hzero
        rw [if_pos hzero] at hnext
        cases hnext
      rcases Nat.lt_succ_iff_lt_or_eq.mp hij with hlt | rfl
      · exact ih hc₁ hlt
      · exact ⟨c₁, hc₁, hlba⟩

theorem longFrom_of_le {j : ℕ} (h : file.size ≤ j * clusterSize bpb) :
    LongFrom bpb sectors file j := by
  intro k hk hlt
  have hmul := Nat.mul_le_mul_right (clusterSize bpb) hk
  omega

theorem longFrom_step {j c : ℕ} (hc : clusterAt bpb sectors file j = some c)
    (hlt : j * clusterSize bpb < file.size) : LongFrom bpb sectors file j ↔
      clusterToLba bpb c ≠ 0 ∧ LongFrom bpb sectors file (j + 1) := by
  constructor
  · intro h
    obtain ⟨c', hc', hlba⟩ := h j le_rfl hlt
    obtain rfl := Option.some.inj (hc.symm.trans hc')
    exact ⟨hlba, fun k hk ↦ h k (by omega)⟩
  · rintro ⟨hlba, h⟩ k hk hltk
    rcases Nat.eq_or_lt_of_le hk with rfl | hgt
    · exact ⟨c, hc, hlba⟩
    · exact h k hgt hltk

theorem longFrom_of_none {j : ℕ} (hc : clusterAt bpb sectors file j = none) :
    LongFrom bpb sectors file j ↔ file.size ≤ j * clusterSize bpb := by
  refine ⟨fun h ↦ ?_, longFrom_of_le⟩
  by_contra hlt
  obtain ⟨c, hc', -⟩ := h j le_rfl (not_le.mp hlt)
  rw [hc] at hc'
  cases hc'

/-! ## Reading -/

theorem sub_clusterSize (size j : ℕ) :
    size - j * clusterSize bpb - clusterSize bpb = size - (j + 1) * clusterSize bpb := by
  rw [Nat.add_mul, Nat.one_mul]
  omega

/-- The loop of a read succeeds exactly if the chain is long enough. -/
theorem readLoop_longFrom (hreads : drive.Reads) (hbps : bpb.bytesPerSector = 512)
    (hspc : bpb.sectorsPerCluster ≠ 0) {fuel j c : ℕ}
    (hfuel : file.size - j * clusterSize bpb < fuel) (io : IoState)
    (hc : clusterAt bpb io.sectors file j = some c) (copied : List UInt8) :
    ∃ io' ok copied', readLoop drive bpb fuel io c (file.size - j * clusterSize bpb) copied =
        some (io', ok, copied') ∧ io'.sectors = io.sectors ∧
      (ok = true ↔ LongFrom bpb io.sectors file j) := by
  have hpos : 0 < clusterSize bpb := by
    rw [clusterSize, hbps]
    omega
  induction fuel generalizing j c io copied with
  | zero => omega
  | succ fuel ih =>
      rw [readLoop]
      by_cases hleft : file.size - j * clusterSize bpb = 0
      · rw [if_pos hleft]
        have hlong : LongFrom bpb io.sectors file j := longFrom_of_le (by omega)
        exact ⟨io, true, copied, rfl, rfl, by simp [hlong]⟩
      rw [if_neg hleft, longFrom_step hc (by omega)]
      by_cases hlba : clusterToLba bpb c = 0
      · simp only [if_pos hlba]
        exact ⟨io, false, copied, rfl, rfl, by simp [hlba]⟩
      simp only [if_neg hlba, diskRead_works hreads io _ hspc]
      have hrest : ∀ left : ℕ, left - (if left > clusterSize bpb then clusterSize bpb else left) =
          left - clusterSize bpb := by
        intro left
        split <;> omega
      obtain ⟨n, next, hget, hnext⟩ := fatGetNextCluster_next hreads hbps
        { io with commands := io.commands + bpb.sectorsPerCluster } c
      rw [hget, hrest, sub_clusterSize]
      have hsucc := (clusterAt_succ hc hlba).trans hnext
      cases hends : chainEnds next with
      | true =>
          rw [hends, if_pos rfl] at hsucc
          have hlong := longFrom_of_none hsucc
          refine ⟨_, _, _, rfl, rfl, ?_⟩
          rw [decide_eq_true_eq, hlong, Nat.sub_eq_zero_iff_le]
          exact ⟨fun h ↦ ⟨hlba, h⟩, And.right⟩
      | false =>
          rw [hends, if_neg Bool.false_ne_true] at hsucc
          have hless : file.size - (j + 1) * clusterSize bpb < fuel := by
            rw [← sub_clusterSize]
            omega
          obtain ⟨io', ok, copied', hrun, hkept, hok⟩ :=
            ih hless { io with commands := n } hsucc _
          exact ⟨io', ok, copied', hrun, hkept, hok.trans ⟨fun h ↦ ⟨hlba, h⟩, And.right⟩⟩

theorem fat32ReadFile_longFrom (hreads : drive.Reads) (hbps : bpb.bytesPerSector = 512)
    (hspc : bpb.sectorsPerCluster ≠ 0) (io : IoState) (file : Fat32File) :
    ∃ io' ok copied, fat32ReadFile drive bpb io file = some (io', ok, copied) ∧
      io'.sectors = io.sectors ∧ (ok = true ↔ LongFrom bpb io.sectors file 0) := by
  have hfuel : file.size - 0 * clusterSize bpb < file.size + 1 := by omega
  have hrun := readLoop_longFrom hreads hbps hspc hfuel io rfl []
  rwa [Nat.zero_mul, Nat.sub_zero] at hrun

/-! ## Writing -/

theorem clusterSize_of_bps (hbps : bpb.bytesPerSector = 512) (j : ℕ) :
    j * bpb.sectorsPerCluster * 512 = j * clusterSize bpb := by
  rw [clusterSize, hbps, Nat.mul_assoc]

/-- A write that succeeds has as many rounds as it has clusters to fill. -/
theorem fat32WriteFile_bound (hworks : drive.Works) (hbps : bpb.bytesPerSector = 512)
    (hspc : bpb.sectorsPerCluster ≠ 0) {buffer : Mem} {io : IoState}
    (h : (fat32WriteFile drive bpb io file buffer).2 = true) :
    file.size ≤ maxClusters bpb * clusterSize bpb := by
  have hinv : DiskInvariant bpb buffer file (fun _ _ _ _ ↦ True)
      fun _ ok ↦ ok = true → file.size ≤ maxClusters bpb * clusterSize bpb := by
    refine ⟨fun _ _ _ _ _ ↦ trivial, nofun, fun _ _ _ _ _ ↦ trivial, nofun, ?_, nofun, ?_⟩
    · intro j c p disk _ hj _ hp hle _
      have hrows := Nat.mul_le_mul_right (bpb.sectorsPerCluster * 512) hj
      rw [← clusterSize_of_bps hbps, Nat.mul_assoc]
      rw [Nat.succ_eq_add_one, ← Nat.mul_assoc (j + 1)] at hrows
      exact (hle.trans (Nat.mul_le_mul_right 512 hp)).trans hrows
    · intro disk _ hzero _
      omega
  exact hinv.fat32WriteFile hworks hbps hspc trivial h

/-! ## Links that stay -/

/-- The links that are needed from cluster number `j` up to number `J` are as
on `sectors`. -/
def SameLinks (bpb : Bpb) (sectors : ℕ → Mem) (file : Fat32File) (j J : ℕ) (now : ℕ → Mem) :
    Prop :=
  ∀ k, j ≤ k → k < J → ∀ c, clusterAt bpb sectors file k = some c → clusterToLba bpb c ≠ 0 →
    c < 0x0FFFFFF8 → (k + 1) * clusterSize bpb < file.size →
    ∀ i < 512, now (linkAt bpb c) i = sectors (linkAt bpb c) i

namespace SameLinks

variable {j J c : ℕ} {now : ℕ → Mem}

theorem mono (h : SameLinks bpb sectors file j J now) :
    SameLinks bpb sectors file (j + 1) J now :=
  fun k hk ↦ h k (by omega)

/-- Writing to cluster number `j` keeps them if none is overwritten. -/
theorem update (h : SameLinks bpb sectors file j J now)
    (hclean : ∀ k < J, ¬Overwritten bpb sectors file k)
    (hc : clusterAt bpb sectors file j = some c) {sec : ℕ} (hsec : sec < bpb.sectorsPerCluster)
    (bytes : Mem) :
    SameLinks bpb sectors file j J (Function.update now (dataAt bpb c sec) bytes) := by
  intro k hjk hkJ c' hc' hlba hlt hneeded i hi
  rw [Function.update_of_ne]
  · exact h k hjk hkJ c' hc' hlba hlt hneeded i hi
  · intro heq
    exact hclean k hkJ ⟨c', hc', hlba, hlt, hneeded, j, hjk, c, hc, sec, hsec, heq.symm⟩

theorem nextCluster_eq (h : SameLinks bpb sectors file j J now)
    (hbps : bpb.bytesPerSector = 512) (hj : j < J) (hc : clusterAt bpb sectors file j = some c)
    (hlba : clusterToLba bpb c ≠ 0) (hneeded : (j + 1) * clusterSize bpb < file.size) :
    nextCluster bpb now c = clusterAt bpb sectors file (j + 1) := by
  rw [clusterAt_succ hc hlba]
  by_cases hlt : c < 0x0FFFFFF8
  · exact nextCluster_congr hbps (h j le_rfl hj c hc hlba hlt hneeded)
  · rw [nextCluster, nextCluster, if_pos (by omega), if_pos (by omega)]

end SameLinks

/-- Without overwritten links and with enough rounds, a write succeeds exactly
if the chain is long enough. -/
theorem fat32WriteFile_longFrom (hworks : drive.Works) (hbps : bpb.bytesPerSector = 512)
    (hspc : bpb.sectorsPerCluster ≠ 0) (hfit : file.size ≤ maxClusters bpb * clusterSize bpb)
    (io : IoState) (hclean : ∀ j, ¬Overwritten bpb io.sectors file j) (buffer : Mem) :
    (fat32WriteFile drive bpb io file buffer).2 = true ↔ LongFrom bpb io.sectors file 0 := by
  have hinv : DiskInvariant bpb buffer file
      (fun j c _ disk ↦ clusterAt bpb io.sectors file j = some c ∧
        SameLinks bpb io.sectors file j (maxClusters bpb) disk)
      fun _ ok ↦ ok = true ↔ LongFrom bpb io.sectors file 0 := by
    refine ⟨?_, ?_, ?_, ?_, ?_, ?_, ?_⟩
    · rintro j c k disk bytes ⟨hc, hsame⟩ _ hk _ _
      exact ⟨hc, hsame.update (fun k _ ↦ hclean k) hc hk bytes⟩
    · rintro j c disk ⟨hc, -⟩ hlba hlt
      refine iff_of_false nofun fun hlong ↦ ?_
      rw [clusterSize_of_bps hbps] at hlt
      obtain ⟨c', hc', hlba'⟩ := hlong j (Nat.zero_le j) hlt
      obtain rfl := Option.some.inj (hc.symm.trans hc')
      exact hlba' hlba
    · rintro j c c' disk ⟨hc, hsame⟩ hj hlba hlt hnext
      rw [clusterSize_of_bps hbps] at hlt
      exact ⟨(hsame.nextCluster_eq hbps hj hc hlba hlt).symm.trans hnext, hsame.mono⟩
    · rintro j c disk ⟨hc, hsame⟩ hj hlba hlt hnext
      rw [clusterSize_of_bps hbps] at hlt
      rw [hsame.nextCluster_eq hbps hj hc hlba hlt] at hnext
      refine iff_of_false nofun fun hlong ↦ ?_
      obtain ⟨c', hc', -⟩ := hlong (j + 1) (Nat.zero_le _) hlt
      simp [hnext] at hc'
    · rintro j c p disk ⟨hc, -⟩ - hlba hp hle
      refine iff_of_true rfl fun k _ hk ↦ ?_
      have hall := hle.trans (Nat.mul_le_mul_right 512 hp)
      rw [clusterSize_of_bps hbps] at hall
      have hkj : k < j + 1 := Nat.lt_of_mul_lt_mul_right (hk.trans_le hall)
      rcases Nat.lt_succ_iff_lt_or_eq.mp hkj with hlt | rfl
      · exact clusterAt_before hc hlt
      · exact ⟨c, hc, hlba⟩
    · rintro c disk - hlt
      rw [clusterSize_of_bps hbps] at hlt
      omega
    · intro disk _ hzero
      exact iff_of_true rfl (longFrom_of_le (by omega))
  exact hinv.fat32WriteFile hworks hbps hspc ⟨rfl, fun _ _ _ _ _ _ _ _ _ _ ↦ rfl⟩

end ImplusKernel.Fat32
