import ImplusKernel.FileSystem.ChainWalks

/-!
# When reads and writes agree

If a write overwrites a link before it follows it, the data decide how the
chain goes on: ones end it, and a link to the same cluster keeps it going.  So
the answer of a write is that of a read for all data only if no needed link is
overwritten.
-/

namespace ImplusKernel.Fat32

open ByteMemory Disk

variable {drive : Drive} {bpb : Bpb} {sectors : ℕ → Mem} {file : Fat32File}

/-! ## Links that are overwritten -/

/-- The same bytes for every sector. -/
def Uniform (buffer pat : Mem) : Prop := ∀ i, buffer i = pat (i % 512)

/-- Bytes of a uniform buffer, with what was there behind them. -/
theorem Uniform.byte {buffer pat bytes old : Mem} {p size : ℕ} (h : Uniform buffer pat)
    (hbytes : ∀ i < 512, bytes i = if p * 512 + i < size then buffer (p * 512 + i) else old i)
    {i : ℕ} (hi : i < 512) : bytes i = if p * 512 + i < size then pat i else old i := by
  rw [hbytes i hi, h, show (p * 512 + i) % 512 = i by omega]

/-- Writing uniform data leaves a sector that holds the pattern as it is. -/
theorem update_pattern (pat : Mem) {bytes : Mem} {disk : ℕ → Mem} {p size s t b : ℕ}
    (hbytes : bytes b = if p * 512 + b < size then pat b else disk s b)
    (h : disk t b = pat b) : Function.update disk s bytes t b = pat b := by
  by_cases hts : t = s
  · subst hts
    rw [Function.update_self, hbytes]
    split
    · rfl
    · exact h
  · rw [Function.update_of_ne hts]
    exact h

/-- The first `p` sectors of the chain hold the pattern. -/
def Stamped (bpb : Bpb) (sectors : ℕ → Mem) (file : Fat32File) (pat : Mem) (p : ℕ)
    (now : ℕ → Mem) : Prop :=
  ∀ i c, clusterAt bpb sectors file i = some c → ∀ sec < bpb.sectorsPerCluster,
    i * bpb.sectorsPerCluster + sec < p → ∀ b < 512, now (dataAt bpb c sec) b = pat b

/-- A write of uniform data on its way to cluster number `J`: it follows the
chain and leaves the pattern behind. -/
structure Follows (bpb : Bpb) (sectors : ℕ → Mem) (file : Fat32File) (pat : Mem) (J j c p : ℕ)
    (disk : ℕ → Mem) : Prop where
  le : j ≤ J
  cluster : clusterAt bpb sectors file j = some c
  links : SameLinks bpb sectors file j J disk
  stamped : Stamped bpb sectors file pat p disk

section Follows

variable {pat buffer : Mem} {J j c p : ℕ} {disk : ℕ → Mem}

theorem Follows.next (h : Follows bpb sectors file pat J j c (j * bpb.sectorsPerCluster + p) disk)
    (hclean : ∀ k < J, ¬Overwritten bpb sectors file k) (hp : p < bpb.sectorsPerCluster)
    (hneeded : (J + 1) * bpb.sectorsPerCluster * 512 < file.size) {bytes : Mem}
    (huniform : Uniform buffer pat)
    (hbytes : ∀ i < 512, bytes i =
      if (j * bpb.sectorsPerCluster + p) * 512 + i < file.size
      then buffer ((j * bpb.sectorsPerCluster + p) * 512 + i) else disk (dataAt bpb c p) i) :
    Follows bpb sectors file pat J j c (j * bpb.sectorsPerCluster + p + 1)
      (Function.update disk (dataAt bpb c p) bytes) := by
  refine ⟨h.le, h.cluster, h.links.update hclean h.cluster hp bytes, ?_⟩
  intro i c' hc' sec hsec hbefore b hb
  have hbyte := huniform.byte hbytes hb
  rcases Nat.lt_succ_iff_lt_or_eq.mp hbefore with hlt | heq
  · exact update_pattern pat hbyte (h.stamped i c' hc' sec hsec hlt b hb)
  · -- The sector of this step is written to in full.
    have hrow := row_add_le (show j < J + 1 from Nat.lt_succ_of_le h.le) bpb.sectorsPerCluster
    have hfull : (j * bpb.sectorsPerCluster + p) * 512 + b < file.size :=
      calc
        _ < (j * bpb.sectorsPerCluster + p + 1) * 512 := by
          rw [Nat.succ_mul]
          exact Nat.add_lt_add_left hb _
        _ ≤ (J + 1) * bpb.sectorsPerCluster * 512 := Nat.mul_le_mul_right 512 (by omega)
        _ < file.size := hneeded
    obtain rfl : i = j := by
      have hdiv := congrArg (· / bpb.sectorsPerCluster) heq
      simpa [Nat.add_comm (_ * _), Nat.add_mul_div_right, Nat.div_eq_of_lt, hsec, hp,
        show 0 < bpb.sectorsPerCluster by omega] using hdiv
    obtain rfl := Option.some.inj (h.cluster.symm.trans hc')
    obtain rfl : sec = p := by omega
    rw [Function.update_self, hbyte, if_pos hfull]

theorem Follows.lba_ne_zero (h : Follows bpb sectors file pat J j c p disk) {cJ : ℕ}
    (hcJ : clusterAt bpb sectors file J = some cJ) (hlba : clusterToLba bpb cJ ≠ 0) :
    clusterToLba bpb c ≠ 0 := by
  rcases Nat.eq_or_lt_of_le h.le with rfl | hlt
  · obtain rfl := Option.some.inj (h.cluster.symm.trans hcJ)
    exact hlba
  · obtain ⟨c', hc', hlba'⟩ := clusterAt_before hcJ hlt
    obtain rfl := Option.some.inj (h.cluster.symm.trans hc')
    exact hlba'

theorem Follows.goes (h : Follows bpb sectors file pat J j c p disk) (hj : j < J)
    (hbps : bpb.bytesPerSector = 512) (hlba : clusterToLba bpb c ≠ 0)
    (hlt : (j + 1) * bpb.sectorsPerCluster * 512 < file.size) {c' : ℕ}
    (hnext : nextCluster bpb disk c = some c') :
    Follows bpb sectors file pat J (j + 1) c' p disk := by
  rw [clusterSize_of_bps hbps] at hlt
  exact ⟨hj, (h.links.nextCluster_eq hbps hj h.cluster hlba hlt).symm.trans hnext, h.links.mono,
    h.stamped⟩

end Follows

/-- The link in a sector that holds the pattern. -/
theorem link_of_pattern (hbps : bpb.bytesPerSector = 512) {pat : Mem} {c : ℕ}
    (hrange : ¬(c < 2 ∨ 0x0FFFFFF8 ≤ c)) {now : ℕ → Mem}
    (h : ∀ b < 512, now (linkAt bpb c) b = pat b) :
    link bpb now c = readLE pat (fatOffset bpb c) 4 &&& 0x0FFFFFFF := by
  have hread : readLE (transferred now (fun _ ↦ 0) (fatSector bpb c) 1) (fatOffset bpb c) 4 =
      readLE pat (fatOffset bpb c) 4 := by
    apply readLE_congr
    intro x _ hx
    have hfit := (hasEntry_of_range hbps hrange).2.2
    rw [transferred_one _ _ _ (by omega)]
    exact h x (by omega)
  rw [link, fatEntry, hread]

/-- When the first overwritten link is read, its sector holds the pattern. -/
theorem Overwritten.link_stamped {pat : Mem} {J : ℕ} {disk : ℕ → Mem}
    (h : Overwritten bpb sectors file J)
    (hstamped : Stamped bpb sectors file pat ((J + 1) * bpb.sectorsPerCluster) disk) :
    ∃ c, clusterAt bpb sectors file J = some c ∧ ∀ b < 512, disk (linkAt bpb c) b = pat b := by
  obtain ⟨c, hc, -, -, -, i, hi, c', hc', sec, hsec, hsame⟩ := h
  refine ⟨c, hc, fun b hb ↦ ?_⟩
  rw [← hsame]
  have hrow := row_add_le (show i < J + 1 by omega) bpb.sectorsPerCluster
  exact hstamped i c' hc' sec hsec (by omega) b hb

/-! ## When the walks agree -/

/-- A write returns true exactly if a read on the same disk does, whatever the
data. -/
def WalksAgree (drive : Drive) (bpb : Bpb) (io : IoState) (file : Fat32File) : Prop :=
  ∀ data, (fat32WriteFile drive bpb io file data).2 = true ↔
    ∃ io' copied, fat32ReadFile drive bpb io file = some (io', true, copied)

/-- Either a write needs more clusters than it is allowed and the chain does not
have them, or it never overwrites a link it still needs. -/
def WriteSafe (bpb : Bpb) (sectors : ℕ → Mem) (file : Fat32File) : Prop :=
  if maxClusters bpb * clusterSize bpb < file.size then ¬LongFrom bpb sectors file 0
  else ∀ j, ¬Overwritten bpb sectors file j

theorem fat32ReadFile_true_iff (hreads : drive.Reads) (hbps : bpb.bytesPerSector = 512)
    (hspc : bpb.sectorsPerCluster ≠ 0) (io : IoState) (file : Fat32File) :
    (∃ io' copied, fat32ReadFile drive bpb io file = some (io', true, copied)) ↔
      LongFrom bpb io.sectors file 0 := by
  obtain ⟨io', ok, copied, hrun, -, hok⟩ := fat32ReadFile_longFrom hreads hbps hspc io file
  rw [hrun, ← hok]
  constructor
  · rintro ⟨io₁, copied₁, heq⟩
    simp only [Option.some.injEq, Prod.mk.injEq] at heq
    exact heq.2.1
  · rintro rfl
    exact ⟨io', copied, rfl⟩

theorem WriteSafe.fat32WriteFile_iff (h : WriteSafe bpb sectors file) (hworks : drive.Works)
    (hbps : bpb.bytesPerSector = 512) (hspc : bpb.sectorsPerCluster ≠ 0) (io : IoState)
    (hio : io.sectors = sectors) (data : Mem) :
    (fat32WriteFile drive bpb io file data).2 = true ↔ LongFrom bpb sectors file 0 := by
  subst hio
  by_cases hbig : maxClusters bpb * clusterSize bpb < file.size
  · rw [WriteSafe, if_pos hbig] at h
    refine iff_of_false (fun hwrite ↦ ?_) h
    exact absurd (fat32WriteFile_bound hworks hbps hspc hwrite) (not_le.mpr hbig)
  · rw [WriteSafe, if_neg hbig] at h
    exact fat32WriteFile_longFrom hworks hbps hspc (not_lt.mp hbig) io h data

/-- Data of ones ends a chain at its first overwritten link. -/
theorem Overwritten.ends (hworks : drive.Works) (hbps : bpb.bytesPerSector = 512)
    (hspc : bpb.sectorsPerCluster ≠ 0) (io : IoState) {J : ℕ}
    (h : Overwritten bpb io.sectors file J)
    (hclean : ∀ k < J, ¬Overwritten bpb io.sectors file k) :
    (fat32WriteFile drive bpb io file fun _ ↦ 0xFF).2 = false := by
  obtain ⟨cJ, hcJ, hlbaJ, hlt, hneeded, -⟩ := id h
  rw [← clusterSize_of_bps hbps] at hneeded
  have huniform : Uniform (fun _ ↦ 0xFF) fun _ ↦ 0xFF := fun _ ↦ rfl
  have hends : ∀ {disk : ℕ → Mem}, (∀ b < 512, disk (linkAt bpb cJ) b = 0xFF) →
      nextCluster bpb disk cJ = none := by
    intro disk hpat
    have hlow := two_le_of_clusterToLba hlbaJ
    have hrange : ¬(cJ < 2 ∨ 0x0FFFFFF8 ≤ cJ) := by omega
    have hones : readLE (fun _ ↦ 0xFF) (fatOffset bpb cJ) 4 = 0xFFFFFFFF := by simp [readLE]
    rw [nextCluster, if_neg hrange, link_of_pattern hbps hrange hpat, hones]
    rfl
  have hinv : DiskInvariant bpb (fun _ ↦ 0xFF) file
      (Follows bpb io.sectors file (fun _ ↦ 0xFF) J) fun _ ok ↦ ok = false := by
    refine ⟨?_, fun _ _ _ ↦ rfl, ?_, fun _ _ _ _ _ ↦ rfl, ?_, fun _ _ ↦ rfl, ?_⟩
    · intro j c k disk bytes hf _ hk _ hbytes
      exact hf.next hclean hk hneeded huniform hbytes
    · intro j c c' disk hf _ hlba hlt hnext
      rcases Nat.lt_or_eq_of_le hf.le with hj | rfl
      · exact hf.goes hj hbps hlba hlt hnext
      · obtain ⟨cJ', hcJ', hpat⟩ := h.link_stamped hf.stamped
        obtain rfl := Option.some.inj (hcJ.symm.trans hcJ')
        obtain rfl := Option.some.inj (hcJ.symm.trans hf.cluster)
        simp [hends hpat] at hnext
    · intro j c p disk hf _ _ hp hle
      have hmul := Nat.mul_le_mul_right bpb.sectorsPerCluster (show j + 1 ≤ J + 1 by
        have := hf.le
        omega)
      omega
    · intro disk _ hzero
      omega
  exact hinv.fat32WriteFile hworks hbps hspc
    ⟨Nat.zero_le J, rfl, fun _ _ _ _ _ _ _ _ _ _ ↦ rfl, fun _ _ _ _ _ hlt ↦ by omega⟩

/-- Data that makes the first overwritten link point to its own cluster keeps
the write going. -/
theorem Overwritten.goes_on (hworks : drive.Works) (hbps : bpb.bytesPerSector = 512)
    (hspc : bpb.sectorsPerCluster ≠ 0) (io : IoState)
    (hfit : file.size ≤ maxClusters bpb * clusterSize bpb) {J : ℕ}
    (h : Overwritten bpb io.sectors file J)
    (hclean : ∀ k < J, ¬Overwritten bpb io.sectors file k) :
    ∃ data, (fat32WriteFile drive bpb io file data).2 = true := by
  obtain ⟨cJ, hcJ, hlbaJ, hlt, hneeded, -⟩ := id h
  rw [← clusterSize_of_bps hbps] at hneeded hfit
  generalize hpattern : writeLE (fun _ ↦ 0) (fatOffset bpb cJ) 4 cJ = pat
  have huniform : Uniform (fun i ↦ pat (i % 512)) pat := fun _ ↦ rfl
  have hself : ∀ {disk : ℕ → Mem}, (∀ b < 512, disk (linkAt bpb cJ) b = pat b) →
      nextCluster bpb disk cJ = some cJ := by
    intro disk hpat
    have hlow := two_le_of_clusterToLba hlbaJ
    have hrange : ¬(cJ < 2 ∨ 0x0FFFFFF8 ≤ cJ) := by omega
    have hlink : link bpb disk cJ = cJ := by
      rw [link_of_pattern hbps hrange hpat, ← hpattern,
        readLE_writeLE_of_lt _ (by norm_num; omega)]
      exact (Nat.and_two_pow_sub_one_eq_mod cJ 28).trans (Nat.mod_eq_of_lt (by omega))
    have hgoes : chainEnds cJ = false := decide_eq_false hrange
    rw [nextCluster, if_neg hrange, hlink, hgoes]
    rfl
  have hlink : ∀ {j c : ℕ} {disk : ℕ → Mem}, J ≤ j →
      Follows bpb io.sectors file pat J j c ((j + 1) * bpb.sectorsPerCluster) disk →
      c = cJ ∧ ∀ b < 512, disk (linkAt bpb cJ) b = pat b := by
    intro j c disk hJj hf
    obtain rfl : j = J := le_antisymm hf.le hJj
    obtain ⟨cJ', hcJ', hpat⟩ := h.link_stamped hf.stamped
    obtain rfl := Option.some.inj (hcJ.symm.trans hcJ')
    exact ⟨Option.some.inj (hf.cluster.symm.trans hcJ), hpat⟩
  refine ⟨fun i ↦ pat (i % 512), ?_⟩
  -- Behind the overwritten link the write stays at its cluster.
  have hinv : DiskInvariant bpb (fun i ↦ pat (i % 512)) file
      (fun j c p disk ↦ Follows bpb io.sectors file pat J j c p disk ∨
        J < j ∧ c = cJ ∧ ∀ b < 512, disk (linkAt bpb cJ) b = pat b)
      fun _ ok ↦ ok = true := by
    refine ⟨?_, ?_, ?_, ?_, fun _ _ _ _ _ ↦ rfl, ?_, fun _ _ ↦ rfl⟩
    · rintro j c k disk bytes (hf | ⟨hj, rfl, hpat⟩) - hk - hbytes
      · exact Or.inl (hf.next hclean hk hneeded huniform hbytes)
      · refine Or.inr ⟨hj, rfl, fun b hb ↦ ?_⟩
        exact update_pattern pat (huniform.byte hbytes hb) (hpat b hb)
    · rintro j c disk (hf | ⟨-, rfl, -⟩) hlba -
      · exact absurd hlba (hf.lba_ne_zero hcJ hlbaJ)
      · exact absurd hlba hlbaJ
    · rintro j c c' disk (hf | ⟨hj, rfl, hpat⟩) - hlba hlt hnext
      · rcases Nat.lt_or_ge j J with hj | hj
        · exact Or.inl (hf.goes hj hbps hlba hlt hnext)
        · obtain ⟨rfl, hpat⟩ := hlink hj hf
          obtain rfl := Option.some.inj ((hself hpat).symm.trans hnext)
          exact Or.inr ⟨by omega, rfl, hpat⟩
      · obtain rfl := Option.some.inj ((hself hpat).symm.trans hnext)
        exact Or.inr ⟨by omega, rfl, hpat⟩
    · rintro j c disk (hf | ⟨-, rfl, hpat⟩) - hlba hlt hnext
      · rcases Nat.lt_or_ge j J with hj | hj
        · rw [clusterSize_of_bps hbps] at hlt
          rw [hf.links.nextCluster_eq hbps hj hf.cluster hlba hlt] at hnext
          rcases Nat.lt_or_eq_of_le (show j + 1 ≤ J from hj) with hless | heq
          · obtain ⟨c', hc', -⟩ := clusterAt_before hcJ hless
            simp [hnext] at hc'
          · simp [heq, hcJ] at hnext
        · obtain ⟨rfl, hpat⟩ := hlink hj hf
          simp [hself hpat] at hnext
      · simp [hself hpat] at hnext
    · intro c disk _ hlt
      omega
  exact hinv.fat32WriteFile hworks hbps hspc (Or.inl
    ⟨Nat.zero_le J, rfl, fun _ _ _ _ _ _ _ _ _ _ ↦ rfl, fun _ _ _ _ _ hlt ↦ by omega⟩)

theorem walksAgree_iff (hworks : drive.Works) (hbps : bpb.bytesPerSector = 512)
    (hspc : bpb.sectorsPerCluster ≠ 0) (io : IoState) (file : Fat32File) :
    WalksAgree drive bpb io file ↔ WriteSafe bpb io.sectors file := by
  have hread := fat32ReadFile_true_iff hworks.reads hbps hspc io file
  refine ⟨fun hagree ↦ ?_, fun hsafe data ↦ ?_⟩
  · rw [WriteSafe]
    split_ifs with hbig
    · intro hlong
      have hwrite := (hagree fun _ ↦ 0).mpr (hread.mpr hlong)
      exact absurd (fat32WriteFile_bound hworks hbps hspc hwrite) (not_le.mpr hbig)
    · classical
      by_contra hexists
      push Not at hexists
      -- The first overwritten link decides the write, and the data decide the link.
      have hfirst := Nat.find_spec hexists
      have hclean : ∀ k < Nat.find hexists, ¬Overwritten bpb io.sectors file k :=
        fun k hk ↦ Nat.find_min hexists hk
      by_cases hlong : LongFrom bpb io.sectors file 0
      · have hwrite := (hagree fun _ ↦ 0xFF).mpr (hread.mpr hlong)
        rw [hfirst.ends hworks hbps hspc io hclean] at hwrite
        cases hwrite
      · obtain ⟨data, hwrite⟩ := hfirst.goes_on hworks hbps hspc io (not_lt.mp hbig) hclean
        exact hlong (hread.mp ((hagree data).mp hwrite))
  · rw [hread]
    exact hsafe.fat32WriteFile_iff hworks hbps hspc io rfl data

end ImplusKernel.Fat32
