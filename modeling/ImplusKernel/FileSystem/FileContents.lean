import ImplusKernel.FileSystem.FileWrite

/-!
# Whole files

On a valid volume and a working drive, `fat32_read_file` returns the front of
the file's chain, and `fat32_write_file` replaces exactly that front.
-/

namespace ImplusKernel.Fat32

open ByteMemory Disk

variable {drive : Drive} {bpb : Bpb} {clusters : ℕ} {sectors : ℕ → Mem} {chain : List ℕ}
  {first : ℕ} {io : IoState}

/-- Byte number `p` of a chain. -/
def chainByte (bpb : Bpb) (sectors : ℕ → Mem) (chain : List ℕ) (p : ℕ) : UInt8 :=
  sectors (place bpb chain (p / 512)) (p % 512)

/-- The first `size` bytes of a chain. -/
def fileBytes (bpb : Bpb) (sectors : ℕ → Mem) (chain : List ℕ) (size : ℕ) : List UInt8 :=
  (List.range size).map (chainByte bpb sectors chain)

theorem length_fileBytes (bpb : Bpb) (sectors : ℕ → Mem) (chain : List ℕ) (size : ℕ) :
    (fileBytes bpb sectors chain size).length = size := by
  simp [fileBytes]

@[simp]
theorem fileBytes_zero (bpb : Bpb) (sectors : ℕ → Mem) (chain : List ℕ) :
    fileBytes bpb sectors chain 0 = [] := rfl

theorem Geometry.clusterSize_eq (h : Geometry bpb clusters) :
    clusterSize bpb = bpb.sectorsPerCluster * 512 := by
  rw [clusterSize, h.bps]

/-- The bytes of the first cluster. -/
theorem chainByte_cons_lt (hgeo : Geometry bpb clusters) (sectors : ℕ → Mem) (c : ℕ)
    (rest : List ℕ) {p : ℕ} (hp : p < clusterSize bpb) :
    chainByte bpb sectors (c :: rest) p = sectors (dataSector bpb c (p / 512)) (p % 512) := by
  rw [hgeo.clusterSize_eq] at hp
  rw [chainByte, place_cons_lt rest (by omega)]

/-- The bytes after it. -/
theorem chainByte_cons_add (hgeo : Geometry bpb clusters) (sectors : ℕ → Mem) (c : ℕ)
    (rest : List ℕ) (p : ℕ) :
    chainByte bpb sectors (c :: rest) (clusterSize bpb + p) = chainByte bpb sectors rest p := by
  have hdiv : (clusterSize bpb + p) / 512 = bpb.sectorsPerCluster + p / 512 := by
    rw [hgeo.clusterSize_eq]
    omega
  have hmod : (clusterSize bpb + p) % 512 = p % 512 := by
    rw [hgeo.clusterSize_eq]
    omega
  rw [chainByte, chainByte, hdiv, hmod, place_cons_add hgeo.spc_pos]

theorem fileBytes_cons (hgeo : Geometry bpb clusters) (sectors : ℕ → Mem) (c : ℕ)
    (rest : List ℕ) (n : ℕ) :
    fileBytes bpb sectors (c :: rest) (clusterSize bpb + n) =
      fileBytes bpb sectors (c :: rest) (clusterSize bpb) ++ fileBytes bpb sectors rest n := by
  rw [fileBytes, List.range_add, List.map_append, List.map_map]
  congr 1
  apply List.map_congr_left
  intro p _
  exact chainByte_cons_add hgeo sectors c rest p

/-! ## Reading -/

/-- One transfer delivers the front of the first cluster. -/
theorem map_transferred (hgeo : Geometry bpb clusters) (sectors : ℕ → Mem) (stack : Mem) {c : ℕ}
    (hc : InRange clusters c) (rest : List ℕ) {n : ℕ} (hn : n ≤ clusterSize bpb) :
    (List.range n).map (transferred sectors stack (clusterToLba bpb c) bpb.sectorsPerCluster) =
      fileBytes bpb sectors (c :: rest) n := by
  apply List.map_congr_left
  intro p hp
  have hlt := (List.mem_range.mp hp).trans_le hn
  rw [chainByte_cons_lt hgeo sectors c rest hlt]
  rw [hgeo.clusterSize_eq] at hlt
  rw [transferred, if_pos (by omega), hgeo.sectorOf_clusterToLba hc (by omega)]

theorem fatGetNextCluster_link (hworks : drive.Works) (hgeo : Geometry bpb clusters) {c : ℕ}
    (hc : InRange clusters c) (io : IoState) :
    fatGetNextCluster drive bpb io c =
      ({ io with commands := io.commands + 1 }, link bpb io.sectors c) := by
  rw [fatGetNextCluster_works hworks.reads (hgeo.hasEntry hc)]
  congr 1
  exact fatEntry_congr _ _ hgeo.bps.le (hgeo.hasEntry hc) fun _ _ ↦ rfl

/-- The loop copies what is left of the file from the rest of its chain. -/
theorem readLoop_chained (hworks : drive.Works) (hgeo : Geometry bpb clusters)
    (hchain : Chained bpb clusters sectors first chain) {fuel left : ℕ} (io : IoState)
    (hio : io.sectors = sectors) (copied : List UInt8) (hfuel : left < fuel)
    (hleft : left ≤ chain.length * clusterSize bpb) :
    ∃ n, readLoop drive bpb fuel io first left copied =
      some ({ io with commands := n }, true, copied ++ fileBytes bpb sectors chain left) := by
  have hcsz : 0 < clusterSize bpb := by
    have hpos := hgeo.spc_pos
    rw [hgeo.clusterSize_eq]
    omega
  induction hchain generalizing fuel left io copied with
  | @last c hrange hend =>
      subst hio
      obtain ⟨fuel, rfl⟩ := Nat.exists_eq_succ_of_ne_zero (show fuel ≠ 0 by omega)
      by_cases hzero : left = 0
      · subst hzero
        exact ⟨io.commands, by simp [readLoop]⟩
      rw [List.length_singleton, Nat.one_mul] at hleft
      refine ⟨io.commands + bpb.sectorsPerCluster + 1, ?_⟩
      have hlba := hgeo.clusterToLba_ne_zero hrange
      rw [readLoop, if_neg hzero]
      simp only [if_neg hlba, if_neg (not_lt.mpr hleft),
        diskRead_works hworks.reads io _ hgeo.spc_pos.ne',
        fatGetNextCluster_link hworks hgeo hrange,
        hend, if_true, Nat.sub_self, map_transferred hgeo io.sectors _ hrange [] hleft]
      rfl
  | @cons c rest hrange hrest ih =>
      subst hio
      obtain ⟨fuel, rfl⟩ := Nat.exists_eq_succ_of_ne_zero (show fuel ≠ 0 by omega)
      by_cases hzero : left = 0
      · subst hzero
        exact ⟨io.commands, by simp [readLoop]⟩
      have hlba := hgeo.clusterToLba_ne_zero hrange
      have hgoes := hgeo.chainEnds_eq_false hrest.head_range
      rw [readLoop, if_neg hzero]
      simp only [if_neg hlba, diskRead_works hworks.reads io _ hgeo.spc_pos.ne',
        fatGetNextCluster_link hworks hgeo hrange, hgoes, Bool.false_eq_true, if_false]
      by_cases hbig : left > clusterSize bpb
      · rw [if_pos hbig, map_transferred hgeo io.sectors _ hrange rest le_rfl]
        have hsplit := fileBytes_cons hgeo io.sectors c rest (left - clusterSize bpb)
        rw [Nat.add_sub_cancel' hbig.le] at hsplit
        rw [hsplit, ← List.append_assoc]
        refine ih { io with commands := io.commands + bpb.sectorsPerCluster + 1 } rfl _ ?_ ?_
        · omega
        · rw [List.length_cons, Nat.add_mul, Nat.one_mul] at hleft
          omega
      · rw [if_neg hbig, map_transferred hgeo io.sectors _ hrange rest (not_lt.mp hbig),
          Nat.sub_self]
        obtain ⟨n, hn⟩ := ih { io with commands := io.commands + bpb.sectorsPerCluster + 1 } rfl
          (copied ++ fileBytes bpb io.sectors (c :: rest) left) (show 0 < fuel by omega)
          (Nat.zero_le _)
        rw [fileBytes_zero, List.append_nil] at hn
        exact ⟨n, hn⟩

theorem fat32ReadFile_chained (hworks : drive.Works) (hgeo : Geometry bpb clusters)
    {file : Fat32File} (hchain : Chained bpb clusters io.sectors file.firstCluster chain)
    (hsize : file.size ≤ chain.length * clusterSize bpb) :
    ∃ n, fat32ReadFile drive bpb io file = some ({ io with commands := n }, true,
      fileBytes bpb io.sectors chain file.size) :=
  readLoop_chained hworks hgeo hchain io rfl [] (Nat.lt_succ_self _) hsize

/-- On any volume the loop copies no more than what is left of the file, and
when it reports success it has copied all of it. -/
theorem readLoop_length {fuel : ℕ} {io io' : IoState} {cluster left : ℕ}
    {copied out : List UInt8} {ok : Bool}
    (h : readLoop drive bpb fuel io cluster left copied = some (io', ok, out)) :
    out.length ≤ copied.length + left ∧ (ok = true → out.length = copied.length + left) := by
  induction fuel generalizing io cluster left copied with
  | zero => cases h
  | succ fuel ih =>
      unfold readLoop at h
      dsimp only at h
      split at h
      · obtain ⟨-, -, rfl⟩ : io = io' ∧ true = ok ∧ copied = out := by simpa using h
        omega
      split at h
      · obtain ⟨-, rfl, rfl⟩ : io = io' ∧ false = ok ∧ copied = out := by simpa using h
        exact ⟨Nat.le_add_right _ _, fun hok ↦ absurd hok Bool.false_ne_true⟩
      split at h
      · simp only [Option.some.injEq, Prod.mk.injEq] at h
        obtain ⟨-, rfl, rfl⟩ := h
        exact ⟨Nat.le_add_right _ _, fun hok ↦ absurd hok Bool.false_ne_true⟩
      · generalize hn : (if left > clusterSize bpb then clusterSize bpb else left) = n at h
        have hle : n ≤ left := by split at hn <;> omega
        split at h
        · simp only [Option.some.injEq, Prod.mk.injEq] at h
          obtain ⟨-, rfl, rfl⟩ := h
          simp only [List.length_append, List.length_map, List.length_range, decide_eq_true_eq]
          omega
        · obtain ⟨hbound, hall⟩ := ih h
          simp only [List.length_append, List.length_map, List.length_range] at hbound hall
          refine ⟨by omega, fun hok ↦ ?_⟩
          have hlength := hall hok
          omega

theorem fat32ReadFile_length {file : Fat32File} {io io' : IoState} {out : List UInt8} {ok : Bool}
    (h : fat32ReadFile drive bpb io file = some (io', ok, out)) : out.length ≤ file.size := by
  simpa using (readLoop_length h).1

theorem fat32ReadFile_length_eq {file : Fat32File} {io io' : IoState} {out : List UInt8}
    (h : fat32ReadFile drive bpb io file = some (io', true, out)) : out.length = file.size := by
  simpa using (readLoop_length h).2 rfl

/-- On any volume, cyclic chains included, the loop ends: a round that goes on
has read at least one sector and so copied at least one byte. -/
theorem readLoop_returns (hbps : bpb.bytesPerSector ≠ 0) {fuel left : ℕ} (hfuel : left < fuel)
    (io : IoState) (cluster : ℕ) (copied : List UInt8) :
    (readLoop drive bpb fuel io cluster left copied).isSome := by
  induction fuel generalizing io cluster left copied with
  | zero => omega
  | succ fuel ih =>
      rw [readLoop]
      dsimp only
      split
      · rfl
      split
      · rfl
      split
      · rfl
      next hread =>
      split
      · rfl
      apply ih
      have hspc : bpb.sectorsPerCluster ≠ 0 := by
        intro hzero
        simp [diskRead, hzero] at hread
      have hcsz : 0 < clusterSize bpb := Nat.mul_pos (by omega) (by omega)
      split <;> omega

theorem fat32ReadFile_returns (drive : Drive) (hbps : bpb.bytesPerSector ≠ 0) (io : IoState)
    (file : Fat32File) : (fat32ReadFile drive bpb io file).isSome :=
  readLoop_returns hbps (Nat.lt_succ_self _) io file.firstCluster []

/-! ## Writing -/

/-- The first `n` sectors at `place` have taken their bytes of a file, and every
other sector is as it was. -/
structure Filled (buffer : Mem) (place : ℕ → ℕ) (size n : ℕ) (old new : ℕ → Mem) : Prop where
  data : ∀ k < n, k * 512 < size → ∀ i < 512, new (place k) i =
    if k * 512 + i < size then buffer (k * 512 + i) else old (place k) i
  frame : ∀ s, (∀ k < n, k * 512 < size → s ≠ place k) → new s = old s

theorem Filled.next {buffer bytes : Mem} {spot : ℕ → ℕ} {size n : ℕ} {old mid : ℕ → Mem}
    (h : Filled buffer spot size n old mid) (hlt : n * 512 < size)
    (hapart : ∀ k < n, spot k ≠ spot n)
    (hbytes : ∀ i < 512, bytes i =
      if n * 512 + i < size then buffer (n * 512 + i) else mid (spot n) i) :
    Filled buffer spot size (n + 1) old (Function.update mid (spot n) bytes) := by
  refine ⟨fun k hk hleft i hi ↦ ?_, fun s hs ↦ ?_⟩
  · rcases Nat.lt_succ_iff_lt_or_eq.mp hk with hbefore | rfl
    · rw [Function.update_of_ne (hapart k hbefore)]
      exact h.data k hbefore hleft i hi
    · rw [Function.update_self, hbytes i hi, h.frame _ fun k' hk' _ ↦ (hapart k' hk').symm]
  · rw [Function.update_of_ne (hs n (Nat.lt_succ_self n) hlt)]
    exact h.frame s fun k hk ↦ hs k (by omega)

/-- The sectors of a chain are different ones. -/
theorem place_inj (hspc : 0 < bpb.sectorsPerCluster) (hrange : ∀ c ∈ chain, 2 ≤ c)
    (hnodup : chain.Nodup) {p q : ℕ} (hp : p < chain.length * bpb.sectorsPerCluster)
    (hq : q < chain.length * bpb.sectorsPerCluster) (h : place bpb chain p = place bpb chain q) :
    p = q := by
  have hp' : p / bpb.sectorsPerCluster < chain.length := (Nat.div_lt_iff_lt_mul hspc).mpr hp
  have hq' : q / bpb.sectorsPerCluster < chain.length := (Nat.div_lt_iff_lt_mul hspc).mpr hq
  simp only [place, List.getD_eq_getElem _ _ hp', List.getD_eq_getElem _ _ hq'] at h
  obtain ⟨hcluster, hsector⟩ := dataSector_inj (hrange _ (List.getElem_mem hp'))
    (hrange _ (List.getElem_mem hq')) (Nat.mod_lt _ hspc) (Nat.mod_lt _ hspc) h
  rw [hnodup.getElem_inj_iff] at hcluster
  rw [← Nat.div_add_mod p bpb.sectorsPerCluster, ← Nat.div_add_mod q bpb.sectorsPerCluster,
    hcluster, hsector]

theorem place_eq (hgeo : Geometry bpb clusters) {j c k : ℕ} (hc : chain[j]? = some c)
    (hrange : InRange clusters c) (hk : k < bpb.sectorsPerCluster) :
    place bpb chain (j * bpb.sectorsPerCluster + k) = dataAt bpb c k := by
  have hdiv : (j * bpb.sectorsPerCluster + k) / bpb.sectorsPerCluster = j := by
    rw [Nat.add_comm, Nat.add_mul_div_right _ _ hgeo.spc_pos, Nat.div_eq_of_lt hk, Nat.zero_add]
  rw [place, hdiv, Nat.mul_add_mod_of_lt hk, List.getD_eq_getElem?_getD, hc, Option.getD_some,
    dataAt, hgeo.sectorOf_sectorLba hrange hk]

/-- A write along a chain fills it sector by sector, and no link is one of
these sectors. -/
theorem filled_invariant (hgeo : Geometry bpb clusters) {file : Fat32File}
    (hchain : Chained bpb clusters sectors file.firstCluster chain) (hnodup : chain.Nodup)
    (hsize : file.size ≤ chain.length * clusterSize bpb) (buffer : Mem) :
    DiskInvariant bpb buffer file
      (fun j c p disk ↦ chain[j]? = some c ∧
        Filled buffer (place bpb chain) file.size p sectors disk)
      fun disk ok ↦ ok = true ∧ ∃ p, file.size ≤ p * 512 ∧
        Filled buffer (place bpb chain) file.size p sectors disk := by
  have hlength := hchain.length_le_maxClusters hgeo hnodup
  have hrange : ∀ {j c : ℕ}, chain[j]? = some c → InRange clusters c :=
    fun hc ↦ hchain.inRange _ (List.mem_of_getElem? hc)
  have hlink : ∀ {j c p : ℕ} {disk : ℕ → Mem}, chain[j]? = some c →
      p ≤ (j + 1) * bpb.sectorsPerCluster →
      Filled buffer (place bpb chain) file.size p sectors disk →
      nextCluster bpb disk c = chain[j + 1]? := by
    intro j c p disk hc hp hfilled
    rw [← hchain.nextCluster_eq hgeo hc]
    have hj := (List.getElem?_eq_some_iff.mp hc).1
    refine nextCluster_congr hgeo.bps fun i _ ↦ ?_
    rw [hfilled.frame _ fun k hk _ ↦ ?_]
    have hroom : k < chain.length * bpb.sectorsPerCluster :=
      hk.trans_le (hp.trans (Nat.mul_le_mul_right _ hj))
    obtain ⟨c', -, hplace⟩ := place_mem hgeo.spc_pos hroom
    rw [hplace]
    exact ((hgeo.fatSector_lt (hrange hc)).trans_le (dataSector_ge bpb c' _)).ne
  refine ⟨?_, ?_, ?_, ?_, ?_, ?_, ?_⟩
  · rintro j c k disk bytes ⟨hc, hfilled⟩ - hk hlt hbytes
    have hj := (List.getElem?_eq_some_iff.mp hc).1
    have hroom := row_add_le hj bpb.sectorsPerCluster
    rw [← place_eq hgeo hc (hrange hc) hk] at hbytes ⊢
    refine ⟨hc, hfilled.next hlt (fun q hq heq ↦ ?_) hbytes⟩
    have hsame := place_inj hgeo.spc_pos (fun c hc ↦ (hchain.inRange c hc).1) hnodup
      (by omega) (by omega) heq
    omega
  · rintro j c disk ⟨hc, -⟩ hlba -
    exact absurd hlba (hgeo.clusterToLba_ne_zero (hrange hc))
  · rintro j c c' disk ⟨hc, hfilled⟩ - - - hnext
    exact ⟨(hlink hc le_rfl hfilled).symm.trans hnext, hfilled⟩
  · rintro j c disk ⟨hc, hfilled⟩ - - hlt hnext
    -- A chain that is long enough does not end here.
    rw [hlink hc le_rfl hfilled, List.getElem?_eq_none_iff] at hnext
    have hmul := Nat.mul_le_mul_right (bpb.sectorsPerCluster * 512) hnext
    rw [hgeo.clusterSize_eq] at hsize
    rw [Nat.mul_assoc] at hlt
    omega
  · rintro j c p disk ⟨-, hfilled⟩ - - - hle
    exact ⟨rfl, p, hle, hfilled⟩
  · rintro c disk ⟨hc, -⟩ -
    have hj := (List.getElem?_eq_some_iff.mp hc).1
    omega
  · rintro disk ⟨-, hfilled⟩ hzero
    exact ⟨rfl, 0, hzero.le.trans (Nat.zero_le _), hfilled⟩

/-- A write of a whole file: its bytes become those of the buffer, and no
other byte of the drive changes. -/
theorem fat32WriteFile_chained (hworks : drive.Works) (hgeo : Geometry bpb clusters)
    {file : Fat32File} (hchain : Chained bpb clusters io.sectors file.firstCluster chain)
    (hnodup : chain.Nodup) (hsize : file.size ≤ chain.length * clusterSize bpb) (buffer : Mem) :
    ∃ io', fat32WriteFile drive bpb io file buffer = (io', true) ∧
      (∀ p < file.size, chainByte bpb io'.sectors chain p = buffer p) ∧
      ∀ s, ∀ i < 512, (∀ p < file.size, ¬(s = place bpb chain (p / 512) ∧ i = p % 512)) →
        io'.sectors s i = io.sectors s i := by
  have hstart : Filled buffer (place bpb chain) file.size 0 io.sectors io.sectors :=
    ⟨fun _ hk ↦ absurd hk (Nat.not_lt_zero _), fun _ _ ↦ rfl⟩
  obtain ⟨hok, n, hn, hfilled⟩ := (filled_invariant hgeo hchain hnodup hsize buffer).fat32WriteFile
    hworks hgeo.bps hgeo.spc_pos.ne' ⟨hchain.head_eq, hstart⟩
  have hdata := fun k (hk : k * 512 < file.size) ↦ hfilled.data k (by omega) hk
  have hsplit : ∀ p, p / 512 * 512 + p % 512 = p := fun p ↦ Nat.div_add_mod' p 512
  refine ⟨(fat32WriteFile drive bpb io file buffer).1, Prod.ext rfl hok, ?_, ?_⟩
  · intro p hp
    have hle := hsplit p
    rw [chainByte, hdata (p / 512) (by omega) (p % 512) (Nat.mod_lt _ (by decide)), hsplit,
      if_pos hp]
  · intro s i hi hother
    by_cases hplace : ∃ k, k * 512 < file.size ∧ s = place bpb chain k
    · obtain ⟨k, hk, rfl⟩ := hplace
      rw [hdata k hk i hi, if_neg]
      intro hlt
      refine hother _ hlt ⟨?_, by omega⟩
      rw [show (k * 512 + i) / 512 = k by omega]
    · rw [hfilled.frame s fun k _ hk heq ↦ hplace ⟨k, hk, heq⟩]

end ImplusKernel.Fat32
