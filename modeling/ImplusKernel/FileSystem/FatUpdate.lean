import ImplusKernel.FileSystem.DiskSpec
import ImplusKernel.Lib.Words
import Mathlib.Data.List.Nodup

/-!
# Updating an entry of the file allocation table

`fat_set_next_cluster` stores a link in every copy of the FAT, while
`fat_get_next_cluster` reads the first copy only.  The sectors of all copies
lie next to each other; as long as there are no more of them than the drive can
address, different entries never share a byte.
-/

namespace ImplusKernel.Fat32

open ByteMemory Disk

/-! ## The code -/

/-- The four stores of an entry; the top four bits stay. -/
def patchEntry (buf : Mem) (offset next : ℕ) : Mem :=
  let buf := Function.update buf offset (UInt8.ofNat (next &&& 0xFF))
  let buf := Function.update buf (offset + 1) (UInt8.ofNat (next >>> 8 &&& 0xFF))
  let buf := Function.update buf (offset + 2) (UInt8.ofNat (next >>> 16 &&& 0xFF))
  Function.update buf (offset + 3)
    ((buf (offset + 3) &&& (0xF0 : UInt8)) ||| UInt8.ofNat (next >>> 24 &&& 0x0F))

/-- The sector of copy number `fat` that holds the entry of a cluster. -/
def copySector (bpb : Bpb) (fat cluster : ℕ) : ℕ :=
  (fatStartLba bpb + fat * bpb.fatSizeSectors + cluster * 4 % 2 ^ 32 / bpb.bytesPerSector) % 2 ^ 32

/-- The loop over the copies. -/
def setCopies (drive : Drive) (bpb : Bpb) (cluster next : ℕ) :
    List ℕ → IoState → IoState × Bool
  | [], io => (io, true)
  | fat :: rest, io =>
      let offset := cluster * 4 % 2 ^ 32 % bpb.bytesPerSector
      match diskRead drive io (copySector bpb fat cluster) 1 with
      | (io', none) => (io', false)
      | (io', some buf) =>
          match diskWrite drive io' (copySector bpb fat cluster) (patchEntry buf offset next) 1 with
          | (io'', false) => (io'', false)
          | (io'', true) => setCopies drive bpb cluster next rest io''

def fatSetNextCluster (drive : Drive) (bpb : Bpb) (io : IoState) (cluster next : ℕ) :
    IoState × Bool :=
  if cluster < 2 ∨ 0x0FFFFFF8 ≤ cluster then (io, false)
  else if bpb.bytesPerSector < cluster * 4 % 2 ^ 32 % bpb.bytesPerSector + 4 then (io, false)
  else setCopies drive bpb cluster next (List.range bpb.numFats) io

/-! ## One entry -/

theorem patchEntry_outside (buf : Mem) {offset x : ℕ} (next : ℕ)
    (h : x < offset ∨ offset + 4 ≤ x) : patchEntry buf offset next x = buf x := by
  rw [patchEntry, Function.update_of_ne (by omega), Function.update_of_ne (by omega),
    Function.update_of_ne (by omega), Function.update_of_ne (by omega)]

theorem patchEntry_congr {buf buf' : Mem} {offset : ℕ} (next : ℕ)
    (h : ∀ i < 512, buf i = buf' i) (hoffset : offset + 4 ≤ 512) :
    ∀ i < 512, patchEntry buf offset next i = patchEntry buf' offset next i := by
  intro i hi
  simp only [patchEntry, Function.update_apply, h i hi, h (offset + 3) (by omega)]

/-- The byte that holds bits 24 to 27 of the link and the four bits that stay. -/
theorem top_byte (b : UInt8) (next : ℕ) :
    ((b &&& (0xF0 : UInt8)) ||| UInt8.ofNat (next >>> 24 &&& 0x0F)).toNat =
      b.toNat / 16 * 16 + next / 2 ^ 24 % 16 := by
  have hlow : next >>> 24 &&& 0x0F = next / 2 ^ 24 % 16 := by
    rw [Nat.shiftRight_eq_div_pow]
    exact Nat.and_two_pow_sub_one_eq_mod _ 4
  have hhigh : b.toNat &&& 0xF0 = b.toNat / 16 * 16 :=
    Words.land_highMask (w := 8) (k := 4) (by decide) b.toNat_lt
  rw [hlow, UInt8.toNat_or, UInt8.toNat_and, UInt8.toNat_ofNat', show (0xF0 : UInt8).toNat = 0xF0
    from rfl, hhigh, Nat.mod_eq_of_lt (b := 2 ^ 8) (by omega)]
  exact Words.lor_eq_add (k := 4) (Nat.dvd_mul_left ..) (by omega)

/-- The entry after the four stores. -/
theorem readLE_patchEntry (buf : Mem) (offset next : ℕ) :
    readLE (patchEntry buf offset next) offset 4 =
      readLE buf offset 4 / 2 ^ 28 * 2 ^ 28 + next % 2 ^ 28 := by
  have hbyte (k : ℕ) : (UInt8.ofNat (next >>> k &&& 0xFF)).toNat = next / 2 ^ k % 256 := by
    rw [Nat.shiftRight_eq_div_pow, Nat.and_two_pow_sub_one_eq_mod _ 8, UInt8.toNat_ofNat']
    omega
  have h₀ : (patchEntry buf offset next offset).toNat = next % 256 := by
    simp only [patchEntry, Function.update_apply]
    have hzero := hbyte 0
    rw [Nat.shiftRight_zero, pow_zero, Nat.div_one] at hzero
    simpa using hzero
  have h₁ : (patchEntry buf offset next (offset + 1)).toNat = next / 2 ^ 8 % 256 := by
    simp only [patchEntry, Function.update_apply]
    simpa using hbyte 8
  have h₂ : (patchEntry buf offset next (offset + 2)).toNat = next / 2 ^ 16 % 256 := by
    simp only [patchEntry, Function.update_apply]
    simpa using hbyte 16
  have h₃ : (patchEntry buf offset next (offset + 3)).toNat =
      (buf (offset + 3)).toNat / 16 * 16 + next / 2 ^ 24 % 16 := by
    simp only [patchEntry, Function.update_apply]
    simpa using top_byte (buf (offset + 3)) next
  have hb₀ := (buf offset).toNat_lt
  have hb₁ := (buf (offset + 1)).toNat_lt
  have hb₂ := (buf (offset + 2)).toNat_lt
  simp only [readLE, Nat.add_assoc, Nat.reduceAdd] at *
  rw [h₀, h₁, h₂, h₃]
  omega

/-! ## The copies on the drive -/

variable {drive : Drive} {bpb : Bpb} {cluster next : ℕ}

/-- The sector of the drive that holds sector `k` of copy number `fat`. -/
def fatLocation (bpb : Bpb) (fat k : ℕ) : ℕ :=
  sectorOf (fatStartLba bpb + fat * bpb.fatSizeSectors + k) 0

/-- The 32-bit entry of a cluster in one copy. -/
def fatWord (bpb : Bpb) (sectors : ℕ → Mem) (fat cluster : ℕ) : ℕ :=
  readLE (sectors (sectorOf (copySector bpb fat cluster) 0)) (fatOffset bpb cluster) 4

/-- A cluster with an entry in the FAT. -/
def InFat (bpb : Bpb) (cluster : ℕ) : Prop :=
  2 ≤ cluster ∧ cluster < min 0x0FFFFFF8 (bpb.fatSizeSectors * 128)

theorem copySector_zero (bpb : Bpb) (cluster : ℕ) :
    copySector bpb 0 cluster = fatSector bpb cluster := by
  rw [copySector, fatSector, Nat.zero_mul, Nat.add_zero]

theorem InFat.sector_lt (h : InFat bpb cluster) : cluster / 128 < bpb.fatSizeSectors := by
  have hlt := h.2.trans_le (min_le_right ..)
  omega

section Layout

variable (hbps : bpb.bytesPerSector = 512)

include hbps

theorem InFat.hasEntry (h : InFat bpb cluster) : HasEntry bpb cluster := by
  obtain ⟨hlow, hhigh⟩ := h
  refine ⟨hlow, hhigh.trans_le (min_le_left ..), ?_⟩
  rw [fatOffset, hbps]
  omega

theorem sectorOf_copySector (h : InFat bpb cluster) (fat : ℕ) :
    sectorOf (copySector bpb fat cluster) 0 = fatLocation bpb fat (cluster / 128) := by
  have hlt := h.2.trans_le (min_le_left ..)
  have hsector : cluster * 4 % 2 ^ 32 / 512 = cluster / 128 := by omega
  rw [fatLocation, copySector, hbps, hsector, sectorOf, sectorOf]
  omega

theorem fatOffset_eq (h : InFat bpb cluster) : fatOffset bpb cluster = cluster % 128 * 4 := by
  have hlt := h.2.trans_le (min_le_left ..)
  rw [fatOffset, hbps]
  omega

end Layout

/-- No two sectors of the copies share a sector of the drive. -/
theorem fatLocation_inj (hfit : bpb.numFats * bpb.fatSizeSectors ≤ 2 ^ 28) {fat fat' k k' : ℕ}
    (hfat : fat < bpb.numFats) (hfat' : fat' < bpb.numFats) (hk : k < bpb.fatSizeSectors)
    (hk' : k' < bpb.fatSizeSectors) (heq : fatLocation bpb fat k = fatLocation bpb fat' k') :
    fat = fat' ∧ k = k' := by
  have hend := row_add_le hfat bpb.fatSizeSectors
  have hend' := row_add_le hfat' bpb.fatSizeSectors
  rw [fatLocation, fatLocation, sectorOf, sectorOf] at heq
  exact row_inj hk hk' (by omega)

/-! ## The loop over the copies -/

/-- One round patches one sector. -/
theorem setCopies_cons (hworks : drive.Works) (next fat : ℕ) (rest : List ℕ) (io : IoState)
    (hoffset : fatOffset bpb cluster + 4 ≤ 512) :
    ∃ io' bytes, io'.sectors =
        Function.update io.sectors (sectorOf (copySector bpb fat cluster) 0) bytes ∧
      (∀ i < 512, bytes i = patchEntry (io.sectors (sectorOf (copySector bpb fat cluster) 0))
        (fatOffset bpb cluster) next i) ∧
      setCopies drive bpb cluster next (fat :: rest) io =
        setCopies drive bpb cluster next rest io' := by
  rw [setCopies, diskRead_works hworks.reads io _ one_ne_zero]
  simp only [diskWrite_one, (hworks _).2, if_true]
  refine ⟨_, _, rfl, ?_, rfl⟩
  exact patchEntry_congr next (fun i hi ↦ transferred_one _ _ _ hi) hoffset

/-- What the loop leaves on the drive: the sector of every listed copy is
patched and no other sector changes. -/
theorem setCopies_spec (hworks : drive.Works) (next : ℕ)
    (hoffset : fatOffset bpb cluster + 4 ≤ 512) {fats : List ℕ}
    (hnodup : (fats.map fun fat ↦ sectorOf (copySector bpb fat cluster) 0).Nodup)
    (io : IoState) :
    ∃ io', setCopies drive bpb cluster next fats io = (io', true) ∧
      (∀ s, (∀ fat ∈ fats, s ≠ sectorOf (copySector bpb fat cluster) 0) →
        io'.sectors s = io.sectors s) ∧
      ∀ fat ∈ fats, ∀ i < 512, io'.sectors (sectorOf (copySector bpb fat cluster) 0) i =
        patchEntry (io.sectors (sectorOf (copySector bpb fat cluster) 0))
          (fatOffset bpb cluster) next i := by
  induction fats generalizing io with
  | nil => exact ⟨io, rfl, fun _ _ ↦ rfl, by simp⟩
  | cons fat rest ih =>
      rw [List.map_cons, List.nodup_cons] at hnodup
      obtain ⟨io₁, bytes, hsectors, hbytes, hstep⟩ :=
        setCopies_cons hworks next fat rest io hoffset
      obtain ⟨io', heq, hframe, hpatched⟩ := ih hnodup.2 io₁
      have hapart : ∀ fat' ∈ rest, sectorOf (copySector bpb fat cluster) 0 ≠
          sectorOf (copySector bpb fat' cluster) 0 := by
        intro fat' hmem hsame
        exact hnodup.1 (hsame ▸ List.mem_map_of_mem hmem)
      refine ⟨io', hstep.trans heq, ?_, ?_⟩
      · intro s hs
        rw [hframe s fun fat' hmem ↦ hs fat' (List.mem_cons_of_mem _ hmem), hsectors,
          Function.update_of_ne (hs fat (List.mem_cons_self ..))]
      · intro fat' hmem i hi
        rcases List.mem_cons.mp hmem with rfl | hmem
        · rw [hframe _ hapart, hsectors, Function.update_self]
          exact hbytes i hi
        · rw [hpatched fat' hmem i hi, hsectors, Function.update_of_ne (hapart fat' hmem).symm]

/-! ## The update as a whole -/

/-- A link read from a drive without faults is the low 28 bits of the entry in
the first copy. -/
theorem fatGetNextCluster_fatWord (hbps : bpb.bytesPerSector = 512) (hworks : drive.Works)
    (h : InFat bpb cluster) (io : IoState) :
    (fatGetNextCluster drive bpb io cluster).2 = fatWord bpb io.sectors 0 cluster % 2 ^ 28 := by
  have hentry := h.hasEntry hbps
  have hbytes : readLE (transferred io.sectors (drive.stack io.commands) (fatSector bpb cluster) 1)
      (fatOffset bpb cluster) 4 = fatWord bpb io.sectors 0 cluster := by
    rw [fatWord, copySector_zero]
    apply readLE_congr
    intro x _ hx
    have hfit := hentry.2.2
    exact transferred_one _ _ _ (by omega)
  rw [fatGetNextCluster_works hworks.reads hentry, fatEntry, hbytes]
  exact Nat.and_two_pow_sub_one_eq_mod _ 28

theorem copySector_nodup (hbps : bpb.bytesPerSector = 512)
    (hfit : bpb.numFats * bpb.fatSizeSectors ≤ 2 ^ 28) (h : InFat bpb cluster) :
    ((List.range bpb.numFats).map fun fat ↦ sectorOf (copySector bpb fat cluster) 0).Nodup := by
  refine List.Nodup.map_on ?_ List.nodup_range
  intro fat hfat fat' hfat' heq
  rw [sectorOf_copySector hbps h, sectorOf_copySector hbps h] at heq
  exact (fatLocation_inj hfit (List.mem_range.mp hfat) (List.mem_range.mp hfat') h.sector_lt
    h.sector_lt heq).1

/-- An entry that shares a sector of the first copy with a patched one is not
among the bytes that change. -/
theorem patchEntry_other (hbps : bpb.bytesPerSector = 512) {other : ℕ} (h : InFat bpb cluster)
    (hother : InFat bpb other) (hne : other ≠ cluster) (hrow : other / 128 = cluster / 128)
    (buf : Mem) (next : ℕ) :
    readLE (patchEntry buf (fatOffset bpb cluster) next) (fatOffset bpb other) 4 =
      readLE buf (fatOffset bpb other) 4 := by
  rw [fatOffset_eq hbps h, fatOffset_eq hbps hother]
  apply readLE_congr
  intro x hlow hhigh
  exact patchEntry_outside buf next (by omega)

/-- The update stores the low 28 bits of `next` in every copy, keeps the top
four bits and every other entry, and touches no other sector. -/
theorem fatSetNextCluster_updates (hbps : bpb.bytesPerSector = 512) (hfats : 0 < bpb.numFats)
    (hfit : bpb.numFats * bpb.fatSizeSectors ≤ 2 ^ 28) (hworks : drive.Works)
    (hcluster : InFat bpb cluster) (next : ℕ) (io : IoState) :
    ∃ io', fatSetNextCluster drive bpb io cluster next = (io', true) ∧
      (fatGetNextCluster drive bpb io' cluster).2 = next &&& 0x0FFFFFFF ∧
      (∀ other, InFat bpb other → other ≠ cluster →
        (fatGetNextCluster drive bpb io' other).2 = (fatGetNextCluster drive bpb io other).2) ∧
      (∀ fat < bpb.numFats,
        fatWord bpb io'.sectors fat cluster / 2 ^ 28 =
            fatWord bpb io.sectors fat cluster / 2 ^ 28 ∧
          fatWord bpb io'.sectors fat cluster % 2 ^ 28 = next % 2 ^ 28) ∧
      ∀ s, (∀ fat < bpb.numFats, ∀ k < bpb.fatSizeSectors, s ≠ fatLocation bpb fat k) →
        io'.sectors s = io.sectors s := by
  have hentry := hcluster.hasEntry hbps
  have hoffset : fatOffset bpb cluster + 4 ≤ 512 := hbps ▸ hentry.2.2
  obtain ⟨io', hset, hframe, hpatched⟩ :=
    setCopies_spec hworks next hoffset (copySector_nodup hbps hfit hcluster) io
  have hword : ∀ fat < bpb.numFats, fatWord bpb io'.sectors fat cluster =
      fatWord bpb io.sectors fat cluster / 2 ^ 28 * 2 ^ 28 + next % 2 ^ 28 := by
    intro fat hfat
    rw [fatWord, fatWord, ← readLE_patchEntry]
    apply readLE_congr
    intro x _ hx
    exact hpatched fat (List.mem_range.mpr hfat) x (by omega)
  refine ⟨io', ?_, ?_, ?_, ?_, ?_⟩
  · rw [fatSetNextCluster, if_neg (by have := hentry.1; have := hentry.2.1; omega)]
    exact (if_neg (not_lt.mpr hentry.2.2)).trans hset
  · rw [fatGetNextCluster_fatWord hbps hworks hcluster, hword 0 hfats,
      Nat.and_two_pow_sub_one_eq_mod next 28]
    omega
  · intro other hother hne
    have hfits := hbps ▸ (hother.hasEntry hbps).2.2
    rw [fatGetNextCluster_fatWord hbps hworks hother, fatGetNextCluster_fatWord hbps hworks hother]
    congr 1
    by_cases hrow : other / 128 = cluster / 128
    · -- The same sector of the first copy.
      have hsame : sectorOf (copySector bpb 0 other) 0 = sectorOf (copySector bpb 0 cluster) 0 := by
        rw [sectorOf_copySector hbps hother, sectorOf_copySector hbps hcluster, hrow]
      rw [fatWord, fatWord, hsame, ← patchEntry_other hbps hcluster hother hne hrow
        (io.sectors _) next]
      apply readLE_congr
      intro x _ hx
      exact hpatched 0 (List.mem_range.mpr hfats) x (by omega)
    · -- A sector that no copy of the patched entry shares.
      have hkept : io'.sectors (sectorOf (copySector bpb 0 other) 0) =
          io.sectors (sectorOf (copySector bpb 0 other) 0) := by
        apply hframe
        intro fat hfat heq
        rw [sectorOf_copySector hbps hother, sectorOf_copySector hbps hcluster] at heq
        exact hrow (fatLocation_inj hfit hfats (List.mem_range.mp hfat) hother.sector_lt
          hcluster.sector_lt heq).2
      rw [fatWord, fatWord, hkept]
  · intro fat hfat
    rw [hword fat hfat]
    omega
  · intro s hs
    apply hframe
    intro fat hfat
    rw [sectorOf_copySector hbps hcluster]
    exact hs fat (List.mem_range.mp hfat) _ hcluster.sector_lt

/-- On a drive full of ones, linking cluster 3 to cluster 5 leaves the top four
bits of the second copy set. -/
theorem fatSetNextCluster_updates_three :
    InFat sampleBpb 3 ∧ ∃ io', fatSetNextCluster faultless sampleBpb
        ⟨fun _ _ ↦ 0xFF, 0, [], []⟩ 3 5 = (io', true) ∧
      (fatGetNextCluster faultless sampleBpb io' 3).2 = 5 ∧
      (fatGetNextCluster faultless sampleBpb io' 4).2 = 0x0FFFFFFF ∧
      fatWord sampleBpb io'.sectors 1 3 = 0xF0000005 := by
  have hthree : InFat sampleBpb 3 := ⟨by decide, by decide⟩
  have hworks : faultless.Works := fun _ ↦ ⟨rfl, rfl⟩
  obtain ⟨io', hset, hget, hother, hcopies, -⟩ := fatSetNextCluster_updates rfl (by decide)
    (by decide) hworks hthree 5 ⟨fun _ _ ↦ 0xFF, 0, [], []⟩
  have hold : fatWord sampleBpb (fun _ _ ↦ 0xFF) 1 3 = 0xFFFFFFFF := rfl
  have hcopy := hcopies 1 (by decide)
  rw [hold] at hcopy
  refine ⟨hthree, io', hset, hget, hother 4 ⟨by decide, by decide⟩ (by decide), ?_⟩
  omega

end ImplusKernel.Fat32
