import ImplusKernel.Paging.Tables

/-!
# The identity map

`init_paging` maps whole gigabytes one to one, at least four and at most 64,
so that the frame buffer is covered when it ends below 64 GiB.
-/

namespace ImplusKernel.Paging

open Words PageWalk

variable {addrs : TableAddrs} {s : PagingState} {other : ℕ → ℕ} {fbBase fbSize va : ℕ}

/-! ## The loops -/

theorem fillDirectory_apply (base : ℕ) (row : ℕ → ℕ) {n j : ℕ} (hj : j < n) :
    fillDirectory base row n j = pageEntry (base + j * mb2) := by
  induction n with
  | zero => omega
  | succ n ih =>
      rw [fillDirectory]
      by_cases hjn : j = n
      · rw [hjn, Function.update_self]
      · rw [Function.update_of_ne hjn]
        exact ih (by omega)

theorem mapGigabytes_spec (addrs : TableAddrs) (s : PagingState) (n : ℕ) :
    (mapGigabytes addrs s n).pml4 = s.pml4 ∧
    (mapGigabytes addrs s n).mmioSlotsUsed = s.mmioSlotsUsed ∧
    (∀ r < n, (mapGigabytes addrs s n).pdpt r = tableEntry (addrs.pd + r * 4096) ∧
      ∀ j < 512, (mapGigabytes addrs s n).pd r j = pageEntry (r * gb + j * mb2)) ∧
    ∀ r, n ≤ r → (mapGigabytes addrs s n).pdpt r = s.pdpt r := by
  induction n with
  | zero => simp [mapGigabytes]
  | succ n ih =>
      obtain ⟨hpml4, hused, hrows, hrest⟩ := ih
      refine ⟨hpml4, hused, ?_, ?_⟩
      · intro r hr
        rw [mapGigabytes]
        by_cases hrn : r = n
        · subst hrn
          refine ⟨Function.update_self .., ?_⟩
          intro j hj
          simp only [Function.update_self]
          exact fillDirectory_apply _ _ hj
        · simp only [Function.update_of_ne hrn]
          exact hrows r (by omega)
      · intro r hr
        rw [mapGigabytes]
        exact (Function.update_of_ne (by omega) _ _).trans (hrest r (by omega))

theorem page_address (a : ℕ) :
    a / 2 ^ 30 * gb + a / 2 ^ 21 % 512 * mb2 = a / 2 ^ 21 * 2 ^ 21 := by
  simp only [gb, mb2]
  omega

/-! ## What is mapped -/

/-- The end of the identity map: four gigabytes or the end of the frame
buffer, in whole gigabytes, up to 64. -/
def mappedEnd (fbBase fbSize : ℕ) : ℕ :=
  min (64 * gb) ((max (4 * gb) (fbBase + fbSize) + gb - 1) / gb * gb)

theorem mappedEnd_eq (hfb : fbBase + fbSize ≤ 2 ^ 52) :
    mappedEnd fbBase fbSize = requiredEntries fbBase fbSize * gb := by
  have hmod : (fbBase + fbSize) % 2 ^ 64 = fbBase + fbSize := Nat.mod_eq_of_lt (by omega)
  have hmax : (if fbBase + fbSize > 4 * gb then fbBase + fbSize else 4 * gb) =
      max (4 * gb) (fbBase + fbSize) := by
    rw [max_def]
    split <;> split <;> omega
  have hreq : requestedEntries fbBase fbSize =
      (max (4 * gb) (fbBase + fbSize) + gb - 1) / gb := by
    have hfits : max (4 * gb) (fbBase + fbSize) + gb - 1 < 2 ^ 64 := by
      have hbound : max (4 * gb) (fbBase + fbSize) ≤ 2 ^ 52 := max_le (by norm_num [gb]) hfb
      unfold gb at hbound ⊢
      omega
    rw [requestedEntries]
    simp only [hmod, hmax, Nat.mod_eq_of_lt hfits]
  unfold mappedEnd requiredEntries maxPdptEntries
  rw [← hreq, min_def]
  unfold gb
  split <;> split <;> omega

/-- An address of at most 48 significant bits, or the sign extension of a
negative one. -/
def Canonical (va : ℕ) : Prop := va < 2 ^ 47 ∨ (2 ^ 64 - 2 ^ 47 ≤ va ∧ va < 2 ^ 64)

theorem tableEntry_eq {addr : ℕ} (halign : 2 ^ 12 ∣ addr) : tableEntry addr = addr + 7 := by
  rw [tableEntry, Nat.or_assoc, Nat.or_assoc]
  exact lor_eq_add halign (by decide)

theorem pageEntry_eq {addr : ℕ} (halign : 2 ^ 21 ∣ addr) : pageEntry addr = addr + 0x87 := by
  rw [pageEntry, Nat.or_assoc, Nat.or_assoc, Nat.or_assoc]
  exact lor_eq_add halign (by decide)

/-- `va` is mapped to itself through three entries, each of which holds an
address and the bits for present, writable and user (and, in the last, for a
2 MiB page), and nothing else. -/
structure IdentityMapped (addrs : TableAddrs) (s : PagingState) (other : ℕ → ℕ) (va : ℕ) :
    Prop where
  phys : virtToPhys addrs s other va = some va
  path : virtPath addrs s other va =
    [addrs.pdpt + 7, addrs.pd + va / 2 ^ 30 * 4096 + 7, va / 2 ^ 21 * 2 ^ 21 + 0x87]

theorem identityMapped_of_row {n : ℕ} (hlow : va < 64 * gb) (hrow : va / 2 ^ 30 < n) :
    IdentityMapped addrs (mapGigabytes addrs (.rooted addrs) n) other va := by
  obtain ⟨hpml4, -, hrows, -⟩ := mapGigabytes_spec addrs (.rooted addrs) n
  have hroot : (mapGigabytes addrs (.rooted addrs) n).pml4 0 = tableEntry addrs.pdpt := by
    rw [hpml4]
    simp [PagingState.rooted]
  obtain ⟨hdir, hpages⟩ := hrows _ hrow
  have hpage := hpages (va / 2 ^ 21 % 512) (Nat.mod_lt _ (by norm_num))
  rw [page_address] at hpage
  have halign : 2 ^ 21 ∣ va / 2 ^ 21 * 2 ^ 21 := Dvd.intro_left _ rfl
  have hlt : va / 2 ^ 21 * 2 ^ 21 < 2 ^ 52 := by
    unfold gb at hlow
    omega
  constructor
  · rw [virtToPhys_of_entries hlow hroot hdir hpage halign hlt, Nat.div_add_mod' va (2 ^ 21)]
  · have hrowAlign : 2 ^ 12 ∣ addrs.pd + va / 2 ^ 30 * 4096 :=
      Nat.dvd_add addrs.pd_aligned (Dvd.intro_left _ rfl)
    rw [virtPath_of_entries hlow hroot hdir hpage halign hlt, tableEntry_eq addrs.pdpt_aligned,
      tableEntry_eq hrowAlign, pageEntry_eq halign]

theorem not_mapped_of_row {n : ℕ} (hrow : n ≤ va / 2 ^ 30) (hcanon : Canonical va) :
    virtToPhys addrs (mapGigabytes addrs (.rooted addrs) n) other va = none := by
  obtain ⟨hpml4, -, -, hrest⟩ := mapGigabytes_spec addrs (.rooted addrs) n
  have hindex : index va 3 < 512 := Nat.mod_lt _ (by norm_num)
  rw [virtToPhys, PageWalk.translate, frame_pml4]
  by_cases hroot : index va 3 = 0
  · -- the first entry of the root covers 512 GiB; the directory entry is empty
    have hlow : va < 2 ^ 39 := by
      unfold Canonical at hcanon
      simp only [index, shift] at hroot
      omega
    have hindex₂ : index va 2 = va / 2 ^ 30 := by
      simp only [index, shift]
      omega
    have hpdpt := addrs.pdpt_lt
    have hpoints : PointsTo (word addrs (mapGigabytes addrs (.rooted addrs) n) other
        (addrs.pml4 + 8 * index va 3)) addrs.pdpt := by
      rw [word_pml4 hindex, hroot, hpml4]
      simp only [PagingState.rooted, Function.update_self]
      exact pointsTo_tableEntry addrs.pdpt_aligned (by omega)
    rw [walk_pointsTo hpoints]
    refine walk_absent ?_
    rw [hindex₂, word_pdpt (by omega), hrest _ hrow]
    simp [PagingState.rooted, PagingState.cleared, present]
  · refine walk_absent ?_
    rw [word_pml4 hindex, hpml4]
    simp [PagingState.rooted, PagingState.cleared, hroot, present]

theorem lt_mappedEnd_iff (hfb : fbBase + fbSize ≤ 2 ^ 52) :
    va < mappedEnd fbBase fbSize ↔ va / 2 ^ 30 < requiredEntries fbBase fbSize := by
  rw [mappedEnd_eq hfb]
  generalize requiredEntries fbBase fbSize = n
  unfold gb
  omega

/-- After `init_paging` every address below the end of the map translates to
itself, no canonical address above it is mapped, and a frame buffer that ends
below 64 GiB is mapped as a whole. -/
theorem initPaging_identity (addrs : TableAddrs) (other : ℕ → ℕ)
    (hfb : fbBase + fbSize ≤ 2 ^ 52) :
    (∀ va < mappedEnd fbBase fbSize,
      IdentityMapped addrs (initPaging addrs fbBase fbSize).1 other va) ∧
    (∀ va, mappedEnd fbBase fbSize ≤ va → Canonical va →
      virtToPhys addrs (initPaging addrs fbBase fbSize).1 other va = none) ∧
    (fbBase + fbSize ≤ 64 * gb → ∀ va, fbBase ≤ va → va < fbBase + fbSize →
      IdentityMapped addrs (initPaging addrs fbBase fbSize).1 other va) := by
  have hmapped : ∀ va < mappedEnd fbBase fbSize,
      IdentityMapped addrs (initPaging addrs fbBase fbSize).1 other va := fun va hva ↦
    identityMapped_of_row (hva.trans_le (min_le_left _ _)) ((lt_mappedEnd_iff hfb).mp hva)
  refine ⟨hmapped, ?_, ?_⟩
  · intro va hva hcanon
    exact not_mapped_of_row (not_lt.mp fun hrow ↦ hva.not_gt ((lt_mappedEnd_iff hfb).mpr hrow))
      hcanon
  · intro hend va _ hva
    refine hmapped va (lt_min (hva.trans_le hend) ?_)
    have hmax : fbBase + fbSize ≤ max (4 * gb) (fbBase + fbSize) := le_max_right _ _
    unfold gb at hmax ⊢
    omega

/-- Tables in the kernel image, as an example placement. -/
def sampleAddrs : TableAddrs where
  pml4 := 0x200000
  pdpt := 0x201000
  pd := 0x202000
  pml4_aligned := by decide
  pdpt_aligned := by decide
  pd_aligned := by decide
  pml4_lt := by norm_num
  pdpt_lt := by norm_num
  pd_lt := by norm_num
  pml4_pdpt := by norm_num
  pml4_pd := by norm_num
  pdpt_pd := by norm_num

/-- A frame buffer of 8 MiB that ends a little above 5 GiB. -/
theorem initPaging_identity_above_5GiB :
    mappedEnd 0x13FE00000 0x800000 = 6 * gb ∧
      IdentityMapped sampleAddrs (initPaging sampleAddrs 0x13FE00000 0x800000).1 (fun _ ↦ 0)
        0x1405FFFFF ∧
      virtToPhys sampleAddrs (initPaging sampleAddrs 0x13FE00000 0x800000).1 (fun _ ↦ 0)
        0x180000000 = none := by
  have hend : mappedEnd 0x13FE00000 0x800000 = 6 * gb := by decide
  obtain ⟨-, hout, hbuffer⟩ := initPaging_identity sampleAddrs (fun _ ↦ 0)
    (show 0x13FE00000 + 0x800000 ≤ 2 ^ 52 by norm_num)
  refine ⟨hend, hbuffer (by norm_num [gb]) _ (by norm_num) (by norm_num), hout _ ?_ ?_⟩
  · rw [hend]
    norm_num [gb]
  · exact Or.inl (by norm_num)

end ImplusKernel.Paging
