import ImplusKernel.Memory.Pages

/-!
# The page table after initialisation

`init_physical_memory` reserves every frame, frees those of the usable
descriptors of the firmware's memory map and reserves everything up to the end
of the heap again.  Which frames are free afterwards is a matter of the set of
descriptors alone.
-/

namespace ImplusKernel.Pages

open ByteMemory Heap

/-- The fields of a descriptor that matter. -/
structure MemoryDescriptor where
  type : ℕ
  physicalStart : ℕ
  numberOfPages : ℕ
deriving DecidableEq, Repr

def descriptorAt (m : Mem) (desc : ℕ) : MemoryDescriptor :=
  ⟨descType m desc, descPhysicalStart m desc, descNumberOfPages m desc⟩

/-- The descriptors that lie in the map in full, in order. -/
def descriptors (m : Mem) (memoryMap mapSize descSize : ℕ) : List MemoryDescriptor :=
  (List.range (mapSize / descSize)).map fun k ↦
    descriptorAt m ((memoryMap + k * descSize) % 2 ^ 64)

/-- What the firmware guarantees. -/
structure MemoryDescriptor.WellFormed (d : MemoryDescriptor) : Prop where
  aligned : pageSize ∣ d.physicalStart
  fits : d.physicalStart + d.numberOfPages * pageSize ≤ 2 ^ 52

/-- The whole frame belongs to the descriptor. -/
def MemoryDescriptor.Covers (d : MemoryDescriptor) (i : ℕ) : Prop :=
  d.physicalStart ≤ i * pageSize ∧
    (i + 1) * pageSize ≤ d.physicalStart + d.numberOfPages * pageSize

/-- `heap_start_page` as it is computed from `_kernel_end`. -/
def startPage (kernelEnd : ℕ) : ℕ := (kernelEnd + 4095) % 2 ^ 64 / 4096 % 2 ^ 32

variable {m bitmap : Mem} {kernelEnd memoryMap mapSize descSize i : ℕ} {s s₀ : PageState}

/-! ## Marking -/

theorem markPages_apply (bitmap : Mem) {start count : ℕ} (used : UInt8)
    (hfit : start + count < 2 ^ 64) (hi : i < maxPages) :
    markPages bitmap start count used i =
      if start ≤ i ∧ i < start + count then used else bitmap i := by
  have hmax : maxPages = 262144 := rfl
  unfold markPages
  by_cases hstart : maxPages ≤ start
  · rw [if_pos hstart, if_neg (by omega)]
  · rw [if_neg hstart, Nat.mod_eq_of_lt hfit]
    by_cases hin : start ≤ i ∧ i < start + count
    · rw [if_pos hin, memset_inside _ _ (by omega) hin.1 (by omega)]
    · rw [if_neg hin, memset_outside _ _ (by omega) (by omega)]

def MemoryDescriptor.mark (bitmap : Mem) (d : MemoryDescriptor) : Mem :=
  if isUsableMemoryType d.type then
    markPages bitmap (d.physicalStart / pageSize) d.numberOfPages 0
  else bitmap

theorem MemoryDescriptor.WellFormed.pages_lt {d : MemoryDescriptor} (h : d.WellFormed) :
    d.physicalStart / pageSize + d.numberOfPages < 2 ^ 64 := by
  have hfits := h.fits
  have hsize : pageSize = 4096 := rfl
  rw [hsize] at hfits ⊢
  omega

theorem MemoryDescriptor.WellFormed.mark_apply {d : MemoryDescriptor} (h : d.WellFormed)
    (bitmap : Mem) (hi : i < maxPages) :
    (d.mark bitmap) i = 0 ↔ bitmap i = 0 ∨ isUsableMemoryType d.type = true ∧ d.Covers i := by
  have hlt := h.pages_lt
  obtain ⟨page, hpage⟩ := h.aligned
  have hsize : pageSize = 4096 := rfl
  have hdiv : d.physicalStart / pageSize = page := by
    rw [hpage]
    exact Nat.mul_div_cancel_left page (by decide)
  have hcovers : d.Covers i ↔ page ≤ i ∧ i < page + d.numberOfPages := by
    rw [Covers, hpage, hsize]
    omega
  rw [hdiv] at hlt
  rw [mark]
  by_cases hused : isUsableMemoryType d.type = true
  · rw [if_pos hused, hdiv, markPages_apply bitmap 0 hlt hi, hcovers]
    by_cases hin : page ≤ i ∧ i < page + d.numberOfPages
    · simp [hin, hused]
    · simp [hin]
  · rw [if_neg hused]
    simp [hused]

/-- Frames only ever become free, each by a descriptor that covers it. -/
theorem foldl_mark_apply {ds : List MemoryDescriptor} (hds : ∀ d ∈ ds, d.WellFormed)
    (bitmap : Mem) (hi : i < maxPages) :
    ds.foldl (fun b d ↦ d.mark b) bitmap i = 0 ↔
      bitmap i = 0 ∨ ∃ d ∈ ds, isUsableMemoryType d.type = true ∧ d.Covers i := by
  induction ds generalizing bitmap with
  | nil => simp
  | cons d ds ih =>
      rw [List.foldl_cons, ih (fun e he ↦ hds e (List.mem_cons_of_mem d he)),
        (hds d (List.mem_cons_self ..)).mark_apply bitmap hi]
      simp only [List.mem_cons, exists_eq_or_imp, or_assoc]

/-! ## The loop -/

/-- From descriptor `k` on, with `n` descriptors to come. -/
theorem markDescriptors_eq (hdesc : 0 < descSize) (hsize : mapSize + descSize < 2 ^ 64)
    {k n fuel : ℕ} (hk : k + n = mapSize / descSize) (hfuel : n < fuel) (bitmap : Mem) :
    markDescriptors m memoryMap mapSize descSize fuel (k * descSize) bitmap =
      some ((List.range' k n).foldl
        (fun b j ↦ (descriptorAt m ((memoryMap + j * descSize) % 2 ^ 64)).mark b) bitmap) := by
  have hround : ∀ j, (j + 1) * descSize ≤ mapSize ↔ j < mapSize / descSize := by
    intro j
    rw [← Nat.le_div_iff_mul_le hdesc, Nat.succ_le_iff]
  induction n generalizing k fuel bitmap with
  | zero =>
      obtain ⟨fuel, rfl⟩ : ∃ f, fuel = f + 1 := Nat.exists_eq_add_one.mpr hfuel
      have hin : k * descSize ≤ mapSize := by
        rw [← Nat.le_div_iff_mul_le hdesc]
        omega
      have hlast := mt (hround k).mp (by omega)
      rw [Nat.add_mul, Nat.one_mul] at hlast
      rw [markDescriptors, Nat.mod_eq_of_lt (by omega), if_neg hlast]
      rfl
  | succ n ih =>
      obtain ⟨fuel, rfl⟩ : ∃ f, fuel = f + 1 := Nat.exists_eq_add_one.mpr (by omega)
      have hnext := (hround k).mpr (by omega)
      have hadd : k * descSize + descSize = (k + 1) * descSize := by
        rw [Nat.add_mul, Nat.one_mul]
      rw [markDescriptors, hadd, Nat.mod_eq_of_lt (by omega), if_pos hnext,
        ih (by omega) (by omega), List.range'_succ, List.foldl_cons]
      rfl

theorem scanMemoryMap_eq (hmap : memoryMap ≠ 0) (hdesc : 0 < descSize)
    (hsize : mapSize + descSize < 2 ^ 64) (bitmap : Mem) :
    scanMemoryMap m memoryMap mapSize descSize bitmap =
      some ((descriptors m memoryMap mapSize descSize).foldl (fun b d ↦ d.mark b)
        (memset bitmap 0 1 maxPages)) := by
  have hrounds : mapSize / descSize ≤ mapSize := Nat.div_le_self mapSize descSize
  rw [scanMemoryMap, if_pos ⟨hmap, hdesc.ne'⟩, ← Nat.zero_mul descSize,
    markDescriptors_eq hdesc hsize (Nat.zero_add _) (by omega), descriptors, List.foldl_map,
    List.range_eq_range']

/-! ## The table -/

theorem startPage_eq (h : kernelEnd ≤ 0xFFFFFFFF000) :
    startPage kernelEnd = (kernelEnd + 4095) / 4096 := by
  unfold startPage
  omega

theorem foldl_mark_cases {ds : List MemoryDescriptor} (hds : ∀ d ∈ ds, d.WellFormed)
    (bitmap : Mem) (hi : i < maxPages) :
    ds.foldl (fun b d ↦ d.mark b) bitmap i = 0 ∨
      ds.foldl (fun b d ↦ d.mark b) bitmap i = bitmap i := by
  induction ds generalizing bitmap with
  | nil => exact Or.inr rfl
  | cons d ds ih =>
      have hlt := (hds d (List.mem_cons_self ..)).pages_lt
      rw [List.foldl_cons]
      rcases ih (fun e he ↦ hds e (List.mem_cons_of_mem d he)) (d.mark bitmap) with hzero | hkept
      · exact Or.inl hzero
      rw [hkept, MemoryDescriptor.mark]
      split
      · rw [markPages_apply bitmap 0 hlt hi]
        split
        · exact Or.inl rfl
        · exact Or.inr rfl
      · exact Or.inr rfl

/-- The frames that initialisation leaves free. -/
def Free (kernelEnd : ℕ) (ds : List MemoryDescriptor) (i : ℕ) : Prop :=
  startPage kernelEnd + heapPageCount ≤ i ∧
    ∃ d ∈ ds, isUsableMemoryType d.type = true ∧ d.Covers i

section Init

variable (hs : s.heapStartPage = 0) (hmap : memoryMap ≠ 0) (hdesc : 0 < descSize)
  (hsize : mapSize + descSize < 2 ^ 64)
  (hwf : ∀ d ∈ descriptors s.mem memoryMap mapSize descSize, d.WellFormed)

include hs hmap hdesc hsize hwf

/-- Initialisation ends, with zeros for the free frames and ones for all
others. -/
theorem initPhysicalMemory_table (kernelEnd : ℕ) :
    ∃ s₀, initPhysicalMemory kernelEnd memoryMap mapSize descSize s = some s₀ ∧
      ∀ i < maxPages,
        (s₀.pageBitmap i = 0 ↔ Free kernelEnd (descriptors s.mem memoryMap mapSize descSize) i) ∧
        (s₀.pageBitmap i = 0 ∨ s₀.pageBitmap i = 1) := by
  have hstart : calcHeapStartPage kernelEnd s.toMemoryState = startPage kernelEnd := by
    rw [calcHeapStartPage, if_neg (by simpa using hs)]
    rfl
  have hlt : startPage kernelEnd < 2 ^ 32 := Nat.mod_lt _ (by norm_num)
  have hcount : heapPageCount = 4096 := rfl
  refine ⟨_, by rw [initPhysicalMemory, scanMemoryMap_eq hmap hdesc hsize]; rfl, ?_⟩
  intro i hi
  dsimp only
  have hones : memset s.pageBitmap 0 1 maxPages i = 1 :=
    memset_inside _ _ (by decide) (Nat.zero_le i) (by omega)
  have hfold := foldl_mark_apply hwf (memset s.pageBitmap 0 1 maxPages) hi
  have hcases := foldl_mark_cases hwf (memset s.pageBitmap 0 1 maxPages) hi
  rw [hones] at hfold hcases
  rw [hstart, markPages_apply _ 1 (by omega) hi, Free]
  by_cases hlow : i < startPage kernelEnd + heapPageCount
  · rw [if_pos ⟨Nat.zero_le i, by omega⟩]
    refine ⟨iff_of_false (by decide) ?_, Or.inr rfl⟩
    rintro ⟨habove, -⟩
    omega
  · rw [if_neg (by omega)]
    refine ⟨?_, hcases⟩
    rw [hfold]
    constructor
    · rintro (hone | hd)
      · exact absurd hone (by decide)
      · exact ⟨by omega, hd⟩
    · rintro ⟨-, hd⟩
      exact Or.inr hd

end Init

theorem free_perm {ds ds' : List MemoryDescriptor} (h : ds.Perm ds') (kernelEnd i : ℕ) :
    Free kernelEnd ds i ↔ Free kernelEnd ds' i := by
  simp only [Free, h.mem_iff]

/-- For every memory map the firmware can pass: which frames are free after
initialisation, where the heap is taken to end, and that the order of the
descriptors is of no account. -/
theorem initPhysicalMemory_free_iff (kernelEnd : ℕ) (hs : s.heapStartPage = 0)
    (hmap : memoryMap ≠ 0) (hdesc : 40 ≤ descSize) (hsize : mapSize + descSize < 2 ^ 64)
    (hwf : ∀ d ∈ descriptors s.mem memoryMap mapSize descSize, d.WellFormed) :
    (kernelEnd ≤ 0xFFFFFFFF000 → startPage kernelEnd = (kernelEnd + 4095) / 4096) ∧
      ∃ s₀, initPhysicalMemory kernelEnd memoryMap mapSize descSize s = some s₀ ∧
        (∀ i < maxPages, s₀.pageBitmap i = 0 ↔
          startPage kernelEnd + 4096 ≤ i ∧
            ∃ d ∈ descriptors s.mem memoryMap mapSize descSize,
              isUsableMemoryType d.type = true ∧ d.Covers i) ∧
        ∀ (s' : PageState) (memoryMap' mapSize' descSize' : ℕ), s'.heapStartPage = 0 →
          memoryMap' ≠ 0 → 40 ≤ descSize' → mapSize' + descSize' < 2 ^ 64 →
          (descriptors s'.mem memoryMap' mapSize' descSize').Perm
            (descriptors s.mem memoryMap mapSize descSize) →
          ∃ s₀', initPhysicalMemory kernelEnd memoryMap' mapSize' descSize' s' = some s₀' ∧
            ∀ i < maxPages, s₀'.pageBitmap i = s₀.pageBitmap i := by
  obtain ⟨s₀, hinit, htable⟩ :=
    initPhysicalMemory_table hs hmap (by omega) hsize hwf kernelEnd
  refine ⟨startPage_eq, s₀, hinit, fun i hi ↦ (htable i hi).1, ?_⟩
  intro s' memoryMap' mapSize' descSize' hs' hmap' hdesc' hsize' hperm
  obtain ⟨s₀', hinit', htable'⟩ := initPhysicalMemory_table hs' hmap' (by omega) hsize'
    (fun d hd ↦ hwf d (hperm.subset hd)) kernelEnd
  refine ⟨s₀', hinit', fun i hi ↦ ?_⟩
  obtain ⟨hfree, hused⟩ := htable i hi
  obtain ⟨hfree', hused'⟩ := htable' i hi
  rw [free_perm hperm, ← hfree] at hfree'
  by_cases hzero : s₀.pageBitmap i = 0
  · rw [hzero, hfree'.mpr hzero]
  · rw [hused.resolve_left hzero, hused'.resolve_left (mt hfree'.mp hzero)]

theorem descriptors_sampleMap :
    descriptors (PageState.boot sampleMap).mem 0x1000 48 48 = [⟨7, 4352 * 4096, 1⟩] := by
  decide +kernel

theorem wellFormed_sampleMap :
    ∀ d ∈ descriptors (PageState.boot sampleMap).mem 0x1000 48 48, d.WellFormed := by
  rw [descriptors_sampleMap]
  intro d hd
  obtain rfl := List.mem_singleton.mp hd
  exact ⟨⟨4352, rfl⟩, by decide⟩

theorem covers_sampleMap :
    ∃ d ∈ descriptors (PageState.boot sampleMap).mem 0x1000 48 48,
      isUsableMemoryType d.type = true ∧ d.Covers 4352 := by
  rw [descriptors_sampleMap]
  exact ⟨_, List.mem_singleton_self _, rfl, by decide, by decide⟩

theorem initPhysicalMemory_free_iff_sampleMap :
    ∃ s₀, initPhysicalMemory 0x100000 0x1000 48 48 (.boot sampleMap) = some s₀ ∧
      s₀.pageBitmap 4352 = 0 ∧ s₀.pageBitmap 4351 ≠ 0 := by
  obtain ⟨-, s₀, hinit, hfree, -⟩ := initPhysicalMemory_free_iff (s := .boot sampleMap) 0x100000
    rfl (by decide) (by decide) (by decide) wellFormed_sampleMap
  refine ⟨s₀, hinit, (hfree 4352 (by decide)).mpr ⟨by decide, covers_sampleMap⟩, fun h ↦ ?_⟩
  exact absurd ((hfree 4351 (by decide)).mp h).1 (by decide)

/-- The page number of a kernel that ends at `2 ^ 44` is cut to zero, and a
frame far below the end of the kernel is free. -/
theorem frame_below_kernelEnd_free :
    ∃ s₀, initPhysicalMemory (2 ^ 44) 0x1000 48 48 (.boot sampleMap) = some s₀ ∧
      s₀.pageBitmap 4352 = 0 ∧ ¬(2 ^ 44 + 4095) / 4096 + 4096 ≤ 4352 := by
  obtain ⟨s₀, hinit, htable⟩ := initPhysicalMemory_table (s := .boot sampleMap)
    rfl (by decide) (by decide) (by decide) wellFormed_sampleMap (2 ^ 44)
  exact ⟨s₀, hinit, (htable 4352 (by decide)).1.mpr ⟨by decide, covers_sampleMap⟩, by decide⟩

end ImplusKernel.Pages
