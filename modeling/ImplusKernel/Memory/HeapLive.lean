import ImplusKernel.Memory.HeapHint

/-!
# Live allocations

To its clients the heap is a set of allocations, each an address and the
bytes stored there.  `kmalloc` adds one, `kfree` removes one and `krealloc`
replaces one; whatever else these calls write into the heap, the other
allocations keep their address, size and contents.
-/

namespace ImplusKernel.Heap

open ByteMemory Words Tiling

variable {s s' : MemoryState} {m m' : Mem} {lo hi : ℕ} {bs cs pre post : List Block}
  {b c : Block} {n ptr : ℕ}

/-! ## What clients see -/

structure Allocation where
  address : ℕ
  bytes : List UInt8

/-- The allocation that a block in use stands for. -/
def allocation (m : Mem) (b : Block) : Allocation :=
  ⟨payload b, (List.range b.size).map fun i ↦ m (payload b + i)⟩

def liveAllocations (s : MemoryState) : Set Allocation :=
  {a | ∃ bs, heapBlocks s = some bs ∧ ∃ b ∈ bs, b.tag = false ∧ allocation s.mem b = a}

theorem Represents.mem_live (h : Represents s bs) {a : Allocation} :
    a ∈ liveAllocations s ↔ ∃ b ∈ bs, b.tag = false ∧ allocation s.mem b = a := by
  constructor
  · rintro ⟨bs', hbs', hb⟩
    obtain rfl := Option.some.inj (hbs'.symm.trans h.heapBlocks_eq)
    exact hb
  · exact fun hb ↦ ⟨bs, h.heapBlocks_eq, hb⟩

theorem allocation_congr
    (h : ∀ x, payload b ≤ x → x < payload b + b.size → m' x = m x) :
    allocation m' b = allocation m b := by
  simp only [allocation, Allocation.mk.injEq, true_and]
  refine List.map_congr_left fun i hi ↦ ?_
  exact h _ (Nat.le_add_right _ _) (Nat.add_lt_add_left (List.mem_range.mp hi) _)

theorem allocation_length (m : Mem) (b : Block) : (allocation m b).bytes.length = b.size := by
  simp [allocation]

theorem take_bytes_eq {k : ℕ} (hb : k ≤ b.size) (hc : k ≤ c.size)
    (h : ∀ i < k, m' (payload c + i) = m (payload b + i)) :
    (allocation m' c).bytes.take k = (allocation m b).bytes.take k := by
  simp only [allocation, ← List.map_take, List.take_range, Nat.min_eq_left hb,
    Nat.min_eq_left hc]
  exact List.map_congr_left fun i hi ↦ h i (List.mem_range.mp hi)

/-! ## What one step does to them -/

/-- Writing headers that stay clear of a payload leaves its bytes alone. -/
theorem HeadersOnly.bytes_kept (hw : HeadersOnly cs m m')
    (hclear : ∀ x ∈ cs, x.start + headerSize ≤ payload c ∨ payload c + c.size ≤ x.start) :
    ∀ x, payload c ≤ x → x < payload c + c.size → m' x = m x := by
  intro x hlow hhigh
  apply hw
  intro y hy
  have hy := hclear y hy
  omega

/-- A block, together with free blocks behind it, is replaced by a block in
use and free blocks behind that; nothing is written but their headers and the
payload of the block in use. -/
theorem live_replace {b' : Block} (mid rest : List Block)
    (h : Represents s (pre ++ b :: (mid ++ post)))
    (h' : Represents s' (pre ++ b' :: (rest ++ post))) (hm : s'.mem = m')
    (hused : b'.tag = false) (hmid : ∀ x ∈ mid, x.tag = true) (hrest : ∀ x ∈ rest, x.tag = true)
    (hw : ∀ x, (∀ y ∈ b' :: rest, x < y.start ∨ y.start + headerSize ≤ x) →
      x < payload b' ∨ payload b' + b'.size ≤ x → m' x = s.mem x) :
    liveAllocations s' =
      insert (allocation m' b') {a ∈ liveAllocations s | a.address ≠ payload b} := by
  subst hm
  have hkept : ∀ c, c ∈ pre ∨ c ∈ post →
      allocation s'.mem c = allocation s.mem c ∧ payload c ≠ payload b := by
    intro c hc
    have hmem : c ∈ pre ++ b' :: (rest ++ post) := by
      rcases hc with hc | hc <;> simp [hc]
    have hne : payload c ≠ payload b' := by
      refine h'.chain.payload_ne ?_
      rcases hc with hc | hc <;> simp [hc]
    refine ⟨allocation_congr fun x hlow hhigh ↦ hw x (fun y hy ↦ ?_) ?_, h.chain.payload_ne ?_⟩
    · have hy : y ∈ pre ++ b' :: (rest ++ post) := by
        simp only [List.mem_append, List.mem_cons] at hy ⊢
        tauto
      have hclear := h'.chain.payload_clear hmem hy
      omega
    · simp only [payload] at *
      rcases h'.chain.tiles.separated (s := b') (by simp) hmem with rfl | hsep | hsep
      · exact absurd rfl hne
      · omega
      · omega
    · rcases hc with hc | hc <;> simp [hc]
  ext a
  simp only [Set.mem_insert_iff, Set.mem_ofPred_eq, h.mem_live, h'.mem_live]
  constructor
  · rintro ⟨c, hc, hcused, rfl⟩
    by_cases hcb : c = b'
    · exact Or.inl (hcb ▸ rfl)
    have hc : c ∈ pre ∨ c ∈ post := by
      have hnot : c ∉ rest := fun hmem ↦ by simp [hrest c hmem] at hcused
      simpa [hcb, hnot] using hc
    obtain ⟨hsame, hne⟩ := hkept c hc
    refine Or.inr ⟨⟨c, ?_, hcused, hsame.symm⟩, hne⟩
    rcases hc with hc | hc <;> simp [hc]
  · rintro (rfl | ⟨⟨c, hc, hcused, rfl⟩, hne⟩)
    · exact ⟨b', by simp, hused, rfl⟩
    · have hc : c ∈ pre ∨ c ∈ post := by
        have hcb : c ≠ b := by
          rintro rfl
          exact hne rfl
        have hnot : c ∉ mid := fun hmem ↦ by simp [hmid c hmem] at hcused
        simpa [hcb, hnot] using hc
      refine ⟨c, ?_, hcused, (hkept c hc).1⟩
      rcases hc with hc | hc <;> simp [hc]

/-- No live allocation has the address of a free block. -/
theorem Represents.live_ne_free (h : Represents s bs) (hb : b ∈ bs) (htag : b.tag = true) :
    {a ∈ liveAllocations s | a.address ≠ payload b} = liveAllocations s := by
  ext a
  simp only [Set.mem_ofPred_eq, and_iff_left_iff_imp]
  rw [h.mem_live]
  rintro ⟨c, hc, hused, rfl⟩ heq
  obtain rfl := h.eq_of_payload hc hb heq
  simp [hused] at htag

theorem live_allocated (h : HeapInvariant s (pre ++ b :: post)) (htag : b.tag = true)
    (hn : n % minAllocAlign = 0) :
    liveAllocations (allocated s b n post) =
      insert (allocation (allocated s b n post).mem (handedOut b n)) (liveAllocations s) := by
  have hw := headersOnly_allocate (n := n) h.chain
  rw [carve_eq] at hw
  have hlive := live_replace [] (remainder b n) h.represents (h.allocated hn).represents rfl rfl
    (by simp) (fun x hx ↦ remainder_free hx) (fun x hx _ ↦ hw x hx)
  rwa [h.represents.live_ne_free (by simp) htag] at hlive

theorem live_released (h : HeapInvariant s (pre ++ b :: post)) :
    liveAllocations (releaseBlock s b.start (prevAddr pre 0)) =
      {a ∈ liveAllocations s | a.address ≠ payload b} := by
  have hkept : ∀ c, c ∈ pre ++ b :: post →
      allocation (releaseBlock s b.start (prevAddr pre 0)).mem c = allocation s.mem c :=
    fun c hc ↦ allocation_congr
      ((headersOnly_release h).bytes_kept fun x hx ↦ h.chain.payload_clear hc hx)
  ext a
  simp only [Set.mem_ofPred_eq, h.represents.mem_live, h.release.represents.mem_live]
  constructor
  · rintro ⟨c, hc, hused, rfl⟩
    have hc := (mem_released_iff hused).mp hc
    have hmem : c ∈ pre ++ b :: post := by
      rcases hc with hc | hc <;> simp [hc]
    exact ⟨⟨c, hmem, hused, (hkept c hmem).symm⟩, h.chain.payload_ne hc⟩
  · rintro ⟨⟨c, hc, hused, rfl⟩, hne⟩
    refine ⟨c, (mem_released_iff hused).mpr ?_, hused, hkept c hc⟩
    have hcb : c ≠ b := by
      rintro rfl
      exact hne rfl
    simpa [hcb] using hc

/-- The allocation `a` has been replaced by one at `q` of at least `size`
bytes that starts with the same bytes; all others are as they were. -/
structure Replaced (s s' : MemoryState) (a : Allocation) (q size : ℕ) : Prop where
  others : ∀ c ∈ liveAllocations s, c.address ≠ a.address → c ∈ liveAllocations s'
  resized : ∃ a' ∈ liveAllocations s', a'.address = q ∧ size ≤ a'.bytes.length ∧
    a'.bytes.take (min a.bytes.length size) = a.bytes.take (min a.bytes.length size)

/-- Resizing in place by header writes. -/
theorem replaced_in_place {b' : Block} (mid rest : List Block)
    (h : Represents s (pre ++ b :: (mid ++ post)))
    (h' : Represents { s with mem := m' } (pre ++ b' :: (rest ++ post)))
    (hstart : b'.start = b.start) (hused : b'.tag = false) (hmid : ∀ x ∈ mid, x.tag = true)
    (hrest : ∀ x ∈ rest, x.tag = true) (hw : HeadersOnly (b' :: rest) s.mem m') {size : ℕ}
    (hsize : size ≤ b'.size) :
    Replaced s { s with mem := m' } (allocation s.mem b) (payload b) size := by
  have hlive := live_replace mid rest h h' rfl hused hmid hrest (fun x hx _ ↦ hw x hx)
  have hpayload : payload b' = payload b := by rw [payload, hstart, payload]
  have hkept := hw.bytes_kept (c := b') fun x hx ↦ h'.chain.payload_clear (by simp) (by
    simp only [List.mem_append, List.mem_cons] at hx ⊢
    tauto)
  refine ⟨fun c hc hne ↦ ?_, allocation m' b', ?_, hpayload, ?_, ?_⟩
  · rw [hlive]
    exact Set.mem_insert_of_mem _ ⟨hc, hne⟩
  · rw [hlive]
    exact Set.mem_insert _ _
  · rwa [allocation_length]
  · rw [allocation_length]
    refine take_bytes_eq (Nat.min_le_left _ _) ((Nat.min_le_right _ _).trans hsize) fun i hi ↦ ?_
    rw [hkept _ (Nat.le_add_right _ _) (by omega), hpayload]

theorem replaced_shrunk (h : Represents s (pre ++ b :: post)) (hb : b.tag = false)
    (hn : n % minAllocAlign = 0) (hfit : n ≤ b.size) {size : ℕ} (hsize : size ≤ n) :
    Replaced s { s with mem := splitBlockIfNeeded s.mem b.start n } (allocation s.mem b)
      (payload b) size := by
  have hw := headersOnly_split h.chain n false
  rw [carve_eq] at hw
  exact replaced_in_place [] (remainder b n) h (h.shrunk hb hn) rfl rfl (by simp)
    (fun x hx ↦ remainder_free hx) hw (hsize.trans (le_granted hfit))

theorem headersOnly_grow (hc : Chain m lo hi (pre ++ b :: c :: post)) (n : ℕ) :
    HeadersOnly (carve (merged b c false) n false) m
      (splitBlockIfNeeded (absorbNext m b.start) b.start n) := by
  have habsorb := (headersOnly_absorb hc).mono (carve (merged b c false) n false) fun x hx ↦
    ⟨handedOut (merged b c false) n, by simp [carve_eq], by
      rw [List.mem_singleton.mp hx]
      rfl⟩
  have hsplit := headersOnly_split hc.absorb n false
  exact habsorb.trans hsplit

theorem replaced_grown (h : Represents s (pre ++ b :: c :: post)) (hb : b.tag = false)
    (hc : c.tag = true) (hn : n % minAllocAlign = 0) (hfit : n ≤ b.size + headerSize + c.size)
    {size : ℕ} (hsize : size ≤ n) :
    Replaced s { s with mem := splitBlockIfNeeded (absorbNext s.mem b.start) b.start n }
      (allocation s.mem b) (payload b) size := by
  have hw := headersOnly_grow h.chain n
  rw [carve_eq] at hw
  exact replaced_in_place [c] (remainder (merged b c false) n) h (h.grown hb hn) rfl rfl
    (by simpa using hc) (fun x hx ↦ remainder_free hx) hw
    (hsize.trans (le_granted (b := merged b c false) hfit))

/-! ## Moving -/

/-- The bytes of a block in use survive an allocation. -/
theorem bytes_kept_allocated (h : HeapInvariant s (pre ++ c :: post)) (htag : c.tag = true)
    (hn : n % minAllocAlign = 0) (hb : b ∈ pre ++ c :: post) (hused : b.tag = false) :
    ∀ x, payload b ≤ x → x < payload b + b.size → (allocated s c n post).mem x = s.mem x := by
  have hw := headersOnly_allocate (n := n) h.chain
  rw [carve_eq] at hw
  have hmem := (mem_allocate_iff (n := n) htag hused).mpr (Or.inr hb)
  refine hw.bytes_kept fun x hx ↦ (h.allocated hn).chain.payload_clear hmem ?_
  simp only [List.mem_append, List.mem_cons] at hx ⊢
  tauto

theorem live_copied (h : HeapInvariant s (pre ++ c :: post)) (htag : c.tag = true)
    (hn : n % minAllocAlign = 0) (hgt : b.size < n) (hfit : n ≤ c.size) :
    liveAllocations (copied s b c n post) =
      insert (allocation (copied s b c n post).mem (handedOut c n)) (liveAllocations s) := by
  have hw := headersOnly_allocate (n := n) h.chain
  rw [carve_eq] at hw
  have hbounds := h.chain.bounds (b := c) (by simp)
  have hfits := h.chain.fits
  have hgranted := le_granted hfit
  have hlive := live_replace [] (remainder c n) h.represents
    (h.copied (b := b) hn hgt hfit).represents rfl rfl (by simp) (fun x hx ↦ remainder_free hx)
    (fun x hx hout ↦ by
      simp only [payload, handedOut] at hout
      refine (memcpy_outside _ _ ?_ ?_).trans (hw x hx) <;> unfold payload <;> omega)
  rwa [h.represents.live_ne_free (by simp) htag] at hlive

/-- The copy holds the bytes of the block it was made from. -/
theorem copied_bytes (h : HeapInvariant s (pre ++ c :: post)) (htag : c.tag = true)
    (hn : n % minAllocAlign = 0) (hb : b ∈ pre ++ c :: post) (hused : b.tag = false)
    (hgt : b.size < n) (hfit : n ≤ c.size) {i : ℕ} (hi : i < b.size) :
    (copied s b c n post).mem (payload c + i) = s.mem (payload b + i) := by
  have hfits := h.chain.fits
  have hbounds := h.chain.bounds (b := c) (by simp)
  have hbounds' := h.chain.bounds hb
  have hdisjoint : payload c + b.size ≤ payload b ∨ payload b + b.size ≤ payload c := by
    simp only [payload]
    rcases h.chain.tiles.separated (s := c) (by simp) hb with rfl | hsep | hsep
    · simp [hused] at htag
    · omega
    · omega
  unfold copied
  dsimp only
  rw [memcpy_inside _ (by unfold payload; omega) (by unfold payload; omega) hdisjoint hi]
  exact bytes_kept_allocated h htag hn hb hused _ (Nat.le_add_right _ _) (by omega)

theorem replaced_moved (h : HeapInvariant s (pre ++ c :: post)) (htag : c.tag = true)
    (hn : n % minAllocAlign = 0) (hb : b ∈ pre ++ c :: post) (hused : b.tag = false)
    (hgt : b.size < n) (hfit : n ≤ c.size) {size : ℕ} (hsize : size ≤ n) {old : KfreeResult}
    (hfree : kfree (copied s b c n post) (payload b) = some (s', old)) :
    Replaced s s' (allocation s.mem b) (payload c) size := by
  have hcopied := h.copied (b := b) hn hgt hfit
  have hlive := live_copied h htag hn hgt hfit
  have hne : payload c ≠ payload b := by
    intro heq
    obtain rfl := h.represents.eq_of_payload (by simp) hb heq
    simp [hused] at htag
  have hkept : ∀ a ∈ liveAllocations (copied s b c n post), a.address ≠ payload b →
      a ∈ liveAllocations s' := by
    intro a ha haddress
    rcases kfree_cases hcopied.represents (payload b) with
      ⟨_, -, hcall⟩ | ⟨pre', b', post', heq, -, hptr, hcall⟩
    · rw [hcall] at hfree
      obtain ⟨rfl, -⟩ := Prod.mk.inj (Option.some.inj hfree)
      exact ha
    · rw [hcall] at hfree
      obtain ⟨rfl, -⟩ := Prod.mk.inj (Option.some.inj hfree)
      rw [live_released (heq ▸ hcopied), hptr]
      exact ⟨ha, haddress⟩
  refine ⟨fun a ha haddress ↦ hkept a ?_ haddress,
    _, hkept (allocation (copied s b c n post).mem (handedOut c n)) ?_ hne, rfl, ?_, ?_⟩
  · rw [hlive]
    exact Set.mem_insert_of_mem _ ha
  · rw [hlive]
    exact Set.mem_insert _ _
  · rw [allocation_length]
    exact hsize.trans (le_granted hfit)
  · rw [allocation_length]
    have hgranted : n ≤ (handedOut c n).size := le_granted hfit
    refine take_bytes_eq (Nat.min_le_left _ _) (by omega) fun i hi ↦ ?_
    exact copied_bytes h htag hn hb hused hgt hfit (by omega)

/-- `krealloc` on a live pointer replaces its allocation by one that starts
with the same bytes, or fails and changes nothing; all other allocations are
as they were.  A pointer to anything else is turned down. -/
theorem krealloc_preserves (h : HeapInvariant s bs) {newSize : ℕ} (hsize : newSize ≠ 0) :
    (newSize ≤ 0xFFFFFFF8 → ∀ a ∈ liveAllocations s, ∃ s' r,
      krealloc s a.address newSize = some (s', r) ∧
      (r.ptr ≠ 0 → Replaced s s' a r.ptr newSize) ∧
      (r.ptr = 0 → liveAllocations s' = liveAllocations s)) ∧
    (∀ ptr ≠ 0, (∀ a ∈ liveAllocations s, a.address ≠ ptr) →
      ∃ r, krealloc s ptr newSize = some (s, r) ∧ r.ptr = 0) := by
  have hn := alignUp_aligned newSize
  constructor
  · intro hle a ha
    obtain ⟨b, hb, hused, rfl⟩ := h.represents.mem_live.mp ha
    have hround := le_alignUp hle
    have hptr : payload b ≠ 0 := by simp [payload, headerSize]
    obtain ⟨s', r, hcall, hr⟩ := krealloc_spec h hptr hsize
    refine ⟨s', r, hcall, ?_⟩
    cases hr with
    | rejected hdead => simp [hdead b hb rfl] at hused
    | shrunk pre b' post hbs hb' hptr' hfit =>
        obtain rfl := h.represents.eq_of_payload (by simp [hbs]) hb hptr'
        refine ⟨fun _ ↦ ?_, fun hnull ↦ absurd hnull hptr⟩
        exact replaced_shrunk (hbs ▸ h).represents hused hn hfit hround
    | grown pre b' c post hbs hb' hptr' hc _ hfit =>
        obtain rfl := h.represents.eq_of_payload (by simp [hbs]) hb hptr'
        refine ⟨fun _ ↦ ?_, fun hnull ↦ absurd hnull hptr⟩
        exact replaced_grown (hbs ▸ h).represents hused hc hn hfit hround
    | stuck _ _ _ _ _ _ _ => exact ⟨fun hne ↦ absurd rfl hne, fun _ ↦ rfl⟩
    | moved b' hmem hb' hptr' hgt _ before d after hbs hd hfit _ _ hfree =>
        obtain rfl := h.represents.eq_of_payload hmem hb hptr'
        have hnew : payload d ≠ 0 := by simp [payload, headerSize]
        refine ⟨fun _ ↦ ?_, fun hnull ↦ absurd hnull hnew⟩
        exact replaced_moved (hbs ▸ h) hd hn (hbs ▸ hmem) hused hgt hfit hround hfree
  · intro ptr hptr hdead
    refine ⟨_, krealloc_rejects h.represents hptr hsize fun x hx heq ↦ ?_, rfl⟩
    by_contra htag
    have hused := Bool.eq_false_of_not_eq_true htag
    exact hdead _ (h.represents.mem_live.mpr ⟨x, hx, hused, rfl⟩) heq

/-- The heap after one allocation of 24 bytes. -/
theorem sampleHeap_one_allocation :
    ∃ s rest, kmalloc sampleHeap 24 = some (s, .block 0x110010) ∧
      HeapRun sampleHeap [] s [0x110010] ∧ HeapInvariant s (⟨0x110000, 24, false⟩ :: rest) := by
  have hcall : (kmalloc sampleHeap 24).map (fun r ↦ (r.2, decide (heapBlocks r.1 =
      some [⟨0x110000, 24, false⟩, ⟨0x110028, 16777160, true⟩]))) =
      some (.block 0x110010, true) := by decide +kernel
  simp only [Option.map_eq_some_iff, Prod.mk.injEq] at hcall
  obtain ⟨⟨s, r⟩, hcall, rfl, hbs⟩ := hcall
  have hbs := of_decide_eq_true hbs
  have hstart : HeapRun sampleHeap [] sampleHeap [] := .start
  have hrun := HeapRun.kmalloc 24 (by norm_num) hstart hcall
  rw [if_neg (by simp [KmallocResult.ptr])] at hrun
  have hk : KernelEndValid 0x110000 := ⟨by norm_num, by norm_num⟩
  have hinit := heapInvariant_memoryInit hk fun _ ↦ 0
  obtain ⟨bs, h, -⟩ := hrun.invariant hinit (tracks_nil_of_free (by simp))
  obtain rfl := Option.some.inj (h.represents.heapBlocks_eq.symm.trans hbs)
  exact ⟨s, _, hcall, hrun, h⟩

theorem krealloc_preserves_one_allocation :
    ∃ s s' a r, kmalloc sampleHeap 24 = some (s, .block 0x110010) ∧ a ∈ liveAllocations s ∧
      krealloc s 0x110010 100 = some (s', r) ∧
      (r.ptr ≠ 0 → Replaced s s' a r.ptr 100) ∧
      ∃ r', krealloc s 0x110018 100 = some (s, r') ∧ r'.ptr = 0 := by
  obtain ⟨s, rest, hcall, -, h⟩ := sampleHeap_one_allocation
  obtain ⟨hlive, hdead⟩ := krealloc_preserves h (show 100 ≠ 0 by norm_num)
  have ha := h.represents.mem_live.mpr ⟨_, List.mem_cons_self, rfl, rfl⟩
  obtain ⟨s', r, hresize, hreplaced, -⟩ := hlive (by norm_num) _ ha
  refine ⟨s, s', _, r, hcall, ha, hresize, hreplaced, hdead _ (by norm_num) ?_⟩
  intro a ha heq
  obtain ⟨b, hb, -, rfl⟩ := h.represents.mem_live.mp ha
  obtain ⟨hstart, hrest⟩ := h.chain.tiles
  simp only [allocation, payload, headerSize] at heq hstart hrest
  rcases List.mem_cons.mp hb with rfl | hb
  · simp at heq
  · have hbelow := (hrest.bounds hb).1
    omega

/-! ## The last block

Only the block at the end of the heap has no header behind it, and `kfree`
takes a pointer to the end of the heap for one outside.  As long as the last
block keeps some room this never concerns a live allocation. -/

def LastRoomy (bs : List Block) : Prop := ∀ x ∈ bs.getLast?, minSplitRemainder ≤ x.size

theorem lastRoomy_append_cons : LastRoomy (pre ++ b :: post) ↔ LastRoomy (b :: post) := by
  simp [LastRoomy]

theorem lastRoomy_cons_cons : LastRoomy (b :: c :: post) ↔ LastRoomy (c :: post) := by
  simp [LastRoomy]

theorem LastRoomy.grow (h : LastRoomy (b :: post)) (hle : b.size ≤ c.size) :
    LastRoomy (c :: post) := by
  cases post with
  | nil =>
      have hb : minSplitRemainder ≤ b.size := h b rfl
      intro x hx
      obtain rfl : c = x := by simpa using hx
      exact hb.trans hle
  | cons d post => exact lastRoomy_cons_cons.mpr (lastRoomy_cons_cons.mp h)

theorem LastRoomy.allocate (h : LastRoomy (pre ++ b :: post)) :
    LastRoomy (pre ++ handedOut b n :: (remainder b n ++ post)) := by
  rw [lastRoomy_append_cons] at h ⊢
  unfold handedOut remainder granted
  by_cases hsplit : n + headerSize + minSplitRemainder ≤ b.size
  · simp only [if_pos hsplit, List.singleton_append]
    rw [lastRoomy_cons_cons]
    cases post with
    | nil =>
        intro x hx
        obtain rfl : Segment.mk _ _ _ = x := by simpa using hx
        dsimp only
        omega
    | cons d post => exact lastRoomy_cons_cons.mpr (lastRoomy_cons_cons.mp h)
  · simp only [if_neg hsplit, List.nil_append]
    exact h.grow le_rfl

theorem LastRoomy.coalesceNext (h : LastRoomy (b :: post)) :
    LastRoomy ((Heap.coalesceNext b post).1 :: (Heap.coalesceNext b post).2) := by
  cases post with
  | nil => exact h
  | cons c post =>
      rw [coalesceNext_cons]
      split
      · exact (lastRoomy_cons_cons.mp h).grow (Nat.le_add_left _ _)
      · exact h

theorem LastRoomy.coalescePrev (h : LastRoomy (b :: post)) :
    LastRoomy (Heap.coalescePrev pre b post) := by
  rcases List.eq_nil_or_concat pre with rfl | ⟨pre, p, rfl⟩
  · exact h
  rw [List.concat_eq_append, coalescePrev_concat]
  split
  · exact lastRoomy_append_cons.mpr (h.grow (Nat.le_add_left _ _))
  · exact lastRoomy_append_cons.mpr h

theorem stable_lastRoomy : Stable fun _ bs ↦ LastRoomy bs where
  allocate := fun _ _ h ↦ h.allocate
  release := fun {_ _ b _} _ _ h ↦
    ((lastRoomy_append_cons.mp h).grow (c := ⟨b.start, b.size, true⟩)
      le_rfl).coalesceNext.coalescePrev
  write := fun _ h ↦ h

/-- With room in the last block, `kfree` takes every live pointer. -/
theorem Represents.payload_lt_end (h : Represents s bs) (hroom : LastRoomy bs) (hb : b ∈ bs) :
    payload b < s.heapStart + heapBytes := by
  obtain ⟨pre, post, rfl⟩ := List.append_of_mem hb
  have hbounds := h.chain.bounds hb
  cases post with
  | nil =>
      have hsize : minSplitRemainder ≤ b.size := lastRoomy_append_cons.mp hroom b rfl
      simp only [payload, minSplitRemainder] at hsize ⊢
      omega
  | cons c post =>
      have hsecond := h.chain.second_start
      have hcb := h.chain.bounds (b := c) (by simp)
      simp only [payload, headerSize] at *
      omega

/-! ## Along every run -/

theorem lastRoomy_memoryInit (start : ℕ) :
    LastRoomy [⟨start, heapBytes - headerSize, true⟩] := by
  intro x hx
  obtain rfl : Segment.mk _ _ _ = x := by simpa using hx
  exact (by decide : minSplitRemainder ≤ heapBytes - headerSize)

/-- `kmalloc` fails exactly when no free block is large enough, and then
changes nothing; otherwise it adds one allocation, in a block that was free,
and leaves all others as they were. -/
theorem kmalloc_complete {kernelEnd : ℕ} (hk : KernelEndValid kernelEnd) (mem : Mem)
    {live : List ℕ} (hrun : HeapRun (memoryInit kernelEnd (.boot mem)) [] s live) {size : ℕ}
    (hpos : 1 ≤ size) (hle : size ≤ 0xFFFFFFF8) :
    (kmallocLocked s size).isSome ∧
      ∃ bs s' r, heapBlocks s = some bs ∧ kmalloc s size = some (s', r) ∧
        (r.ptr = 0 ↔ ¬∃ b ∈ bs, b.tag = true ∧ (size + 7) / 8 * 8 ≤ b.size) ∧
        (r.ptr = 0 → s' = s) ∧
        (r.ptr ≠ 0 → ∃ b ∈ bs, b.tag = true ∧ payload b = r.ptr ∧
          ∃ a, a.address = r.ptr ∧ size ≤ a.bytes.length ∧ a ∉ liveAllocations s ∧
            liveAllocations s' = insert a (liveAllocations s)) := by
  obtain ⟨bs, h, -⟩ := hrun.invariant (heapInvariant_memoryInit hk mem)
    (tracks_nil_of_free (by simp))
  have hround : alignUp size minAllocAlign = (size + 7) / 8 * 8 := by
    rw [alignUp_eq]
    omega
  refine ⟨h.kmallocLocked_returns size, bs, ?_⟩
  rcases kmalloc_spec h (Nat.one_le_iff_ne_zero.mp hpos) with
    ⟨pre, b, post, rfl, htag, hfit, hcall⟩ | ⟨hnone, hcall⟩
  · have hptr : (KmallocResult.block (payload b)).ptr ≠ 0 := by
      simp [KmallocResult.ptr, payload, headerSize]
    refine ⟨_, _, h.represents.heapBlocks_eq, hcall, ?_, fun hnull ↦ absurd hnull hptr, ?_⟩
    · refine ⟨fun hnull ↦ absurd hnull hptr, fun hno ↦ absurd ⟨b, by simp, htag, ?_⟩ hno⟩
      rwa [← hround]
    · intro _
      refine ⟨b, by simp, htag, rfl, _, rfl, ?_, ?_, live_allocated h htag (alignUp_aligned size)⟩
      · rw [allocation_length]
        exact (le_alignUp hle).trans (le_granted hfit)
      · intro hmem
        rw [← h.represents.live_ne_free (b := b) (by simp) htag] at hmem
        exact hmem.2 rfl
  · refine ⟨_, _, h.represents.heapBlocks_eq, hcall, ?_, fun _ ↦ rfl, fun hptr ↦ absurd rfl hptr⟩
    refine ⟨fun _ ↦ ?_, fun _ ↦ rfl⟩
    rintro ⟨b, hb, htag, hfit⟩
    have hsmall := hnone b hb htag
    omega

theorem kmalloc_complete_second_allocation :
    ∃ s s' r, kmalloc sampleHeap 24 = some (s, .block 0x110010) ∧
      kmalloc s 40 = some (s', r) ∧ (r.ptr = 0 → s' = s) ∧
      (r.ptr ≠ 0 → ∃ a, liveAllocations s' = insert a (liveAllocations s)) := by
  obtain ⟨s, rest, hcall, hrun, -⟩ := sampleHeap_one_allocation
  have hk : KernelEndValid 0x110000 := ⟨by norm_num, by norm_num⟩
  obtain ⟨-, bs, s', r, -, hcall', -, hnull, hnew⟩ :=
    kmalloc_complete hk (fun _ ↦ 0) hrun (show 1 ≤ 40 by norm_num) (by norm_num)
  refine ⟨s, s', r, hcall, hcall', hnull, fun hptr ↦ ?_⟩
  obtain ⟨b, -, -, -, a, -, -, -, hlive⟩ := hnew hptr
  exact ⟨a, hlive⟩

/-- `kfree` takes exactly the payload addresses of blocks in use: with any
other pointer it changes nothing, and with such a pointer it removes that
allocation, leaves all others as they were and keeps the heap covered. -/
theorem kfree_exact {kernelEnd : ℕ} (hk : KernelEndValid kernelEnd) (mem : Mem)
    {live : List ℕ} (hrun : HeapRun (memoryInit kernelEnd (.boot mem)) [] s live) (ptr : ℕ) :
    ∃ bs s' r, heapBlocks s = some bs ∧ kfree s ptr = some (s', r) ∧
      ((¬∃ b ∈ bs, b.tag = false ∧ payload b = ptr) → s' = s) ∧
      ((∃ b ∈ bs, b.tag = false ∧ payload b = ptr) →
        liveAllocations s' = {a ∈ liveAllocations s | a.address ≠ ptr} ∧
        ∃ bs', heapBlocks s' = some bs' ∧
          (bs'.map Segment.size).sum + headerSize * bs'.length =
            (bs.map Segment.size).sum + headerSize * bs.length) := by
  obtain ⟨bs, h, -, hroom⟩ := hrun.preserves stable_lastRoomy (heapInvariant_memoryInit hk mem)
    (tracks_nil_of_free (by simp)) (lastRoomy_memoryInit _)
  by_cases hlive : ∃ b ∈ bs, b.tag = false ∧ payload b = ptr
  · obtain ⟨b, hb, hused, rfl⟩ := hlive
    have hlt := h.represents.payload_lt_end hroom hb
    obtain ⟨pre, post, rfl⟩ := List.append_of_mem hb
    refine ⟨_, _, _, h.represents.heapBlocks_eq, kfree_live h.represents hused hlt,
      fun hno ↦ absurd ⟨b, hb, hused, rfl⟩ hno, fun _ ↦ ⟨live_released h, _,
        h.release.represents.heapBlocks_eq, ?_⟩⟩
    have hbefore := h.chain.tiles.sum_sizes
    have hafter := h.release.chain.tiles.sum_sizes
    have hstart : (releaseBlock s b.start (prevAddr pre 0)).heapStart = s.heapStart := rfl
    rw [hstart] at hafter
    omega
  · have hdead : ∀ x ∈ bs, payload x = ptr → x.tag = true := by
      intro x hx heq
      by_contra htag
      exact hlive ⟨x, hx, Bool.eq_false_of_not_eq_true htag, heq⟩
    obtain ⟨r, -, hcall⟩ := kfree_rejects h.represents hdead
    exact ⟨bs, s, r, h.represents.heapBlocks_eq, hcall, fun _ ↦ rfl, fun hyes ↦ absurd hyes hlive⟩

theorem kfree_exact_one_allocation :
    ∃ s s' r, kmalloc sampleHeap 24 = some (s, .block 0x110010) ∧
      kfree s 0x110010 = some (s', r) ∧
      liveAllocations s' = {a ∈ liveAllocations s | a.address ≠ 0x110010} := by
  obtain ⟨s, rest, hcall, hrun, h⟩ := sampleHeap_one_allocation
  have hk : KernelEndValid 0x110000 := ⟨by norm_num, by norm_num⟩
  obtain ⟨bs, s', r, hbs, hfree, -, hlive⟩ := kfree_exact hk (fun _ ↦ 0) hrun 0x110010
  obtain rfl := Option.some.inj (h.represents.heapBlocks_eq.symm.trans hbs)
  exact ⟨s, s', r, hcall, hfree, (hlive ⟨_, List.mem_cons_self, rfl, rfl⟩).1⟩

end ImplusKernel.Heap
