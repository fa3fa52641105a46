import ImplusKernel.Memory.HeapOps

/-!
# Runs of the allocator

A run interleaves `kmalloc` and `kfree` calls with stores by the owners of
live allocations.  The representation invariant holds along every run, so
live payloads stay inside the heap and apart from each other and from all
headers.
-/

namespace ImplusKernel.Heap

open ByteMemory Words Tiling

variable {s s' : MemoryState} {bs pre post : List Block} {b c : Block} {live : List ℕ}

/-! ## The list as a walk sees it -/

/-- The blocks met on the way from `current` to `NULL`. -/
def blocksFrom (m : Mem) : ℕ → ℕ → Option (List Block)
  | 0, _ => none
  | fuel + 1, current =>
      if current = 0 then some []
      else (blocksFrom m fuel (blockNext m current)).map
        (⟨current, blockSize m current, decide (blockIsFree m current ≠ 0)⟩ :: ·)

def heapBlocks (s : MemoryState) : Option (List Block) :=
  blocksFrom s.mem walkFuel s.heapStart

theorem blocksFrom_of_linked {m : Mem} (hl : Linked m bs 0) (hpos : ∀ x ∈ bs, 0 < x.start)
    {fuel : ℕ} (hfuel : bs.length < fuel) : blocksFrom m fuel (nextAddr bs 0) = some bs := by
  induction bs generalizing fuel with
  | nil =>
      obtain ⟨fuel, rfl⟩ := Nat.exists_eq_succ_of_ne_zero (Nat.ne_zero_of_lt hfuel)
      simp [blocksFrom]
  | cons b bs ih =>
      obtain ⟨fuel, rfl⟩ := Nat.exists_eq_succ_of_ne_zero (Nat.ne_zero_of_lt hfuel)
      have hb := (hpos b List.mem_cons_self).ne'
      have hrest := ih hl.2 (fun x hx ↦ hpos x (List.mem_cons_of_mem b hx))
        (show bs.length < fuel by simpa using hfuel)
      have htag : decide (blockIsFree m b.start ≠ 0) = b.tag := by
        rw [Bool.eq_iff_iff, decide_eq_true_iff]
        exact isFree_ne_zero_iff hl.1
      rw [nextAddr_cons, blocksFrom, if_neg hb, hl.1.next_eq, hrest, htag, hl.1.size_eq]
      rfl

theorem Represents.heapBlocks_eq (h : Represents s bs) : heapBlocks s = some bs := by
  rw [heapBlocks, ← h.heapStart_eq]
  exact blocksFrom_of_linked h.chain.linked (fun x hx ↦ h.chain.start_pos hx)
    h.chain.length_lt_walkFuel

/-- A walk reports what the headers say. -/
theorem size_of_mem_blocksFrom {m : Mem} {fuel current : ℕ}
    (h : blocksFrom m fuel current = some bs) (hb : b ∈ bs) :
    blockSize m b.start = b.size := by
  induction fuel generalizing current bs with
  | zero => simp [blocksFrom] at h
  | succ fuel ih =>
      rw [blocksFrom] at h
      by_cases hcur : current = 0
      · rw [if_pos hcur] at h
        obtain rfl := Option.some.inj h
        simp at hb
      · rw [if_neg hcur] at h
        obtain ⟨rest, hrest, rfl⟩ := Option.map_eq_some_iff.mp h
        rcases List.mem_cons.mp hb with rfl | hb
        · rfl
        · exact ih hrest hb

/-! ## Initialisation -/

/-- The linker script places `_kernel_end` above `0x100000`, and its page
number is kept in 32 bits. -/
structure KernelEndValid (kernelEnd : ℕ) : Prop where
  above_base : 0x100000 ≤ kernelEnd
  page_fits : kernelEnd ≤ 0xFFFFFFFF000

/-- The first page boundary at or after `kernelEnd`. -/
def firstPageAfter (kernelEnd : ℕ) : ℕ := (kernelEnd + 4095) / 4096 * 4096

theorem heapStart_memoryInit {kernelEnd : ℕ} (hk : KernelEndValid kernelEnd) (mem : Mem) :
    (memoryInit kernelEnd (.boot mem)).heapStart = firstPageAfter kernelEnd := by
  have hlow := hk.above_base
  have hhigh := hk.page_fits
  simp [memoryInit, MemoryState.boot, calcHeapStartPage, firstPageAfter, pageSize]
  omega

theorem heapInvariant_memoryInit {kernelEnd : ℕ} (hk : KernelEndValid kernelEnd) (mem : Mem) :
    HeapInvariant (memoryInit kernelEnd (.boot mem))
      [⟨firstPageAfter kernelEnd, heapBytes - headerSize, true⟩] := by
  have hstart := heapStart_memoryInit hk mem
  have hlow := hk.above_base
  have hhigh := hk.page_fits
  have hbytes : heapBytes = 16777216 := rfl
  have hheader : headerSize = 16 := rfl
  set block : Block := ⟨firstPageAfter kernelEnd, heapBytes - headerSize, true⟩ with hblock
  have hsize : block.size = 16777200 := rfl
  have hmem : (memoryInit kernelEnd (.boot mem)).mem =
      setNext (setIsFree (setSize mem block.start block.size) block.start block.tag.toNat)
        block.start 0 := by
    rw [hblock, ← hstart]
    rfl
  have hwritten : HeaderAt (memoryInit kernelEnd (.boot mem)).mem block 0 := by
    rw [hmem]
    exact headerAt_write mem block (by omega) (by norm_num)
  have hpos : 0 < firstPageAfter kernelEnd ∧ firstPageAfter kernelEnd < 2 ^ 45 := by
    unfold firstPageAfter
    omega
  refine ⟨rfl, ⟨?_, ?_, ?_, ?_, ⟨hwritten, trivial⟩, ?_⟩, block, by simp, ?_⟩
  · rw [hstart]
    exact hpos.1
  · rw [hstart]
    omega
  · omega
  · rw [hstart]
    refine ⟨rfl, ?_⟩
    rw [tiles_nil]
    omega
  · intro x hx
    rw [List.mem_singleton.mp hx, hsize, minAllocAlign]
  · exact hstart.symm

/-! ## Runs -/

/-- Calls of `kmalloc` and `kfree` with arbitrary arguments, and stores into
the payloads of live allocations.  `live` holds the pointers handed out and
not yet freed. -/
inductive HeapRun (s₀ : MemoryState) (live₀ : List ℕ) : MemoryState → List ℕ → Prop
  | start : HeapRun s₀ live₀ s₀ live₀
  | kmalloc {s s' : MemoryState} {live : List ℕ} {r : KmallocResult} (size : ℕ)
      (hsize : size < 2 ^ 32) (hrun : HeapRun s₀ live₀ s live)
      (hcall : kmalloc s size = some (s', r)) :
      HeapRun s₀ live₀ s' (if r.ptr = 0 then live else r.ptr :: live)
  | kfree {s s' : MemoryState} {live : List ℕ} {r : KfreeResult} (ptr : ℕ)
      (hptr : ptr < 2 ^ 64) (hrun : HeapRun s₀ live₀ s live)
      (hcall : kfree s ptr = some (s', r)) :
      HeapRun s₀ live₀ s' (if r = .freed then live.filter (· ≠ ptr) else live)
  | store {s : MemoryState} {live : List ℕ} (p x : ℕ) (v : UInt8)
      (hrun : HeapRun s₀ live₀ s live) (hp : p ∈ live) (hlow : p ≤ x)
      (hhigh : x < p + blockSize s.mem (p - headerSize)) :
      HeapRun s₀ live₀ { s with mem := Function.update s.mem x v } live

/-- The live pointers are the payloads of the blocks in use. -/
def Tracks (bs : List Block) (live : List ℕ) : Prop :=
  ∀ p, p ∈ live ↔ ∃ b ∈ bs, b.tag = false ∧ payload b = p

theorem mem_allocate_iff {n : ℕ} {x : Block} (htag : b.tag = true) (hx : x.tag = false) :
    x ∈ pre ++ handedOut b n :: (remainder b n ++ post) ↔
      x = handedOut b n ∨ x ∈ pre ++ b :: post := by
  have hne : x ≠ b := by
    rintro rfl
    simp [hx] at htag
  have hrem : x ∉ remainder b n := fun hmem ↦ by
    simp [remainder_free hmem] at hx
  simp only [List.mem_append, List.mem_cons, hrem, hne, false_or]
  tauto

theorem Tracks.allocate {n : ℕ} (ht : Tracks (pre ++ b :: post) live) (htag : b.tag = true) :
    Tracks (pre ++ handedOut b n :: (remainder b n ++ post)) (payload b :: live) := by
  intro p
  rw [List.mem_cons, ht p]
  constructor
  · rintro (rfl | ⟨x, hx, hused, rfl⟩)
    · exact ⟨handedOut b n, by simp, rfl, rfl⟩
    · exact ⟨x, (mem_allocate_iff htag hused).mpr (Or.inr hx), hused, rfl⟩
  · rintro ⟨x, hx, hused, rfl⟩
    rcases (mem_allocate_iff htag hused).mp hx with rfl | hx
    · exact Or.inl rfl
    · exact Or.inr ⟨x, hx, hused, rfl⟩

theorem Tracks.release (hinv : HeapInvariant s (pre ++ b :: post))
    (ht : Tracks (pre ++ b :: post) live) :
    Tracks (released pre b post) (live.filter (· ≠ payload b)) := by
  intro p
  rw [List.mem_filter, ht p, decide_eq_true_iff]
  constructor
  · rintro ⟨⟨x, hx, hused, rfl⟩, hne⟩
    have hxb : x ≠ b := fun heq ↦ hne (by rw [heq])
    refine ⟨x, (mem_released_iff hused).mpr ?_, hused, rfl⟩
    simpa [hxb] using hx
  · rintro ⟨x, hx, hused, rfl⟩
    have hmem := (mem_released_iff hused).mp hx
    refine ⟨⟨x, ?_, hused, rfl⟩, hinv.chain.payload_ne hmem⟩
    rcases hmem with hmem | hmem <;> simp [hmem]

theorem HeapInvariant.store (h : HeapInvariant s bs) (hb : b ∈ bs) {x : ℕ} (v : UInt8)
    (hlow : payload b ≤ x) (hhigh : x < payload b + b.size) :
    HeapInvariant { s with mem := Function.update s.mem x v } bs := by
  refine ⟨h.initialized, h.chain.of_payload_write hb ?_, h.hint⟩
  intro y hy
  have hne : y ≠ x := by omega
  exact Function.update_of_ne hne v s.mem

/-- A property of a heap and its block list that allocations, releases and
changes of the bytes between the headers preserve. -/
structure Stable (P : MemoryState → List Block → Prop) : Prop where
  allocate : ∀ {s pre b post} (n : ℕ), b.tag = true → P s (pre ++ b :: post) →
    P (allocated s b n post) (pre ++ handedOut b n :: (remainder b n ++ post))
  release : ∀ {s pre b post}, HeapInvariant s (pre ++ b :: post) → b.tag = false →
    P s (pre ++ b :: post) →
    P (releaseBlock s b.start (prevAddr pre 0)) (released pre b post)
  write : ∀ {s bs} (m : Mem), P s bs → P { s with mem := m } bs

theorem stable_true : Stable fun _ _ ↦ True where
  allocate := fun _ _ _ ↦ trivial
  release := fun _ _ _ ↦ trivial
  write := fun _ _ ↦ trivial

theorem Stable.and {P Q : MemoryState → List Block → Prop} (hP : Stable P) (hQ : Stable Q) :
    Stable fun s bs ↦ P s bs ∧ Q s bs where
  allocate := fun n hb h ↦ ⟨hP.allocate n hb h.1, hQ.allocate n hb h.2⟩
  release := fun hinv hb h ↦ ⟨hP.release hinv hb h.1, hQ.release hinv hb h.2⟩
  write := fun m h ↦ ⟨hP.write m h.1, hQ.write m h.2⟩

/-- Every state of a run satisfies the representation invariant, with the
live pointers as its blocks in use, and every stable property of its start. -/
theorem HeapRun.preserves {P : MemoryState → List Block → Prop} (hP : Stable P)
    {s₀ : MemoryState} {bs₀ : List Block} {live₀ : List ℕ} (h₀ : HeapInvariant s₀ bs₀)
    (ht₀ : Tracks bs₀ live₀) (hP₀ : P s₀ bs₀) (hrun : HeapRun s₀ live₀ s live) :
    ∃ bs, HeapInvariant s bs ∧ Tracks bs live ∧ P s bs := by
  induction hrun with
  | start => exact ⟨bs₀, h₀, ht₀, hP₀⟩
  | @kmalloc s s' live r size _ _ hcall ih =>
      obtain ⟨bs, h, ht, hs⟩ := ih
      by_cases hzero : size = 0
      · rw [hzero, kmalloc_zero h.represents] at hcall
        obtain ⟨rfl, rfl⟩ := Prod.mk.inj (Option.some.inj hcall)
        exact ⟨bs, h, ht, hs⟩
      rcases kmalloc_spec h hzero with ⟨pre, b, post, rfl, htag, _, hk⟩ | ⟨_, hk⟩
      · rw [hk] at hcall
        obtain ⟨rfl, rfl⟩ := Prod.mk.inj (Option.some.inj hcall)
        have hptr : KmallocResult.ptr (.block (payload b)) ≠ 0 := by
          simp [KmallocResult.ptr, payload, headerSize]
        rw [if_neg hptr]
        exact ⟨_, h.allocated (alignUp_aligned size), ht.allocate htag,
          hP.allocate _ htag hs⟩
      · rw [hk] at hcall
        obtain ⟨rfl, rfl⟩ := Prod.mk.inj (Option.some.inj hcall)
        exact ⟨bs, h, ht, hs⟩
  | @kfree s s' live r ptr _ _ hcall ih =>
      obtain ⟨bs, h, ht, hs⟩ := ih
      rcases kfree_cases h.represents ptr with
        ⟨r', hr', hk⟩ | ⟨pre, b, post, rfl, hused, rfl, hk⟩
      · rw [hk] at hcall
        obtain ⟨rfl, rfl⟩ := Prod.mk.inj (Option.some.inj hcall)
        rw [if_neg hr']
        exact ⟨bs, h, ht, hs⟩
      · rw [hk] at hcall
        obtain ⟨rfl, rfl⟩ := Prod.mk.inj (Option.some.inj hcall)
        rw [if_pos rfl]
        exact ⟨_, h.release, ht.release h, hP.release h hused hs⟩
  | @store s live p x v _ hp hlow hhigh ih =>
      obtain ⟨bs, h, ht, hs⟩ := ih
      obtain ⟨b, hb, _, rfl⟩ := (ht p).mp hp
      obtain ⟨pre, post, rfl⟩ := List.append_of_mem hb
      rw [payload, Nat.add_sub_cancel, h.chain.header.size_eq] at hhigh
      exact ⟨_, h.store hb v hlow hhigh, ht, hP.write _ hs⟩

theorem HeapRun.invariant {s₀ : MemoryState} {bs₀ : List Block} {live₀ : List ℕ}
    (h₀ : HeapInvariant s₀ bs₀) (ht₀ : Tracks bs₀ live₀) (hrun : HeapRun s₀ live₀ s live) :
    ∃ bs, HeapInvariant s bs ∧ Tracks bs live := by
  obtain ⟨bs, h, ht, -⟩ := hrun.preserves stable_true h₀ ht₀ trivial
  exact ⟨bs, h, ht⟩

theorem tracks_nil_of_free (hfree : ∀ b ∈ bs, b.tag = true) : Tracks bs [] := by
  intro p
  refine ⟨fun hp ↦ by simp at hp, ?_⟩
  rintro ⟨b, hb, hused, -⟩
  simp [hfree b hb] at hused

/-! ## The layout of the heap -/

/-- The shape of the heap as seen by a walk from `heap_start`, and the
extents of the live allocations, whose sizes are read from their headers. -/
structure HeapLayout (s : MemoryState) (bs : List Block) (live : List ℕ) : Prop where
  walk : heapBlocks s = some bs
  first : bs.head?.map Segment.start = some s.heapStart
  increasing : bs.Pairwise fun b c ↦ b.start < c.start
  next_eq : ∀ pre b c post, bs = pre ++ b :: c :: post →
    blockNext s.mem b.start = b.start + 16 + b.size ∧ c.start = b.start + 16 + b.size
  last_ends : ∀ pre b, bs = pre ++ [b] →
    blockNext s.mem b.start = 0 ∧ b.start + 16 + b.size = s.heapStart + 4096 * 4096
  aligned : ∀ b ∈ bs, b.size % 8 = 0
  hint_mem : s.heapSearchHint ∈ bs.map Segment.start
  live_iff : ∀ p, p ∈ live ↔ ∃ b ∈ bs, b.tag = false ∧ b.start + 16 = p
  live_inside : ∀ p ∈ live, s.heapStart ≤ p ∧
    p + blockSize s.mem (p - 16) ≤ s.heapStart + 4096 * 4096
  live_apart_from_headers : ∀ p ∈ live, ∀ b ∈ bs,
    b.start + 16 ≤ p ∨ p + blockSize s.mem (p - 16) ≤ b.start
  live_apart : ∀ p ∈ live, ∀ q ∈ live, p ≠ q →
    p + blockSize s.mem (p - 16) ≤ q ∨ q + blockSize s.mem (q - 16) ≤ p

theorem Represents.blockSize_payload (h : Represents s bs) (hb : b ∈ bs) :
    blockSize s.mem (payload b - 16) = b.size := by
  obtain ⟨pre, post, rfl⟩ := List.append_of_mem hb
  exact h.chain.header.size_eq

theorem HeapInvariant.layout (h : HeapInvariant s bs) (ht : Tracks bs live) :
    HeapLayout s bs live where
  walk := h.represents.heapBlocks_eq
  first := by
    have hstart := h.represents.heapStart_eq
    cases hbs : bs with
    | nil => exact absurd hbs h.represents.ne_nil
    | cons b bs =>
        rw [hbs, nextAddr_cons] at hstart
        simp [hstart]
  increasing := h.chain.tiles.pairwise.imp fun hle ↦ by
    simp only [headerSize] at hle
    omega
  next_eq := by
    rintro pre b c post rfl
    have hsecond := h.chain.second_start
    exact ⟨h.chain.header.next_eq.trans hsecond, hsecond⟩
  last_ends := by
    rintro pre b rfl
    exact ⟨h.chain.header.next_eq, h.chain.tiles.start_eq.2⟩
  aligned := h.chain.aligned
  hint_mem := by
    obtain ⟨b, hb, hstart⟩ := h.hint
    exact List.mem_map.mpr ⟨b, hb, hstart⟩
  live_iff := ht
  live_inside := by
    intro p hp
    obtain ⟨b, hb, -, rfl⟩ := (ht p).mp hp
    have hbounds := h.chain.bounds hb
    rw [h.represents.blockSize_payload hb]
    exact ⟨hbounds.1.trans (Nat.le_add_right _ _), hbounds.2⟩
  live_apart_from_headers := by
    intro p hp c hc
    obtain ⟨b, hb, -, rfl⟩ := (ht p).mp hp
    rw [h.represents.blockSize_payload hb]
    exact h.chain.payload_clear hb hc
  live_apart := by
    intro p hp q hq hne
    obtain ⟨b, hb, -, rfl⟩ := (ht p).mp hp
    obtain ⟨c, hc, -, rfl⟩ := (ht q).mp hq
    rw [h.represents.blockSize_payload hb, h.represents.blockSize_payload hc]
    rcases h.chain.tiles.separated hb hc with rfl | hsep | hsep
    · exact absurd rfl hne
    · left
      unfold payload
      omega
    · right
      unfold payload
      omega

/-- Both calls end from a state that satisfies the invariant. -/
theorem HeapInvariant.calls_return (h : HeapInvariant s bs) (size ptr : ℕ) :
    (kmalloc s size).isSome ∧ (kfree s ptr).isSome := by
  constructor
  · by_cases hzero : size = 0
    · rw [hzero, kmalloc_zero h.represents]
      rfl
    · rcases kmalloc_spec h hzero with ⟨_, _, _, _, _, _, hk⟩ | ⟨_, hk⟩ <;> rw [hk] <;> rfl
  · rcases kfree_cases h.represents ptr with ⟨_, _, hk⟩ | ⟨_, _, _, _, _, _, hk⟩ <;>
      rw [hk] <;> rfl

/-- After `memory_init`, along every run: the list tiles the heap, the hint is
one of its nodes, live payloads are apart, and the next call returns. -/
theorem heapRun_layout {kernelEnd : ℕ} (hk : KernelEndValid kernelEnd) (mem : Mem)
    (hrun : HeapRun (memoryInit kernelEnd (.boot mem)) [] s live) :
    (∃ bs, HeapLayout s bs live) ∧
      ∀ size ptr, (kmalloc s size).isSome ∧ (kfree s ptr).isSome := by
  obtain ⟨bs, h, ht⟩ := hrun.invariant (heapInvariant_memoryInit hk mem)
    (tracks_nil_of_free (by simp))
  exact ⟨⟨bs, h.layout ht⟩, h.calls_return⟩

/-- A freshly initialised heap over zeroed memory. -/
def sampleHeap : MemoryState := memoryInit 0x110000 (.boot fun _ ↦ 0)

/-- The layout after one allocation and a store into it. -/
theorem heapRun_layout_one_allocation :
    ∃ s bs, HeapRun sampleHeap [] s [0x110010] ∧ HeapLayout s bs [0x110010] := by
  have hcall : ∃ s', kmalloc sampleHeap 24 = some (s', .block 0x110010) ∧
      blockSize s'.mem (0x110010 - headerSize) = 24 := ⟨_, rfl, rfl⟩
  obtain ⟨s', hs', hsize⟩ := hcall
  have hstart : HeapRun sampleHeap [] sampleHeap [] := .start
  have hrun := HeapRun.kmalloc 24 (by norm_num) hstart hs'
  have hstore := HeapRun.store 0x110010 0x110017 255 hrun (by simp [KmallocResult.ptr])
    (by norm_num) (by rw [hsize]; norm_num)
  obtain ⟨⟨bs, hbs⟩, -⟩ := heapRun_layout ⟨by norm_num, by norm_num⟩ (fun _ ↦ 0) hstore
  exact ⟨_, bs, hstore, hbs⟩

end ImplusKernel.Heap
