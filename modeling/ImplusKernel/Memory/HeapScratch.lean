import ImplusKernel.Memory.HeapRuns

/-!
# Temporary blocks

The kernel often takes a block, fills it, and gives it back before it
returns.  The bytes that belong to others, outside the heap or in payloads of
blocks in use, go through this unharmed.
-/

namespace ImplusKernel.Heap

open ByteMemory Tiling

variable {s s' : MemoryState} {bs pre post : List Block} {b : Block} {x : ℕ}

/-- A byte that the allocator does not write: outside the heap, or in the
payload of a block in use. -/
def ClientByte (s : MemoryState) (x : ℕ) : Prop :=
  x < s.heapStart ∨ s.heapStart + heapBytes ≤ x ∨
    ∃ bs, heapBlocks s = some bs ∧
      ∃ b ∈ bs, b.tag = false ∧ payload b ≤ x ∧ x < payload b + b.size

/-- What holds of a block of `size` bytes, taken in state `s`, that lies at
`ptr` in state `s'`. -/
structure Scratch (s s' : MemoryState) (ptr size : ℕ) : Prop where
  ptr_ne_zero : ptr ≠ 0
  fits : ptr + size ≤ 2 ^ 64
  kept : ∀ x, ClientByte s x → s'.mem x = s.mem x
  apart : ∀ x, ClientByte s x → x < ptr ∨ ptr + size ≤ x
  release : ∀ mem, (∀ x, ¬ClientByte s x → x < ptr ∨ ptr + size ≤ x → mem x = s'.mem x) →
    ∃ s'' bs, kfree { s' with mem := mem } ptr = some (s'', .freed) ∧ HeapInvariant s'' bs ∧
      ∀ x, ClientByte s x → ClientByte s'' x ∧ s''.mem x = mem x

theorem HeapInvariant.clientByte (h : HeapInvariant s bs) (hx : ClientByte s x) :
    (x < s.heapStart ∨ s.heapStart + heapBytes ≤ x) ∨
      ∃ b ∈ bs, b.tag = false ∧ payload b ≤ x ∧ x < payload b + b.size := by
  rcases hx with hx | hx | ⟨bs', hbs', hx⟩
  · exact Or.inl (Or.inl hx)
  · exact Or.inl (Or.inr hx)
  · rw [h.represents.heapBlocks_eq] at hbs'
    obtain rfl := Option.some.inj hbs'
    exact Or.inr hx

theorem HeapInvariant.clientByte_of_used (h : HeapInvariant s bs) (hb : b ∈ bs)
    (hused : b.tag = false) (hlow : payload b ≤ x) (hhigh : x < payload b + b.size) :
    ClientByte s x :=
  Or.inr (Or.inr ⟨bs, h.represents.heapBlocks_eq, b, hb, hused, hlow, hhigh⟩)

/-- Bytes stay with their owners when the heap stays where it is and blocks
in use stay as they are. -/
theorem ClientByte.mono {cs : List Block} (hx : ClientByte s x) (h : HeapInvariant s bs)
    (h' : HeapInvariant s' cs) (hstart : s'.heapStart = s.heapStart)
    (hused : ∀ c ∈ bs, c.tag = false → c ∈ cs) : ClientByte s' x := by
  rcases h.clientByte hx with hout | ⟨c, hc, htag, hlow, hhigh⟩
  · rw [ClientByte, hstart]
    tauto
  · exact h'.clientByte_of_used (hused c hc htag) htag hlow hhigh

/-- After an allocation the bytes of others are still apart from all
headers. -/
theorem clientByte_apart_headers {n : ℕ} (h : HeapInvariant s (pre ++ b :: post))
    (hn : n % minAllocAlign = 0) (htag : b.tag = true) (hx : ClientByte s x) :
    ∀ y ∈ pre ++ handedOut b n :: (remainder b n ++ post),
      x < y.start ∨ y.start + headerSize ≤ x := by
  have hchain := (h.allocated hn).chain
  intro y hy
  rcases h.clientByte hx with hout | ⟨c, hc, hused, hlow, hhigh⟩
  · have hbounds : s.heapStart ≤ y.start ∧
        y.start + headerSize + y.size ≤ s.heapStart + heapBytes := hchain.bounds hy
    omega
  · have hc' := (mem_allocate_iff (n := n) htag hused).mpr (Or.inr hc)
    have hclear := hchain.payload_clear hc' hy
    omega

/-- A free block shares no byte with others. -/
theorem clientByte_apart_free (h : HeapInvariant s bs) (hb : b ∈ bs) (htag : b.tag = true)
    (hx : ClientByte s x) : x < payload b ∨ payload b + b.size ≤ x := by
  have hbounds := h.chain.bounds hb
  rcases h.clientByte hx with hout | ⟨c, hc, hused, hlow, hhigh⟩
  · rw [payload]
    omega
  · simp only [payload] at *
    rcases h.chain.tiles.separated hc hb with rfl | hsep | hsep
    · simp [hused] at htag
    · omega
    · omega

theorem headersOnly_allocated {n : ℕ} (h : HeapInvariant s (pre ++ b :: post)) :
    HeadersOnly (pre ++ handedOut b n :: (remainder b n ++ post)) s.mem
      (allocated s b n post).mem := by
  refine (headersOnly_allocate h.chain).mono _ fun y hy ↦ ⟨y, ?_, rfl⟩
  rw [carve_eq] at hy
  simp only [List.mem_append, List.mem_cons] at hy ⊢
  tauto

/-- An allocation leaves the bytes of others as they are. -/
theorem HeapInvariant.allocated_kept {n : ℕ} (h : HeapInvariant s (pre ++ b :: post))
    (hn : n % minAllocAlign = 0) (htag : b.tag = true) (hx : ClientByte s x) :
    (Heap.allocated s b n post).mem x = s.mem x :=
  headersOnly_allocated h x (clientByte_apart_headers h hn htag hx)

/-- Filling the new block and storing into bytes of others leaves the list as
it is: the headers are neither. -/
theorem HeapInvariant.allocated_store {n size : ℕ} {mem : Mem}
    (h : HeapInvariant s (pre ++ b :: post)) (htag : b.tag = true) (hn : n % minAllocAlign = 0)
    (hfit : n ≤ b.size) (hsize : size ≤ n)
    (hmem : ∀ x, ¬ClientByte s x → x < payload b ∨ payload b + size ≤ x →
      mem x = (Heap.allocated s b n post).mem x) :
    HeapInvariant { Heap.allocated s b n post with mem := mem }
      (pre ++ handedOut b n :: (remainder b n ++ post)) := by
  have hinv := h.allocated (b := b) hn
  have hgranted : n ≤ (handedOut b n).size := le_granted hfit
  refine ⟨hinv.initialized, hinv.chain.of_agree ?_, hinv.hint⟩
  intro y hy x hlow hhigh
  refine hmem x (fun hx ↦ ?_) ?_
  · have hx := clientByte_apart_headers h hn htag hx y hy
    omega
  · have hy := hinv.chain.payload_clear (b := handedOut b n) (by simp) hy
    have hpayload : payload (handedOut b n) = payload b := rfl
    omega

/-- The block that `kmalloc` takes from the free block `b`. -/
theorem scratch_allocated {n size : ℕ} (h : HeapInvariant s (pre ++ b :: post))
    (htag : b.tag = true) (hn : n % minAllocAlign = 0) (hfit : n ≤ b.size) (hpos : size ≠ 0)
    (hsize : size ≤ n) : Scratch s (allocated s b n post) (payload b) size := by
  have hmem : b ∈ pre ++ b :: post := by simp
  have hbounds := h.chain.bounds hmem
  have hfits := h.chain.fits
  have hclear := fun x (hx : ClientByte s x) ↦ clientByte_apart_headers h hn htag hx
  refine ⟨by simp [payload, headerSize], ?_, fun x hx ↦ h.allocated_kept hn htag hx, ?_, ?_⟩
  · rw [payload]
    omega
  · intro x hx
    have hx := clientByte_apart_free h hmem htag hx
    omega
  · intro mem hmem
    have hinv := h.allocated_store htag hn hfit hsize hmem
    have hlt : payload (handedOut b n) < s.heapStart + heapBytes := by
      have hstart : payload (handedOut b n) = b.start + headerSize := rfl
      omega
    have hused : (handedOut b n).tag = false := rfl
    have hfree := kfree_live hinv.represents hused hlt
    refine ⟨_, _, hfree, hinv.release, ?_⟩
    intro x hx
    refine ⟨hx.mono h hinv.release rfl ?_, headersOnly_release hinv x (hclear x hx)⟩
    intro c hc hcused
    rw [mem_released_iff hcused]
    have hne : c ≠ b := by
      rintro rfl
      simp [hcused] at htag
    simp only [List.mem_append, List.mem_cons, hne, false_or] at hc ⊢
    tauto

theorem HeapInvariant.scratch (h : HeapInvariant s bs) {size : ℕ} (hpos : size ≠ 0)
    (hle : size ≤ 0xFFFFFFF8) :
    (∃ r, kmalloc s size = some (s, r) ∧ r.ptr = 0) ∨
      ∃ s' ptr, kmalloc s size = some (s', .block ptr) ∧ Scratch s s' ptr size := by
  rcases kmalloc_spec h hpos with ⟨pre, b, post, rfl, htag, hfit, hk⟩ | ⟨_, hk⟩
  · exact Or.inr ⟨_, _, hk,
      scratch_allocated h htag (alignUp_aligned size) hfit hpos (le_alignUp hle)⟩
  · exact Or.inl ⟨_, hk, rfl⟩

end ImplusKernel.Heap
