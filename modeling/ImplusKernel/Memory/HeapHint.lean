import ImplusKernel.Memory.HeapResize
import ImplusKernel.Memory.HeapRuns

/-!
# Resizing and the search hint

Growing an allocation over the free block behind it removes that block from
the list, but `krealloc` leaves `heap_search_hint` alone.  When the hint
rests on the absorbed block it dangles afterwards; in every other case the
representation invariant survives.
-/

namespace ImplusKernel.Heap

open ByteMemory Words Tiling

variable {s s' : MemoryState} {bs pre post : List Block} {b c : Block} {n ptr : ℕ}

/-- The payload of a block handed out by a later call never meets a live
allocation. -/
def NoLaterOverlap (s : MemoryState) (bs : List Block) : Prop :=
  ∀ live t live' size t' p, Tracks bs live → HeapRun s live t live' →
    kmalloc t size = some (t', .block p) →
    ∀ q ∈ live', p + blockSize t'.mem (p - 16) ≤ q ∨ q + blockSize t.mem (q - 16) ≤ p

/-- The heap satisfies the representation invariant, and later allocations
keep clear of live ones. -/
def HeapUsable (s : MemoryState) : Prop :=
  ∃ bs, HeapInvariant s bs ∧ NoLaterOverlap s bs

/-- One allocation never meets a block in use. -/
theorem HeapInvariant.kmalloc_apart (h : HeapInvariant s bs) {size p : ℕ}
    (hcall : kmalloc s size = some (s', .block p)) {x : Block} (hx : x ∈ bs)
    (hused : x.tag = false) :
    p + blockSize s'.mem (p - 16) ≤ payload x ∨ payload x + x.size ≤ p := by
  by_cases hzero : size = 0
  · rw [hzero, kmalloc_zero h.represents] at hcall
    simp at hcall
  rcases kmalloc_spec h hzero with ⟨pre, b, post, rfl, htag, _, hk⟩ | ⟨_, hk⟩
  · rw [hk] at hcall
    obtain ⟨rfl, hp⟩ := Prod.mk.inj (Option.some.inj hcall)
    obtain rfl : payload b = p := KmallocResult.block.inj hp
    have hinv := h.allocated (alignUp_aligned size)
    have hmem : handedOut b (alignUp size minAllocAlign) ∈
        pre ++ handedOut b (alignUp size minAllocAlign) ::
          (remainder b (alignUp size minAllocAlign) ++ post) := by simp
    have hsize := hinv.represents.blockSize_payload hmem
    have hx' := (mem_allocate_iff (n := alignUp size minAllocAlign) htag hused).mpr (Or.inr hx)
    have hpayload : payload (handedOut b (alignUp size minAllocAlign)) = payload b := rfl
    rw [hpayload] at hsize
    rw [hsize]
    rcases hinv.chain.tiles.separated hmem hx' with heq | hsep | hsep
    · rcases h.chain.tiles.separated (s := b) (by simp) hx with rfl | hsep | hsep
      · simp [hused] at htag
      · rw [← heq] at hsep
        simp only [handedOut, headerSize] at hsep
        omega
      · rw [← heq] at hsep
        simp only [handedOut, headerSize] at hsep
        omega
    · left
      simp only [payload, handedOut] at hsep ⊢
      omega
    · right
      simp only [payload, handedOut] at hsep ⊢
      omega
  · rw [hk] at hcall
    simp at hcall

theorem HeapInvariant.noLaterOverlap (h : HeapInvariant s bs) : NoLaterOverlap s bs := by
  intro live t live' size t' p ht hrun hcall q hq
  obtain ⟨bs', h', ht'⟩ := hrun.invariant h ht
  obtain ⟨x, hx, hused, rfl⟩ := (ht' q).mp hq
  rw [h'.represents.blockSize_payload hx]
  exact h'.kmalloc_apart hcall hx hused

theorem HeapInvariant.usable (h : HeapInvariant s bs) : HeapUsable s :=
  ⟨bs, h, h.noLaterOverlap⟩

/-! ## The four outcomes -/

/-- The hint rests on the free block that `krealloc` absorbs. -/
def AbsorbsHint (s : MemoryState) (bs : List Block) (ptr newSize : ℕ) : Prop :=
  newSize ≠ 0 ∧ ∃ pre b c post, bs = pre ++ b :: c :: post ∧ b.tag = false ∧
    payload b = ptr ∧ c.tag = true ∧ b.size < alignUp newSize minAllocAlign ∧
    alignUp newSize minAllocAlign ≤ b.size + headerSize + c.size ∧
    s.heapSearchHint = c.start

theorem Represents.shrunk (h : Represents s (pre ++ b :: post)) (hb : b.tag = false)
    (hn : n % minAllocAlign = 0) :
    Represents { s with mem := splitBlockIfNeeded s.mem b.start n }
      (pre ++ handedOut b n :: (remainder b n ++ post)) := by
  refine ⟨h.initialized, ?_⟩
  dsimp only
  exact h.chain.shrink hb hn

/-- Splitting a block in place keeps every node of the list. -/
theorem HeapInvariant.shrunk (h : HeapInvariant s (pre ++ b :: post)) (hb : b.tag = false)
    (hn : n % minAllocAlign = 0) :
    HeapInvariant { s with mem := splitBlockIfNeeded s.mem b.start n }
      (pre ++ handedOut b n :: (remainder b n ++ post)) := by
  have hshrunk := h.represents.shrunk hb hn
  refine ⟨hshrunk.initialized, hshrunk.chain, ?_⟩
  obtain ⟨x, hx, hstart⟩ := h.hint
  rcases List.mem_append.mp hx with hx | hx
  · exact ⟨x, List.mem_append_left _ hx, hstart⟩
  · rcases List.mem_cons.mp hx with rfl | hx
    · exact ⟨handedOut x n, by simp, hstart⟩
    · exact ⟨x, by simp [hx], hstart⟩

theorem Represents.grown (h : Represents s (pre ++ b :: c :: post)) (hb : b.tag = false)
    (hn : n % minAllocAlign = 0) :
    Represents
      { s with mem := splitBlockIfNeeded (absorbNext s.mem b.start) b.start n }
      (pre ++ handedOut (merged b c false) n ::
        (remainder (merged b c false) n ++ post)) := by
  refine ⟨h.initialized, ?_⟩
  dsimp only
  exact h.chain.grow hb hn

/-- Absorbing the next block keeps every node but that one. -/
theorem HeapInvariant.grown (h : HeapInvariant s (pre ++ b :: c :: post)) (hb : b.tag = false)
    (hn : n % minAllocAlign = 0) (hhint : s.heapSearchHint ≠ c.start) :
    HeapInvariant
      { s with mem := splitBlockIfNeeded (absorbNext s.mem b.start) b.start n }
      (pre ++ handedOut (merged b c false) n ::
        (remainder (merged b c false) n ++ post)) := by
  have hgrown := h.represents.grown hb hn
  obtain ⟨x, hx, hstart⟩ := h.hint
  refine ⟨hgrown.initialized, hgrown.chain, ?_⟩
  rcases List.mem_append.mp hx with hx | hx
  · exact ⟨x, List.mem_append_left _ hx, hstart⟩
  · rcases List.mem_cons.mp hx with rfl | hx
    · exact ⟨handedOut (merged x c false) n, by simp, hstart⟩
    · rcases List.mem_cons.mp hx with rfl | hx
      · exact absurd hstart.symm hhint
      · exact ⟨x, by simp [hx], hstart⟩

/-- Every outcome but an absorbed hint leads to a well-formed heap again. -/
theorem Reallocates.invariant {r : KreallocResult} (h : HeapInvariant s bs)
    (hn : n % minAllocAlign = 0) (hr : Reallocates s bs ptr n s' r)
    (hhint : ∀ pre b c post, bs = pre ++ b :: c :: post → b.tag = false → payload b = ptr →
      c.tag = true → b.size < n → n ≤ b.size + headerSize + c.size →
      s.heapSearchHint ≠ c.start) :
    ∃ bs', HeapInvariant s' bs' := by
  cases hr with
  | rejected _ => exact ⟨bs, h⟩
  | shrunk pre b post hbs hb _ _ => exact ⟨_, (hbs ▸ h).shrunk hb hn⟩
  | grown pre b c post hbs hb hptr hc hgt hle =>
      exact ⟨_, (hbs ▸ h).grown hb hn (hhint pre b c post hbs hb hptr hc hgt hle)⟩
  | stuck _ _ _ _ _ _ _ => exact ⟨bs, h⟩
  | moved b _ _ _ hgt _ before d after hbs _ hd _ _ hfree =>
      have hcopied := (hbs ▸ h).copied (b := b) hn hgt hd
      rcases kfree_cases hcopied.represents ptr with
        ⟨_, _, hk⟩ | ⟨pre', b', post', heq, _, _, hk⟩
      · rw [hk] at hfree
        obtain ⟨rfl, -⟩ := Prod.mk.inj (Option.some.inj hfree)
        exact ⟨_, hcopied⟩
      · rw [hk] at hfree
        obtain ⟨rfl, -⟩ := Prod.mk.inj (Option.some.inj hfree)
        exact ⟨_, (heq ▸ hcopied).release⟩

/-- Once its block has been absorbed, the hint points at no node. -/
theorem grown_strands_hint (h : HeapInvariant s (pre ++ b :: c :: post)) (hb : b.tag = false)
    (hn : n % minAllocAlign = 0) (hgt : b.size < n) (hhint : s.heapSearchHint = c.start) :
    ¬∃ bs', HeapInvariant
      { s with mem := splitBlockIfNeeded (absorbNext s.mem b.start) b.start n } bs' := by
  rintro ⟨bs', h'⟩
  have hgrown := h.represents.grown hb hn
  have hsame := Option.some.inj (h'.represents.heapBlocks_eq.symm.trans hgrown.heapBlocks_eq)
  obtain ⟨x, hx, hstart⟩ := h'.hint
  rw [hsame] at hx
  have hsecond := h.chain.second_start
  obtain ⟨hpre, hrest⟩ := h.chain.tiles.start_eq
  have hstart' : x.start = c.start := hstart.trans hhint
  simp only [headerSize] at hsecond
  rcases List.mem_append.mp hx with hx | hx
  · have hbefore := (hpre.bounds hx).2
    omega
  · rcases List.mem_cons.mp hx with rfl | hx
    · simp only [handedOut, merged] at hstart'
      omega
    · rcases List.mem_append.mp hx with hx | hx
      · unfold remainder at hx
        split at hx
        · rw [List.mem_singleton.mp hx] at hstart'
          simp only [merged, headerSize] at hstart'
          omega
        · simp at hx
      · have hafter := (hrest.2.bounds hx).1
        simp only [headerSize] at hafter
        omega

/-- When the block under the hint is absorbed, no list makes the resulting
state well formed. -/
theorem not_invariant_of_absorbsHint (h : HeapInvariant s bs) {newSize : ℕ}
    (habs : AbsorbsHint s bs ptr newSize) :
    ¬∃ s' r, krealloc s ptr newSize = some (s', r) ∧ ∃ bs', HeapInvariant s' bs' := by
  have haligned := alignUp_aligned newSize
  rintro ⟨s', r, hcall, bs', h'⟩
  obtain ⟨hsize, pre, b, c, post, hbs, hb, hptr, hc, hgt, hle, hhint⟩ := habs
  have hptr0 : ptr ≠ 0 := by
    rw [← hptr]
    simp [payload, headerSize]
  obtain ⟨s'', r', hcall', hr⟩ := krealloc_spec h hptr0 hsize
  rw [hcall] at hcall'
  obtain ⟨rfl, rfl⟩ := Prod.mk.inj (Option.some.inj hcall')
  have habsorb : Absorbable bs ptr (alignUp newSize minAllocAlign) :=
    ⟨pre, b, c, post, hbs, hb, hptr, hc, hgt, hle⟩
  have hunique : ∀ x ∈ bs, payload x = ptr → x = b := by
    intro x hx hxptr
    exact h.represents.eq_of_payload hx (by simp [hbs]) (hxptr.trans hptr.symm)
  cases hr with
  | rejected hdead =>
      have htag := hdead b (by simp [hbs]) hptr
      simp [hb] at htag
  | shrunk pre' b' post' hbs' hb' hptr' hn' =>
      have heq := hunique b' (by simp [hbs']) hptr'
      rw [heq] at hn'
      omega
  | grown pre' b' c' post' hbs' hb' hptr' hc' hgt' hle' =>
      have heq := hunique b' (by simp [hbs']) hptr'
      rw [heq] at hbs' hb' hgt' h'
      have htail : c :: post = c' :: post' := by
        have hnodup := h.chain.nodup
        rw [hbs] at hbs' hnodup
        exact tail_eq_of_nodup hnodup hbs'
      have hhint' : s.heapSearchHint = c'.start := by rw [hhint, (List.cons.inj htail).1]
      exact grown_strands_hint (hbs' ▸ h) hb' haligned hgt' hhint' ⟨bs', h'⟩
  | stuck _ _ _ _ _ hno _ => exact hno habsorb
  | moved _ _ _ _ _ hno _ _ _ _ _ _ _ _ => exact hno habsorb

theorem invariant_of_not_absorbsHint (h : HeapInvariant s bs) {newSize : ℕ}
    (hsafe : ¬AbsorbsHint s bs ptr newSize) :
    ∃ s' r, krealloc s ptr newSize = some (s', r) ∧ ∃ bs', HeapInvariant s' bs' := by
  have haligned := alignUp_aligned newSize
  by_cases hptr : ptr = 0
  · subst hptr
    unfold krealloc
    rw [if_pos rfl]
    by_cases hzero : newSize = 0
    · rw [hzero, kmalloc_zero h.represents]
      exact ⟨s, .fresh .zeroSize, rfl, bs, h⟩
    rcases kmalloc_spec h hzero with ⟨pre, b, post, rfl, _, _, hk⟩ | ⟨_, hk⟩
    · rw [hk]
      exact ⟨_, _, rfl, _, h.allocated haligned⟩
    · rw [hk]
      exact ⟨_, _, rfl, bs, h⟩
  by_cases hzero : newSize = 0
  · unfold krealloc
    rw [if_neg hptr, if_pos hzero]
    rcases kfree_cases h.represents ptr with ⟨_, _, hk⟩ | ⟨pre, b, post, rfl, _, _, hk⟩
    · rw [hk]
      exact ⟨_, _, rfl, bs, h⟩
    · rw [hk]
      exact ⟨_, _, rfl, _, h.release⟩
  obtain ⟨s', r, hcall, hr⟩ := krealloc_spec h hptr hzero
  obtain ⟨bs', h'⟩ := hr.invariant h haligned fun pre b c post hbs hb hp hc hgt hle hhint ↦
    hsafe ⟨hzero, pre, b, c, post, hbs, hb, hp, hc, hgt, hle, hhint⟩
  exact ⟨s', r, hcall, bs', h'⟩

/-- `krealloc` returns, and leaves a usable heap, exactly when it does not
absorb the block under the search hint. -/
theorem krealloc_usable_iff (h : HeapInvariant s bs) (ptr newSize : ℕ) :
    (∃ s' r, krealloc s ptr newSize = some (s', r) ∧ HeapUsable s') ↔
      ¬AbsorbsHint s bs ptr newSize := by
  constructor
  · rintro ⟨s', r, hcall, bs', h', -⟩ habs
    exact not_invariant_of_absorbsHint h habs ⟨s', r, hcall, bs', h'⟩
  · intro hsafe
    obtain ⟨s', r, hcall, bs', h'⟩ := invariant_of_not_absorbsHint h hsafe
    exact ⟨s', r, hcall, h'.usable⟩

/-- The heap after one allocation of 32 bytes. -/
theorem sampleHeap_allocated :
    ∃ s, kmalloc sampleHeap 32 = some (s, .block 0x110010) ∧ s.heapSearchHint = 0x110030 ∧
      HeapInvariant s [⟨0x110000, 32, false⟩, ⟨0x110030, 16777152, true⟩] := by
  have h₀ : HeapInvariant sampleHeap ([] ++ ⟨0x110000, 16777200, true⟩ :: []) :=
    heapInvariant_memoryInit ⟨by norm_num, by norm_num⟩ fun _ ↦ 0
  exact ⟨_, rfl, rfl, h₀.allocated (n := 32) rfl⟩

/-- Shrinking the only allocation of a heap keeps it usable. -/
theorem krealloc_usable_shrinking :
    ∃ s bs, HeapInvariant s bs ∧
      ∃ s' r, krealloc s 0x110010 8 = some (s', r) ∧ HeapUsable s' := by
  obtain ⟨s, -, -, h⟩ := sampleHeap_allocated
  refine ⟨s, _, h, (krealloc_usable_iff h 0x110010 8).mpr ?_⟩
  rintro ⟨-, pre, b, c, post, hbs, hb, -, -, hgt, -⟩
  have hmem : b ∈ [(⟨0x110000, 32, false⟩ : Block), ⟨0x110030, 16777152, true⟩] := by simp [hbs]
  have hround : alignUp 8 minAllocAlign = 8 := by decide
  rcases List.mem_cons.mp hmem with rfl | hmem
  · simp [hround] at hgt
  · rw [List.mem_singleton.mp hmem] at hb
    simp at hb

/-- Growing an allocation right after it was made absorbs the block under the
hint, and the next allocation lies inside the grown one. -/
theorem krealloc_strands_hint :
    ∃ s bs, HeapInvariant s bs ∧ ∃ s' r, krealloc s 0x110010 64 = some (s', r) ∧
      r.ptr = 0x110010 ∧ blockSize s'.mem 0x110000 = 64 ∧ ¬HeapUsable s' ∧
      ∃ s'', kmalloc s' 8 = some (s'', .block 0x110040) := by
  obtain ⟨s, hk, hhint, h⟩ := sampleHeap_allocated
  have hcall : ∃ s' r, krealloc s 0x110010 64 = some (s', r) ∧ r.ptr = 0x110010 ∧
      blockSize s'.mem 0x110000 = 64 ∧ ∃ s'', kmalloc s' 8 = some (s'', .block 0x110040) := by
    obtain ⟨rfl, -⟩ := Prod.mk.inj (Option.some.inj hk)
    exact ⟨_, _, rfl, rfl, rfl, _, rfl⟩
  obtain ⟨s', r, hcall, hptr, hsize, hlater⟩ := hcall
  refine ⟨s, _, h, s', r, hcall, hptr, hsize, ?_, hlater⟩
  have habs : AbsorbsHint s [⟨0x110000, 32, false⟩, ⟨0x110030, 16777152, true⟩] 0x110010 64 :=
    ⟨by norm_num, [], ⟨0x110000, 32, false⟩, ⟨0x110030, 16777152, true⟩, [], rfl, rfl, rfl, rfl,
      by decide, by decide, hhint⟩
  rintro ⟨bs', h', -⟩
  exact not_invariant_of_absorbsHint h habs ⟨s', r, hcall, bs', h'⟩

end ImplusKernel.Heap
