import ImplusKernel.Memory.HeapCoalescing
import ImplusKernel.Memory.HeapHint

/-!
# Resizing and fragmentation

What `krealloc` splits off a shrunk allocation becomes a free block of its
own, and the block behind it is not looked at.  If that block is free as
well, two free blocks stand side by side, and no later call joins them.
Every other call keeps free blocks apart.
-/

namespace ImplusKernel.Heap

open ByteMemory Words Tiling

variable {s s' : MemoryState} {bs pre post : List Block} {b c : Block} {n ptr newSize : ℕ}

/-- The allocation at `ptr` shrinks by enough to be split, and the block
behind it is free. -/
def ShrinksBesideFree (bs : List Block) (ptr newSize : ℕ) : Prop :=
  newSize ≠ 0 ∧ ∃ pre b c post, bs = pre ++ b :: c :: post ∧ b.tag = false ∧
    payload b = ptr ∧ c.tag = true ∧
    alignUp newSize minAllocAlign + headerSize + minSplitRemainder ≤ b.size

/-- The call searches the list for a free block. -/
def Searches (bs : List Block) (ptr newSize : ℕ) : Prop :=
  newSize ≠ 0 ∧ (ptr = 0 ∨ MustMove bs ptr (alignUp newSize minAllocAlign))

/-- The block list after a call has no two free blocks side by side. -/
def StaysCoalesced (s : MemoryState) (ptr newSize : ℕ) : Prop :=
  ∃ s' r bs', krealloc s ptr newSize = some (s', r) ∧ heapBlocks s' = some bs' ∧ Coalesced bs'

theorem StaysCoalesced.of_represents {r : KreallocResult}
    (hcall : krealloc s ptr newSize = some (s', r)) (h : Represents s' bs) (hc : Coalesced bs) :
    StaysCoalesced s ptr newSize :=
  ⟨s', r, bs, hcall, h.heapBlocks_eq, hc⟩

/-! ## In place -/

theorem coalesced_shrunk_iff (h : Coalesced (pre ++ b :: post)) (hb : b.tag = false) :
    Coalesced (pre ++ handedOut b n :: (remainder b n ++ post)) ↔
      ¬(n + headerSize + minSplitRemainder ≤ b.size ∧ ∃ c ∈ post.head?, c.tag = true) := by
  obtain ⟨hpre, hpost⟩ := (coalesced_used_iff hb).mp h
  rw [coalesced_used_iff rfl, and_iff_right hpre]
  unfold remainder
  by_cases hsplit : n + headerSize + minSplitRemainder ≤ b.size
  · rw [if_pos hsplit]
    have hcons := List.isChain_cons (R := NotBothFree) (l := post)
      (x := ⟨b.start + headerSize + n, b.size - n - headerSize, true⟩)
    simp only [Coalesced, List.singleton_append, hcons, NotBothFree, hsplit, true_and]
    constructor
    · rintro ⟨hhead, -⟩ ⟨c, hc, hfree⟩
      exact hhead c hc hfree
    · exact fun hno ↦ ⟨fun c hc hfree ↦ hno ⟨c, hc, hfree⟩, hpost⟩
  · rw [if_neg hsplit]
    exact iff_of_true hpost fun hboth ↦ hsplit hboth.1

theorem Coalesced.grown (h : Coalesced (pre ++ b :: c :: post)) (hb : b.tag = false)
    (hc : c.tag = true) (n : ℕ) :
    Coalesced (pre ++ handedOut (merged b c false) n ::
      (remainder (merged b c false) n ++ post)) := by
  obtain ⟨hpre, hrest⟩ := (coalesced_used_iff hb).mp h
  exact (coalesced_used_iff rfl).mpr ⟨hpre, hrest.remainder_append hc _ n⟩

/-! ## Allocating and freeing -/

theorem kmalloc_coalesced (h : HeapInvariant s bs) (hc : Coalesced bs) {size : ℕ}
    (hsize : size ≠ 0) :
    ∃ s' r bs', kmalloc s size = some (s', r) ∧ Represents s' bs' ∧ Coalesced bs' := by
  rcases kmalloc_spec h hsize with ⟨pre, b, post, rfl, htag, -, hcall⟩ | ⟨-, hcall⟩
  · exact ⟨_, _, _, hcall, (h.allocated (alignUp_aligned size)).represents, hc.allocate htag⟩
  · exact ⟨_, _, _, hcall, h.represents, hc⟩

theorem kfree_coalesced (h : Represents s bs) (hc : Coalesced bs) (ptr : ℕ) :
    ∃ s' r bs', kfree s ptr = some (s', r) ∧ Represents s' bs' ∧ Coalesced bs' := by
  rcases kfree_cases h ptr with ⟨r, -, hcall⟩ | ⟨pre, b, post, rfl, hused, -, hcall⟩
  · exact ⟨_, _, _, hcall, h, hc⟩
  · exact ⟨_, _, _, hcall, h.release, hc.release hused⟩

/-- `kmalloc_locked` takes a `NULL` hint for the start of the heap. -/
theorem kmalloc_null_hint (hinit : s.heapInitialized = true) (hnull : s.heapSearchHint = 0)
    {size : ℕ} (hsize : size ≠ 0) :
    kmalloc s size = kmalloc { s with heapSearchHint := s.heapStart } size := by
  simp [kmalloc, kmallocLocked, hinit, hnull, hsize]

theorem krealloc_null_hint (h : Represents s bs) (hnull : s.heapSearchHint = 0)
    (hsearch : Searches bs ptr newSize) :
    krealloc s ptr newSize = krealloc { s with heapSearchHint := s.heapStart } ptr newSize := by
  obtain ⟨hsize, rfl | ⟨⟨b, hb, hused, rfl, hgt⟩, hno⟩⟩ := hsearch
  · unfold krealloc
    rw [if_pos rfl, if_pos rfl, kmalloc_null_hint h.initialized hnull hsize]
  · obtain ⟨pre, post, rfl⟩ := List.append_of_mem hb
    have h₀ : Represents { s with heapSearchHint := s.heapStart } (pre ++ b :: post) :=
      ⟨h.initialized, h.chain⟩
    have hptr : payload b ≠ 0 := by simp [payload, headerSize]
    have hpos : b.start ≠ 0 := (h.chain.start_pos hb).ne'
    have hflag : blockIsFree s.mem b.start = 0 := by
      rw [h.chain.header.isFree_eq, hused]
      rfl
    have hguard : ¬(b.start = 0 ∨ blockIsFree s.mem b.start ≠ 0) := by simp [hpos, hflag]
    have habsorb := mt (absorbable_iff h (alignUp newSize minAllocAlign)).mp fun hnext ↦ by
      obtain ⟨c, rest, rfl, hfree, hcover⟩ := hnext
      exact hno ⟨pre, b, c, rest, rfl, hused, rfl, hfree, hgt, hcover⟩
    unfold krealloc
    rw [if_neg hptr, if_neg hptr, if_neg hsize, if_neg hsize, findBlockByPayload_found h,
      findBlockByPayload_found h₀]
    simp only [Option.bind_eq_bind, Option.bind_some, if_neg hguard, h.chain.header.size_eq,
      if_neg (not_le.mpr hgt), if_neg habsorb]
    rw [kmalloc_null_hint h.initialized hnull (by omega)]

/-! ## Every call -/

theorem not_shrinks_of_lt (h : Represents s bs) (hb : b ∈ bs) (hptr : payload b = ptr)
    (hgt : b.size < alignUp newSize minAllocAlign) : ¬ShrinksBesideFree bs ptr newSize := by
  rintro ⟨-, pre, b', c, post, rfl, -, hptr', -, hle⟩
  obtain rfl := h.eq_of_payload hb (by simp) (hptr.trans hptr'.symm)
  omega

theorem shrinks_iff (h : Represents s (pre ++ b :: post)) (hb : b.tag = false)
    (hsize : newSize ≠ 0) :
    ShrinksBesideFree (pre ++ b :: post) (payload b) newSize ↔
      alignUp newSize minAllocAlign + headerSize + minSplitRemainder ≤ b.size ∧
        ∃ c ∈ post.head?, c.tag = true := by
  constructor
  · rintro ⟨-, pre', b', c, rest, hbs, -, hptr, hfree, hle⟩
    obtain rfl := h.eq_of_payload (by simp [hbs]) (by simp) hptr
    obtain rfl := tail_eq_of_nodup h.chain.nodup hbs
    exact ⟨hle, c, rfl, hfree⟩
  · rintro ⟨hle, c, hc, hfree⟩
    obtain ⟨rest, rfl⟩ := List.head?_eq_some_iff.mp hc
    exact ⟨hsize, pre, b, c, rest, rfl, hb, rfl, hfree, hle⟩

/-- Moving an allocation takes a free block and frees the old one. -/
theorem moved_coalesced {d : Block} (h : HeapInvariant s (pre ++ d :: post))
    (hc : Coalesced (pre ++ d :: post)) (hd : d.tag = true) (hn : n % minAllocAlign = 0)
    (hgt : b.size < n) (hfit : n ≤ d.size) {old : KfreeResult}
    (hfree : kfree (copied s b d n post) ptr = some (s', old)) :
    ∃ bs', Represents s' bs' ∧ Coalesced bs' := by
  have hcopied := h.copied (b := b) hn hgt hfit
  obtain ⟨s'', r, bs', hcall, h', hc'⟩ :=
    kfree_coalesced hcopied.represents (hc.allocate hd) ptr
  obtain ⟨rfl, -⟩ := Prod.mk.inj (Option.some.inj (hfree.symm.trans hcall))
  exact ⟨bs', h', hc'⟩

theorem Reallocates.coalesced_iff {r : KreallocResult} (h : Represents s bs) (hc : Coalesced bs)
    (hsize : newSize ≠ 0) (hhint : MustMove bs ptr (alignUp newSize minAllocAlign) →
      ∃ b ∈ bs, b.start = s.heapSearchHint)
    (hr : Reallocates s bs ptr (alignUp newSize minAllocAlign) s' r) :
    ∃ bs', Represents s' bs' ∧ (Coalesced bs' ↔ ¬ShrinksBesideFree bs ptr newSize) := by
  have hn := alignUp_aligned newSize
  cases hr with
  | rejected hdead =>
      refine ⟨bs, h, iff_of_true hc ?_⟩
      rintro ⟨-, pre, b, c, post, rfl, hb, hptr, -⟩
      simp [hdead b (by simp) hptr] at hb
  | shrunk pre b post hbs hb hptr hfit =>
      subst hbs hptr
      refine ⟨_, h.shrunk hb hn, ?_⟩
      rw [coalesced_shrunk_iff hc hb, shrinks_iff h hb hsize]
  | grown pre b c post hbs hb hptr hfree hgt hfit =>
      subst hbs
      exact ⟨_, h.grown hb hn, iff_of_true (hc.grown hb hfree _)
        (not_shrinks_of_lt h (by simp) hptr hgt)⟩
  | stuck b hmem hb hptr hgt _ _ =>
      exact ⟨bs, h, iff_of_true hc (not_shrinks_of_lt h hmem hptr hgt)⟩
  | moved b hmem hb hptr hgt hno before d after hbs hd hfit _ _ hfree =>
      have hinv : HeapInvariant s bs :=
        ⟨h.initialized, h.chain, hhint ⟨⟨b, hmem, hb, hptr, hgt⟩, hno⟩⟩
      obtain ⟨bs', h', hc'⟩ := moved_coalesced (hbs ▸ hinv) (hbs ▸ hc) hd hn hgt hfit hfree
      exact ⟨bs', h', iff_of_true hc' (not_shrinks_of_lt h hmem hptr hgt)⟩

theorem staysCoalesced_iff (h : Represents s bs) (hc : Coalesced bs)
    (hhint : Searches bs ptr newSize → ∃ b ∈ bs, b.start = s.heapSearchHint) :
    StaysCoalesced s ptr newSize ↔ ¬ShrinksBesideFree bs ptr newSize := by
  by_cases hsize : newSize = 0
  · refine iff_of_true ?_ fun hshrinks ↦ hshrinks.1 hsize
    subst hsize
    by_cases hptr : ptr = 0
    · refine .of_represents (r := .fresh .zeroSize) ?_ h hc
      simp [krealloc, hptr, kmalloc_zero h]
    · obtain ⟨s', r, bs', hcall, h', hc'⟩ := kfree_coalesced h hc ptr
      refine .of_represents (r := .released r) ?_ h' hc'
      simp [krealloc, hptr, hcall]
  by_cases hptr : ptr = 0
  · subst hptr
    refine iff_of_true ?_ ?_
    · have hinv : HeapInvariant s bs := ⟨h.initialized, h.chain, hhint ⟨hsize, Or.inl rfl⟩⟩
      obtain ⟨s', r, bs', hcall, h', hc'⟩ := kmalloc_coalesced hinv hc hsize
      refine .of_represents (r := .fresh r) ?_ h' hc'
      simp [krealloc, hcall]
    · rintro ⟨-, pre, b, c, post, -, -, hnull, -⟩
      simp [payload, headerSize] at hnull
  have hmoves := fun hmoves ↦ hhint ⟨hsize, Or.inr hmoves⟩
  obtain ⟨s', r, hcall, hr⟩ := krealloc_outcome h hptr hsize hmoves
  obtain ⟨bs', h', hiff⟩ := hr.coalesced_iff h hc hsize hmoves
  rw [← hiff]
  refine ⟨?_, .of_represents hcall h'⟩
  rintro ⟨s'', r', bs'', hcall', hbs'', hc''⟩
  obtain ⟨rfl, -⟩ := Prod.mk.inj (Option.some.inj (hcall.symm.trans hcall'))
  obtain rfl := Option.some.inj (h'.heapBlocks_eq.symm.trans hbs'')
  exact hc''

/-- On a heap without neighbouring free blocks, `krealloc` keeps free blocks
apart exactly when it does not split an allocation in front of a free block.
A call that searches for a block is made with the hint on the list, or
`NULL`. -/
theorem krealloc_coalesced_iff (h : Represents s bs) (hc : Coalesced bs)
    (hhint : Searches bs ptr newSize →
      s.heapSearchHint = 0 ∨ ∃ b ∈ bs, b.start = s.heapSearchHint) :
    StaysCoalesced s ptr newSize ↔ ¬ShrinksBesideFree bs ptr newSize := by
  by_cases hnull : Searches bs ptr newSize ∧ s.heapSearchHint = 0
  · have h₀ : Represents { s with heapSearchHint := s.heapStart } bs := ⟨h.initialized, h.chain⟩
    rw [StaysCoalesced, krealloc_null_hint h hnull.2 hnull.1]
    exact staysCoalesced_iff h₀ hc fun _ ↦ h.heapStart_mem
  · exact staysCoalesced_iff h hc fun hsearch ↦
      (hhint hsearch).resolve_left fun hzero ↦ hnull ⟨hsearch, hzero⟩

/-- Growing an allocation over the free block behind it keeps free blocks
apart. -/
theorem krealloc_coalesced_growing :
    ∃ s bs, Represents s bs ∧ Coalesced bs ∧ StaysCoalesced s 0x110010 64 := by
  obtain ⟨s, -, -, h⟩ := sampleHeap_allocated
  have hc : Coalesced [(⟨0x110000, 32, false⟩ : Block), ⟨0x110030, 16777152, true⟩] :=
    List.isChain_pair.mpr (notBothFree_of_left rfl)
  refine ⟨s, _, h.represents, hc,
    (krealloc_coalesced_iff h.represents hc fun _ ↦ Or.inr h.hint).mpr ?_⟩
  exact not_shrinks_of_lt h.represents List.mem_cons_self rfl (by decide)

/-- An allocation of 200 bytes is cut down to 24: what is given back stands
as a free block in front of the free rest of the heap. -/
theorem krealloc_fragments :
    ∃ s s' r, kmalloc sampleHeap 200 = some (s, .block 0x110010) ∧
      HeapInvariant s [⟨0x110000, 200, false⟩, ⟨0x1100D8, 16776984, true⟩] ∧
      krealloc s 0x110010 24 = some (s', r) ∧
      heapBlocks s' = some [⟨0x110000, 24, false⟩, ⟨0x110028, 160, true⟩,
        ⟨0x1100D8, 16776984, true⟩] ∧
      ¬StaysCoalesced s 0x110010 24 := by
  have h₀ : HeapInvariant sampleHeap ([] ++ ⟨0x110000, 16777200, true⟩ :: []) :=
    heapInvariant_memoryInit ⟨by norm_num, by norm_num⟩ fun _ ↦ 0
  have hcalls : ((kmalloc sampleHeap 200).bind fun r₁ ↦ (krealloc r₁.1 0x110010 24).map fun r₂ ↦
      (r₁.2, decide (heapBlocks r₂.1 = some [⟨0x110000, 24, false⟩, ⟨0x110028, 160, true⟩,
        ⟨0x1100D8, 16776984, true⟩]))) = some (.block 0x110010, true) := by decide +kernel
  have hfirst : kmalloc sampleHeap 200 =
      some (allocated sampleHeap ⟨0x110000, 16777200, true⟩ 200 [], .block 0x110010) := rfl
  simp only [hfirst, Option.bind_some, Option.map_eq_some_iff, Prod.mk.injEq] at hcalls
  obtain ⟨⟨s', r⟩, hcall, -, hblocks⟩ := hcalls
  have hblocks := of_decide_eq_true hblocks
  refine ⟨_, s', r, hfirst, h₀.allocated (n := 200) rfl, hcall, hblocks, ?_⟩
  rintro ⟨s'', r', bs', hcall', hbs', hc⟩
  obtain ⟨rfl, -⟩ := Prod.mk.inj (Option.some.inj (hcall.symm.trans hcall'))
  obtain rfl := Option.some.inj (hblocks.symm.trans hbs')
  exact (List.isChain_cons_cons.mp (List.isChain_cons_cons.mp hc).2).1 ⟨rfl, rfl⟩

end ImplusKernel.Heap
