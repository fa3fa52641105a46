import ImplusKernel.Memory.HeapWalks

/-!
# What each allocator call does to the block list

One specification per entry point, stated on the block list.  Callers use
these and never unfold the memory-level definitions.
-/

namespace ImplusKernel.Heap

open ByteMemory Words Tiling

/-- The representation invariant: the list from `heap_start` tiles the heap,
and the search hint is one of its nodes. -/
structure HeapInvariant (s : MemoryState) (bs : List Block) : Prop where
  initialized : s.heapInitialized = true
  chain : Chain s.mem s.heapStart (s.heapStart + heapBytes) bs
  hint : ∃ b ∈ bs, b.start = s.heapSearchHint

/-- The same without the hint. -/
structure Represents (s : MemoryState) (bs : List Block) : Prop where
  initialized : s.heapInitialized = true
  chain : Chain s.mem s.heapStart (s.heapStart + heapBytes) bs

variable {s s' : MemoryState} {m : Mem} {lo hi : ℕ} {bs pre post : List Block} {b c : Block}

theorem HeapInvariant.represents (h : HeapInvariant s bs) : Represents s bs :=
  ⟨h.initialized, h.chain⟩

theorem Represents.ne_nil (h : Represents s bs) : bs ≠ [] := by
  intro hnil
  have ht := h.chain.tiles
  rw [hnil, tiles_nil] at ht
  simp [heapBytes, heapPageCount, pageSize] at ht

theorem Represents.heapStart_eq (h : Represents s bs) : nextAddr bs 0 = s.heapStart :=
  nextAddr_of_tiles h.ne_nil h.chain.tiles

theorem Represents.heapStart_mem (h : Represents s bs) :
    ∃ b ∈ bs, b.start = s.heapStart := by
  have hstart := h.heapStart_eq
  cases hbs : bs with
  | nil => exact absurd hbs h.ne_nil
  | cons b bs' =>
      rw [hbs, nextAddr_cons] at hstart
      exact ⟨b, by simp, hstart⟩

/-- Only one block has its payload at a given address. -/
theorem Represents.eq_of_payload (h : Represents s bs) (hb : b ∈ bs) (hc : c ∈ bs)
    (heq : payload b = payload c) : b = c :=
  h.chain.tiles.eq_of_start_eq (by norm_num [headerSize]) hb hc (Nat.add_right_cancel heq)

/-! ## Rounding -/

theorem alignUp_eq (size : ℕ) :
    alignUp size minAllocAlign = (size + 7) % 2 ^ 32 / 8 * 8 := by
  have hmask : 2 ^ 32 - 1 - (minAllocAlign - 1) = highMask 32 3 := rfl
  have hsum : size + minAllocAlign - 1 = size + 7 := rfl
  rw [alignUp, hmask, hsum, land_highMask (by norm_num) (Nat.mod_lt _ (by norm_num))]
  norm_num

theorem alignUp_aligned (size : ℕ) : alignUp size minAllocAlign % minAllocAlign = 0 := by
  rw [alignUp_eq]
  exact Nat.mul_mod_left _ 8

/-- Requests of at most `0xFFFFFFF8` bytes are rounded up. -/
theorem le_alignUp {size : ℕ} (h : size ≤ 0xFFFFFFF8) :
    size ≤ alignUp size minAllocAlign := by
  rw [alignUp_eq]
  omega

/-- The last seven request sizes wrap to nothing. -/
theorem alignUp_wraps {size : ℕ} (h : 0xFFFFFFF8 < size) (hlt : size < 2 ^ 32) :
    alignUp size minAllocAlign = 0 := by
  rw [alignUp_eq]
  omega

/-! ## Allocation -/

/-- The size recorded for a block after `n` bytes were taken from it. -/
def granted (b : Block) (n : ℕ) : ℕ :=
  if n + headerSize + minSplitRemainder ≤ b.size then n else b.size

/-- The block handed out when `n` bytes are taken from `b`. -/
def handedOut (b : Block) (n : ℕ) : Block := ⟨b.start, granted b n, false⟩

/-- What is left of `b` behind the block handed out. -/
def remainder (b : Block) (n : ℕ) : List Block :=
  if n + headerSize + minSplitRemainder ≤ b.size then
    [⟨b.start + headerSize + n, b.size - n - headerSize, true⟩]
  else []

theorem carve_eq (b : Block) (n : ℕ) : carve b n false = handedOut b n :: remainder b n := by
  unfold carve handedOut remainder granted
  split <;> rfl

theorem le_granted {n : ℕ} (h : n ≤ b.size) : n ≤ granted b n := by
  unfold granted
  split <;> omega

theorem remainder_free {n : ℕ} {x : Block} (hx : x ∈ remainder b n) : x.tag = true := by
  unfold remainder at hx
  split at hx
  · rw [List.mem_singleton.mp hx]
  · simp at hx

/-- Splitting a block and marking its first part as used. -/
theorem Chain.allocate {n : ℕ} (hc : Chain m lo hi (pre ++ b :: post))
    (hn : n % minAllocAlign = 0) :
    Chain (setIsFree (splitBlockIfNeeded m b.start n) b.start 0) lo hi
      (pre ++ handedOut b n :: (remainder b n ++ post)) := by
  have hsplit := hc.split hn
  have hcarve : carve b n b.tag = ⟨b.start, granted b n, b.tag⟩ :: remainder b n := by
    unfold carve remainder granted
    split <;> rfl
  rw [hcarve, List.cons_append] at hsplit
  exact hsplit.retag false

theorem headersOnly_allocate {n : ℕ} (hc : Chain m lo hi (pre ++ b :: post)) :
    HeadersOnly (carve b n false) m
      (setIsFree (splitBlockIfNeeded m b.start n) b.start 0) := by
  refine (headersOnly_split hc n false).trans ?_
  refine (headersOnly_setIsFree _ b 0).mono (carve b n false) ?_
  intro x hx
  rw [List.mem_singleton.mp hx, carve_eq]
  exact ⟨handedOut b n, by simp, rfl⟩

/-- The state after `n` bytes were taken from the block `b` of
`pre ++ b :: post`. -/
def allocated (s : MemoryState) (b : Block) (n : ℕ) (post : List Block) : MemoryState :=
  { s with
    mem := setIsFree (splitBlockIfNeeded s.mem b.start n) b.start 0
    totalAllocated := (s.totalAllocated + granted b n) % 2 ^ 32
    heapSearchHint := nextAddr (remainder b n ++ post) s.heapStart }

theorem nextAddr_eq_last {ys : List Block} (last : ℕ) (hys : ∀ x ∈ ys, 0 < x.start) :
    (if nextAddr ys 0 ≠ 0 then nextAddr ys 0 else last) = nextAddr ys last := by
  cases ys with
  | nil => simp
  | cons y ys =>
      have hpos : y.start ≠ 0 := (hys y (by simp)).ne'
      simp [hpos]

theorem HeapInvariant.allocated {n : ℕ} (h : HeapInvariant s (pre ++ b :: post))
    (hn : n % minAllocAlign = 0) :
    HeapInvariant (allocated s b n post)
      (pre ++ handedOut b n :: (remainder b n ++ post)) := by
  have hchain := h.chain.allocate hn
  refine ⟨h.initialized, hchain, ?_⟩
  have hrep : Represents (Heap.allocated s b n post)
      (pre ++ handedOut b n :: (remainder b n ++ post)) := ⟨h.initialized, hchain⟩
  simp only [Heap.allocated]
  cases hrest : remainder b n ++ post with
  | nil =>
      rw [nextAddr_nil, ← hrest]
      exact hrep.heapStart_mem
  | cons x rest => exact ⟨x, by simp, rfl⟩

/-- The search goes once round the list, from the hint on. -/
theorem HeapInvariant.search (h : HeapInvariant s bs) (n : ℕ) :
    (if s.heapSearchHint = 0 then s.heapStart else s.heapSearchHint) = s.heapSearchHint ∧
      ∃ before x after, bs = before ++ x :: after ∧
        searchFrom s.mem s.heapStart s.heapSearchHint n walkFuel s.heapSearchHint false =
          some (found ((x :: after ++ before).find? (fitsRequest n))) := by
  obtain ⟨x, hx, hhint⟩ := h.hint
  obtain ⟨before, after, rfl⟩ := List.append_of_mem hx
  have hhint0 : s.heapSearchHint ≠ 0 := by
    rw [← hhint]
    exact (h.chain.start_pos hx).ne'
  have hsearch := h.chain.search n
  rw [h.represents.heapStart_eq, hhint] at hsearch
  exact ⟨if_neg hhint0, before, x, after, rfl, hsearch⟩

theorem HeapInvariant.kmallocLocked_returns (h : HeapInvariant s bs) (n : ℕ) :
    (kmallocLocked s n).isSome := by
  obtain ⟨hstart, before, x, after, -, hsearch⟩ := h.search n
  unfold kmallocLocked
  simp only [hstart, hsearch, Option.bind_eq_bind, Option.bind_some]
  split <;> rfl

/-- `kmalloc_locked` takes the first fitting block after the hint, or fails
when there is none. -/
theorem kmallocLocked_spec (h : HeapInvariant s bs) {n : ℕ} (hn : n % minAllocAlign = 0) :
    (∃ pre b post, bs = pre ++ b :: post ∧ b.tag = true ∧ n ≤ b.size ∧
      kmallocLocked s n = some (allocated s b n post, payload b)) ∨
    ((∀ b ∈ bs, b.tag = true → b.size < n) ∧ kmallocLocked s n = some (s, 0)) := by
  obtain ⟨hstart, before, x, after, rfl, hsearch⟩ := h.search n
  have hperm : ∀ y, y ∈ x :: after ++ before ↔ y ∈ before ++ x :: after := by
    intro y
    simp only [List.mem_append]
    exact or_comm
  cases hfind : (x :: after ++ before).find? (fitsRequest n) with
  | none =>
      refine Or.inr ⟨?_, ?_⟩
      · intro y hy htag
        have hnot := List.find?_eq_none.mp hfind y ((hperm y).mpr hy)
        rw [fitsRequest_eq_true_iff] at hnot
        by_contra hge
        exact hnot ⟨htag, by omega⟩
      · unfold kmallocLocked
        simp only [hstart, hsearch, hfind, found, Option.elim_none, Option.bind_eq_bind,
          Option.bind_some, if_true]
  | some y =>
      have hy : y ∈ before ++ x :: after := (hperm y).mp (List.mem_of_find?_eq_some hfind)
      have hfit := fitsRequest_eq_true_iff.mp (List.find?_some hfind)
      obtain ⟨pre, post, hsplit⟩ := List.append_of_mem hy
      refine Or.inl ⟨pre, y, post, hsplit, hfit.1, hfit.2, ?_⟩
      have hpos : y.start ≠ 0 := (h.chain.start_pos hy).ne'
      have hpayload := h.chain.payload_lt hy
      rw [hsplit] at h
      have hchain := h.chain.allocate hn
      have hheader := hchain.header
      have hpositive : ∀ z ∈ remainder y n ++ post, 0 < z.start := fun z hz ↦
        hchain.start_pos (List.mem_append_right _ (List.mem_cons_of_mem _ hz))
      have hsize : blockSize (setIsFree (splitBlockIfNeeded s.mem y.start n) y.start 0)
          y.start = granted y n := hheader.size_eq
      have hnext : blockNext (setIsFree (splitBlockIfNeeded s.mem y.start n) y.start 0)
          y.start = nextAddr (remainder y n ++ post) 0 := hheader.next_eq
      have hptr : (y.start + headerSize) % 2 ^ 64 = payload y := Nat.mod_eq_of_lt hpayload
      unfold kmallocLocked
      simp only [hstart, hsearch, hfind, found, Option.elim_some, Option.bind_eq_bind,
        Option.bind_some, if_neg hpos, hsize, hnext, hptr, nextAddr_eq_last _ hpositive]
      rfl

theorem kmalloc_zero (h : Represents s bs) : kmalloc s 0 = some (s, .zeroSize) := by
  simp [kmalloc, h.initialized]

theorem kmalloc_spec (h : HeapInvariant s bs) {size : ℕ} (hsize : size ≠ 0) :
    (∃ pre b post, bs = pre ++ b :: post ∧ b.tag = true ∧
      alignUp size minAllocAlign ≤ b.size ∧
      kmalloc s size = some (allocated s b (alignUp size minAllocAlign) post,
        .block (payload b))) ∨
    ((∀ b ∈ bs, b.tag = true → b.size < alignUp size minAllocAlign) ∧
      kmalloc s size = some (s, .outOfMemory (alignUp size minAllocAlign))) := by
  rcases kmallocLocked_spec h (alignUp_aligned size) with
    ⟨pre, b, post, hbs, htag, hle, hlocked⟩ | ⟨hnone, hlocked⟩
  · refine Or.inl ⟨pre, b, post, hbs, htag, hle, ?_⟩
    have hptr : payload b ≠ 0 := by simp [payload, headerSize]
    simp [kmalloc, h.initialized, hsize, hlocked, hptr]
  · refine Or.inr ⟨hnone, ?_⟩
    simp [kmalloc, h.initialized, hsize, hlocked]

/-- A block handed out lies in the heap. -/
theorem kmalloc_inHeap (h : HeapInvariant s bs) {size : ℕ} (hpos : size ≠ 0)
    (hle : size ≤ 0xFFFFFFF8) {r : KmallocResult} (hcall : kmalloc s size = some (s', r))
    (hptr : r.ptr ≠ 0) :
    s.heapStart ≤ r.ptr ∧ r.ptr + size ≤ s.heapStart + heapBytes ∧
      s.heapStart + heapBytes ≤ 2 ^ 64 := by
  rcases kmalloc_spec h hpos with ⟨pre, b, post, rfl, -, hfit, hk⟩ | ⟨-, hk⟩
  · rw [hk] at hcall
    obtain ⟨-, rfl⟩ := Prod.mk.inj (Option.some.inj hcall)
    have hbounds := h.chain.bounds (List.mem_append_right pre (List.mem_cons_self ..))
    have hsize := (le_alignUp hle).trans hfit
    have hfits := h.chain.fits
    simp only [KmallocResult.ptr, payload]
    omega
  · rw [hk] at hcall
    obtain ⟨-, rfl⟩ := Prod.mk.inj (Option.some.inj hcall)
    exact absurd rfl hptr

/-! ## Release -/

/-- The forward merge of `kfree` on the block list. -/
def coalesceNext (b : Block) : List Block → Block × List Block
  | [] => (b, [])
  | c :: post => if c.tag then (merged b c b.tag, post) else (b, c :: post)

/-- The backward merge of `kfree` on the block list. -/
def coalescePrev (pre : List Block) (b : Block) (post : List Block) : List Block :=
  match pre.getLast? with
  | none => b :: post
  | some p => if p.tag then pre.dropLast ++ merged p b p.tag :: post else pre ++ b :: post

/-- The block list after `b` was freed. -/
def released (pre : List Block) (b : Block) (post : List Block) : List Block :=
  coalescePrev pre (coalesceNext ⟨b.start, b.size, true⟩ post).1
    (coalesceNext ⟨b.start, b.size, true⟩ post).2

theorem coalesceNext_cons (b c : Block) (post : List Block) :
    coalesceNext b (c :: post) =
      if c.tag then (merged b c b.tag, post) else (b, c :: post) := rfl

theorem coalesceNext_start (b : Block) (post : List Block) :
    (coalesceNext b post).1.start = b.start := by
  cases post with
  | nil => rfl
  | cons c post =>
      rw [coalesceNext_cons]
      split <;> rfl

theorem coalesceNext_tag (b : Block) (post : List Block) :
    (coalesceNext b post).1.tag = b.tag := by
  cases post with
  | nil => rfl
  | cons c post =>
      rw [coalesceNext_cons]
      split <;> rfl

theorem mem_coalesceNext_iff {b x : Block} {post : List Block} (hx : x.tag = false) :
    x ∈ (coalesceNext b post).2 ↔ x ∈ post := by
  cases post with
  | nil => rfl
  | cons c post =>
      rw [coalesceNext_cons]
      split
      · rename_i htag
        have hne : x ≠ c := by
          rintro rfl
          simp [hx] at htag
        simp [hne]
      · rfl

theorem mem_coalescePrev_iff {pre post : List Block} {b x : Block} (hb : b.tag = true)
    (hx : x.tag = false) : x ∈ coalescePrev pre b post ↔ x ∈ pre ∨ x ∈ post := by
  have hne : x ≠ b := by
    rintro rfl
    simp [hx] at hb
  rcases List.eq_nil_or_concat pre with rfl | ⟨pre', p, rfl⟩
  · simp [coalescePrev, hne]
  · simp only [coalescePrev, List.concat_eq_append, List.getLast?_append_cons,
      List.getLast?_singleton, List.dropLast_concat]
    split
    · rename_i htag
      have hnp : x ≠ p := by
        rintro rfl
        simp [hx] at htag
      have hnm : x ≠ merged p b p.tag := by
        rintro rfl
        simp [merged, htag] at hx
      simp [hnp, hnm]
    · simp [hne, or_assoc]

/-- Freeing `b` removes it, and nothing else, from the blocks in use. -/
theorem mem_released_iff {pre post : List Block} {b x : Block} (hx : x.tag = false) :
    x ∈ released pre b post ↔ x ∈ pre ∨ x ∈ post := by
  unfold released
  rw [mem_coalescePrev_iff (coalesceNext_tag _ _) hx, mem_coalesceNext_iff hx]

theorem Chain.forward (hc : Chain m lo hi (pre ++ b :: post)) :
    Chain (mergeForward m b.start) lo hi
      (pre ++ (coalesceNext b post).1 :: (coalesceNext b post).2) := by
  have hnext := hc.header.next_eq
  unfold mergeForward
  cases post with
  | nil =>
      rw [nextAddr_nil] at hnext
      rw [if_neg (by simp [hnext])]
      exact hc
  | cons c post =>
      rw [nextAddr_cons] at hnext
      have hpos : c.start ≠ 0 := (hc.start_pos (by simp)).ne'
      have hfree := isFree_ne_zero_iff hc.second_header
      rw [coalesceNext_cons]
      by_cases htag : c.tag = true
      · rw [hnext, if_pos ⟨hpos, hfree.mpr htag⟩, if_pos htag]
        exact hc.absorb
      · rw [hnext, if_neg (fun h ↦ htag (hfree.mp h.2)), if_neg htag]
        exact hc

theorem headersOnly_mergeForward (hc : Chain m lo hi (pre ++ b :: post)) :
    HeadersOnly [b] m (mergeForward m b.start) := by
  have hnext := hc.header.next_eq
  unfold mergeForward
  split
  · rename_i hfree
    cases post with
    | nil =>
        rw [nextAddr_nil] at hnext
        exact absurd hnext hfree.1
    | cons c post => exact headersOnly_absorb hc
  · exact HeadersOnly.refl _ m

theorem coalescePrev_concat (pre : List Block) (p b : Block) (post : List Block) :
    coalescePrev (pre ++ [p]) b post =
      if p.tag then pre ++ merged p b p.tag :: post else pre ++ [p] ++ b :: post := by
  simp only [coalescePrev, List.getLast?_append_cons, List.getLast?_singleton,
    List.dropLast_concat]

/-- The backward merge on a list whose predecessor block is `p`. -/
theorem mergeBackward_eq (hc : Chain m lo hi (pre ++ c :: b :: post)) :
    mergeBackward m c.start b.start =
      if c.tag then
        (setNext (setSize m c.start (c.size + headerSize + b.size)) c.start
          (nextAddr post 0), c.start)
      else (m, b.start) := by
  have hpos : c.start ≠ 0 := (hc.start_pos (by simp)).ne'
  have hfree := isFree_ne_zero_iff hc.header
  have hsecond := hc.second_start
  have hmod : (c.size + headerSize + b.size) % 2 ^ 32 = c.size + headerSize + b.size :=
    Nat.mod_eq_of_lt hc.merged_size_lt
  unfold mergeBackward
  by_cases htag : c.tag = true
  · rw [if_pos ⟨hpos, hfree.mpr htag⟩, if_pos htag]
    simp only [hc.header.size_eq, hc.second_header.size_eq, hmod]
    rw [blockNext_setSize_of_ne (by omega), hc.second_header.next_eq]
  · rw [if_neg (fun h ↦ htag (hfree.mp h.2)), if_neg htag]

theorem Chain.backward (hc : Chain m lo hi (pre ++ b :: post)) :
    Chain (mergeBackward m (prevAddr pre 0) b.start).1 lo hi (coalescePrev pre b post) := by
  rcases List.eq_nil_or_concat pre with rfl | ⟨pre', p, rfl⟩
  · exact hc
  · rw [List.concat_eq_append] at hc ⊢
    have hpair : Chain m lo hi (pre' ++ p :: b :: post) := by simpa using hc
    rw [prevAddr_concat, mergeBackward_eq hpair, coalescePrev_concat]
    by_cases htag : p.tag = true
    · rw [if_pos htag, if_pos htag]
      exact hpair.merge rfl rfl
    · rw [if_neg htag, if_neg htag]
      exact hc

theorem mergeBackward_hint (hc : Chain m lo hi (pre ++ b :: post)) :
    ∃ x ∈ coalescePrev pre b post,
      x.start = (mergeBackward m (prevAddr pre 0) b.start).2 := by
  rcases List.eq_nil_or_concat pre with rfl | ⟨pre', p, rfl⟩
  · exact ⟨b, by simp [coalescePrev], rfl⟩
  · rw [List.concat_eq_append] at hc ⊢
    have hpair : Chain m lo hi (pre' ++ p :: b :: post) := by simpa using hc
    rw [prevAddr_concat, mergeBackward_eq hpair, coalescePrev_concat]
    by_cases htag : p.tag = true
    · rw [if_pos htag, if_pos htag]
      exact ⟨merged p b p.tag, by simp, rfl⟩
    · rw [if_neg htag, if_neg htag]
      exact ⟨b, by simp, rfl⟩

theorem headersOnly_mergeBackward (hc : Chain m lo hi (pre ++ b :: post)) :
    HeadersOnly pre m (mergeBackward m (prevAddr pre 0) b.start).1 := by
  rcases List.eq_nil_or_concat pre with rfl | ⟨pre', p, rfl⟩
  · exact HeadersOnly.refl _ m
  · rw [List.concat_eq_append] at hc ⊢
    have hpair : Chain m lo hi (pre' ++ p :: b :: post) := by simpa using hc
    rw [prevAddr_concat, mergeBackward_eq hpair]
    by_cases htag : p.tag = true
    · rw [if_pos htag]
      exact ((headersOnly_setSize _ p _).trans (headersOnly_setNext _ p _)).mono _ (by simp)
    · rw [if_neg htag]
      exact HeadersOnly.refl _ m

theorem Chain.freed (hc : Chain m lo hi (pre ++ b :: post)) :
    Chain (mergeForward (setIsFree m b.start 1) b.start) lo hi
      (pre ++ (coalesceNext ⟨b.start, b.size, true⟩ post).1 ::
        (coalesceNext ⟨b.start, b.size, true⟩ post).2) :=
  (hc.retag true).forward

theorem Represents.release (h : Represents s (pre ++ b :: post)) :
    Represents (releaseBlock s b.start (prevAddr pre 0)) (released pre b post) := by
  have hback := h.chain.freed.backward
  rw [coalesceNext_start] at hback
  exact ⟨h.initialized, hback⟩

theorem HeapInvariant.release (h : HeapInvariant s (pre ++ b :: post)) :
    HeapInvariant (releaseBlock s b.start (prevAddr pre 0)) (released pre b post) := by
  have hhint := mergeBackward_hint h.chain.freed
  rw [coalesceNext_start] at hhint
  exact ⟨h.initialized, h.represents.release.chain, hhint⟩

theorem headersOnly_release (h : HeapInvariant s (pre ++ b :: post)) :
    HeadersOnly (pre ++ b :: post) s.mem (releaseBlock s b.start (prevAddr pre 0)).mem := by
  have hflag := (headersOnly_setIsFree s.mem b 1).mono (pre ++ b :: post)
    (fun x hx ↦ ⟨b, by simp, by rw [List.mem_singleton.mp hx]⟩)
  have hforward := (headersOnly_mergeForward (h.chain.retag true)).mono (pre ++ b :: post)
    (fun x hx ↦ ⟨b, by simp, by rw [List.mem_singleton.mp hx]⟩)
  have hback := headersOnly_mergeBackward h.chain.freed
  rw [coalesceNext_start] at hback
  have hback' := hback.mono (pre ++ b :: post)
    (fun x hx ↦ ⟨x, List.mem_append_left _ hx, rfl⟩)
  exact (hflag.trans hforward).trans hback'

/-! ## Looking up pointers -/

theorem findBlockByPayload_found (h : Represents s (pre ++ b :: post)) :
    findBlockByPayload s (payload b) = some (b.start, prevAddr pre 0) := by
  rw [findBlockByPayload, ← h.heapStart_eq]
  exact h.chain.find_found

theorem findBlockByPayload_missing (h : Represents s bs) {ptr : ℕ}
    (hptr : ∀ x ∈ bs, payload x ≠ ptr) : findBlockByPayload s ptr = some (0, 0) := by
  rw [findBlockByPayload, ← h.heapStart_eq]
  exact h.chain.find_missing hptr

/-- The pointer test at the head of `kfree`. -/
theorem kfree_range (h : Represents s bs) :
    (s.heapStart + headerSize) % 2 ^ 64 = s.heapStart + headerSize ∧
      (s.heapStart + heapBytes) % 2 ^ 64 = s.heapStart + heapBytes := by
  have hfits := h.chain.fits
  have hbytes : headerSize ≤ heapBytes := by
    simp [headerSize, heapBytes, heapPageCount, pageSize]
  exact ⟨Nat.mod_eq_of_lt (by omega), Nat.mod_eq_of_lt hfits⟩

theorem kfree_live (h : Represents s (pre ++ b :: post)) (hb : b.tag = false)
    (hlt : payload b < s.heapStart + heapBytes) :
    kfree s (payload b) = some (releaseBlock s b.start (prevAddr pre 0), .freed) := by
  obtain ⟨hlow, hhigh⟩ := kfree_range h
  have hbounds := h.chain.bounds (b := b) (by simp)
  have hpos : 0 < b.start := h.chain.start_pos (by simp)
  have hflag : blockIsFree s.mem b.start = 0 := by rw [h.chain.header.isFree_eq, hb]; rfl
  have hnull : payload b ≠ 0 := by simp [payload, headerSize]
  have hinit : ¬(s.heapInitialized = false ∨ s.heapStart = 0) := by
    have hstart := h.chain.pos
    simp [h.initialized]
    omega
  have hrange : ¬(payload b < s.heapStart + headerSize ∨ s.heapStart + heapBytes ≤ payload b) := by
    unfold payload at hlt ⊢
    omega
  unfold kfree
  rw [if_neg hnull, if_neg hinit, hlow, hhigh, if_neg hrange, findBlockByPayload_found h]
  simp [hpos.ne', hflag]

/-- Every pointer that is not the payload of a block in use is rejected
without any effect. -/
theorem kfree_rejects (h : Represents s bs) {ptr : ℕ}
    (hptr : ∀ x ∈ bs, payload x = ptr → x.tag = true) :
    ∃ r, r ≠ KfreeResult.freed ∧ kfree s ptr = some (s, r) := by
  obtain ⟨hlow, hhigh⟩ := kfree_range h
  have hstart : s.heapStart ≠ 0 := h.chain.pos.ne'
  unfold kfree
  rw [hlow, hhigh]
  by_cases hnull : ptr = 0
  · exact ⟨.nullPointer, by simp, by simp [hnull]⟩
  by_cases hrange : ptr < s.heapStart + headerSize ∨ s.heapStart + heapBytes ≤ ptr
  · exact ⟨.invalidPointer, by simp, by simp [hnull, h.initialized, hstart, hrange]⟩
  by_cases hmem : ∃ x ∈ bs, payload x = ptr
  · obtain ⟨x, hx, rfl⟩ := hmem
    obtain ⟨pre, post, rfl⟩ := List.append_of_mem hx
    have hpos : x.start ≠ 0 := (h.chain.start_pos hx).ne'
    have hfree : blockIsFree s.mem x.start ≠ 0 :=
      (isFree_ne_zero_iff h.chain.header).mpr (hptr x hx rfl)
    refine ⟨.doubleFree, by simp, ?_⟩
    rw [findBlockByPayload_found h]
    simp [hnull, h.initialized, hstart, hrange, hpos, hfree]
  · refine ⟨.notTracked, by simp, ?_⟩
    rw [findBlockByPayload_missing h (fun x hx heq ↦ hmem ⟨x, hx, heq⟩)]
    simp [hnull, h.initialized, hstart, hrange]

/-- All that `kfree` can do. -/
theorem kfree_cases (h : Represents s bs) (ptr : ℕ) :
    (∃ r, r ≠ KfreeResult.freed ∧ kfree s ptr = some (s, r)) ∨
    ∃ pre b post, bs = pre ++ b :: post ∧ b.tag = false ∧ payload b = ptr ∧
      kfree s ptr = some (releaseBlock s b.start (prevAddr pre 0), .freed) := by
  by_cases hlive : ∃ x ∈ bs, payload x = ptr ∧ x.tag = false
  · obtain ⟨x, hx, rfl, htag⟩ := hlive
    obtain ⟨pre, post, rfl⟩ := List.append_of_mem hx
    by_cases hlt : payload x < s.heapStart + heapBytes
    · exact Or.inr ⟨pre, x, post, rfl, htag, rfl, kfree_live h htag hlt⟩
    · obtain ⟨hlow, hhigh⟩ := kfree_range h
      have hstart : s.heapStart ≠ 0 := h.chain.pos.ne'
      have hnull : payload x ≠ 0 := by simp [payload, headerSize]
      refine Or.inl ⟨.invalidPointer, by simp, ?_⟩
      unfold kfree
      rw [hlow, hhigh]
      simp only [hnull, h.initialized, hstart, if_false, Bool.true_eq_false, or_self]
      rw [if_pos (Or.inr (not_lt.mp hlt))]
  · refine Or.inl (kfree_rejects h ?_)
    intro x hx heq
    by_contra htag
    exact hlive ⟨x, hx, heq, Bool.eq_false_of_not_eq_true htag⟩

/-! ## Payload bytes -/

theorem Chain.payload_ne {x : Block} (hc : Chain m lo hi (pre ++ b :: post))
    (hx : x ∈ pre ∨ x ∈ post) : payload x ≠ payload b := by
  obtain ⟨hpre, hpost⟩ := hc.tiles.start_eq
  simp only [payload, headerSize] at *
  rcases hx with hx | hx
  · have hbefore := (hpre.bounds hx).2
    omega
  · have hafter := (hpost.bounds hx).1
    omega

/-- No header of the list reaches into the payload of one of its blocks. -/
theorem Chain.payload_clear {x : Block} (hc : Chain m lo hi bs) (hb : b ∈ bs) (hx : x ∈ bs) :
    x.start + headerSize ≤ payload b ∨ payload b + b.size ≤ x.start := by
  unfold payload
  rcases hc.tiles.separated hb hx with rfl | hsep | hsep
  · exact Or.inl le_rfl
  · exact Or.inr hsep
  · left
    omega

/-- A store into the payload of a block keeps the whole list. -/
theorem Chain.of_payload_write {m' : Mem} (hc : Chain m lo hi bs) (hb : b ∈ bs)
    (hout : ∀ x, x < payload b ∨ payload b + b.size ≤ x → m' x = m x) :
    Chain m' lo hi bs := by
  apply hc.of_agree
  intro y hy x hlow hhigh
  have hclear := hc.payload_clear hb hy
  exact hout x (by omega)

end ImplusKernel.Heap
