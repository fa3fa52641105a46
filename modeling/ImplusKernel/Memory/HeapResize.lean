import ImplusKernel.Memory.HeapOps

/-!
# Resizing allocations

`krealloc` splits in place, absorbs the next block and splits again, or
allocates, copies and frees.  `Reallocates` lists these outcomes with the
conditions under which each is taken.
-/

namespace ImplusKernel.Heap

open ByteMemory Words Tiling

variable {s s' : MemoryState} {m : Mem} {lo hi : ℕ} {bs pre post : List Block} {b c : Block}

theorem alignUp_idem (size : ℕ) :
    alignUp (alignUp size minAllocAlign) minAllocAlign = alignUp size minAllocAlign := by
  rw [alignUp_eq (alignUp size minAllocAlign), alignUp_eq]
  omega

/-! ## In place -/

theorem Chain.shrink {n : ℕ} (hc : Chain m lo hi (pre ++ b :: post)) (hb : b.tag = false)
    (hn : n % minAllocAlign = 0) :
    Chain (splitBlockIfNeeded m b.start n) lo hi
      (pre ++ handedOut b n :: (remainder b n ++ post)) := by
  have hsplit := hc.split hn
  rw [hb, carve_eq] at hsplit
  exact hsplit

theorem Chain.grow {n : ℕ} (hc : Chain m lo hi (pre ++ b :: c :: post)) (hb : b.tag = false)
    (hn : n % minAllocAlign = 0) :
    Chain (splitBlockIfNeeded (absorbNext m b.start) b.start n) lo hi
      (pre ++ handedOut (merged b c false) n :: (remainder (merged b c false) n ++ post)) := by
  have habsorb := hc.absorb
  rw [hb] at habsorb
  exact habsorb.shrink rfl hn

/-! ## All outcomes -/

/-- The state in which a moved allocation has been copied to the block taken
from `d` and its old block is about to be freed. -/
def copied (s : MemoryState) (b d : Block) (n : ℕ) (after : List Block) : MemoryState :=
  { allocated s d n after with
    mem := memcpy (allocated s d n after).mem (payload d) (payload b) b.size }

/-- The allocation at `ptr` can grow to `n` bytes over the free block behind
it. -/
def Absorbable (bs : List Block) (ptr n : ℕ) : Prop :=
  ∃ pre b c post, bs = pre ++ b :: c :: post ∧ b.tag = false ∧ payload b = ptr ∧
    c.tag = true ∧ b.size < n ∧ n ≤ b.size + headerSize + c.size

/-- The allocation at `ptr` cannot have `n` bytes where it is. -/
def MustMove (bs : List Block) (ptr n : ℕ) : Prop :=
  (∃ b ∈ bs, b.tag = false ∧ payload b = ptr ∧ b.size < n) ∧ ¬Absorbable bs ptr n

/-- What `krealloc` can do with a non-null pointer and a rounded size `n`. -/
inductive Reallocates (s : MemoryState) (bs : List Block) (ptr n : ℕ) :
    MemoryState → KreallocResult → Prop
  | rejected (hdead : ∀ x ∈ bs, payload x = ptr → x.tag = true) :
      Reallocates s bs ptr n s .invalidPointer
  | shrunk (pre : List Block) (b : Block) (post : List Block) (hbs : bs = pre ++ b :: post)
      (hb : b.tag = false) (hptr : payload b = ptr) (hn : n ≤ b.size) :
      Reallocates s bs ptr n { s with mem := splitBlockIfNeeded s.mem b.start n } (.resized ptr)
  | grown (pre : List Block) (b c : Block) (post : List Block)
      (hbs : bs = pre ++ b :: c :: post) (hb : b.tag = false) (hptr : payload b = ptr)
      (hc : c.tag = true) (hgt : b.size < n) (hn : n ≤ b.size + headerSize + c.size) :
      Reallocates s bs ptr n
        { s with mem := splitBlockIfNeeded (absorbNext s.mem b.start) b.start n }
        (.resized ptr)
  | stuck (b : Block) (hmem : b ∈ bs) (hb : b.tag = false) (hptr : payload b = ptr)
      (hgt : b.size < n) (hno : ¬Absorbable bs ptr n)
      (hnone : ∀ x ∈ bs, x.tag = true → x.size < n) :
      Reallocates s bs ptr n s (.moveFailed (.outOfMemory n))
  | moved (b : Block) (hmem : b ∈ bs) (hb : b.tag = false) (hptr : payload b = ptr)
      (hgt : b.size < n) (hno : ¬Absorbable bs ptr n)
      (before : List Block) (d : Block) (after : List Block) (hbs : bs = before ++ d :: after)
      (hd : d.tag = true) (hn : n ≤ d.size)
      (s₃ : MemoryState) (old : KfreeResult)
      (hfree : kfree (copied s b d n after) ptr = some (s₃, old)) :
      Reallocates s bs ptr n s₃ (.moved (.block (payload d)) old)

theorem Chain.nodup (hc : Chain m lo hi bs) : bs.Nodup := by
  refine hc.tiles.pairwise.imp ?_
  intro x y hle heq
  rw [heq, headerSize] at hle
  omega

/-- A block splits the list in one way only. -/
theorem tail_eq_of_nodup {pre' post' : List Block} (hnodup : (pre ++ b :: post).Nodup)
    (heq : pre ++ b :: post = pre' ++ b :: post') : post = post' := by
  induction pre generalizing pre' with
  | nil =>
      cases pre' with
      | nil => exact (List.cons.inj heq).2
      | cons x pre' =>
          obtain ⟨rfl, htail⟩ := List.cons.inj heq
          simp [htail] at hnodup
  | cons x pre ih =>
      cases pre' with
      | nil =>
          obtain ⟨rfl, htail⟩ := List.cons.inj heq
          simp at hnodup
      | cons y pre' =>
          obtain ⟨rfl, htail⟩ := List.cons.inj heq
          exact ih (List.nodup_cons.mp hnodup).2 htail

theorem absorbable_iff (h : Represents s (pre ++ b :: post)) (n : ℕ) :
    (blockNext s.mem b.start ≠ 0 ∧ blockIsFree s.mem (blockNext s.mem b.start) ≠ 0 ∧
      n ≤ b.size + headerSize + blockSize s.mem (blockNext s.mem b.start)) ↔
    ∃ c rest, post = c :: rest ∧ c.tag = true ∧ n ≤ b.size + headerSize + c.size := by
  rw [h.chain.header.next_eq]
  cases post with
  | nil => simp
  | cons c rest =>
      have hpos : c.start ≠ 0 := (h.chain.start_pos (by simp)).ne'
      have hheader := h.chain.second_header
      rw [nextAddr_cons, isFree_ne_zero_iff hheader, hheader.size_eq]
      constructor
      · rintro ⟨-, htag, hle⟩
        exact ⟨c, rest, rfl, htag, hle⟩
      · rintro ⟨c', rest', heq, htag, hle⟩
        obtain ⟨rfl, rfl⟩ := List.cons.inj heq
        exact ⟨hpos, htag, hle⟩

/-- After the copy the list is that of the allocation: the copied bytes lie
inside the new payload. -/
theorem HeapInvariant.copied {before after : List Block} {d : Block} {n : ℕ}
    (h : HeapInvariant s (before ++ d :: after)) (hn : n % minAllocAlign = 0) (hgt : b.size < n)
    (hd : n ≤ d.size) :
    HeapInvariant (copied s b d n after)
      (before ++ handedOut d n :: (remainder d n ++ after)) := by
  have halloc := h.allocated (b := d) hn
  have hfits := halloc.chain.fits
  have hbounds := halloc.chain.bounds (b := handedOut d n) (by simp)
  have hgranted := le_granted hd
  refine ⟨halloc.initialized, ?_, halloc.hint⟩
  refine halloc.chain.of_payload_write (b := handedOut d n) (by simp) ?_
  intro x hx
  simp only [payload, handedOut] at hx hbounds
  exact memcpy_outside _ _ (by unfold payload; omega) (by unfold payload; omega)

theorem krealloc_rejects (h : Represents s bs) {ptr newSize : ℕ} (hptr : ptr ≠ 0)
    (hsize : newSize ≠ 0) (hdead : ∀ x ∈ bs, payload x = ptr → x.tag = true) :
    krealloc s ptr newSize = some (s, .invalidPointer) := by
  unfold krealloc
  rw [if_neg hptr, if_neg hsize]
  by_cases hmem : ∃ x ∈ bs, payload x = ptr
  · obtain ⟨x, hx, rfl⟩ := hmem
    obtain ⟨pre, post, rfl⟩ := List.append_of_mem hx
    have hfree : blockIsFree s.mem x.start ≠ 0 :=
      (isFree_ne_zero_iff h.chain.header).mpr (hdead x hx rfl)
    rw [findBlockByPayload_found h]
    simp [hfree]
  · rw [findBlockByPayload_missing h (fun x hx heq ↦ hmem ⟨x, hx, heq⟩)]
    simp

/-- Only the block behind `b` can be absorbed. -/
theorem tail_of_absorbable {n : ℕ} (h : Represents s (pre ++ b :: post))
    (habs : Absorbable (pre ++ b :: post) (payload b) n) :
    ∃ c rest, post = c :: rest ∧ c.tag = true ∧ n ≤ b.size + headerSize + c.size := by
  obtain ⟨pre', b', c, rest, hbs, -, hptr, hfree, -, hcover⟩ := habs
  obtain rfl : b' = b := h.eq_of_payload (by simp [hbs]) (by simp) hptr
  exact ⟨c, rest, tail_eq_of_nodup h.chain.nodup hbs, hfree, hcover⟩

theorem Represents.kfree_returns (h : Represents s bs) (ptr : ℕ) :
    ∃ s' r, kfree s ptr = some (s', r) := by
  rcases kfree_cases h ptr with ⟨r, -, hk⟩ | ⟨_, _, _, _, _, _, hk⟩
  · exact ⟨_, _, hk⟩
  · exact ⟨_, _, hk⟩

/-- The outcome of every call; the hint only matters when the allocation has
to move. -/
theorem krealloc_outcome (h : Represents s bs) {ptr newSize : ℕ} (hptr : ptr ≠ 0)
    (hsize : newSize ≠ 0) (hhint : MustMove bs ptr (alignUp newSize minAllocAlign) →
      ∃ b ∈ bs, b.start = s.heapSearchHint) :
    ∃ s' r, krealloc s ptr newSize = some (s', r) ∧
      Reallocates s bs ptr (alignUp newSize minAllocAlign) s' r := by
  by_cases hlive : ∃ x ∈ bs, payload x = ptr ∧ x.tag = false
  case neg =>
    have hdead : ∀ x ∈ bs, payload x = ptr → x.tag = true := by
      intro x hx heq
      by_contra htag
      exact hlive ⟨x, hx, heq, Bool.eq_false_of_not_eq_true htag⟩
    exact ⟨s, .invalidPointer, krealloc_rejects h hptr hsize hdead, .rejected hdead⟩
  case pos =>
    obtain ⟨b, hb, rfl, htag⟩ := hlive
    obtain ⟨pre, post, rfl⟩ := List.append_of_mem hb
    have hpos : b.start ≠ 0 := (h.chain.start_pos hb).ne'
    have hused : blockIsFree s.mem b.start = 0 := by
      rw [h.chain.header.isFree_eq, htag]
      rfl
    have hguard : ¬(b.start = 0 ∨ blockIsFree s.mem b.start ≠ 0) := by simp [hpos, hused]
    have hidem := alignUp_idem newSize
    have haligned := alignUp_aligned newSize
    unfold krealloc
    rw [if_neg hptr, if_neg hsize, findBlockByPayload_found h]
    simp only [Option.bind_eq_bind, Option.bind_some, if_neg hguard, h.chain.header.size_eq]
    generalize alignUp newSize minAllocAlign = n at hidem haligned hhint ⊢
    by_cases hle : n ≤ b.size
    · rw [if_pos hle]
      exact ⟨_, _, rfl, .shrunk pre b post rfl htag rfl hle⟩
    rw [if_neg hle]
    by_cases habsorb : ∃ c rest, post = c :: rest ∧ c.tag = true ∧
        n ≤ b.size + headerSize + c.size
    · rw [if_pos ((absorbable_iff h n).mpr habsorb)]
      obtain ⟨c, rest, rfl, hfree, hcover⟩ := habsorb
      exact ⟨_, _, rfl, .grown pre b c rest rfl htag rfl hfree (not_le.mp hle) hcover⟩
    have hno := mt (tail_of_absorbable (n := n) h) habsorb
    rw [if_neg (fun h' ↦ habsorb ((absorbable_iff h n).mp h'))]
    have hinv : HeapInvariant s (pre ++ b :: post) :=
      ⟨h.initialized, h.chain, hhint ⟨⟨b, hb, htag, rfl, not_le.mp hle⟩, hno⟩⟩
    rcases kmalloc_spec hinv (show n ≠ 0 by omega) with
      ⟨before, d, after, hsplit, hd, hfit, hk⟩ | ⟨hnone, hk⟩
    · rw [hidem] at hfit hk
      rw [hk]
      have hnull : payload d ≠ 0 := by simp [payload, headerSize]
      simp only [Option.bind_some, KmallocResult.ptr, if_neg hnull]
      have hcopied := (hsplit ▸ hinv).copied haligned (not_le.mp hle) hfit
      obtain ⟨s₃, old, hk'⟩ := hcopied.represents.kfree_returns (payload b)
      refine ⟨s₃, .moved (.block (payload d)) old, ?_, .moved b hb htag rfl (not_le.mp hle) hno
        before d after hsplit hd hfit s₃ old hk'⟩
      unfold copied at hk'
      rw [hk']
      rfl
    · rw [hidem] at hnone hk
      rw [hk]
      exact ⟨s, .moveFailed (.outOfMemory n), rfl,
        .stuck b hb htag rfl (not_le.mp hle) hno hnone⟩

theorem krealloc_spec (h : HeapInvariant s bs) {ptr newSize : ℕ} (hptr : ptr ≠ 0)
    (hsize : newSize ≠ 0) :
    ∃ s' r, krealloc s ptr newSize = some (s', r) ∧
      Reallocates s bs ptr (alignUp newSize minAllocAlign) s' r :=
  krealloc_outcome h.represents hptr hsize fun _ ↦ h.hint

end ImplusKernel.Heap
