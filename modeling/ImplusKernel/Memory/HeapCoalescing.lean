import ImplusKernel.Memory.HeapRuns
import Mathlib.Data.List.Chain

/-!
# Free blocks never stand side by side

An allocation puts a block in use in front of what it splits off, and `kfree`
merges the freed block with both neighbours.  So no two consecutive blocks
are ever both free, and a heap without live allocations is one block again.
-/

namespace ImplusKernel.Heap

open ByteMemory Words Tiling

variable {s : MemoryState} {bs pre post : List Block} {b c : Block} {live : List ℕ}

def NotBothFree (b c : Block) : Prop := ¬(b.tag = true ∧ c.tag = true)

/-- No two consecutive blocks are both free. -/
def Coalesced (bs : List Block) : Prop := bs.IsChain NotBothFree

theorem notBothFree_of_left (h : b.tag = false) : NotBothFree b c := by
  simp [NotBothFree, h]

theorem notBothFree_of_right (h : c.tag = false) : NotBothFree b c := by
  simp [NotBothFree, h]

/-- Only the tags of the two blocks matter. -/
theorem NotBothFree.congr {b' c' : Block} (h : NotBothFree b c) (hb : b'.tag = b.tag)
    (hc : c'.tag = c.tag) : NotBothFree b' c' := by
  rw [NotBothFree, hb, hc]
  exact h

/-- A block in use separates what stands before it from what stands behind. -/
theorem coalesced_used_iff (hb : b.tag = false) :
    Coalesced (pre ++ b :: post) ↔ Coalesced pre ∧ Coalesced post := by
  unfold Coalesced
  rw [List.isChain_append, List.isChain_cons]
  constructor
  · rintro ⟨hpre, ⟨-, hpost⟩, -⟩
    exact ⟨hpre, hpost⟩
  · rintro ⟨hpre, hpost⟩
    refine ⟨hpre, ⟨fun y _ ↦ notBothFree_of_left hb, hpost⟩, ?_⟩
    intro x _ y hy
    obtain rfl : b = y := by simpa using hy
    exact notBothFree_of_right hb

/-! ## One step -/

/-- What is split off may take the place of a free block. -/
theorem Coalesced.remainder_append (h : Coalesced (c :: post)) (hc : c.tag = true) (b : Block)
    (n : ℕ) : Coalesced (remainder b n ++ post) := by
  have hrest := List.isChain_cons.mp h
  unfold remainder
  split
  · refine List.isChain_cons.mpr ⟨fun y hy ↦ ?_, hrest.2⟩
    exact (hrest.1 y hy).congr hc.symm rfl
  · exact hrest.2

theorem Coalesced.allocate {n : ℕ} (h : Coalesced (pre ++ b :: post)) (hb : b.tag = true) :
    Coalesced (pre ++ handedOut b n :: (remainder b n ++ post)) := by
  rw [coalesced_used_iff rfl]
  exact ⟨h.left_of_append, Coalesced.remainder_append h.right_of_append hb b n⟩

/-- The forward merge leaves no free block behind the freed one. -/
theorem Coalesced.coalesceNext (h : Coalesced post) (b : Block) :
    Coalesced ((Heap.coalesceNext b post).1 :: (Heap.coalesceNext b post).2) := by
  cases post with
  | nil => exact List.isChain_singleton _
  | cons c post =>
      have hrest := List.isChain_cons.mp h
      rw [coalesceNext_cons]
      split
      · rename_i hc
        refine List.isChain_cons.mpr ⟨fun y hy hboth ↦ ?_, hrest.2⟩
        exact hrest.1 y hy ⟨hc, hboth.2⟩
      · rename_i hc
        refine List.isChain_cons.mpr ⟨fun y hy ↦ ?_, h⟩
        obtain rfl : c = y := by simpa using hy
        exact notBothFree_of_right (Bool.eq_false_of_not_eq_true hc)

/-- Nor does the backward merge leave one in front of it. -/
theorem Coalesced.coalescePrev (hpre : Coalesced pre) (h : Coalesced (b :: post))
    (hb : b.tag = true) : Coalesced (Heap.coalescePrev pre b post) := by
  rcases List.eq_nil_or_concat pre with rfl | ⟨pre', p, rfl⟩
  · exact h
  rw [List.concat_eq_append] at hpre ⊢
  rw [coalescePrev_concat]
  have hrest := List.isChain_cons.mp h
  by_cases hp : p.tag = true
  · rw [if_pos hp]
    -- the merged block keeps the tag of both parts
    refine List.isChain_split.mpr ⟨?_, List.isChain_cons.mpr ⟨fun y hy ↦ ?_, hrest.2⟩⟩
    · obtain ⟨hpre', -, hlast⟩ := List.isChain_append.mp hpre
      refine List.isChain_append.mpr ⟨hpre', List.isChain_singleton _, ?_⟩
      intro x hx y hy
      obtain rfl : merged p b p.tag = y := by simpa using hy
      exact (hlast x hx p (by simp)).congr rfl rfl
    · exact (hrest.1 y hy).congr (hp.trans hb.symm) rfl
  · rw [if_neg hp]
    refine hpre.append h ?_
    intro x hx y hy
    obtain rfl : p = x := by simpa using hx
    exact notBothFree_of_left (Bool.eq_false_of_not_eq_true hp)

theorem Coalesced.release (h : Coalesced (pre ++ b :: post)) (hb : b.tag = false) :
    Coalesced (released pre b post) := by
  obtain ⟨hpre, hpost⟩ := (coalesced_used_iff hb).mp h
  exact hpre.coalescePrev (hpost.coalesceNext _) (coalesceNext_tag _ _)

/-! ## Whole runs -/

theorem Coalesced.singleton_of_free (h : Coalesced bs) (hne : bs ≠ [])
    (hfree : ∀ b ∈ bs, b.tag = true) : ∃ b, bs = [b] := by
  obtain ⟨b, rest, rfl⟩ := List.exists_cons_of_ne_nil hne
  cases rest with
  | nil => exact ⟨b, rfl⟩
  | cons c rest =>
      have hboth := (List.isChain_cons.mp h).1 c rfl
      exact absurd ⟨hfree b (by simp), hfree c (by simp)⟩ hboth

/-- With nothing live, a coalesced heap is one free block. -/
theorem HeapInvariant.eq_singleton (h : HeapInvariant s bs) (ht : Tracks bs [])
    (hc : Coalesced bs) : bs = [⟨s.heapStart, 4096 * 4096 - 16, true⟩] := by
  have hfree : ∀ b ∈ bs, b.tag = true := by
    intro b hb
    by_contra hused
    have hlive := (ht (payload b)).mpr ⟨b, hb, Bool.eq_false_of_not_eq_true hused, rfl⟩
    simp at hlive
  obtain ⟨b, rfl⟩ := hc.singleton_of_free h.represents.ne_nil hfree
  have hstart := h.represents.heapStart_eq
  have hend : b.start + headerSize + b.size = s.heapStart + heapBytes := by
    rw [h.chain.tiles.1]
    exact h.chain.tiles.2
  have htag := hfree b (by simp)
  have hbytes : heapBytes = 4096 * 4096 := rfl
  rw [nextAddr_cons] at hstart
  obtain ⟨start, size, tag⟩ := b
  simp only [headerSize] at hstart hend htag
  simp only [List.cons.injEq, Segment.mk.injEq, and_true]
  exact ⟨hstart, by omega, htag⟩

theorem stable_coalesced (start : ℕ) :
    Stable fun s bs ↦ Coalesced bs ∧ s.heapStart = start where
  allocate := fun _ hb hs ↦ ⟨hs.1.allocate hb, hs.2⟩
  release := fun _ hb hs ↦ ⟨hs.1.release hb, hs.2⟩
  write := fun _ hs ↦ hs

/-- After `memory_init`, along every run: no two consecutive blocks are both
free, and once nothing is live the heap is the block it started as. -/
theorem heapRun_coalesced {kernelEnd : ℕ} (hk : KernelEndValid kernelEnd) (mem : Mem)
    (hrun : HeapRun (memoryInit kernelEnd (.boot mem)) [] s live) :
    ∃ bs, heapBlocks s = some bs ∧
      (∀ pre b c post, bs = pre ++ b :: c :: post → ¬(b.tag = true ∧ c.tag = true)) ∧
      (live = [] → bs = [⟨firstPageAfter kernelEnd, 4096 * 4096 - 16, true⟩] ∧
        heapBlocks s = heapBlocks (memoryInit kernelEnd (.boot mem))) := by
  have hinit := heapInvariant_memoryInit hk mem
  have hstart := heapStart_memoryInit hk mem
  obtain ⟨bs, h, ht, hc, hsame⟩ := hrun.preserves (stable_coalesced (firstPageAfter kernelEnd))
    hinit (tracks_nil_of_free (by simp)) ⟨List.isChain_singleton _, hstart⟩
  refine ⟨bs, h.represents.heapBlocks_eq, ?_, ?_⟩
  · exact fun pre b c post hbs ↦ List.isChain_iff_forall_rel_of_append_cons_cons.mp hc hbs
  · rintro rfl
    have hone := h.eq_singleton ht hc
    rw [hsame] at hone
    refine ⟨hone, ?_⟩
    rw [h.represents.heapBlocks_eq, hinit.represents.heapBlocks_eq, hone]
    rfl

/-- Two allocations, freed in the order they were made. -/
theorem heapRun_coalesced_two_allocations :
    ∃ s₁ s₂ s₃ s, kmalloc sampleHeap 24 = some (s₁, .block 0x110010) ∧
      kmalloc s₁ 40 = some (s₂, .block 0x110038) ∧
      kfree s₂ 0x110010 = some (s₃, .freed) ∧ kfree s₃ 0x110038 = some (s, .freed) ∧
      HeapRun sampleHeap [] s [] ∧
      heapBlocks s = some [⟨0x110000, 4096 * 4096 - 16, true⟩] := by
  have hcalls : ((kmalloc sampleHeap 24).bind fun r₁ ↦ (kmalloc r₁.1 40).bind fun r₂ ↦
      (kfree r₂.1 0x110010).bind fun r₃ ↦ (kfree r₃.1 0x110038).map fun r₄ ↦
        (r₁.2, r₂.2, r₃.2, r₄.2)) =
      some (.block 0x110010, .block 0x110038, .freed, .freed) := by decide +kernel
  simp only [Option.bind_eq_some_iff, Option.map_eq_some_iff, Prod.mk.injEq] at hcalls
  obtain ⟨⟨s₁, _⟩, h₁, ⟨s₂, _⟩, h₂, ⟨s₃, _⟩, h₃, ⟨s, _⟩, h₄, rfl, rfl, rfl, rfl⟩ := hcalls
  have hstart : HeapRun sampleHeap [] sampleHeap [] := .start
  have hrun₁ := HeapRun.kmalloc 24 (by norm_num) hstart h₁
  have hrun₂ := HeapRun.kmalloc 40 (by norm_num) hrun₁ h₂
  have hrun₃ := HeapRun.kfree 0x110010 (by norm_num) hrun₂ h₃
  have hrun₄ := HeapRun.kfree 0x110038 (by norm_num) hrun₃ h₄
  have hrun : HeapRun sampleHeap [] s [] := by simpa [KmallocResult.ptr] using hrun₄
  obtain ⟨bs, hbs, -, hone⟩ := heapRun_coalesced ⟨by norm_num, by norm_num⟩ (fun _ ↦ 0) hrun
  exact ⟨s₁, s₂, s₃, s, h₁, h₂, h₃, h₄, hrun, hbs.trans (congrArg some (hone rfl).1)⟩

end ImplusKernel.Heap
