import ImplusKernel.Memory.HeapAccounting
import ImplusKernel.Memory.HeapCoalescing
import ImplusKernel.Memory.HeapFootprint
import ImplusKernel.Memory.HeapLive

/-!
# Taking a block and giving it back

`kmalloc` takes a block whole or splits it.  The neighbours of a free block
are in use, so `kfree` has nothing to merge with but what was split off, and
the list is again the one before the two calls.
-/

namespace ImplusKernel.Heap

open ByteMemory Words Tiling

variable {s s' s'' : MemoryState} {bs pre post : List Block} {b : Block} {n size ptr : ℕ}
  {P : MemoryState → List Block → Prop}

/-! ## On the list -/

theorem coalesceNext_handedOut (hc : Coalesced (b :: post)) (hb : b.tag = true) (n : ℕ) :
    coalesceNext ⟨b.start, granted b n, true⟩ (remainder b n ++ post) = (b, post) := by
  unfold granted remainder
  by_cases hsplit : n + headerSize + minSplitRemainder ≤ b.size
  · have hsize : n + headerSize + (b.size - n - headerSize) = b.size := by omega
    simp only [if_pos hsplit, List.singleton_append, coalesceNext_cons, if_true, merged, hsize]
    rw [← hb]
  · simp only [if_neg hsplit, List.nil_append]
    rw [← hb]
    cases post with
    | nil => rfl
    | cons c post =>
        have hused : c.tag = false := by
          have hnot := (List.isChain_cons_cons.mp hc).1
          simpa [NotBothFree, hb] using hnot
        simp [coalesceNext_cons, hused]

theorem coalescePrev_of_coalesced (hc : Coalesced (pre ++ b :: post)) (hb : b.tag = true) :
    coalescePrev pre b post = pre ++ b :: post := by
  rcases List.eq_nil_or_concat pre with rfl | ⟨pre, p, rfl⟩
  · rfl
  rw [List.concat_eq_append] at hc ⊢
  have hnot : ¬p.tag = true := by
    rw [List.append_assoc, List.singleton_append] at hc
    exact fun hp ↦ (List.isChain_cons_cons.mp hc.right_of_append).1 ⟨hp, hb⟩
  rw [coalescePrev_concat, if_neg hnot]

/-- Freeing what was taken from a free block restores that block. -/
theorem released_handedOut (hc : Coalesced (pre ++ b :: post)) (hb : b.tag = true) (n : ℕ) :
    released pre (handedOut b n) (remainder b n ++ post) = pre ++ b :: post := by
  have hnext := coalesceNext_handedOut hc.right_of_append hb n
  simp only [released, handedOut, hnext]
  exact coalescePrev_of_coalesced hc hb

/-! ## In memory -/

/-- Two states have the same block list, down to the links. -/
def SameBlocks (s s' : MemoryState) : Prop :=
  ∃ bs, heapBlocks s = some bs ∧ heapBlocks s' = some bs ∧
    ∀ b ∈ bs, blockNext s'.mem b.start = blockNext s.mem b.start

theorem Represents.sameBlocks (h : Represents s bs) (h' : Represents s' bs) :
    SameBlocks s s' := by
  refine ⟨bs, h.heapBlocks_eq, h'.heapBlocks_eq, fun b hb ↦ ?_⟩
  obtain ⟨pre, post, rfl⟩ := List.append_of_mem hb
  rw [h.chain.header.next_eq, h'.chain.header.next_eq]

/-- The block handed out is freed, whatever was stored since. -/
theorem HeapInvariant.give_back (hP : Stable P)
    (h : HeapInvariant s (pre ++ handedOut b n :: (remainder b n ++ post)))
    (hc : Coalesced (pre ++ b :: post)) (hb : b.tag = true)
    (hlt : payload b < s.heapStart + heapBytes)
    (hs : P s (pre ++ handedOut b n :: (remainder b n ++ post))) :
    ∃ s', kfree s (payload b) = some (s', .freed) ∧ HeapInvariant s' (pre ++ b :: post) ∧
      P s' (pre ++ b :: post) := by
  have hused : (handedOut b n).tag = false := rfl
  have hinv := h.release
  have hkept := hP.release h hused hs
  rw [released_handedOut hc hb n] at hinv hkept
  have hfree := kfree_live h.represents hused hlt
  exact ⟨_, hfree, hinv, hkept⟩

/-- `kmalloc` and then `kfree`. -/
theorem HeapInvariant.take_and_give (hP : Stable P) (h : HeapInvariant s bs) (hc : Coalesced bs)
    (hroom : LastRoomy bs) (hs : P s bs) {r : KmallocResult}
    (htake : kmalloc s size = some (s', r)) (hptr : r.ptr ≠ 0) :
    ∃ s'', kfree s' r.ptr = some (s'', .freed) ∧ HeapInvariant s'' bs ∧ P s'' bs := by
  by_cases hsize : size = 0
  · rw [hsize, kmalloc_zero h.represents] at htake
    obtain ⟨-, rfl⟩ := Prod.mk.inj (Option.some.inj htake)
    exact absurd rfl hptr
  rcases kmalloc_spec h hsize with ⟨pre, b, post, rfl, htag, -, hk⟩ | ⟨-, hk⟩
  · obtain ⟨rfl, rfl⟩ := Prod.mk.inj (Option.some.inj (hk.symm.trans htake))
    exact (h.allocated (alignUp_aligned size)).give_back hP hc htag
      (h.represents.payload_lt_end hroom (by simp)) (hP.allocate _ htag hs)
  · obtain ⟨-, rfl⟩ := Prod.mk.inj (Option.some.inj (hk.symm.trans htake))
    exact absurd rfl hptr

/-- A borrowed block leaves no trace in the list. -/
theorem Borrows.restores {w : ℕ → Prop} (hP : Stable P) (hb : Borrows s size w s'')
    (h : HeapInvariant s bs) (hc : Coalesced bs) (hle : size ≤ 0xFFFFFFF8)
    (hw : ∀ x, w x → ClientByte s x) (hs : P s bs) : HeapInvariant s'' bs ∧ P s'' bs := by
  cases hb with
  | refused => exact ⟨h, hs⟩
  | @returned s' _ ptr mem htake hmem hgive =>
      have hpos := h.size_ne_zero htake
      rcases kmalloc_spec h hpos with ⟨pre, b, post, rfl, htag, hfit, hk⟩ | ⟨-, hk⟩
      · obtain ⟨rfl, hptr⟩ := Prod.mk.inj (Option.some.inj (hk.symm.trans htake))
        obtain rfl := KmallocResult.block.inj hptr
        have hround := le_alignUp hle
        have hbounds := h.chain.bounds (b := b) (by simp)
        have hlt : payload b < s.heapStart + heapBytes := by
          unfold payload
          omega
        have hinv := h.allocated_store htag (alignUp_aligned size) hfit hround
          fun x hx hout ↦ hmem x (fun hwx ↦ hx (hw x hwx)) hout
        obtain ⟨t, hfree, hrestored⟩ := hinv.give_back hP hc htag hlt
          (hP.write mem (hP.allocate _ htag hs))
        obtain ⟨rfl, -⟩ := Prod.mk.inj (Option.some.inj (hfree.symm.trans hgive))
        exact hrestored
      · simp [hk] at htake

/-- Freeing the block handed out leaves the allocations that were live before
it, when these kept their bytes. -/
theorem HeapInvariant.live_given_back {mem : Mem}
    (h : HeapInvariant s (pre ++ b :: post)) (htag : b.tag = true)
    (h' : HeapInvariant { Heap.allocated s b n post with mem := mem }
      (pre ++ handedOut b n :: (remainder b n ++ post)))
    (hkept : ∀ c ∈ pre ++ b :: post, c.tag = false → allocation mem c = allocation s.mem c) :
    liveAllocations (releaseBlock { Heap.allocated s b n post with mem := mem } b.start
      (prevAddr pre 0)) = liveAllocations s := by
  have hlive := live_released h'
  rw [show (handedOut b n).start = b.start from rfl,
    show payload (handedOut b n) = payload b from rfl] at hlive
  rw [hlive]
  ext a
  simp only [Set.mem_ofPred_eq, h.represents.mem_live, h'.represents.mem_live]
  constructor
  · rintro ⟨⟨c, hc, hused, rfl⟩, hne⟩
    have hold : c ∈ pre ++ b :: post := by
      rcases (mem_allocate_iff htag hused).mp hc with rfl | hc
      · exact absurd rfl hne
      · exact hc
    exact ⟨c, hold, hused, (hkept c hold hused).symm⟩
  · rintro ⟨c, hc, hused, rfl⟩
    refine ⟨⟨c, (mem_allocate_iff htag hused).mpr (Or.inr hc), hused, hkept c hc hused⟩, ?_⟩
    intro heq
    obtain rfl := h.represents.eq_of_payload hc (by simp) heq
    simp [hused] at htag

/-- A borrowed block leaves the live allocations as they were, while stores go
outside the heap. -/
theorem Borrows.live_eq {w : ℕ → Prop} (hb : Borrows s size w s'') (h : HeapInvariant s bs)
    (hle : size ≤ 0xFFFFFFF8)
    (hw : ∀ x, w x → x < s.heapStart ∨ s.heapStart + heapBytes ≤ x) :
    liveAllocations s'' = liveAllocations s := by
  cases hb with
  | refused => rfl
  | @returned s' _ ptr mem htake hmem hgive =>
      have hpos := h.size_ne_zero htake
      rcases kmalloc_spec h hpos with ⟨pre, b, post, rfl, htag, hfit, hk⟩ | ⟨-, hk⟩
      swap
      · simp [hk] at htake
      obtain ⟨rfl, hptr⟩ := Prod.mk.inj (Option.some.inj (hk.symm.trans htake))
      obtain rfl := KmallocResult.block.inj hptr
      have hround := le_alignUp hle
      have hscratch := scratch_allocated h htag (alignUp_aligned size) hfit hpos hround
      have hinv := h.allocated_store htag (alignUp_aligned size) hfit hround fun x hx hout ↦
        hmem x (fun hwx ↦ hx ((hw x hwx).imp_right Or.inl)) hout
      have hbounds := h.chain.bounds (b := b) (by simp)
      have hlt : payload b < s.heapStart + heapBytes := by
        unfold payload
        omega
      have hfree := kfree_live hinv.represents rfl hlt
      obtain ⟨rfl, -⟩ := Prod.mk.inj (Option.some.inj (hfree.symm.trans hgive))
      refine h.live_given_back htag hinv fun c hc hused ↦ allocation_congr fun x hlow hhigh ↦ ?_
      have hclient := h.clientByte_of_used hc hused hlow hhigh
      have hinside := h.chain.bounds hc
      have hnot : ¬w x := by
        intro hwx
        have hout := hw x hwx
        unfold payload at hlow hhigh
        omega
      rw [hmem x hnot (hscratch.apart x hclient), hscratch.kept x hclient]

end ImplusKernel.Heap
