import ImplusKernel.Memory.HeapChain

/-!
# Surgery on the block list

Splitting, retagging and merging replace a run of neighbouring blocks by
another run of the same extent.  `Chain.splice` carries the representation
across any such replacement whose writes stay inside the extent.
-/

namespace ImplusKernel.Heap

open ByteMemory Words Tiling

/-- The blocks `bs` tile `[lo, hi)`, and memory holds their headers. -/
structure Chain (m : Mem) (lo hi : ℕ) (bs : List Block) : Prop where
  pos : 0 < lo
  fits : hi < 2 ^ 64
  small : hi < lo + 2 ^ 32
  tiles : Tiles headerSize lo bs hi
  linked : Linked m bs 0
  aligned : ∀ b ∈ bs, b.size % minAllocAlign = 0

variable {m m' : Mem} {lo hi : ℕ} {bs pre post : List Block} {b c : Block}

theorem Chain.bounds (hc : Chain m lo hi bs) (hb : b ∈ bs) :
    lo ≤ b.start ∧ b.start + headerSize + b.size ≤ hi := hc.tiles.bounds hb

theorem Chain.size_lt (hc : Chain m lo hi bs) (hb : b ∈ bs) :
    b.size + headerSize < 2 ^ 32 := by
  have hbounds := hc.bounds hb
  have hsmall := hc.small
  omega

theorem Chain.start_pos (hc : Chain m lo hi bs) (hb : b ∈ bs) : 0 < b.start :=
  hc.pos.trans_le (hc.bounds hb).1

theorem Chain.header (hc : Chain m lo hi (pre ++ b :: post)) :
    HeaderAt m b (nextAddr post 0) :=
  (linked_append.mp hc.linked).2.1

theorem Chain.nextAddr_lt (hc : Chain m lo hi (pre ++ b :: post)) :
    nextAddr post 0 < 2 ^ 64 := by
  rw [← hc.header.next_eq]
  exact blockNext_lt m b.start

theorem nextAddr_of_tiles {ss : List Block} {a z last : ℕ} (hne : ss ≠ [])
    (ht : Tiles headerSize a ss z) : nextAddr ss last = a := by
  cases ss with
  | nil => exact absurd rfl hne
  | cons s ss => exact ht.1

/-- Replace `mid` by `mid'`, writing only inside the extent of `mid`. -/
theorem Chain.splice (mid mid' cs : List Block) (hc : Chain m lo hi (pre ++ (mid ++ post)))
    (hne : mid ≠ []) (hne' : mid' ≠ [])
    (hmid : ∀ a z, Tiles headerSize a mid z → Tiles headerSize a mid' z)
    (haligned : ∀ x ∈ mid', x.size % minAllocAlign = 0)
    (hlinked : Linked m' mid' (nextAddr post 0))
    (hwrites : HeadersOnly cs m m')
    (hinside : ∀ x ∈ cs, ∃ y ∈ mid,
      y.start ≤ x.start ∧ x.start + headerSize ≤ y.start + headerSize + y.size) :
    Chain m' lo hi (pre ++ (mid' ++ post)) := by
  obtain ⟨a, hpre, hrest⟩ := tiles_append.mp hc.tiles
  obtain ⟨z, hold, hpost⟩ := tiles_append.mp hrest
  have hextent : ∀ x ∈ cs, a ≤ x.start ∧ x.start + headerSize ≤ z := by
    intro x hx
    obtain ⟨y, hy, hlow, hhigh⟩ := hinside x hx
    have hbounds := hold.bounds hy
    omega
  obtain ⟨hlpre, hlrest⟩ := linked_append.mp hc.linked
  have hlpost := (linked_append.mp hlrest).2
  have hhead : nextAddr (mid' ++ post) 0 = nextAddr (mid ++ post) 0 := by
    rw [nextAddr_append, nextAddr_append, nextAddr_of_tiles hne' (hmid a z hold),
      nextAddr_of_tiles hne hold]
  refine ⟨hc.pos, hc.fits, hc.small, hc.tiles.replace mid mid' hmid, ?_, ?_⟩
  · refine linked_append.mpr ⟨?_, linked_append.mpr ⟨hlinked, ?_⟩⟩
    · rw [hhead]
      apply hlpre.of_headersOnly hwrites
      intro x hx y hy
      have hxb := hpre.bounds hx
      have hyb := hextent y hy
      omega
    · apply hlpost.of_headersOnly hwrites
      intro x hx y hy
      have hxb := hpost.bounds hx
      have hyb := hextent y hy
      omega
  · intro x hx
    rcases List.mem_append.mp hx with hx | hx
    · exact hc.aligned x (List.mem_append_left _ hx)
    · rcases List.mem_append.mp hx with hx | hx
      · exact haligned x hx
      · exact hc.aligned x (List.mem_append_right _ (List.mem_append_right _ hx))

/-- Bytes outside all headers may change freely. -/
theorem Chain.of_agree (hc : Chain m lo hi bs)
    (hagree : ∀ x ∈ bs, AgreeOn m m' x.start (x.start + headerSize)) :
    Chain m' lo hi bs :=
  ⟨hc.pos, hc.fits, hc.small, hc.tiles, hc.linked.congr hagree, hc.aligned⟩

/-! ## One header -/

theorem headerAt_write (m : Mem) (b : Block) {next : ℕ} (hsize : b.size < 2 ^ 32)
    (hnext : next < 2 ^ 64) :
    HeaderAt (setNext (setIsFree (setSize m b.start b.size) b.start b.tag.toNat)
      b.start next) b next := by
  have htag : b.tag.toNat < 2 ^ 32 := by cases b.tag <;> simp
  refine ⟨?_, ?_, ?_⟩
  · rw [blockSize_setNext, blockSize_setIsFree, blockSize_setSize m _ _ hsize]
  · rw [blockIsFree_setNext, blockIsFree_setIsFree _ _ _ htag]
  · exact blockNext_setNext _ _ _ hnext

theorem headersOnly_write (m : Mem) (b : Block) (size flag next : ℕ) :
    HeadersOnly [b] m (setNext (setIsFree (setSize m b.start size) b.start flag)
      b.start next) :=
  ((headersOnly_setSize m b size).trans (headersOnly_setIsFree _ b flag)).trans
    (headersOnly_setNext _ b next)

/-! ## Retagging -/

theorem Chain.retag (hc : Chain m lo hi (pre ++ b :: post)) (free : Bool) :
    Chain (setIsFree m b.start free.toNat) lo hi
      (pre ++ ⟨b.start, b.size, free⟩ :: post) := by
  have hheader := hc.header
  have hflag : free.toNat < 2 ^ 32 := by cases free <;> simp
  refine hc.splice [b] [⟨b.start, b.size, free⟩] [b] (by simp) (by simp) (fun _ _ ht ↦ ht) ?_
    ⟨⟨?_, ?_, ?_⟩, trivial⟩ (headersOnly_setIsFree m b _) ?_
  · intro x hx
    rw [List.mem_singleton.mp hx]
    exact hc.aligned b (by simp)
  · rw [blockSize_setIsFree, hheader.size_eq]
  · exact blockIsFree_setIsFree m _ _ hflag
  · rw [blockNext_setIsFree, hheader.next_eq]
    rfl
  · intro x hx
    rw [List.mem_singleton.mp hx]
    exact ⟨b, by simp, le_rfl, by omega⟩

/-! ## Splitting -/

/-- The blocks that take the place of `b` when `n` bytes of it are asked
for. -/
def carve (b : Block) (n : ℕ) (free : Bool) : List Block :=
  if n + headerSize + minSplitRemainder ≤ b.size then
    [⟨b.start, n, free⟩, ⟨b.start + headerSize + n, b.size - n - headerSize, true⟩]
  else [⟨b.start, b.size, free⟩]

theorem carve_ne_nil (b : Block) (n : ℕ) (free : Bool) : carve b n free ≠ [] := by
  unfold carve
  split <;> simp

/-- The blocks of `carve b n` lie inside `b`, and the first keeps its
address. -/
theorem mem_carve {n : ℕ} {free : Bool} {x : Block} (hx : x ∈ carve b n free) :
    b.start ≤ x.start ∧ x.start + headerSize + x.size ≤ b.start + headerSize + b.size := by
  unfold carve at hx
  split at hx
  · rcases List.mem_cons.mp hx with rfl | hx
    · simp only
      omega
    · rw [List.mem_singleton.mp hx]
      simp only
      omega
  · rw [List.mem_singleton.mp hx]
    exact ⟨le_rfl, le_rfl⟩

theorem tiles_carve {n a z : ℕ} {free : Bool} (ht : Tiles headerSize a [b] z) :
    Tiles headerSize a (carve b n free) z := by
  simp only [tiles_cons, tiles_nil] at ht
  unfold carve
  split
  · simp only [tiles_cons, tiles_nil]
    omega
  · simpa using ht

theorem aligned_carve {n : ℕ} {free : Bool} (hb : b.size % minAllocAlign = 0)
    (hn : n % minAllocAlign = 0) :
    ∀ x ∈ carve b n free, x.size % minAllocAlign = 0 := by
  intro x hx
  simp only [minAllocAlign] at hb hn ⊢
  unfold carve at hx
  split at hx
  · rcases List.mem_cons.mp hx with rfl | hx
    · exact hn
    · rw [List.mem_singleton.mp hx]
      simp only [headerSize, minSplitRemainder] at *
      omega
  · rw [List.mem_singleton.mp hx]
    exact hb

theorem headersOnly_split (hc : Chain m lo hi (pre ++ b :: post)) (n : ℕ) (free : Bool) :
    HeadersOnly (carve b n free) m (splitBlockIfNeeded m b.start n) := by
  have hbounds := hc.bounds (b := b) (by simp)
  have hfits := hc.fits
  have hsize := hc.header.size_eq
  unfold splitBlockIfNeeded carve
  simp only [hsize]
  split
  · have hmod : (b.start + headerSize + n) % 2 ^ 64 = b.start + headerSize + n :=
      Nat.mod_eq_of_lt (by omega)
    simp only [hmod]
    let new : Block := ⟨b.start + headerSize + n, b.size - n - headerSize, true⟩
    let kept : Block := ⟨b.start, n, free⟩
    have hnew := (headersOnly_write m new (b.size - n - headerSize) 1
      (blockNext (setIsFree (setSize m new.start (b.size - n - headerSize)) new.start 1)
        b.start)).mono [kept, new] (by simp)
    refine hnew.trans ?_
    refine HeadersOnly.trans
      ((headersOnly_setSize _ kept n).mono [kept, new] (by simp)) ?_
    exact (headersOnly_setNext _ kept _).mono [kept, new] (by simp)
  · exact HeadersOnly.refl _ m

theorem linked_split {n : ℕ} (hc : Chain m lo hi (pre ++ b :: post)) :
    Linked (splitBlockIfNeeded m b.start n) (carve b n b.tag) (nextAddr post 0) := by
  have hbounds := hc.bounds (b := b) (by simp)
  have hsmall := hc.size_lt (b := b) (by simp)
  have hfits := hc.fits
  have hheader := hc.header
  have hnext := hc.nextAddr_lt
  unfold splitBlockIfNeeded carve
  simp only [hheader.size_eq]
  split
  case isTrue hlarge =>
    have hmod : (b.start + headerSize + n) % 2 ^ 64 = b.start + headerSize + n :=
      Nat.mod_eq_of_lt (by omega)
    simp only [hmod]
    let new : Block := ⟨b.start + headerSize + n, b.size - n - headerSize, true⟩
    let m₂ := setIsFree (setSize m new.start (b.size - n - headerSize)) new.start 1
    let m₃ := setNext m₂ new.start (blockNext m₂ b.start)
    have hkeep₂ : HeaderAt m₂ b (nextAddr post 0) := by
      apply hheader.congr
      intro x _ hx
      apply (headersOnly_setSize m new _).trans (headersOnly_setIsFree _ new 1)
      simp only [new, List.mem_singleton, forall_eq]
      omega
    have hnext₂ : blockNext m₂ b.start = nextAddr post 0 := hkeep₂.next_eq
    have hkeep₃ : HeaderAt m₃ b (nextAddr post 0) := by
      apply hkeep₂.congr
      intro x _ hx
      apply headersOnly_setNext m₂ new
      simp only [new, List.mem_singleton, forall_eq]
      omega
    have hnew₃ : HeaderAt m₃ new (nextAddr post 0) := by
      have hm₃ : m₃ = setNext m₂ new.start (nextAddr post 0) := by simp only [m₃, hnext₂]
      have hsize : new.size < 2 ^ 32 := by
        simp only [new]
        omega
      rw [hm₃]
      exact headerAt_write m new hsize hnext
    refine ⟨⟨?_, ?_, ?_⟩, ?_, trivial⟩
    · rw [blockSize_setNext]
      exact blockSize_setSize _ _ _ (by omega)
    · rw [blockIsFree_setNext, blockIsFree_setSize]
      exact hkeep₃.isFree_eq
    · exact blockNext_setNext _ _ _ (by omega)
    · apply hnew₃.congr
      intro x hx _
      apply (headersOnly_setSize m₃ b n).trans (headersOnly_setNext _ b new.start)
      simp only [new, List.mem_singleton, forall_eq] at hx ⊢
      omega
  case isFalse hsmall => exact ⟨hheader, trivial⟩

/-- `split_block_if_needed` replaces `b` by the blocks of `carve`. -/
theorem Chain.split {n : ℕ} (hc : Chain m lo hi (pre ++ b :: post))
    (hn : n % minAllocAlign = 0) :
    Chain (splitBlockIfNeeded m b.start n) lo hi (pre ++ (carve b n b.tag ++ post)) := by
  refine hc.splice [b] (carve b n b.tag) (carve b n b.tag) (by simp)
    (carve_ne_nil b n b.tag) (fun _ _ ht ↦ tiles_carve ht)
    (aligned_carve (hc.aligned b (by simp)) hn) (linked_split hc)
    (headersOnly_split hc n b.tag) ?_
  intro x hx
  have hinside := mem_carve hx
  exact ⟨b, by simp, hinside.1, by omega⟩

/-! ## Merging -/

/-- The block that covers `b` and its successor `c`. -/
def merged (b c : Block) (free : Bool) : Block := ⟨b.start, b.size + headerSize + c.size, free⟩

theorem Chain.second_start (hc : Chain m lo hi (pre ++ b :: c :: post)) :
    c.start = b.start + headerSize + b.size := hc.tiles.start_eq.2.1

theorem Chain.second_header (hc : Chain m lo hi (pre ++ b :: c :: post)) :
    HeaderAt m c (nextAddr post 0) := (linked_append.mp hc.linked).2.2.1

theorem Chain.merged_size_lt (hc : Chain m lo hi (pre ++ b :: c :: post)) :
    b.size + headerSize + c.size < 2 ^ 32 := by
  have hb := hc.bounds (b := b) (by simp)
  have hcb := hc.bounds (b := c) (by simp)
  have hstart := hc.second_start
  have hsmall := hc.small
  omega

/-- Growing the header of `b` over its successor `c`, as both merges of
`kfree` and the one of `krealloc` do. -/
theorem Chain.merge (hc : Chain m lo hi (pre ++ b :: c :: post)) {size next : ℕ}
    (hsize : size = b.size + headerSize + c.size) (hnext : next = nextAddr post 0) :
    Chain (setNext (setSize m b.start size) b.start next) lo hi
      (pre ++ merged b c b.tag :: post) := by
  subst hsize hnext
  have hheader := hc.header
  have hlt : nextAddr post 0 < 2 ^ 64 := by
    rw [← hc.second_header.next_eq]
    exact blockNext_lt m c.start
  refine hc.splice [b, c] [merged b c b.tag] [b] (by simp) (by simp) ?_ ?_
    ⟨⟨?_, ?_, ?_⟩, trivial⟩
    ((headersOnly_setSize m b _).trans (headersOnly_setNext _ b _)) ?_
  · intro a z ht
    simp only [merged, tiles_cons, tiles_nil] at ht ⊢
    omega
  · intro x hx
    rw [List.mem_singleton.mp hx]
    have hb := hc.aligned b (by simp)
    have hcs := hc.aligned c (by simp)
    simp only [merged, minAllocAlign, headerSize] at hb hcs ⊢
    omega
  · rw [merged, blockSize_setNext]
    exact blockSize_setSize _ _ _ hc.merged_size_lt
  · rw [merged, blockIsFree_setNext, blockIsFree_setSize, hheader.isFree_eq]
  · exact blockNext_setNext _ _ _ hlt
  · intro x hx
    rw [List.mem_singleton.mp hx]
    exact ⟨b, by simp, le_rfl, by omega⟩

/-- The successor's `next` field is out of reach of a write to `b`'s size. -/
theorem blockNext_setSize_of_ne {a d v : ℕ} (h : a + headerSize ≤ d) :
    blockNext (setSize m a v) d = blockNext m d := by
  simp only [headerSize] at h
  exact readLE_writeLE_disjoint m (Or.inr (by omega))

theorem absorbNext_eq (hc : Chain m lo hi (pre ++ b :: c :: post)) :
    absorbNext m b.start =
      setNext (setSize m b.start (b.size + headerSize + c.size)) b.start
        (nextAddr post 0) := by
  have hheader := hc.header
  have hsecond := hc.second_header
  have hnext : blockNext m b.start = c.start := hheader.next_eq
  have hmod : (b.size + headerSize + c.size) % 2 ^ 32 = b.size + headerSize + c.size :=
    Nat.mod_eq_of_lt hc.merged_size_lt
  have hstart := hc.second_start
  simp only [absorbNext]
  rw [hnext, hheader.size_eq, hsecond.size_eq, hmod, blockNext_setSize, hnext,
    blockNext_setSize_of_ne (by omega), hsecond.next_eq]

theorem Chain.absorb (hc : Chain m lo hi (pre ++ b :: c :: post)) :
    Chain (absorbNext m b.start) lo hi (pre ++ merged b c b.tag :: post) := by
  rw [absorbNext_eq hc]
  exact hc.merge rfl rfl

theorem headersOnly_absorb (hc : Chain m lo hi (pre ++ b :: c :: post)) :
    HeadersOnly [b] m (absorbNext m b.start) := by
  rw [absorbNext_eq hc]
  exact (headersOnly_setSize m b _).trans (headersOnly_setNext _ b _)

end ImplusKernel.Heap
