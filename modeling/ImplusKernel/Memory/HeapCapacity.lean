import ImplusKernel.Memory.HeapHint

/-!
# Requested and granted sizes

A request is rounded up to a multiple of eight in 32-bit arithmetic.  Up to
`0xFFFFFFF8` bytes the block handed out holds the request; the last seven
sizes wrap to zero and are served by any free block.
-/

namespace ImplusKernel.Heap

open ByteMemory Words Tiling

variable {s s' : MemoryState} {bs pre post : List Block} {b c : Block}

/-! ## Runs with all four calls -/

inductive HeapCall
  | kmalloc (size : ℕ)
  | kfree (ptr : ℕ)
  | kcalloc (num size : ℕ)
  | krealloc (ptr newSize : ℕ)

/-- Arguments are 32-bit sizes and 64-bit pointers. -/
def HeapCall.InRange : HeapCall → Prop
  | .kmalloc size => size < 2 ^ 32
  | .kfree ptr => ptr < 2 ^ 64
  | .kcalloc num size => num < 2 ^ 32 ∧ size < 2 ^ 32
  | .krealloc ptr newSize => ptr < 2 ^ 64 ∧ newSize < 2 ^ 32

def HeapCall.exec (s : MemoryState) : HeapCall → Option MemoryState
  | .kmalloc size => (Heap.kmalloc s size).map Prod.fst
  | .kfree ptr => (Heap.kfree s ptr).map Prod.fst
  | .kcalloc num size => (Heap.kcalloc s num size).map Prod.fst
  | .krealloc ptr newSize => (Heap.krealloc s ptr newSize).map Prod.fst

/-- Runs of all four calls and of stores into blocks in use, in which every
call meets `Allowed` in the state it is made from. -/
inductive AllocRun (Allowed : MemoryState → HeapCall → Prop) (s₀ : MemoryState) :
    MemoryState → Prop
  | start : AllocRun Allowed s₀ s₀
  | call {s s' : MemoryState} (c : HeapCall) (hrange : c.InRange) (hallowed : Allowed s c)
      (hrun : AllocRun Allowed s₀ s) (hexec : c.exec s = some s') : AllocRun Allowed s₀ s'
  | store {s : MemoryState} {bs : List Block} {b : Block} (x : ℕ) (v : UInt8)
      (hrun : AllocRun Allowed s₀ s) (hblocks : heapBlocks s = some bs) (hb : b ∈ bs)
      (hused : b.tag = false) (hlow : payload b ≤ x) (hhigh : x < payload b + b.size) :
      AllocRun Allowed s₀ { s with mem := Function.update s.mem x v }

/-- No block of the list is free. -/
def NoFreeBlock (s : MemoryState) : Prop :=
  ∀ bs, heapBlocks s = some bs → ∀ b ∈ bs, b.tag = false

/-- No block in use has its payload at `ptr`. -/
def NotLive (s : MemoryState) (ptr : ℕ) : Prop :=
  ∀ bs, heapBlocks s = some bs → ∀ b ∈ bs, payload b = ptr → b.tag = true

/-- The calls after which the list is still well formed: `kcalloc` does not
clear past a block whose size wrapped, and `krealloc` does not absorb the
block under the hint. -/
def KeepsHeap (s : MemoryState) : HeapCall → Prop
  | .kcalloc num size => num * size ≤ 0xFFFFFFF8 ∨ 2 ^ 32 ≤ num * size ∨ NoFreeBlock s
  | .krealloc ptr newSize => ∀ bs, heapBlocks s = some bs → ¬AbsorbsHint s bs ptr newSize
  | _ => True

theorem HeapInvariant.blocks_eq {bs' : List Block} (h : HeapInvariant s bs)
    (hblocks : heapBlocks s = some bs') : bs' = bs :=
  Option.some.inj (hblocks.symm.trans h.represents.heapBlocks_eq)

theorem HeapInvariant.noFreeBlock_iff (h : HeapInvariant s bs) :
    NoFreeBlock s ↔ ∀ b ∈ bs, b.tag = false := by
  constructor
  · intro hno
    exact hno bs h.represents.heapBlocks_eq
  · intro hno bs' hbs'
    rw [h.blocks_eq hbs']
    exact hno

/-- A request that wraps is served whenever some block is free. -/
theorem kmalloc_wrapped (h : HeapInvariant s bs) {size : ℕ} (hlow : 0xFFFFFFF8 < size)
    (hhigh : size < 2 ^ 32) :
    (NoFreeBlock s ∧ ∃ r, r.ptr = 0 ∧ kmalloc s size = some (s, r)) ∨
    (¬NoFreeBlock s ∧ ∃ pre b post, bs = pre ++ b :: post ∧ b.tag = true ∧
      kmalloc s size = some (allocated s b 0 post, .block (payload b))) := by
  have hwrap := alignUp_wraps hlow hhigh
  rcases kmalloc_spec h (show size ≠ 0 by omega) with
    ⟨pre, b, post, hbs, htag, _, hk⟩ | ⟨hnone, hk⟩
  · right
    rw [hwrap] at hk
    refine ⟨?_, pre, b, post, hbs, htag, hk⟩
    intro hno
    have hused := h.noFreeBlock_iff.mp hno b (by simp [hbs])
    simp [htag] at hused
  · left
    rw [hwrap] at hnone
    refine ⟨h.noFreeBlock_iff.mpr ?_, _, rfl, hk⟩
    intro b hb
    by_contra htag
    have hlt := hnone b hb (by simpa using htag)
    omega

/-! ## What a returned block holds -/

/-- The live block at `p` has room for `n` bytes. -/
def HoldsAtLeast (s : MemoryState) (p n : ℕ) : Prop :=
  ∃ bs, heapBlocks s = some bs ∧ ∃ b ∈ bs, b.tag = false ∧ payload b = p ∧ n ≤ b.size

def KmallocCapacity (s : MemoryState) (size : ℕ) : Prop :=
  ∃ s' r, kmalloc s size = some (s', r) ∧ (r.ptr ≠ 0 → HoldsAtLeast s' r.ptr size)

def KreallocCapacity (s : MemoryState) (ptr newSize : ℕ) : Prop :=
  ∃ s' r, krealloc s ptr newSize = some (s', r) ∧
    (r.ptr ≠ 0 → HoldsAtLeast s' r.ptr newSize)

/-- The block holds the whole product, its bytes are zero, and the clearing
loop wrote nothing outside its payload. -/
def KcallocCapacity (s : MemoryState) (num size : ℕ) : Prop :=
  ∃ s' r, kcalloc s num size = some (s', r) ∧ (r.ptr ≠ 0 →
    ∃ bs, heapBlocks s' = some bs ∧ ∃ b ∈ bs, b.tag = false ∧ payload b = r.ptr ∧
      num * size ≤ b.size ∧
      (∀ x, r.ptr ≤ x → x < r.ptr + num * size → s'.mem x = 0) ∧
      ∃ s₁ r₁, kmalloc s (num * size) = some (s₁, r₁) ∧
        ∀ x, x < r.ptr ∨ r.ptr + b.size ≤ x → s'.mem x = s₁.mem x)

theorem Represents.holdsAtLeast (h : Represents s bs) (hb : b ∈ bs)
    (hused : b.tag = false) {n : ℕ} (hn : n ≤ b.size) : HoldsAtLeast s (payload b) n :=
  ⟨bs, h.heapBlocks_eq, b, hb, hused, rfl, hn⟩

theorem not_holdsAtLeast {p n : ℕ} (hsize : blockSize s.mem (p - headerSize) < n) :
    ¬HoldsAtLeast s p n := by
  rintro ⟨bs, hblocks, b, hb, -, rfl, hn⟩
  have hread := size_of_mem_blocksFrom hblocks hb
  rw [payload, Nat.add_sub_cancel] at hsize
  omega

/-- No block reaches the size of a request that wraps. -/
theorem Represents.size_lt_of_wraps (h : Represents s bs) (hb : b ∈ bs) {size : ℕ}
    (hlow : 0xFFFFFFF8 < size) : b.size < size := by
  have hbounds := h.chain.bounds hb
  have hbytes : heapBytes = 16777216 := rfl
  omega

theorem kmallocCapacity_iff (h : HeapInvariant s bs) {size : ℕ} (hlt : size < 2 ^ 32) :
    KmallocCapacity s size ↔ size ≤ 0xFFFFFFF8 ∨ NoFreeBlock s := by
  by_cases hle : size ≤ 0xFFFFFFF8
  · simp only [hle, true_or, iff_true]
    by_cases hzero : size = 0
    · rw [hzero]
      exact ⟨s, .zeroSize, kmalloc_zero h.represents, fun hptr ↦ absurd rfl hptr⟩
    rcases kmalloc_spec h hzero with ⟨pre, b, post, rfl, _, hfit, hk⟩ | ⟨_, hk⟩
    · refine ⟨_, _, hk, fun _ ↦ ?_⟩
      have hinv := h.allocated (alignUp_aligned size)
      exact hinv.represents.holdsAtLeast (b := handedOut b (alignUp size minAllocAlign)) (by simp)
        rfl ((le_alignUp hle).trans (le_granted hfit))
    · exact ⟨_, _, hk, fun hptr ↦ absurd rfl hptr⟩
  · simp only [hle, false_or]
    rcases kmalloc_wrapped h (not_le.mp hle) hlt with
      ⟨hno, r, hr, hk⟩ | ⟨hfree, pre, b, post, rfl, _, hk⟩
    · exact iff_of_true ⟨_, _, hk, fun hptr ↦ absurd hr hptr⟩ hno
    · refine iff_of_false ?_ hfree
      rintro ⟨s', r, hcall, hholds⟩
      rw [hk] at hcall
      obtain ⟨rfl, rfl⟩ := Prod.mk.inj (Option.some.inj hcall)
      have hinv := h.allocated (n := 0) rfl
      have hmem : handedOut b 0 ∈ pre ++ handedOut b 0 :: (remainder b 0 ++ post) := by simp
      have hsize := hinv.represents.blockSize_payload hmem
      refine not_holdsAtLeast ?_ (hholds (by simp [KmallocResult.ptr, payload, headerSize]))
      exact hsize.trans_lt (hinv.represents.size_lt_of_wraps hmem (not_le.mp hle))

/-! ## Resized blocks -/

theorem HeapInvariant.notLive_iff (h : HeapInvariant s bs) (ptr : ℕ) :
    NotLive s ptr ↔ ∀ b ∈ bs, payload b = ptr → b.tag = true := by
  constructor
  · intro hdead
    exact hdead bs h.represents.heapBlocks_eq
  · intro hdead bs' hbs'
    rw [h.blocks_eq hbs']
    exact hdead

/-- A moved allocation's new block survives the release of the old one. -/
theorem moved_holdsAtLeast {before after : List Block} {d : Block} {n : ℕ} {s₃ : MemoryState}
    {old : KfreeResult} (h : HeapInvariant s (before ++ d :: after))
    (hmem : b ∈ before ++ d :: after) (hb : b.tag = false) (hd : d.tag = true)
    (hn : n % minAllocAlign = 0) (hgt : b.size < n) (hfit : n ≤ d.size)
    (hfree : kfree (copied s b d n after) (payload b) = some (s₃, old)) :
    HoldsAtLeast s₃ (payload d) n := by
  have hcopied := h.copied (b := b) hn hgt hfit
  have hnew : handedOut d n ∈ before ++ handedOut d n :: (remainder d n ++ after) := by simp
  have hstart : b.start ≠ d.start := by
    intro heq
    have hbd := h.chain.tiles.eq_of_start_eq (by norm_num [headerSize]) hmem
      (show d ∈ before ++ d :: after by simp) heq
    simp [hbd, hd] at hb
  rcases kfree_cases hcopied.represents (payload b) with
    ⟨_, _, hk⟩ | ⟨pre', b', post', heq, _, hptr, hk⟩
  · rw [hk] at hfree
    obtain ⟨rfl, -⟩ := Prod.mk.inj (Option.some.inj hfree)
    exact hcopied.represents.holdsAtLeast hnew rfl (le_granted hfit)
  · rw [hk] at hfree
    obtain ⟨rfl, -⟩ := Prod.mk.inj (Option.some.inj hfree)
    have hrel := (heq ▸ hcopied).release
    have hne : handedOut d n ≠ b' := by
      rintro rfl
      exact hstart (Nat.add_right_cancel hptr).symm
    rw [heq] at hnew
    have hkept : handedOut d n ∈ released pre' b' post' := by
      rw [mem_released_iff rfl]
      simpa [hne] using hnew
    exact hrel.represents.holdsAtLeast hkept rfl (le_granted hfit)

theorem kreallocCapacity_of_le (h : HeapInvariant s bs) {ptr newSize : ℕ} (hptr : ptr ≠ 0)
    (hle : newSize ≤ 0xFFFFFFF8) : KreallocCapacity s ptr newSize := by
  by_cases hzero : newSize = 0
  · unfold KreallocCapacity krealloc
    rw [if_neg hptr, if_pos hzero]
    rcases kfree_cases h.represents ptr with ⟨_, _, hk⟩ | ⟨_, _, _, _, _, _, hk⟩ <;>
      exact ⟨_, _, by rw [hk]; rfl, fun hnull ↦ absurd rfl hnull⟩
  obtain ⟨s', r, hcall, hr⟩ := krealloc_spec h hptr hzero
  have haligned := alignUp_aligned newSize
  have hround := le_alignUp hle
  refine ⟨s', r, hcall, ?_⟩
  intro hnull
  cases hr with
  | rejected _ => exact absurd rfl hnull
  | shrunk pre b post hbs hb hp hn =>
      have hinv := (hbs ▸ h).shrunk hb haligned
      rw [KreallocResult.ptr, ← hp]
      exact hinv.represents.holdsAtLeast (b := handedOut b _) (by simp) rfl
        (hround.trans (le_granted hn))
  | grown pre b c post hbs hb hp hc hgt hn =>
      have hrep := (hbs ▸ h.represents).grown hb haligned
      rw [KreallocResult.ptr, ← hp]
      exact hrep.holdsAtLeast (b := handedOut (merged b c false) _) (by simp) rfl
        (hround.trans (le_granted hn))
  | stuck _ _ _ _ _ _ _ => exact absurd rfl hnull
  | moved b hmem hb hp hgt _ before d after hbs hd hn _ _ hfree =>
      rw [← hp] at hfree
      obtain ⟨bs', hblocks, x, hx, hused, hpx, hnx⟩ :=
        moved_holdsAtLeast (hbs ▸ h) (hbs ▸ hmem) hb hd haligned hgt hn hfree
      exact ⟨bs', hblocks, x, hx, hused, hpx, hround.trans hnx⟩

/-- A wrapped size shrinks a live allocation to almost nothing. -/
theorem kreallocCapacity_of_wraps (h : HeapInvariant s bs) {ptr newSize : ℕ} (hptr : ptr ≠ 0)
    (hlow : 0xFFFFFFF8 < newSize) (hlt : newSize < 2 ^ 32) :
    KreallocCapacity s ptr newSize ↔ NotLive s ptr := by
  have hwrap := alignUp_wraps hlow hlt
  obtain ⟨s', r, hcall, hr⟩ := krealloc_spec h hptr (show newSize ≠ 0 by omega)
  rw [hwrap] at hr
  rw [h.notLive_iff]
  cases hr with
  | rejected hdead => exact iff_of_true ⟨s, _, hcall, fun hnull ↦ absurd rfl hnull⟩ hdead
  | shrunk pre b post hbs hb hp hn =>
      refine iff_of_false ?_ ?_
      · rintro ⟨s'', r', hcall', hholds⟩
        rw [hcall] at hcall'
        obtain ⟨rfl, rfl⟩ := Prod.mk.inj (Option.some.inj hcall')
        have hinv := (hbs ▸ h).shrunk (n := 0) hb rfl
        have hmem : handedOut b 0 ∈ pre ++ handedOut b 0 :: (remainder b 0 ++ post) := by simp
        have hsize := hinv.represents.blockSize_payload hmem
        refine not_holdsAtLeast ?_ (hholds hptr)
        rw [KreallocResult.ptr, ← hp]
        exact hsize.trans_lt (hinv.represents.size_lt_of_wraps hmem hlow)
      · intro hdead
        have htag := hdead b (by simp [hbs]) hp
        simp [hb] at htag
  | grown _ b _ _ _ _ _ _ hgt _ => exact absurd hgt (Nat.not_lt_zero _)
  | stuck _ _ _ _ hgt _ _ => exact absurd hgt (Nat.not_lt_zero _)
  | moved _ _ _ _ hgt _ _ _ _ _ _ _ _ _ => exact absurd hgt (Nat.not_lt_zero _)

theorem kreallocCapacity_null (s : MemoryState) (newSize : ℕ) :
    KreallocCapacity s 0 newSize ↔ KmallocCapacity s newSize := by
  unfold KreallocCapacity KmallocCapacity krealloc
  rw [if_pos rfl]
  cases kmalloc s newSize with
  | none => simp
  | some pair =>
      obtain ⟨s', r⟩ := pair
      simp [KreallocResult.ptr]

theorem kreallocCapacity_iff (h : HeapInvariant s bs) (ptr : ℕ) {newSize : ℕ}
    (hlt : newSize < 2 ^ 32) :
    KreallocCapacity s ptr newSize ↔ newSize ≤ 0xFFFFFFF8 ∨
      (ptr = 0 ∧ NoFreeBlock s) ∨ (ptr ≠ 0 ∧ NotLive s ptr) := by
  by_cases hptr : ptr = 0
  · subst hptr
    rw [kreallocCapacity_null, kmallocCapacity_iff h hlt]
    simp
  by_cases hle : newSize ≤ 0xFFFFFFF8
  · exact iff_of_true (kreallocCapacity_of_le h hptr hle) (Or.inl hle)
  · rw [kreallocCapacity_of_wraps h hptr (not_le.mp hle) hlt]
    simp [hptr, hle]

/-! ## Cleared blocks -/

/-- Clearing part of a payload keeps the list. -/
theorem HeapInvariant.cleared (h : HeapInvariant s bs) (hb : b ∈ bs) {n : ℕ}
    (hn : n ≤ b.size) :
    HeapInvariant { s with mem := memset s.mem (payload b) 0 n } bs := by
  have hbounds := h.chain.bounds hb
  have hfits := h.chain.fits
  refine ⟨h.initialized, h.chain.of_payload_write hb ?_, h.hint⟩
  intro x hx
  exact memset_outside _ _ (by unfold payload; omega) (by omega)

theorem kcalloc_overflow {num size : ℕ} (h : 2 ^ 32 ≤ num * size) :
    kcalloc s num size = some (s, .sizeOverflow) := by
  have hnum : 0 < num := by
    rcases Nat.eq_zero_or_pos num with rfl | hpos
    · simp at h
    · exact hpos
  have hguard : (2 ^ 32 - 1) / num < size := by
    rw [Nat.div_lt_iff_lt_mul hnum, Nat.mul_comm]
    omega
  exact if_pos ⟨hnum.ne', hguard⟩

theorem kcalloc_eq {num size : ℕ} (h : num * size < 2 ^ 32) :
    kcalloc s num size = (do
      let (s', r) ← kmalloc s (num * size)
      if r.ptr ≠ 0 then
        some ({ s' with mem := memset s'.mem r.ptr 0 (num * size) }, .allocated r)
      else some (s', .allocated r)) := by
  have hguard : ¬(num ≠ 0 ∧ (2 ^ 32 - 1) / num < size) := by
    rintro ⟨hnum, hlt⟩
    rw [Nat.div_lt_iff_lt_mul (Nat.pos_of_ne_zero hnum), Nat.mul_comm] at hlt
    omega
  unfold kcalloc
  rw [if_neg hguard, Nat.mod_eq_of_lt h]

theorem kcalloc_block {num size : ℕ} (h : num * size < 2 ^ 32)
    (hk : kmalloc s (num * size) = some (s', .block (payload b))) :
    kcalloc s num size =
      some ({ s' with mem := memset s'.mem (payload b) 0 (num * size) },
        .allocated (.block (payload b))) := by
  rw [kcalloc_eq h, hk]
  simp [KmallocResult.ptr, payload, headerSize]

theorem kcalloc_null {num size : ℕ} {r : KmallocResult} (h : num * size < 2 ^ 32)
    (hk : kmalloc s (num * size) = some (s', r)) (hr : r.ptr = 0) :
    kcalloc s num size = some (s', .allocated r) := by
  rw [kcalloc_eq h, hk]
  simp [hr]

theorem kcallocCapacity_null {num size : ℕ} {r : KcallocResult}
    (hk : kcalloc s num size = some (s', r)) (hr : r.ptr = 0) : KcallocCapacity s num size :=
  ⟨s', r, hk, fun hptr ↦ absurd hr hptr⟩

theorem kcallocCapacity_of_le (h : HeapInvariant s bs) {num size : ℕ}
    (hle : num * size ≤ 0xFFFFFFF8) : KcallocCapacity s num size := by
  have hlt : num * size < 2 ^ 32 := by omega
  by_cases hzero : num * size = 0
  · have hk := kmalloc_zero h.represents
    rw [← hzero] at hk
    exact kcallocCapacity_null (kcalloc_null hlt hk rfl) rfl
  rcases kmalloc_spec h hzero with ⟨pre, b, post, rfl, _, hfit, hk⟩ | ⟨_, hk⟩
  · have hinv := h.allocated (alignUp_aligned (num * size))
    set n := alignUp (num * size) minAllocAlign
    have hmem : handedOut b n ∈ pre ++ handedOut b n :: (remainder b n ++ post) := by simp
    have hcap : num * size ≤ (handedOut b n).size := (le_alignUp hle).trans (le_granted hfit)
    have hcleared := hinv.cleared hmem hcap
    have hroom : payload b + num * size ≤ 2 ^ 64 := by
      have hbounds := hinv.chain.bounds hmem
      have hfits := hinv.chain.fits
      simp only [payload, handedOut] at hbounds hcap ⊢
      omega
    refine ⟨_, _, kcalloc_block hlt hk, fun _ ↦ ⟨_, hcleared.represents.heapBlocks_eq,
      handedOut b n, hmem, rfl, rfl, hcap, ?_, _, _, hk, ?_⟩⟩
    · intro x hlow hhigh
      exact memset_inside _ _ hroom hlow hhigh
    · intro x hx
      refine memset_outside _ _ hroom (hx.imp_right fun hright ↦ ?_)
      exact (Nat.add_le_add_left hcap _).trans hright
  · exact kcallocCapacity_null (kcalloc_null hlt hk rfl) rfl

/-- When the product wraps in the rounding, the block is far too small and
the clearing loop runs past it. -/
theorem kcallocCapacity_of_wraps (h : HeapInvariant s bs) {num size : ℕ}
    (hlow : 0xFFFFFFF8 < num * size) (hlt : num * size < 2 ^ 32) :
    KcallocCapacity s num size ↔ NoFreeBlock s := by
  rcases kmalloc_wrapped h hlow hlt with ⟨hno, r, hr, hk⟩ | ⟨hfree, pre, b, post, rfl, _, hk⟩
  · exact iff_of_true (kcallocCapacity_null (kcalloc_null hlt hk hr) hr) hno
  · refine iff_of_false ?_ hfree
    rintro ⟨s', r, hcall, hholds⟩
    rw [kcalloc_block hlt hk] at hcall
    obtain ⟨rfl, rfl⟩ := Prod.mk.inj (Option.some.inj hcall)
    obtain ⟨bs', hblocks, x, hx, -, hpx, hcap, -⟩ :=
      hholds (by simp [KcallocResult.ptr, KmallocResult.ptr, payload, headerSize])
    have hinv := h.allocated (n := 0) rfl
    have hmem : handedOut b 0 ∈ pre ++ handedOut b 0 :: (remainder b 0 ++ post) := by simp
    have hsmall := hinv.represents.size_lt_of_wraps hmem hlow
    -- The loop starts after the header, so the walk still reads the old size.
    have hkept : blockSize (memset (allocated s b 0 post).mem (payload b) 0 (num * size)) b.start =
        blockSize (allocated s b 0 post).mem b.start := by
      have hbounds := hinv.chain.bounds hmem
      apply readLE_congr
      intro y hy hy'
      simp only [payload, headerSize, handedOut] at hbounds ⊢
      exact memset_below _ _ (by omega) (by omega)
    have hsize : blockSize (allocated s b 0 post).mem b.start = (handedOut b 0).size :=
      hinv.represents.blockSize_payload hmem
    have hstart : x.start = b.start := Nat.add_right_cancel hpx
    have hread : x.size =
        blockSize (memset (allocated s b 0 post).mem (payload b) 0 (num * size)) x.start :=
      (size_of_mem_blocksFrom hblocks hx).symm
    rw [hstart, hkept, hsize] at hread
    omega

theorem kcallocCapacity_iff (h : HeapInvariant s bs) (num size : ℕ) :
    KcallocCapacity s num size ↔
      num * size ≤ 0xFFFFFFF8 ∨ 2 ^ 32 ≤ num * size ∨ NoFreeBlock s := by
  by_cases hle : num * size ≤ 0xFFFFFFF8
  · exact iff_of_true (kcallocCapacity_of_le h hle) (Or.inl hle)
  by_cases hbig : 2 ^ 32 ≤ num * size
  · refine iff_of_true ?_ (Or.inr (Or.inl hbig))
    exact ⟨s, .sizeOverflow, kcalloc_overflow hbig, fun hnull ↦ absurd rfl hnull⟩
  · rw [kcallocCapacity_of_wraps h (not_le.mp hle) (not_le.mp hbig), or_iff_right hle,
      or_iff_right hbig]

/-! ## Every state of a run -/

section Preservation

variable {P : MemoryState → List Block → Prop}

theorem HeapInvariant.after_kmalloc {size : ℕ} {r : KmallocResult} (h : HeapInvariant s bs)
    (hP : Stable P) (hs : P s bs) (hcall : kmalloc s size = some (s', r)) :
    ∃ bs', HeapInvariant s' bs' ∧ P s' bs' := by
  by_cases hzero : size = 0
  · rw [hzero, kmalloc_zero h.represents] at hcall
    obtain ⟨rfl, -⟩ := Prod.mk.inj (Option.some.inj hcall)
    exact ⟨bs, h, hs⟩
  rcases kmalloc_spec h hzero with ⟨pre, b, post, rfl, hfree, _, hk⟩ | ⟨_, hk⟩
  · rw [hk] at hcall
    obtain ⟨rfl, -⟩ := Prod.mk.inj (Option.some.inj hcall)
    exact ⟨_, h.allocated (alignUp_aligned size), hP.allocate _ hfree hs⟩
  · rw [hk] at hcall
    obtain ⟨rfl, -⟩ := Prod.mk.inj (Option.some.inj hcall)
    exact ⟨bs, h, hs⟩

theorem HeapInvariant.after_kfree {ptr : ℕ} {r : KfreeResult} (h : HeapInvariant s bs)
    (hP : Stable P) (hs : P s bs) (hcall : kfree s ptr = some (s', r)) :
    ∃ bs', HeapInvariant s' bs' ∧ P s' bs' := by
  rcases kfree_cases h.represents ptr with ⟨_, _, hk⟩ | ⟨pre, b, post, rfl, hused, _, hk⟩
  · rw [hk] at hcall
    obtain ⟨rfl, -⟩ := Prod.mk.inj (Option.some.inj hcall)
    exact ⟨bs, h, hs⟩
  · rw [hk] at hcall
    obtain ⟨rfl, -⟩ := Prod.mk.inj (Option.some.inj hcall)
    exact ⟨_, h.release, hP.release h hused hs⟩

theorem HeapInvariant.after_kcalloc {num size : ℕ} {r : KcallocResult} (h : HeapInvariant s bs)
    (hP : Stable P) (hs : P s bs) (hsafe : KeepsHeap s (.kcalloc num size))
    (hcall : kcalloc s num size = some (s', r)) :
    ∃ bs', HeapInvariant s' bs' ∧ P s' bs' := by
  by_cases hbig : 2 ^ 32 ≤ num * size
  · rw [kcalloc_overflow hbig] at hcall
    obtain ⟨rfl, -⟩ := Prod.mk.inj (Option.some.inj hcall)
    exact ⟨bs, h, hs⟩
  have hlt := not_le.mp hbig
  by_cases hle : num * size ≤ 0xFFFFFFF8
  · by_cases hzero : num * size = 0
    · have hk := kmalloc_zero h.represents
      rw [← hzero] at hk
      rw [kcalloc_null hlt hk rfl] at hcall
      obtain ⟨rfl, -⟩ := Prod.mk.inj (Option.some.inj hcall)
      exact ⟨bs, h, hs⟩
    rcases kmalloc_spec h hzero with ⟨pre, b, post, rfl, hfree, hfit, hk⟩ | ⟨_, hk⟩
    · rw [kcalloc_block hlt hk] at hcall
      obtain ⟨rfl, -⟩ := Prod.mk.inj (Option.some.inj hcall)
      have hinv := h.allocated (alignUp_aligned (num * size))
      have hcap := (le_alignUp hle).trans (le_granted hfit)
      exact ⟨_, hinv.cleared (b := handedOut b _) (by simp) hcap,
        hP.write _ (hP.allocate _ hfree hs)⟩
    · rw [kcalloc_null hlt hk rfl] at hcall
      obtain ⟨rfl, -⟩ := Prod.mk.inj (Option.some.inj hcall)
      exact ⟨bs, h, hs⟩
  · have hno : NoFreeBlock s := (hsafe.resolve_left hle).resolve_left hbig
    rcases kmalloc_wrapped h (not_le.mp hle) hlt with ⟨_, r', hr', hk⟩ | ⟨hfree, _⟩
    · rw [kcalloc_null hlt hk hr'] at hcall
      obtain ⟨rfl, -⟩ := Prod.mk.inj (Option.some.inj hcall)
      exact ⟨bs, h, hs⟩
    · exact absurd hno hfree

/-- What every allowed call and every change of payload bytes preserves holds
along the whole run. -/
theorem AllocRun.preserves {Allowed : MemoryState → HeapCall → Prop} {s₀ : MemoryState}
    {bs₀ : List Block}
    (hcall : ∀ {s s' bs} (c : HeapCall), HeapInvariant s bs → P s bs → Allowed s c →
      c.exec s = some s' → ∃ bs', HeapInvariant s' bs' ∧ P s' bs')
    (hwrite : ∀ {s bs} (m : Mem), P s bs → P { s with mem := m } bs)
    (h₀ : HeapInvariant s₀ bs₀) (hP₀ : P s₀ bs₀) (hrun : AllocRun Allowed s₀ s) :
    ∃ bs, HeapInvariant s bs ∧ P s bs := by
  induction hrun with
  | start => exact ⟨bs₀, h₀, hP₀⟩
  | call c _ hallowed _ hexec ih =>
      obtain ⟨bs, h, hs⟩ := ih
      exact hcall c h hs hallowed hexec
  | @store s bs b x v _ hblocks hb _ hlow hhigh ih =>
      obtain ⟨bs', h, hs⟩ := ih
      rw [h.blocks_eq hblocks] at hb
      exact ⟨bs', h.store hb v hlow hhigh, hwrite _ hs⟩

end Preservation

theorem HeapInvariant.after_call (h : HeapInvariant s bs) {call : HeapCall}
    (hsafe : KeepsHeap s call) (hexec : call.exec s = some s') : ∃ bs', HeapInvariant s' bs' := by
  cases call with
  | kmalloc size =>
      obtain ⟨⟨t, r⟩, hcall, rfl⟩ := Option.map_eq_some_iff.mp hexec
      obtain ⟨bs', h', -⟩ := h.after_kmalloc stable_true trivial hcall
      exact ⟨bs', h'⟩
  | kfree ptr =>
      obtain ⟨⟨t, r⟩, hcall, rfl⟩ := Option.map_eq_some_iff.mp hexec
      obtain ⟨bs', h', -⟩ := h.after_kfree stable_true trivial hcall
      exact ⟨bs', h'⟩
  | kcalloc num size =>
      obtain ⟨⟨t, r⟩, hcall, rfl⟩ := Option.map_eq_some_iff.mp hexec
      obtain ⟨bs', h', -⟩ := h.after_kcalloc stable_true trivial hsafe hcall
      exact ⟨bs', h'⟩
  | krealloc ptr newSize =>
      obtain ⟨⟨t, r⟩, hcall, rfl⟩ := Option.map_eq_some_iff.mp hexec
      obtain ⟨t', r', hcall', bs', h'⟩ :=
        invariant_of_not_absorbsHint h (hsafe bs h.represents.heapBlocks_eq)
      rw [hcall] at hcall'
      obtain ⟨rfl, -⟩ := Prod.mk.inj (Option.some.inj hcall')
      exact ⟨bs', h'⟩

theorem AllocRun.invariant {s₀ : MemoryState} {bs₀ : List Block} (h₀ : HeapInvariant s₀ bs₀)
    (hrun : AllocRun KeepsHeap s₀ s) : ∃ bs, HeapInvariant s bs := by
  obtain ⟨bs, h, -⟩ := hrun.preserves (P := fun _ _ ↦ True)
    (fun _ h _ hsafe hexec ↦ (h.after_call hsafe hexec).imp fun _ h' ↦ ⟨h', trivial⟩)
    (fun _ _ ↦ trivial) h₀ trivial
  exact ⟨bs, h⟩

/-- In every reachable heap a call hands out at least what was asked for
exactly when the size does not wrap or the call fails. -/
theorem requested_capacity_iff {kernelEnd : ℕ} (hk : KernelEndValid kernelEnd) (mem : Mem)
    (hrun : AllocRun KeepsHeap (memoryInit kernelEnd (.boot mem)) s) :
    (∀ size < 2 ^ 32, KmallocCapacity s size ↔ size ≤ 0xFFFFFFF8 ∨ NoFreeBlock s) ∧
    (∀ ptr, ∀ newSize < 2 ^ 32, KreallocCapacity s ptr newSize ↔ newSize ≤ 0xFFFFFFF8 ∨
      (ptr = 0 ∧ NoFreeBlock s) ∨ (ptr ≠ 0 ∧ NotLive s ptr)) ∧
    (∀ num < 2 ^ 32, ∀ size < 2 ^ 32, KcallocCapacity s num size ↔
      num * size ≤ 0xFFFFFFF8 ∨ 2 ^ 32 ≤ num * size ∨ NoFreeBlock s) := by
  obtain ⟨bs, h⟩ := hrun.invariant (heapInvariant_memoryInit hk mem)
  refine ⟨?_, ?_, ?_⟩
  · intro size hlt
    exact kmallocCapacity_iff h hlt
  · intro ptr newSize hlt
    exact kreallocCapacity_iff h ptr hlt
  · intro num _ size _
    exact kcallocCapacity_iff h num size

/-- Twelve bytes in three cleared pieces, after another allocation. -/
theorem requested_capacity_twelve_bytes :
    ∃ s, AllocRun KeepsHeap sampleHeap s ∧ KcallocCapacity s 3 4 := by
  obtain ⟨s, hcall, -, -⟩ := sampleHeap_allocated
  have hexec : (HeapCall.kmalloc 32).exec sampleHeap = some s := by simp [HeapCall.exec, hcall]
  have hrange : (HeapCall.kmalloc 32).InRange := by norm_num [HeapCall.InRange]
  have hrun : AllocRun KeepsHeap sampleHeap s := .call (.kmalloc 32) hrange trivial .start hexec
  have hcap := (requested_capacity_iff ⟨by norm_num, by norm_num⟩ (fun _ ↦ 0) hrun).2.2
  exact ⟨s, hrun, (hcap 3 (by norm_num) 4 (by norm_num)).mpr (by norm_num)⟩

/-- The largest size of all is served with an empty block. -/
theorem kmalloc_wraps_to_empty :
    AllocRun KeepsHeap sampleHeap sampleHeap ∧
      (∃ s', kmalloc sampleHeap 0xFFFFFFFF = some (s', .block 0x110010) ∧
        blockSize s'.mem 0x110000 = 0) ∧
      ¬KmallocCapacity sampleHeap 0xFFFFFFFF := by
  have hcall : ∃ s', kmalloc sampleHeap 0xFFFFFFFF = some (s', .block 0x110010) ∧
      blockSize s'.mem 0x110000 = 0 := ⟨_, rfl, rfl⟩
  refine ⟨.start, hcall, ?_⟩
  obtain ⟨s', hk, hsize⟩ := hcall
  rintro ⟨t, r, hcall, hholds⟩
  rw [hk] at hcall
  obtain ⟨rfl, rfl⟩ := Prod.mk.inj (Option.some.inj hcall)
  refine not_holdsAtLeast ?_ (hholds (by decide))
  simp [KmallocResult.ptr, headerSize, hsize]

end ImplusKernel.Heap
