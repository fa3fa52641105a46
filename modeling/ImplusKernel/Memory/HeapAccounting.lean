import ImplusKernel.Memory.HeapCapacity

/-!
# Heap statistics

`get_free_memory` walks the list, `get_used_memory` subtracts two running
totals.  Allocations and releases keep both in step with the blocks.  A
`krealloc` that resizes a block in place changes its size behind the back of
the totals, and from then on they are off.
-/

namespace ImplusKernel.Heap

open ByteMemory Words Tiling

variable {s s' : MemoryState} {bs pre post : List Block} {b c : Block}

/-! ## Bytes by flag -/

/-- The payload bytes of the blocks with the given flag. -/
def bytesTagged (flag : Bool) (bs : List Block) : ℕ :=
  ((bs.filter fun b ↦ b.tag = flag).map Segment.size).sum

@[simp] theorem bytesTagged_nil (flag : Bool) : bytesTagged flag [] = 0 := rfl

theorem bytesTagged_cons (flag : Bool) (b : Block) (bs : List Block) :
    bytesTagged flag (b :: bs) = (if b.tag = flag then b.size else 0) + bytesTagged flag bs := by
  by_cases hb : b.tag = flag <;> simp [bytesTagged, hb]

@[simp] theorem bytesTagged_append (flag : Bool) (bs cs : List Block) :
    bytesTagged flag (bs ++ cs) = bytesTagged flag bs + bytesTagged flag cs := by
  simp [bytesTagged]

theorem bytesTagged_false_of_free (hfree : ∀ b ∈ bs, b.tag = true) :
    bytesTagged false bs = 0 := by
  induction bs with
  | nil => rfl
  | cons b bs ih =>
      have hb := hfree b (by simp)
      rw [bytesTagged_cons, ih fun x hx ↦ hfree x (List.mem_cons_of_mem b hx), hb]
      rfl

theorem bytesTagged_add (bs : List Block) :
    bytesTagged true bs + bytesTagged false bs = (bs.map Segment.size).sum := by
  induction bs with
  | nil => rfl
  | cons b bs ih =>
      rw [bytesTagged_cons, bytesTagged_cons, List.map_cons, List.sum_cons]
      cases b.tag <;> simp <;> omega

/-- Free bytes, used bytes and headers make up the heap. -/
theorem Represents.bytes_add (h : Represents s bs) :
    bytesTagged true bs + bytesTagged false bs + 16 * bs.length = 4096 * 4096 := by
  have hsum := h.chain.tiles.sum_sizes
  have hbytes : heapBytes = 4096 * 4096 := rfl
  have hadd := bytesTagged_add bs
  simp only [headerSize] at hsum
  omega

/-! ## The walk of `get_free_memory` -/

theorem freeMemoryFrom_of_linked {m : Mem} (hl : Linked m bs 0)
    (hpos : ∀ x ∈ bs, 0 < x.start) {fuel acc : ℕ} (hfuel : bs.length < fuel)
    (hfits : acc + bytesTagged true bs < 2 ^ 32) :
    freeMemoryFrom m fuel acc (nextAddr bs 0) = some (acc + bytesTagged true bs) := by
  induction bs generalizing fuel acc with
  | nil =>
      obtain ⟨fuel, rfl⟩ := Nat.exists_eq_succ_of_ne_zero (Nat.ne_zero_of_lt hfuel)
      simp [freeMemoryFrom]
  | cons b bs ih =>
      obtain ⟨fuel, rfl⟩ := Nat.exists_eq_succ_of_ne_zero (Nat.ne_zero_of_lt hfuel)
      have hb := (hpos b List.mem_cons_self).ne'
      have hflag := isFree_ne_zero_iff hl.1
      have hcons := bytesTagged_cons true b bs
      have hadd : (if blockIsFree m b.start ≠ 0 then (acc + blockSize m b.start) % 2 ^ 32
          else acc) = acc + if b.tag = true then b.size else 0 := by
        by_cases htag : b.tag = true
        · rw [if_pos (hflag.mpr htag), if_pos htag, hl.1.size_eq]
          rw [if_pos htag] at hcons
          exact Nat.mod_eq_of_lt (by omega)
        · rw [if_neg fun hne ↦ htag (hflag.mp hne), if_neg htag]
          rfl
      rw [nextAddr_cons, freeMemoryFrom, if_neg hb]
      simp only [hadd, hl.1.next_eq]
      rw [ih hl.2 (fun x hx ↦ hpos x (List.mem_cons_of_mem b hx))
        (show bs.length < fuel by simpa using hfuel) (by omega), hcons]
      exact congrArg some (by omega)

theorem Represents.getFreeMemory_eq (h : Represents s bs) :
    getFreeMemory s = some (bytesTagged true bs) := by
  have htotal := h.bytes_add
  rw [getFreeMemory, if_neg (by simp [h.initialized]), ← h.heapStart_eq,
    freeMemoryFrom_of_linked h.chain.linked (fun x hx ↦ h.chain.start_pos hx)
      h.chain.length_lt_walkFuel (by omega), Nat.zero_add]

/-! ## The totals -/

/-- What the two statistics are meant to report. -/
def Accounted (s : MemoryState) : Prop :=
  ∃ bs free, heapBlocks s = some bs ∧ getFreeMemory s = some free ∧
    getUsedMemory s = bytesTagged false bs % 2 ^ 32 ∧
    free + getUsedMemory s + 16 * bs.length = 4096 * 4096

/-- The totals differ by the bytes in use, in 32-bit arithmetic. -/
def Balanced (s : MemoryState) (bs : List Block) : Prop :=
  s.totalFreed < 2 ^ 32 ∧ s.totalAllocated = (s.totalFreed + bytesTagged false bs) % 2 ^ 32

theorem Balanced.getUsedMemory_eq (hbal : Balanced s bs) (h : Represents s bs) :
    getUsedMemory s = bytesTagged false bs := by
  have htotal := h.bytes_add
  obtain ⟨hfreed, halloc⟩ := hbal
  rw [getUsedMemory, halloc]
  omega

/-- Both equations say that `get_used_memory` is the number of bytes in use. -/
theorem Represents.accounted_iff (h : Represents s bs) :
    Accounted s ↔ getUsedMemory s = bytesTagged false bs := by
  have htotal := h.bytes_add
  have hfree := h.getFreeMemory_eq
  have hmod : bytesTagged false bs % 2 ^ 32 = bytesTagged false bs :=
    Nat.mod_eq_of_lt (by omega)
  constructor
  · rintro ⟨bs', free, hbs', hfree', hused, -⟩
    obtain rfl := Option.some.inj (h.heapBlocks_eq.symm.trans hbs')
    exact hused.trans hmod
  · intro hused
    refine ⟨bs, _, h.heapBlocks_eq, hfree, hused.trans hmod.symm, ?_⟩
    rw [hused]
    exact htotal

theorem balanced_memoryInit (kernelEnd : ℕ) (mem : Mem) (hfree : ∀ b ∈ bs, b.tag = true) :
    Balanced (memoryInit kernelEnd (.boot mem)) bs := by
  rw [Balanced, bytesTagged_false_of_free hfree]
  exact ⟨by norm_num [memoryInit, MemoryState.boot], rfl⟩

/-! ## One step -/

theorem bytesTagged_handedOut (pre : List Block) (b : Block) (n : ℕ) (post : List Block) :
    bytesTagged false (pre ++ handedOut b n :: (remainder b n ++ post)) =
      bytesTagged false pre + granted b n + bytesTagged false post := by
  have hrest := bytesTagged_false_of_free fun x (hx : x ∈ remainder b n) ↦ remainder_free hx
  have hused : (handedOut b n).tag = false := rfl
  have hsize : (handedOut b n).size = granted b n := rfl
  rw [bytesTagged_append, bytesTagged_cons, if_pos hused, bytesTagged_append, hrest, hsize]
  omega

theorem Balanced.allocate (hbal : Balanced s (pre ++ b :: post)) (hb : b.tag = true) (n : ℕ) :
    Balanced (allocated s b n post) (pre ++ handedOut b n :: (remainder b n ++ post)) := by
  obtain ⟨hfreed, halloc⟩ := hbal
  rw [bytesTagged_append, bytesTagged_cons, if_neg (by simp [hb])] at halloc
  refine ⟨hfreed, ?_⟩
  rw [bytesTagged_handedOut]
  simp only [allocated, halloc]
  omega

theorem bytesTagged_coalesceNext (b : Block) (post : List Block) :
    bytesTagged false (coalesceNext b post).2 = bytesTagged false post := by
  cases post with
  | nil => rfl
  | cons c post =>
      rw [coalesceNext_cons]
      split
      · rename_i hc
        simp [bytesTagged_cons, hc]
      · rfl

theorem bytesTagged_coalescePrev (hb : b.tag = true) (pre post : List Block) :
    bytesTagged false (coalescePrev pre b post) =
      bytesTagged false pre + bytesTagged false post := by
  rcases List.eq_nil_or_concat pre with rfl | ⟨pre', p, rfl⟩
  · simp [coalescePrev, bytesTagged_cons, hb]
  · rw [List.concat_eq_append, coalescePrev_concat]
    split
    · rename_i hp
      simp [bytesTagged_cons, merged, hp]
    · simp [bytesTagged_cons, hb, Nat.add_assoc]

/-- Merging moves only free bytes. -/
theorem bytesTagged_released (pre : List Block) (b : Block) (post : List Block) :
    bytesTagged false (released pre b post) =
      bytesTagged false pre + bytesTagged false post := by
  rw [released, bytesTagged_coalescePrev (coalesceNext_tag _ _), bytesTagged_coalesceNext]

theorem Balanced.release (h : HeapInvariant s (pre ++ b :: post)) (hb : b.tag = false)
    (hbal : Balanced s (pre ++ b :: post)) :
    Balanced (releaseBlock s b.start (prevAddr pre 0)) (released pre b post) := by
  obtain ⟨hfreed, halloc⟩ := hbal
  have hsize : blockSize (setIsFree s.mem b.start 1) b.start = b.size :=
    (h.chain.retag true).header.size_eq
  rw [bytesTagged_append, bytesTagged_cons, if_pos hb] at halloc
  refine ⟨Nat.mod_lt _ (by norm_num), ?_⟩
  simp only [releaseBlock, hsize, halloc, bytesTagged_released]
  omega

theorem stable_balanced : Stable Balanced where
  allocate := fun n hb hbal ↦ hbal.allocate hb n
  release := Balanced.release
  write := fun _ hbal ↦ hbal

/-! ## Resizing -/

/-- The block at `ptr` is so large that cutting it to `n` bytes splits it. -/
def Splittable (bs : List Block) (ptr n : ℕ) : Prop :=
  ∃ b ∈ bs, b.tag = false ∧ payload b = ptr ∧ n + headerSize + minSplitRemainder ≤ b.size

/-- The call is a `krealloc` that changes the size of a block in place. -/
def ResizesInPlace (s : MemoryState) : HeapCall → Prop
  | .krealloc ptr newSize => newSize ≠ 0 ∧ ∃ bs, heapBlocks s = some bs ∧
      (Splittable bs ptr (alignUp newSize minAllocAlign) ∨
        Absorbable bs ptr (alignUp newSize minAllocAlign))
  | _ => False

/-- The requested size is rounded up without wrapping; a `kcalloc` whose
product does not fit in 32 bits makes no request. -/
def HeapCall.RoundingFits : HeapCall → Prop
  | .kmalloc size => size ≤ 0xFFFFFFF8
  | .kfree _ => True
  | .kcalloc num size => num * size ≤ 0xFFFFFFF8 ∨ 2 ^ 32 ≤ num * size
  | .krealloc _ newSize => newSize ≤ 0xFFFFFFF8

/-- The sizes of the block list changed and the totals did not. -/
def Drifts (s : MemoryState) (bs : List Block) (s' : MemoryState) : Prop :=
  ∃ bs', Represents s' bs' ∧ bytesTagged false bs' ≠ bytesTagged false bs ∧
    getUsedMemory s' = getUsedMemory s

theorem getUsedMemory_store (s : MemoryState) (m : Mem) :
    getUsedMemory { s with mem := m } = getUsedMemory s := rfl

theorem Drifts.not_accounted (hd : Drifts s bs s') (h : Represents s bs)
    (hbal : Balanced s bs) : ¬Accounted s' := by
  obtain ⟨bs', h', hne, hused⟩ := hd
  rw [h'.accounted_iff, hused, hbal.getUsedMemory_eq h]
  exact hne.symm

/-- A `krealloc` of a live pointer either changes the block in place, and the
totals drift, or keeps whatever is stable. -/
theorem Reallocates.drifts_or_preserves {P : MemoryState → List Block → Prop} {ptr n : ℕ}
    {r : KreallocResult} (hP : Stable P) (h : HeapInvariant s bs) (hs : P s bs)
    (hn : n % minAllocAlign = 0) (hr : Reallocates s bs ptr n s' r) :
    ((Splittable bs ptr n ∨ Absorbable bs ptr n) ∧ Drifts s bs s') ∨
      (¬(Splittable bs ptr n ∨ Absorbable bs ptr n) ∧ ∃ bs', HeapInvariant s' bs' ∧ P s' bs') := by
  have hsmall : ∀ b ∈ bs, payload b = ptr → b.size < n → ¬Splittable bs ptr n := by
    rintro b hb hptr hgt ⟨b', hb', -, hptr', hle⟩
    rw [h.represents.eq_of_payload hb' hb (hptr'.trans hptr.symm)] at hle
    omega
  cases hr with
  | rejected hdead =>
      refine Or.inr ⟨?_, bs, h, hs⟩
      rintro (⟨b, hb, hused, hptr, -⟩ | ⟨pre, b, c, post, hbs, hused, hptr, -⟩)
      · simp [hdead b hb hptr] at hused
      · simp [hdead b (by simp [hbs]) hptr] at hused
  | shrunk pre b post hbs hb hptr hle =>
      subst hbs
      by_cases hsplit : n + headerSize + minSplitRemainder ≤ b.size
      · have hshrunk := (h.shrunk hb hn).represents
        refine Or.inl ⟨Or.inl ⟨b, by simp, hb, hptr, hsplit⟩, _, hshrunk, ?_,
          getUsedMemory_store s _⟩
        rw [bytesTagged_handedOut, granted, if_pos hsplit, bytesTagged_append,
          bytesTagged_cons, if_pos hb]
        simp only [headerSize, minSplitRemainder] at hsplit
        omega
      · have hsize : blockSize s.mem b.start = b.size := h.chain.header.size_eq
        have hsame : splitBlockIfNeeded s.mem b.start n = s.mem := by
          rw [splitBlockIfNeeded, hsize, if_neg hsplit]
        rw [hsame]
        refine Or.inr ⟨?_, _, h, hs⟩
        rintro (⟨b', hb', -, hptr', hle'⟩ | ⟨pre', b', c, post', hbs', -, hptr', -, hgt, -⟩)
        · rw [h.represents.eq_of_payload hb' (by simp) (hptr'.trans hptr.symm)] at hle'
          exact hsplit hle'
        · rw [h.represents.eq_of_payload (c := b) (by simp [hbs']) (by simp)
            (hptr'.trans hptr.symm)] at hgt
          omega
  | grown pre b c post hbs hb hptr hc hgt hle =>
      subst hbs
      have hgrown := h.represents.grown hb hn
      refine Or.inl ⟨Or.inr ⟨pre, b, c, post, rfl, hb, hptr, hc, hgt, hle⟩, _, hgrown, ?_,
        getUsedMemory_store s _⟩
      have hgranted := le_granted (b := merged b c false) hle
      rw [bytesTagged_handedOut, bytesTagged_append, bytesTagged_cons, if_pos hb,
        bytesTagged_cons, if_neg (by simp [hc])]
      omega
  | stuck b hmem hb hptr hgt hno _ =>
      exact Or.inr ⟨not_or.mpr ⟨hsmall b hmem hptr hgt, hno⟩, bs, h, hs⟩
  | moved b hmem hb hptr hgt hno before d after hbs hd hfit s₃ old hfree =>
      refine Or.inr ⟨not_or.mpr ⟨hsmall b hmem hptr hgt, hno⟩, ?_⟩
      have hcopied := (hbs ▸ h).copied (b := b) hn hgt hfit
      exact hcopied.after_kfree hP (hP.write _ (hP.allocate n hd (hbs ▸ hs))) hfree

/-- Every call returns; it drifts if it resizes in place, and keeps what is
stable if it does not. -/
theorem HeapInvariant.call_accounting (h : HeapInvariant s bs) (hbal : Balanced s bs)
    (call : HeapCall) (hfits : call.RoundingFits) :
    ∃ s', call.exec s = some s' ∧ ((ResizesInPlace s call ∧ Drifts s bs s') ∨
      (¬ResizesInPlace s call ∧ ∃ bs', HeapInvariant s' bs' ∧ Balanced s' bs')) := by
  cases call with
  | kmalloc size =>
      obtain ⟨⟨s', r⟩, hk⟩ := Option.isSome_iff_exists.mp (h.calls_return size 0).1
      exact ⟨s', by simp [HeapCall.exec, hk], Or.inr ⟨id, h.after_kmalloc stable_balanced hbal hk⟩⟩
  | kfree ptr =>
      obtain ⟨⟨s', r⟩, hk⟩ := Option.isSome_iff_exists.mp (h.calls_return 0 ptr).2
      exact ⟨s', by simp [HeapCall.exec, hk], Or.inr ⟨id, h.after_kfree stable_balanced hbal hk⟩⟩
  | kcalloc num size =>
      have hcap : KcallocCapacity s num size :=
        (kcallocCapacity_iff h num size).mpr (hfits.imp_right Or.inl)
      obtain ⟨s', r, hk, -⟩ := hcap
      exact ⟨s', by simp [HeapCall.exec, hk],
        Or.inr ⟨id, h.after_kcalloc stable_balanced hbal (hfits.imp_right Or.inl) hk⟩⟩
  | krealloc ptr newSize =>
      by_cases hptr : ptr = 0
      · obtain ⟨⟨s', r⟩, hk⟩ := Option.isSome_iff_exists.mp (h.calls_return newSize 0).1
        refine ⟨s', by simp [HeapCall.exec, krealloc, hptr, hk],
          Or.inr ⟨?_, h.after_kmalloc stable_balanced hbal hk⟩⟩
        rintro ⟨-, bs', -, ⟨b, -, -, hb, -⟩ | ⟨pre, b, c, post, -, -, hb, -⟩⟩ <;>
          simp [payload, headerSize, hptr] at hb
      by_cases hzero : newSize = 0
      · obtain ⟨⟨s', r⟩, hk⟩ := Option.isSome_iff_exists.mp (h.calls_return 0 ptr).2
        exact ⟨s', by simp [HeapCall.exec, krealloc, hptr, hzero, hk],
          Or.inr ⟨fun hin ↦ hin.1 hzero, h.after_kfree stable_balanced hbal hk⟩⟩
      obtain ⟨s', r, hk, hr⟩ := krealloc_spec h hptr hzero
      refine ⟨s', by simp [HeapCall.exec, hk], ?_⟩
      have hin : ResizesInPlace s (.krealloc ptr newSize) ↔
          Splittable bs ptr (alignUp newSize minAllocAlign) ∨
            Absorbable bs ptr (alignUp newSize minAllocAlign) := by
        constructor
        · rintro ⟨-, bs', hbs', hsize⟩
          rwa [h.blocks_eq hbs'] at hsize
        · exact fun hsize ↦ ⟨hzero, bs, h.represents.heapBlocks_eq, hsize⟩
      rw [hin]
      exact hr.drifts_or_preserves stable_balanced h hbal (alignUp_aligned newSize)

/-! ## Whole runs -/

/-- The calls that keep the statistics right. -/
def KeepsAccounts (s : MemoryState) (call : HeapCall) : Prop :=
  call.RoundingFits ∧ ¬ResizesInPlace s call

/-- After `memory_init` the statistics are right as long as nothing is resized
in place, and a first resize in place makes them wrong. -/
theorem accounted_iff_not_resizesInPlace {kernelEnd : ℕ} (hk : KernelEndValid kernelEnd)
    (mem : Mem) (hrun : AllocRun KeepsAccounts (memoryInit kernelEnd (.boot mem)) s) :
    Accounted s ∧ ∀ call : HeapCall, call.InRange → call.RoundingFits →
      ∃ s', call.exec s = some s' ∧ (Accounted s' ↔ ¬ResizesInPlace s call) := by
  obtain ⟨bs, h, hbal⟩ := hrun.preserves (P := Balanced)
    (fun call h hbal hallowed hexec ↦ by
      obtain ⟨s', hexec', ⟨hin, -⟩ | ⟨-, hafter⟩⟩ := h.call_accounting hbal call hallowed.1
      · exact absurd hin hallowed.2
      · obtain rfl := Option.some.inj (hexec.symm.trans hexec')
        exact hafter)
    (fun _ hbal ↦ hbal) (heapInvariant_memoryInit hk mem)
    (balanced_memoryInit kernelEnd mem (by simp))
  refine ⟨h.represents.accounted_iff.mpr (hbal.getUsedMemory_eq h.represents), ?_⟩
  intro call _ hfits
  obtain ⟨s', hexec, ⟨hin, hdrift⟩ | ⟨hnot, bs', h', hbal'⟩⟩ := h.call_accounting hbal call hfits
  · exact ⟨s', hexec, iff_of_false (hdrift.not_accounted h.represents hbal) (not_not.mpr hin)⟩
  · exact ⟨s', hexec, iff_of_true
      (h'.represents.accounted_iff.mpr (hbal'.getUsedMemory_eq h'.represents)) hnot⟩

/-- The run of one `kmalloc` on a fresh heap. -/
theorem accountsRun_one_allocation {size : ℕ} {r : KmallocResult} (hle : size ≤ 0xFFFFFFF8)
    (hcall : kmalloc sampleHeap size = some (s, r)) : AllocRun KeepsAccounts sampleHeap s := by
  have hrange : (HeapCall.kmalloc size).InRange := by
    simp only [HeapCall.InRange]
    omega
  exact .call (.kmalloc size) hrange ⟨hle, id⟩ .start (by simp [HeapCall.exec, hcall])

/-- An allocation and its release. -/
theorem accounted_after_release :
    ∃ s s', kmalloc sampleHeap 32 = some (s, .block 0x110010) ∧
      AllocRun KeepsAccounts sampleHeap s ∧ Accounted s ∧
      (HeapCall.kfree 0x110010).exec s = some s' ∧ Accounted s' := by
  obtain ⟨s, hcall, -, -⟩ := sampleHeap_allocated
  have hrun := accountsRun_one_allocation (by norm_num) hcall
  obtain ⟨hs, hnext⟩ :=
    accounted_iff_not_resizesInPlace ⟨by norm_num, by norm_num⟩ (fun _ ↦ 0) hrun
  obtain ⟨s', hexec, hiff⟩ := hnext (.kfree 0x110010) (by norm_num [HeapCall.InRange]) trivial
  exact ⟨s, s', hcall, hrun, hs, hexec, hiff.mpr id⟩

/-- Cutting an allocation of 128 bytes down to 8 leaves 128 bytes on the
books. -/
theorem krealloc_unbalances :
    ∃ s s', kmalloc sampleHeap 128 = some (s, .block 0x110010) ∧
      krealloc s 0x110010 8 = some (s', .resized 0x110010) ∧
      heapBlocks s' = some [⟨0x110000, 8, false⟩, ⟨0x110018, 104, true⟩,
        ⟨0x110090, 16777056, true⟩] ∧
      getFreeMemory s' = some 16777160 ∧ getUsedMemory s' = 128 ∧ ¬Accounted s' := by
  have hcalls : ((kmalloc sampleHeap 128).bind fun r₁ ↦ (krealloc r₁.1 0x110010 8).map fun r₂ ↦
      ((r₁.2, r₂.2), heapBlocks r₂.1, getFreeMemory r₂.1, getUsedMemory r₂.1)) =
      some ((.block 0x110010, .resized 0x110010),
        some [⟨0x110000, 8, false⟩, ⟨0x110018, 104, true⟩, ⟨0x110090, 16777056, true⟩],
        some 16777160, 128) := by decide +kernel
  simp only [Option.bind_eq_some_iff, Option.map_eq_some_iff, Prod.mk.injEq] at hcalls
  obtain ⟨⟨s, _⟩, h₁, ⟨s', _⟩, h₂, ⟨rfl, rfl⟩, hblocks, hfree, hused⟩ := hcalls
  refine ⟨s, s', h₁, h₂, hblocks, hfree, hused, ?_⟩
  rintro ⟨bs, free, hblocks', -, hused', -⟩
  obtain rfl := Option.some.inj (hblocks.symm.trans hblocks')
  rw [hused] at hused'
  exact absurd hused' (by decide)

end ImplusKernel.Heap
