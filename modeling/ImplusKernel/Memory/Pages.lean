import ImplusKernel.Lib.RingScan
import ImplusKernel.Memory.HeapRuns

/-!
# The page allocator

One byte per page frame of the first gigabyte says whether the frame is in
use.  `init_physical_memory` fills the table from the firmware's memory map
and reserves everything up to the end of the heap; `alloc_page` scans the
table in a circle from a hint, and `free_page` pulls the hint back.

Page frames are handed out as addresses, so a free frame `0` would be
indistinguishable from failure.
-/

namespace ImplusKernel.Pages

open ByteMemory Heap RingScan

/-! ## The model -/

def maxPages : ℕ := 262144

theorem maxPages_pos : 0 < maxPages := by decide

/-- The allocator's statics and the table of page frames. -/
structure PageState extends MemoryState where
  pageBitmap : Mem

/-- Statics are zero when the kernel starts; memory holds anything. -/
def PageState.boot (mem : Mem) : PageState where
  toMemoryState := .boot mem
  pageBitmap := fun _ ↦ 0

def markPages (bitmap : Mem) (startPage pageCount : ℕ) (used : UInt8) : Mem :=
  if maxPages ≤ startPage then bitmap
  else
    let endPage := min ((startPage + pageCount) % 2 ^ 64) maxPages
    memset bitmap startPage used (endPage - startPage)

/-- Loader code and data, boot services code and data, conventional memory. -/
def isUsableMemoryType (type : ℕ) : Bool :=
  type = 1 ∨ type = 2 ∨ type = 3 ∨ type = 4 ∨ type = 7

/-- The fields of the `EFI_MEMORY_DESCRIPTOR` at an address that are read. -/
def descType (m : Mem) (desc : ℕ) : ℕ := readLE m desc 4

def descPhysicalStart (m : Mem) (desc : ℕ) : ℕ := readLE m (desc + 8) 8

def descNumberOfPages (m : Mem) (desc : ℕ) : ℕ := readLE m (desc + 24) 8

/-- The body of the loop over the memory map. -/
def markDescriptor (m : Mem) (desc : ℕ) (bitmap : Mem) : Mem :=
  if isUsableMemoryType (descType m desc) then
    markPages bitmap (descPhysicalStart m desc / pageSize) (descNumberOfPages m desc) 0
  else bitmap

/-- The loop over the memory map.  Offsets are 64-bit numbers, so a loop that
is still going after `2 ^ 64` rounds never ends. -/
def markDescriptors (m : Mem) (map mapSize descSize : ℕ) : ℕ → ℕ → Mem → Option Mem
  | 0, _, _ => none
  | fuel + 1, offset, bitmap =>
      if (offset + descSize) % 2 ^ 64 ≤ mapSize then
        markDescriptors m map mapSize descSize fuel ((offset + descSize) % 2 ^ 64)
          (markDescriptor m ((map + offset) % 2 ^ 64) bitmap)
      else some bitmap

/-- The usable frames of the map are free, all others in use. -/
def scanMemoryMap (m : Mem) (memoryMap mapSize descSize : ℕ) (bitmap : Mem) : Option Mem :=
  let allUsed := memset bitmap 0 1 maxPages
  if memoryMap ≠ 0 ∧ descSize ≠ 0 then
    markDescriptors m memoryMap mapSize descSize (2 ^ 64 + 1) 0 allUsed
  else some allUsed

def initPhysicalMemory (kernelEnd memoryMap mapSize descSize : ℕ) (s : PageState) :
    Option PageState := do
  let bitmap ← scanMemoryMap s.mem memoryMap mapSize descSize s.pageBitmap
  let startPage := calcHeapStartPage kernelEnd s.toMemoryState
  some { s with
    heapStartPage := startPage
    pageBitmap := markPages bitmap 0 (startPage + heapPageCount) 1 }

/-- The frame's address, `0` when every frame is in use. -/
def allocPage (s : PageState) : PageState × ℕ :=
  match firstFrom (fun i ↦ s.pageBitmap i = 0) maxPages maxPages s.pageAllocHint with
  | some i =>
      ({ s with
          pageBitmap := Function.update s.pageBitmap i 1
          pageAllocHint := (i + 1) % maxPages },
        i * pageSize)
  | none => (s, 0)

def freePage (s : PageState) (addr : ℕ) : PageState :=
  if addr = 0 then s
  else
    let page := addr / pageSize
    if page < maxPages then
      { s with
        pageBitmap := Function.update s.pageBitmap page 0
        pageAllocHint := if page < s.pageAllocHint then page else s.pageAllocHint }
    else s

/-! ## What initialisation reserves -/

theorem memset_one_ne_zero (m : Mem) {count i : ℕ} (hcount : count ≤ 2 ^ 64) (hi : i < count) :
    memset m 0 1 count i ≠ 0 := by
  rw [memset_inside m 1 (by omega) (Nat.zero_le i) (by omega)]
  decide

/-- Everything below the end of the heap is in use, frame `0` included. -/
theorem initPhysicalMemory_reserves {kernelEnd memoryMap mapSize descSize : ℕ}
    {s s₀ : PageState} (h : initPhysicalMemory kernelEnd memoryMap mapSize descSize s = some s₀)
    {i : ℕ} (hi : i < maxPages)
    (hlow : i < calcHeapStartPage kernelEnd s.toMemoryState + heapPageCount)
    (hpage : calcHeapStartPage kernelEnd s.toMemoryState < 2 ^ 32) : s₀.pageBitmap i ≠ 0 := by
  unfold initPhysicalMemory at h
  obtain ⟨bitmap, -, hs₀⟩ := Option.bind_eq_some_iff.mp h
  obtain rfl := Option.some.inj hs₀
  have hcount : heapPageCount = 4096 := rfl
  have hmod : (0 + (calcHeapStartPage kernelEnd s.toMemoryState + heapPageCount)) % 2 ^ 64 =
      calcHeapStartPage kernelEnd s.toMemoryState + heapPageCount := by
    rw [Nat.zero_add]
    exact Nat.mod_eq_of_lt (by omega)
  have hnonempty : ¬ maxPages ≤ 0 := maxPages_pos.not_ge
  simp only [markPages, if_neg hnonempty, hmod]
  have hmax : maxPages = 262144 := rfl
  exact memset_one_ne_zero bitmap (by omega) (by omega)

theorem initPhysicalMemory_hint {kernelEnd memoryMap mapSize descSize : ℕ} {s s₀ : PageState}
    (h : initPhysicalMemory kernelEnd memoryMap mapSize descSize s = some s₀) :
    s₀.pageAllocHint = s.pageAllocHint := by
  unfold initPhysicalMemory at h
  obtain ⟨bitmap, -, hs₀⟩ := Option.bind_eq_some_iff.mp h
  obtain rfl := Option.some.inj hs₀
  rfl

/-! ## Ownership of the frames -/

/-- The table is the one `init` with the frames of `out` taken, each once and
each from those that `init` has free. -/
structure Owned (init : Mem) (s : PageState) (out : List ℕ) : Prop where
  nodup : out.Nodup
  frame : ∀ p ∈ out, ∃ i < maxPages, p = i * pageSize ∧ init i = 0
  bitmap : ∀ i, s.pageBitmap i = if i * pageSize ∈ out then 1 else init i
  hint : s.pageAllocHint < maxPages

variable {init : Mem} {s s' : PageState} {out : List ℕ}

theorem Owned.start (hhint : s.pageAllocHint < maxPages) : Owned s.pageBitmap s [] where
  nodup := List.nodup_nil
  frame := by simp
  bitmap := by simp
  hint := hhint

theorem address_inj {i j : ℕ} : i * pageSize = j * pageSize ↔ i = j :=
  Nat.mul_left_inj (by decide)

/-- A frame that the table shows free was free from the start and is not
handed out. -/
theorem Owned.of_free (h : Owned init s out) {i : ℕ} (hfree : s.pageBitmap i = 0) :
    init i = 0 ∧ i * pageSize ∉ out := by
  have hbit := h.bitmap i
  by_cases hmem : i * pageSize ∈ out
  · rw [if_pos hmem, hfree] at hbit
    exact absurd hbit (by decide)
  · rw [if_neg hmem, hfree] at hbit
    exact ⟨hbit.symm, hmem⟩

/-- `alloc_page` takes one free frame, or finds that there is none. -/
theorem allocPage_spec (s : PageState) :
    (∃ i < maxPages, s.pageBitmap i = 0 ∧
      allocPage s = ({ s with
        pageBitmap := Function.update s.pageBitmap i 1
        pageAllocHint := (i + 1) % maxPages }, i * pageSize)) ∨
    (∀ i < maxPages, s.pageBitmap i ≠ 0) ∧ allocPage s = (s, 0) := by
  unfold allocPage
  cases hscan : firstFrom (fun i ↦ s.pageBitmap i = 0) maxPages maxPages s.pageAllocHint with
  | some i =>
      obtain ⟨hfree, place, hplace⟩ := firstFrom_some hscan
      refine Or.inl ⟨i, ?_, of_decide_eq_true hfree, rfl⟩
      rw [hplace]
      exact Nat.mod_lt place maxPages_pos
  | none =>
      refine Or.inr ⟨fun i hi ↦ ?_, rfl⟩
      exact of_decide_eq_false ((firstFrom_round_none_iff maxPages_pos).mp hscan i hi)

theorem allocPage_null_iff (hzero : s.pageBitmap 0 ≠ 0) :
    (allocPage s).2 = 0 ↔ ∀ i < maxPages, s.pageBitmap i ≠ 0 := by
  rcases allocPage_spec s with ⟨i, hi, hfree, heq⟩ | ⟨hfull, heq⟩
  · have hne : i ≠ 0 := fun h ↦ hzero (h ▸ hfree)
    rw [heq]
    constructor
    · intro h
      exact absurd h (Nat.mul_ne_zero hne (by decide))
    · intro h
      exact absurd hfree (h i hi)
  · rw [heq]
    exact ⟨fun _ ↦ hfull, fun _ ↦ rfl⟩

/-- A frame handed out joins those outstanding. -/
theorem Owned.alloc (h : Owned init s out) (hptr : (allocPage s).2 ≠ 0) :
    Owned init (allocPage s).1 ((allocPage s).2 :: out) := by
  rcases allocPage_spec s with ⟨i, hi, hfree, heq⟩ | ⟨-, heq⟩
  · obtain ⟨hinit, hnew⟩ := h.of_free hfree
    rw [heq]
    refine ⟨List.nodup_cons.mpr ⟨hnew, h.nodup⟩, ?_, ?_, Nat.mod_lt _ maxPages_pos⟩
    · intro p hp
      rcases List.mem_cons.mp hp with rfl | hp
      · exact ⟨i, hi, rfl, hinit⟩
      · exact h.frame p hp
    · intro j
      by_cases hj : j = i
      · subst hj
        simp
      · have hcons : j * pageSize ∈ i * pageSize :: out ↔ j * pageSize ∈ out := by
          rw [List.mem_cons, address_inj]
          simp [hj]
        simp only [Function.update_of_ne hj, h.bitmap j, hcons]
  · rw [heq] at hptr
    exact absurd rfl hptr

theorem Owned.alloc_none (h : Owned init s out) (hptr : (allocPage s).2 = 0)
    (hzero : init 0 ≠ 0) : Owned init (allocPage s).1 out := by
  rcases allocPage_spec s with ⟨i, -, hfree, heq⟩ | ⟨-, heq⟩
  · have hi : i = 0 := by
      rw [heq] at hptr
      exact (Nat.mul_eq_zero.mp hptr).resolve_right (by decide)
    exact absurd (h.of_free (hi ▸ hfree)).1 hzero
  · rw [heq]
    exact h

/-- Returning an outstanding frame makes it free again. -/
theorem Owned.free (h : Owned init s out) {p : ℕ} (hp : p ∈ out) (hzero : init 0 ≠ 0) :
    Owned init (freePage s p) (out.erase p) := by
  obtain ⟨i, hi, rfl, hinit⟩ := h.frame p hp
  have hne : i ≠ 0 := fun hi₀ ↦ hzero (hi₀ ▸ hinit)
  have haddr : i * pageSize ≠ 0 := Nat.mul_ne_zero hne (by decide)
  have hpage : i * pageSize / pageSize = i := Nat.mul_div_cancel i (by decide)
  have hmem : ∀ j, j * pageSize ∈ out.erase (i * pageSize) ↔ j ≠ i ∧ j * pageSize ∈ out := by
    intro j
    rw [h.nodup.mem_erase_iff, Ne, address_inj]
  simp only [freePage, if_neg haddr, hpage, if_pos hi]
  refine ⟨h.nodup.erase _, fun q hq ↦ h.frame q (List.mem_of_mem_erase hq), ?_, ?_⟩
  · intro j
    by_cases hj : j = i
    · subst hj
      simp [hmem, hinit]
    · simp only [Function.update_of_ne hj, h.bitmap j, hmem, ne_eq, hj, not_false_eq_true,
        true_and]
  · have hhint := h.hint
    dsimp only
    split <;> omega

/-- Once every outstanding frame has been returned, in any order, the table is
the initial one. -/
theorem Owned.free_all (hzero : init 0 ≠ 0) {order : List ℕ} (horder : order.Perm out)
    (h : Owned init s out) : (order.foldl freePage s).pageBitmap = init := by
  induction order generalizing s out with
  | nil =>
      obtain rfl := horder.nil_eq
      funext i
      simpa using h.bitmap i
  | cons p order ih =>
      have hp : p ∈ out := horder.subset List.mem_cons_self
      have hrest : order.Perm (out.erase p) := by
        simpa using horder.erase p
      exact ih hrest (h.free hp hzero)

/-! ## Runs -/

/-- Calls of `alloc_page`, and of `free_page` on frames handed out and not yet
returned.  `memory_init`, which resets the hint, may come at any point. -/
inductive PageRun (kernelEnd : ℕ) (s₀ : PageState) : PageState → List ℕ → Prop
  | start : PageRun kernelEnd s₀ s₀ []
  | alloc {s : PageState} {out : List ℕ} (hrun : PageRun kernelEnd s₀ s out) :
      PageRun kernelEnd s₀ (allocPage s).1
        (if (allocPage s).2 = 0 then out else (allocPage s).2 :: out)
  | free {s : PageState} {out : List ℕ} {p : ℕ} (hrun : PageRun kernelEnd s₀ s out)
      (hp : p ∈ out) : PageRun kernelEnd s₀ (freePage s p) (out.erase p)
  | memoryInit {s : PageState} {out : List ℕ} (hrun : PageRun kernelEnd s₀ s out) :
      PageRun kernelEnd s₀ { s with toMemoryState := memoryInit kernelEnd s.toMemoryState } out

theorem memoryInit_hint {kernelEnd : ℕ} {s : MemoryState} (h : s.pageAllocHint < maxPages) :
    (memoryInit kernelEnd s).pageAllocHint < maxPages := by
  unfold memoryInit
  split
  · exact h
  · exact maxPages_pos

theorem PageRun.owned {kernelEnd : ℕ} {s₀ : PageState} (hzero : s₀.pageBitmap 0 ≠ 0)
    (hhint : s₀.pageAllocHint < maxPages) (hrun : PageRun kernelEnd s₀ s out) :
    Owned s₀.pageBitmap s out := by
  induction hrun with
  | start => exact Owned.start hhint
  | @alloc s out _ ih =>
      by_cases hptr : (allocPage s).2 = 0
      · rw [if_pos hptr]
        exact ih.alloc_none hptr hzero
      · rw [if_neg hptr]
        exact ih.alloc hptr
  | free _ hp ih => exact ih.free hp hzero
  | memoryInit _ ih => exact ⟨ih.nodup, ih.frame, ih.bitmap, memoryInit_hint ih.hint⟩

/-! ## Exclusivity -/

theorem calcHeapStartPage_boot {kernelEnd : ℕ} (hk : KernelEndValid kernelEnd) (mem : Mem) :
    calcHeapStartPage kernelEnd (.boot mem) * pageSize = firstPageAfter kernelEnd ∧
      calcHeapStartPage kernelEnd (.boot mem) < 2 ^ 32 := by
  have hlow := hk.above_base
  have hhigh := hk.page_fits
  simp only [calcHeapStartPage, MemoryState.boot, firstPageAfter, pageSize, ne_eq,
    not_true_eq_false, if_false]
  omega

/-- After `init_physical_memory` no page frame has two owners and none of
those handed out was reserved: none is frame `0` or belongs to the kernel
image or the heap.  `alloc_page` fails exactly when the table is full, and
returning everything restores the table. -/
theorem pages_exclusive {kernelEnd : ℕ} (hk : KernelEndValid kernelEnd) (mem : Mem)
    {memoryMap mapSize descSize : ℕ} {s₀ s : PageState} {out : List ℕ}
    (hinit : initPhysicalMemory kernelEnd memoryMap mapSize descSize (.boot mem) = some s₀)
    (hrun : PageRun kernelEnd s₀ s out) :
    out.Nodup ∧
      (∀ p ∈ out, p ≠ 0 ∧ firstPageAfter kernelEnd + heapBytes ≤ p ∧
        ∃ i < maxPages, p = i * pageSize ∧ s₀.pageBitmap i = 0) ∧
      s.pageAllocHint < maxPages ∧
      ((allocPage s).2 = 0 ↔ ∀ i < maxPages, s.pageBitmap i ≠ 0) ∧
      ∀ order : List ℕ, order.Perm out → (order.foldl freePage s).pageBitmap = s₀.pageBitmap := by
  obtain ⟨hstart, hpage⟩ := calcHeapStartPage_boot hk mem
  have hreserved : ∀ i < maxPages, i < calcHeapStartPage kernelEnd (.boot mem) + heapPageCount →
      s₀.pageBitmap i ≠ 0 :=
    fun i hi hlow ↦ initPhysicalMemory_reserves hinit hi hlow hpage
  have hzero : s₀.pageBitmap 0 ≠ 0 :=
    hreserved 0 maxPages_pos (Nat.add_pos_right _ (by decide))
  have hhint : s₀.pageAllocHint < maxPages := by
    rw [initPhysicalMemory_hint hinit]
    exact maxPages_pos
  have howned := hrun.owned hzero hhint
  refine ⟨howned.nodup, ?_, howned.hint, allocPage_null_iff ?_,
    fun order horder ↦ howned.free_all hzero horder⟩
  · intro p hp
    obtain ⟨i, hi, rfl, hfree⟩ := howned.frame p hp
    have habove : calcHeapStartPage kernelEnd (.boot mem) + heapPageCount ≤ i := by
      by_contra hlt
      exact hreserved i hi (by omega) hfree
    have hne : i ≠ 0 := fun h ↦ hzero (h ▸ hfree)
    refine ⟨Nat.mul_ne_zero hne (by decide), ?_, i, hi, rfl, hfree⟩
    rw [← hstart, heapBytes, ← Nat.add_mul]
    exact Nat.mul_le_mul_right pageSize habove
  · intro hfree
    exact hzero (howned.of_free hfree).1

/-- A memory map of one descriptor: the frame right after the heap of a kernel
that ends at `0x100000` is conventional memory. -/
def sampleMap : Mem :=
  writeLE (writeLE (writeLE (fun _ ↦ 0) 0x1000 4 7) 0x1008 8 (4352 * 4096)) 0x1018 8 1

theorem pages_exclusive_sampleMap :
    ∃ s₀ s p, initPhysicalMemory 0x100000 0x1000 48 48 (.boot sampleMap) = some s₀ ∧
      PageRun 0x100000 s₀ s [p] ∧ p ≠ 0 ∧ 0x1100000 ≤ p ∧
      (([p] : List ℕ).foldl freePage s).pageBitmap = s₀.pageBitmap := by
  have hfree : (initPhysicalMemory 0x100000 0x1000 48 48 (.boot sampleMap)).map
      (fun s ↦ decide (s.pageBitmap 4352 = 0)) = some true := by decide +kernel
  obtain ⟨s₀, hinit, hbit⟩ := Option.map_eq_some_iff.mp hfree
  have hk : KernelEndValid 0x100000 := ⟨by norm_num, by norm_num⟩
  have hptr : (allocPage s₀).2 ≠ 0 := by
    intro hnull
    have hfull := (pages_exclusive hk sampleMap hinit .start).2.2.2.1.mp hnull
    exact hfull 4352 (by decide) (of_decide_eq_true hbit)
  have hrun : PageRun 0x100000 s₀ (allocPage s₀).1 [(allocPage s₀).2] := by
    have hstep := (PageRun.start : PageRun 0x100000 s₀ s₀ []).alloc
    rwa [if_neg hptr] at hstep
  obtain ⟨-, hframes, -, -, hrestore⟩ := pages_exclusive hk sampleMap hinit hrun
  obtain ⟨hne, habove, -⟩ := hframes _ List.mem_cons_self
  exact ⟨s₀, _, _, hinit, hrun, hne, habove, hrestore _ (List.Perm.refl _)⟩

end ImplusKernel.Pages
