import ImplusKernel.Loader.HeaderBounds
import ImplusKernel.Memory.HeapNeutral

/-!
# Loading the user image

While the segments stay out of the heap, the file stays in its buffer, so that
every header and every source is read as it is in the file.  Segments that do
not meet each other then end up in memory one beside the other, and a header
that is rejected stops the loop with the ones before it loaded.  Either way the
buffer goes back to the heap.
-/

namespace ImplusKernel.Loader

open ByteMemory Disk Fat32 Heap Syscall

variable {buffer heapStart i fuel x : ℕ} {bytes : List UInt8} {m m' : Mem} {ph : Phdr}
  {phs : List Phdr}

def Phdr.Covers (ph : Phdr) (x : ℕ) : Prop := ∃ j < ph.pMemsz, x = (ph.pVaddr + j) % 2 ^ 64

/-- A segment with its bytes of the file, and zeros after them. -/
structure Phdr.Loaded (bytes : List UInt8) (ph : Phdr) (m : Mem) : Prop where
  fromFile : ∀ j < ph.pFilesz, m ((ph.pVaddr + j) % 2 ^ 64) = bytes.getD (ph.pOffset + j) 0
  zeros : ∀ j, ph.pFilesz ≤ j → j < ph.pMemsz → m ((ph.pVaddr + j) % 2 ^ 64) = 0

def OutsideHeap (heapStart x : ℕ) : Prop := x < heapStart ∨ heapStart + heapBytes ≤ x

/-- Segments of the file that meet neither each other nor the heap. -/
structure SegmentsApart (heapStart : ℕ) (bytes : List UInt8) (phs : List Phdr) : Prop where
  source : ∀ ph ∈ phs, ph.pOffset + ph.pFilesz ≤ bytes.length
  apart : phs.Pairwise fun ph ph' ↦ ∀ x, ph.Covers x → ¬ph'.Covers x
  heap : ∀ ph ∈ phs, ∀ x, ph.Covers x → OutsideHeap heapStart x

theorem SegmentsApart.tail (h : SegmentsApart heapStart bytes (ph :: phs)) :
    SegmentsApart heapStart bytes phs where
  source ph' hph' := h.source ph' (List.mem_cons_of_mem ph hph')
  apart := h.apart.of_cons
  heap ph' hph' := h.heap ph' (List.mem_cons_of_mem ph hph')

theorem SegmentsApart.sublist {phs' : List Phdr} (h : SegmentsApart heapStart bytes phs)
    (hsub : phs'.Sublist phs) : SegmentsApart heapStart bytes phs' where
  source ph hph := h.source ph (hsub.subset hph)
  apart := h.apart.sublist hsub
  heap ph hph := h.heap ph (hsub.subset hph)

theorem Phdr.Loaded.congr (h : ph.Loaded bytes m) (hle : ph.pFilesz ≤ ph.pMemsz)
    (heq : ∀ x, ph.Covers x → m' x = m x) : ph.Loaded bytes m' where
  fromFile j hj := (heq _ ⟨j, hj.trans_le hle, rfl⟩).trans (h.fromFile j hj)
  zeros j hlow hhigh := (heq _ ⟨j, hhigh, rfl⟩).trans (h.zeros j hlow hhigh)

/-! ## One segment -/

theorem Image.InHeap.frame (h : Image.InHeap ⟨buffer, bytes, m⟩ heapStart)
    (heq : ∀ x, ¬OutsideHeap heapStart x → m' x = m x) :
    Image.InHeap ⟨buffer, bytes, m'⟩ heapStart := by
  refine ⟨h.low, h.high, h.fits, fun j hj ↦ ?_⟩
  have hlow : heapStart ≤ buffer := h.low
  have hhigh : buffer + bytes.length ≤ heapStart + heapBytes := h.high
  have hj : j < bytes.length := hj
  have hin : ¬OutsideHeap heapStart (buffer + j) := by
    unfold OutsideHeap
    omega
  exact (heq _ hin).trans (h.stored j hj)

theorem fileHeader_pMemsz_lt (bytes : List UInt8) (i : ℕ) :
    (fileHeader bytes i).pMemsz < 2 ^ 64 := by
  simp only [fileHeader, parsePhdr]
  exact readLE_lt _ _ 8

theorem zeroFill_of_not_covers (m : Mem) (hx : ¬ph.Covers x) :
    (zeroFill m ph.pVaddr ph).1 x = m x := by
  unfold zeroFill
  split
  · refine memset_of_ne m 0 fun j hj heq ↦ hx ⟨ph.pFilesz + j, by omega, ?_⟩
    rw [heq, Nat.mod_add_mod, Nat.add_assoc]
  · rfl

theorem zeroFill_zero (m : Mem) {j : ℕ} (hlow : ph.pFilesz ≤ j) (hhigh : j < ph.pMemsz) :
    (zeroFill m ph.pVaddr ph).1 ((ph.pVaddr + j) % 2 ^ 64) = 0 := by
  rw [zeroFill, if_pos (by omega)]
  have hzero := memset_at m ((ph.pVaddr + ph.pFilesz) % 2 ^ 64) 0
    (show j - ph.pFilesz < ph.pMemsz - ph.pFilesz by omega)
  rwa [Nat.mod_add_mod, Nat.add_assoc, Nat.add_sub_cancel' hlow] at hzero

/-- The fill does not come back to the bytes of the file. -/
theorem zeroFill_fromFile (m : Mem) (hmem : ph.pMemsz < 2 ^ 64) {j : ℕ} (hj : j < ph.pFilesz) :
    (zeroFill m ph.pVaddr ph).1 ((ph.pVaddr + j) % 2 ^ 64) = m ((ph.pVaddr + j) % 2 ^ 64) := by
  unfold zeroFill
  split
  · refine memset_of_ne m 0 fun k hk heq ↦ ?_
    rw [Nat.mod_add_mod] at heq
    omega
  · rfl

section segment

variable (h : Image.InHeap ⟨buffer, bytes, m⟩ heapStart) (htable : TableInFile bytes)
  (hi : i < ePhnum (fileView bytes))
include h htable hi

theorem header_in_buffer :
    parsePhdr (view m ((buffer + ePhoff (fileView bytes)) % 2 ^ 64)) i = fileHeader bytes i := by
  have h58 : 58 ≤ bytes.length := by
    have := htable.1
    omega
  have hend : ePhoff (fileView bytes) + phdrSize * ePhnum (fileView bytes) ≤ bytes.length :=
    htable.2
  have hrow : phdrSize * (i + 1) ≤ phdrSize * ePhnum (fileView bytes) :=
    Nat.mul_le_mul_left phdrSize hi
  have hphdr : phdrSize = 56 := rfl
  have hle : ePhoff (fileView bytes) + phdrSize * i + 48 ≤ bytes.length := by
    rw [Nat.mul_add, Nat.mul_one] at hrow
    omega
  exact h.header_eq h58 (fun _ _ ↦ rfl) hi hle

/-- A segment outside the heap is loaded, and nothing else changes. -/
theorem loadSegment_loaded (hok : (fileHeader bytes i).rejected = false)
    (hsource : (fileHeader bytes i).pOffset + (fileHeader bytes i).pFilesz ≤ bytes.length)
    (hheap : ∀ x, (fileHeader bytes i).Covers x → OutsideHeap heapStart x) :
    (fileHeader bytes i).Loaded bytes
        (loadSegment buffer ((buffer + ePhoff (fileView bytes)) % 2 ^ 64) i m).1 ∧
      ∀ x, ¬(fileHeader bytes i).Covers x →
        (loadSegment buffer ((buffer + ePhoff (fileView bytes)) % 2 ^ 64) i m).1 x = m x := by
  obtain ⟨hle, -, -⟩ := Phdr.rejected_eq_false.mp hok
  have hhigh : buffer + bytes.length ≤ heapStart + heapBytes := h.high
  have hlow : heapStart ≤ buffer := h.low
  have hfits := h.fits
  generalize hsrc : (buffer + (fileHeader bytes i).pOffset) % 2 ^ 64 = src
  have hcopyFrame : ∀ x, ¬(fileHeader bytes i).Covers x →
      memcpy m (fileHeader bytes i).pVaddr src (fileHeader bytes i).pFilesz x = m x :=
    fun x hx ↦ memcpy_of_ne m _ fun j hj heq ↦ hx ⟨j, hj.trans_le hle, heq⟩
  -- The copy leaves the header for the fill in the buffer.
  have hcopied : Image.InHeap ⟨buffer, bytes,
      memcpy m (fileHeader bytes i).pVaddr src (fileHeader bytes i).pFilesz⟩ heapStart :=
    h.frame fun x hx ↦ hcopyFrame x fun hcovers ↦ hx (hheap x hcovers)
  have hrun : (loadSegment buffer ((buffer + ePhoff (fileView bytes)) % 2 ^ 64) i m).1 =
      (zeroFill (memcpy m (fileHeader bytes i).pVaddr src (fileHeader bytes i).pFilesz)
        (fileHeader bytes i).pVaddr (fileHeader bytes i)).1 := by
    simp only [loadSegment, header_in_buffer h htable hi, hsrc, header_in_buffer hcopied htable hi]
  rw [hrun]
  refine ⟨⟨fun j hj ↦ ?_, fun j ↦ zeroFill_zero _⟩, fun x hx ↦ ?_⟩
  · rw [zeroFill_fromFile _ (fileHeader_pMemsz_lt bytes i) hj]
    have hbyte : ∀ k < (fileHeader bytes i).pFilesz,
        (src + k) % 2 ^ 64 = buffer + ((fileHeader bytes i).pOffset + k) := by
      intro k hk
      rw [← hsrc, Nat.mod_add_mod, Nat.add_assoc, Nat.mod_eq_of_lt (by omega)]
    rw [memcpy_at m (by omega) ?_ hj, hbyte j hj]
    · exact h.stored _ (show _ < bytes.length by omega)
    · intro k hk l hl heq
      have hout := hheap _ ⟨l, hl.trans_le hle, heq⟩
      rw [hbyte k hk, OutsideHeap] at hout
      omega
  · rw [zeroFill_of_not_covers _ hx, hcopyFrame x hx]

end segment

/-! ## All segments -/

/-- What a loop over these headers has done to the memory `m`. -/
structure LoopLoads (bytes : List UInt8) (phs : List Phdr) (m : Mem) (run : LoopRun) : Prop where
  ok : run.ok = true ↔ ∀ ph ∈ phs, ph.pType = ptLoad → ph.rejected = false
  loaded : ∀ ph ∈ segments phs, ph.Loaded bytes run.mem
  frame : ∀ x, (∀ ph ∈ segments phs, ¬ph.Covers x) → run.mem x = m x

theorem loopLoads_nil (bytes : List UInt8) (m : Mem) :
    LoopLoads bytes [] m ⟨m, [], [], true⟩ where
  ok := iff_of_true rfl (List.forall_mem_nil _)
  loaded := List.forall_mem_nil _
  frame _ _ := rfl

theorem loadLoop_loads (h : Image.InHeap ⟨buffer, bytes, m⟩ heapStart)
    (htable : TableInFile bytes) (hfuel : ePhnum (fileView bytes) ≤ i + fuel)
    (hsep : SegmentsApart heapStart bytes (segments ((fileHeaders bytes).drop i))) :
    LoopLoads bytes ((fileHeaders bytes).drop i) m
      (loadLoop buffer ((buffer + ePhoff (fileView bytes)) % 2 ^ 64) fuel i m) := by
  induction fuel generalizing i m with
  | zero =>
      rw [Nat.add_zero] at hfuel
      rw [fileHeaders_drop_eq_nil hfuel]
      exact loopLoads_nil bytes m
  | succ fuel ih =>
      have h58 : 58 ≤ bytes.length := by
        have := htable.1
        omega
      have hnum : ePhnum (view m buffer) = ePhnum (fileView bytes) := h.phnum_eq h58
      rw [loadLoop_round, hnum]
      by_cases hi : i < ePhnum (fileView bytes)
      swap
      · rw [if_neg hi, fileHeaders_drop_eq_nil (not_lt.mp hi)]
        exact loopLoads_nil bytes m
      rw [if_pos hi, header_in_buffer h htable hi]
      rw [fileHeaders_drop hi] at hsep ⊢
      by_cases hload : (fileHeader bytes i).pType ≠ ptLoad
      · rw [segments, if_pos hload] at hsep
        rw [if_pos hload]
        have hrest := ih h (by omega) hsep
        refine ⟨hrest.ok.trans ?_, ?_, ?_⟩
        · simp [hload]
        · rw [segments, if_pos hload]
          exact hrest.loaded
        · rw [segments, if_pos hload]
          exact hrest.frame
      rw [segments, if_neg hload] at hsep
      rw [if_neg hload]
      cases hok : (fileHeader bytes i).rejected with
      | true =>
          refine ⟨iff_of_false Bool.false_ne_true fun hall ↦ ?_, ?_, fun _ _ ↦ rfl⟩
          · exact absurd (hall _ List.mem_cons_self (not_not.mp hload)) (by simp [hok])
          · rw [segments, if_neg hload, if_pos hok]
            exact List.forall_mem_nil _
      | false =>
          rw [if_neg Bool.false_ne_true]
          rw [hok, if_neg Bool.false_ne_true] at hsep
          have hsegments : segments (fileHeader bytes i :: (fileHeaders bytes).drop (i + 1)) =
              fileHeader bytes i :: segments ((fileHeaders bytes).drop (i + 1)) := by
            rw [segments, if_neg hload, hok, if_neg Bool.false_ne_true]
          have hheap := hsep.heap _ List.mem_cons_self
          obtain ⟨hown, hframe⟩ := loadSegment_loaded h htable hi hok
            (hsep.source _ List.mem_cons_self) hheap
          have hrest := ih (h.frame fun x hx ↦ hframe x fun hcovers ↦ hx (hheap x hcovers))
            (by omega) hsep.tail
          obtain ⟨hle, -, -⟩ := Phdr.rejected_eq_false.mp hok
          refine ⟨hrest.ok.trans ?_, ?_, ?_⟩
          · simp [hok]
          · rw [hsegments]
            intro ph hph
            rcases List.mem_cons.mp hph with rfl | hph
            · -- Later segments do not meet this one.
              exact hown.congr hle fun x hx ↦ hrest.frame x fun ph' hph' ↦
                List.rel_of_pairwise_cons hsep.apart hph' x hx
            · exact hrest.loaded ph hph
          · rw [hsegments]
            intro x hx
            exact (hrest.frame x fun ph' hph' ↦ hx ph' (List.mem_cons_of_mem _ hph')).trans
              (hframe x (hx _ List.mem_cons_self))

theorem mem_segments_of_accepted (h : ∀ ph ∈ phs, ph.pType = ptLoad → ph.rejected = false) :
    ∀ ph ∈ phs, ph.pType = ptLoad → ph ∈ segments phs := by
  induction phs with
  | nil => exact List.forall_mem_nil _
  | cons ph phs ih =>
      have hrest := ih fun ph' hph' ↦ h ph' (List.mem_cons_of_mem ph hph')
      intro ph' hph' htype
      rw [segments]
      split
      next hload =>
        rcases List.mem_cons.mp hph' with rfl | hph'
        · exact absurd htype hload
        · exact hrest ph' hph' htype
      next hload =>
        rw [h ph List.mem_cons_self (not_not.mp hload), if_neg Bool.false_ne_true]
        rcases List.mem_cons.mp hph' with rfl | hph'
        · exact List.mem_cons_self
        · exact List.mem_cons_of_mem _ (hrest ph' hph' htype)

/-! ## The buffer -/

variable {drive : Drive} {machine m₁ : Machine} {bs : List Block} {s' : MemoryState} {mem : Mem}

/-- The file is read into a block that `kmalloc` has handed out. -/
theorem readImage_block (hheap : HeapInvariant machine.memory bs)
    (h : readImage drive machine = some (m₁, .read buffer bytes)) :
    ∃ s', kmalloc machine.memory bytes.length = some (s', .block buffer) ∧
      m₁.memory = { s' with mem := storeBytes s'.mem buffer bytes } := by
  obtain ⟨file, s', r, -, hpos, -, hlength, hk, hptr, rfl, hmem⟩ := readImage_read h
  rw [hlength]
  rcases kmalloc_spec hheap hpos with ⟨pre, b, post, -, -, -, hspec⟩ | ⟨-, hspec⟩
  · obtain ⟨rfl, rfl⟩ := Prod.mk.inj (Option.some.inj (hspec.symm.trans hk))
    exact ⟨_, hk, hmem⟩
  · obtain ⟨-, rfl⟩ := Prod.mk.inj (Option.some.inj (hspec.symm.trans hk))
    exact absurd rfl hptr

section buffer

variable (hheap : HeapInvariant machine.memory bs) (hsize : bytes.length ≤ 1024 * 1024)
  (htake : kmalloc machine.memory bytes.length = some (s', .block buffer))
include hheap hsize htake

theorem buffer_scratch : Scratch machine.memory s' buffer bytes.length := by
  have hpos := hheap.size_ne_zero htake
  rcases kmalloc_spec hheap hpos with ⟨pre, b, post, rfl, htag, hfit, hk⟩ | ⟨-, hk⟩
  · obtain ⟨rfl, hptr⟩ := Prod.mk.inj (Option.some.inj (hk.symm.trans htake))
    obtain rfl := KmallocResult.block.inj hptr
    exact scratch_allocated hheap htag (alignUp_aligned _) hfit hpos (le_alignUp (by omega))
  · simp [hk] at htake

theorem buffer_outside (hout : OutsideHeap machine.memory.heapStart x) :
    storeBytes s'.mem buffer bytes x = machine.memory.mem x := by
  have hscratch := buffer_scratch hheap hsize htake
  have hclient : ClientByte machine.memory x := hout.imp_right Or.inl
  rw [storeBytes_outside _ hscratch.fits (hscratch.apart x hclient), hscratch.kept x hclient]

/-- The buffer is freed, whatever has been stored in it and outside the heap. -/
theorem freeBuffer_returns (m₂ : Machine) (hm : m₂.memory = { s' with mem := mem })
    (hmem : ∀ x, ¬OutsideHeap machine.memory.heapStart x →
      x < buffer ∨ buffer + bytes.length ≤ x → mem x = s'.mem x)
    (entry : Option ℕ) (texts : List String) :
    ∃ m₃, freeBuffer m₂ buffer entry texts = some (m₃, entry) ∧
      (∀ x, OutsideHeap machine.memory.heapStart x → m₃.memory.mem x = mem x) ∧
      liveAllocations m₃.memory = liveAllocations machine.memory := by
  have hscratch := buffer_scratch hheap hsize htake
  obtain ⟨s'', cs, hfree, -, hkept⟩ := hscratch.release mem fun x hx hout ↦
    hmem x (fun ho ↦ hx (ho.imp_right Or.inl)) hout
  have hborrows : Borrows machine.memory bytes.length (OutsideHeap machine.memory.heapStart) s'' :=
    .returned htake hmem hfree
  refine ⟨{ m₂ with memory := s'' }.print (KfreeResult.freed.serial ++ texts), ?_,
    fun x hx ↦ (hkept x (hx.imp_right Or.inl)).2,
    hborrows.live_eq hheap (by omega) fun _ hx ↦ hx⟩
  simp only [freeBuffer, hm, hfree]
  rfl

end buffer

/-! ## The loader -/

def loadable (bytes : List UInt8) : List Phdr :=
  (fileHeaders bytes).filter fun ph ↦ ph.pType = ptLoad ∧ ph.rejected = false

theorem segments_sublist (phs : List Phdr) :
    (segments phs).Sublist (phs.filter fun ph ↦ ph.pType = ptLoad ∧ ph.rejected = false) := by
  induction phs with
  | nil => exact .slnil
  | cons ph phs ih =>
      rw [segments]
      split
      next hload => simpa [hload] using ih
      next hload =>
        cases hok : ph.rejected with
        | true => exact List.nil_sublist _
        | false => simpa [hok, not_not.mp hload] using ih

/-- Well formed, up to the magic and headers that the loader rejects: the file
holds its tables and sources, and the segments meet neither each other nor the
heap nor the kernel. -/
structure Fits (heapStart : ℕ) (kernel : ℕ → Prop) (bytes : List UInt8) : Prop where
  table : TableInFile bytes
  separate : SegmentsApart heapStart bytes (loadable bytes)
  kernel : ∀ ph ∈ loadable bytes, ∀ x, ph.Covers x → ¬kernel x

theorem Fits.covers_outside {kernel : ℕ → Prop} (h : Fits heapStart kernel bytes)
    (hph : ph ∈ segments (fileHeaders bytes)) (hx : ph.Covers x) : OutsideHeap heapStart x :=
  h.separate.heap ph ((segments_sublist _).subset hph) x hx

theorem loadLoop_loads_all (h : Image.InHeap ⟨buffer, bytes, m⟩ heapStart)
    {kernel : ℕ → Prop} (hfits : Fits heapStart kernel bytes)
    (hfuel : ePhnum (fileView bytes) ≤ fuel) :
    LoopLoads bytes (fileHeaders bytes) m
      (loadLoop buffer ((buffer + ePhoff (fileView bytes)) % 2 ^ 64) fuel 0 m) := by
  have hsep := hfits.separate.sublist (segments_sublist (fileHeaders bytes))
  rw [← List.drop_zero (l := fileHeaders bytes)] at hsep ⊢
  exact loadLoop_loads h hfits.table (by omega) hsep

/-- How a call of the loader leaves the machine: outside the heap only bytes of
these segments are written, and the heap has the allocations it had. -/
structure ChangedBy (machine machine' : Machine) (phs : List Phdr) : Prop where
  frame : ∀ x, OutsideHeap machine.memory.heapStart x → (∀ ph ∈ phs, ¬ph.Covers x) →
    machine'.memory.mem x = machine.memory.mem x
  live : liveAllocations machine'.memory = liveAllocations machine.memory

section run

variable (hheap : HeapInvariant machine.memory bs)
  (hread : readImage drive machine = some (m₁, .read buffer bytes))
  (hsize : bytes.length ≤ 1024 * 1024) {kernel : ℕ → Prop}
  (hfits : Fits machine.memory.heapStart kernel bytes)
include hheap hread hsize hfits

theorem loadImage_bad_magic (hmagic : validMagic (fileView bytes) = false) :
    ∃ machine', (loadImage m₁ buffer).outcome = some (machine', none) ∧
      ChangedBy machine machine' [] := by
  obtain ⟨s', htake, hmem₁⟩ := readImage_block hheap hread
  have hin := readImage_inHeap hheap hread
  have hbad : validMagic (view m₁.memory.mem buffer) = false :=
    (hin.validMagic_eq hfits.table).trans hmagic
  have hscratch := buffer_scratch hheap hsize htake
  obtain ⟨m₃, hfree, hout, hlive⟩ := freeBuffer_returns hheap hsize htake
    (m₁.print ["[OS] [USER] Invalid ELF magic\n"]) hmem₁
    (fun x _ ↦ storeBytes_outside _ hscratch.fits) none []
  refine ⟨m₃, ?_, fun x hx _ ↦ ?_, hlive⟩
  · rw [loadImage, if_pos hbad, hfree]
  · rw [hout x hx, buffer_outside hheap hsize htake hx]

/-- The part of the loader after the magic, with its loop given. -/
theorem loadImage_valid_magic (hmagic : validMagic (fileView bytes) = true) :
    ∃ machine' ok, (loadImage m₁ buffer).outcome =
        some (machine', if ok = true then some (eEntry (fileView bytes)) else none) ∧
      (ok = true ↔ ∀ ph ∈ fileHeaders bytes, ph.pType = ptLoad → ph.rejected = false) ∧
      (∀ ph ∈ segments (fileHeaders bytes), ph.Loaded bytes machine'.memory.mem) ∧
      ChangedBy machine machine' (segments (fileHeaders bytes)) := by
  obtain ⟨s', htake, hmem₁⟩ := readImage_block hheap hread
  have hin := readImage_inHeap hheap hread
  have hscratch := buffer_scratch hheap hsize htake
  have hgood : validMagic (view m₁.memory.mem buffer) = true :=
    (hin.validMagic_eq hfits.table).trans hmagic
  have hphoff : ePhoff (view m₁.memory.mem buffer) = ePhoff (fileView bytes) :=
    hin.ePhoff_eq hfits.table
  rw [loadImage, if_neg (by simp [hgood]), hphoff]
  dsimp only
  generalize hn : 2 ^ 16 = n
  have hfuel : ePhnum (fileView bytes) ≤ n := by
    have hlt : ePhnum (fileView bytes) < 256 ^ 2 := readLE_lt _ _ 2
    omega
  have hloop := loadLoop_loads_all hin hfits hfuel
  generalize loadLoop buffer ((buffer + ePhoff (fileView bytes)) % 2 ^ 64) n 0 m₁.memory.mem =
    loop at hloop ⊢
  have hinside : ∀ x, ¬OutsideHeap machine.memory.heapStart x → loop.mem x = m₁.memory.mem x :=
    fun x hx ↦ hloop.frame x fun ph hph hcovers ↦ hx (hfits.covers_outside hph hcovers)
  have hentry : eEntry (view loop.mem buffer) = eEntry (fileView bytes) :=
    (hin.frame hinside).readLE_eq (show 24 + 8 ≤ bytes.length by have := hfits.table.1; omega)
  have hunused : ∀ x, ¬OutsideHeap machine.memory.heapStart x →
      x < buffer ∨ buffer + bytes.length ≤ x → loop.mem x = s'.mem x := by
    intro x hx hout
    rw [hinside x hx, hmem₁]
    exact storeBytes_outside _ hscratch.fits hout
  obtain ⟨m₃, hfree, hout, hlive⟩ := freeBuffer_returns hheap hsize htake
    ((m₁.print (["[OS] [USER] Valid ELF header\n", "[OS] [USER] Entry point: ",
      serialUint64 (eEntry (view m₁.memory.mem buffer)), "\n"] ++ loop.serial)).setMem loop.mem)
    (by simp only [Machine.setMem, Machine.print, Machine.setIo, hmem₁]) hunused
    (if loop.ok = true then some (eEntry (fileView bytes)) else none)
    (if loop.ok = true then ["[OS] [USER] ELF loaded successfully\n"] else [])
  refine ⟨m₃, loop.ok, ?_, hloop.ok, fun ph hph ↦ ?_, ⟨fun x hx hnone ↦ ?_, hlive⟩⟩
  · rw [← hfree]
    cases loop.ok with
    | true => rw [if_pos rfl, if_pos rfl, if_pos rfl, hentry]
    | false => simp only [Bool.false_eq_true, if_false]
  · have hok := rejected_of_mem_segments hph
    obtain ⟨hle, -, -⟩ := Phdr.rejected_eq_false.mp hok
    exact (hloop.loaded ph hph).congr hle fun x hx ↦ hout x (hfits.covers_outside hph hx)
  · rw [hout x hx, hloop.frame x hnone, hmem₁]
    exact buffer_outside hheap hsize htake hx

end run

/-- A well-formed image is loaded and its entry point returned.  One that is well
formed but for its magic, or for headers that are rejected, leaves the entry
point alone and has at most the segments before the first such header written.
Neither changes anything else outside the heap, nor an allocation. -/
theorem loadUserlandElf_spec (hheap : HeapInvariant machine.memory bs) {image : Image}
    (himage : userImage drive machine = some image) {kernel : ℕ → Prop}
    (hfits : Fits machine.memory.heapStart kernel image.bytes) :
    ∃ run machine' entry, loadUserlandElf drive machine = some run ∧
      run.outcome = some (machine', entry) ∧
      ((validMagic (fileView image.bytes) = true ∧
          ∀ ph ∈ fileHeaders image.bytes, ph.pType = ptLoad → ph.rejected = false) →
        entry = some (eEntry (fileView image.bytes)) ∧
          (∀ ph ∈ fileHeaders image.bytes, ph.pType = ptLoad →
            ph.Loaded image.bytes machine'.memory.mem) ∧
          ChangedBy machine machine'
            ((fileHeaders image.bytes).filter fun ph ↦ ph.pType = ptLoad)) ∧
      ((validMagic (fileView image.bytes) = false ∨
          ∃ ph ∈ fileHeaders image.bytes, ph.pType = ptLoad ∧ ph.rejected = true) →
        entry = none ∧ ChangedBy machine machine' (fileSegments image.bytes)) := by
  obtain ⟨file, -, hlength, -, hsize⟩ := userImage_file himage
  rw [← hlength] at hsize
  obtain ⟨m₁, hread⟩ : ∃ m₁, readImage drive machine =
      some (m₁, .read image.buffer image.bytes) := by
    unfold userImage at himage
    split at himage
    · next m₁ buffer bytes hread =>
        obtain rfl := Option.some.inj himage
        exact ⟨m₁, hread⟩
    · cases himage
  have hload : loadUserlandElf drive machine = some (loadImage m₁ image.buffer) := by
    rw [loadUserlandElf, hread]
    rfl
  cases hmagic : validMagic (fileView image.bytes) with
  | false =>
      obtain ⟨machine', hrun, hchanged⟩ := loadImage_bad_magic hheap hread hsize hfits hmagic
      have hnone : fileSegments image.bytes = [] := if_neg (Bool.eq_false_iff.mp hmagic)
      refine ⟨_, machine', none, hload, hrun, fun h ↦ absurd h.1 (by simp), fun _ ↦ ⟨rfl, ?_⟩⟩
      rw [hnone]
      exact hchanged
  | true =>
      obtain ⟨machine', ok, hrun, hok, hloaded, hchanged⟩ :=
        loadImage_valid_magic hheap hread hsize hfits hmagic
      have hsegments : fileSegments image.bytes = segments (fileHeaders image.bytes) :=
        if_pos hmagic
      refine ⟨_, machine', _, hload, hrun, ?_, ?_⟩
      · rintro ⟨-, hall⟩
        rw [if_pos (hok.mpr hall)]
        have hmem := mem_segments_of_accepted hall
        refine ⟨rfl, fun ph hph htype ↦ hloaded ph (hmem ph hph htype), ?_, hchanged.live⟩
        intro x hx hnone
        refine hchanged.frame x hx fun ph hph ↦ hnone ph ?_
        have hin := List.mem_filter.mp ((segments_sublist _).subset hph)
        exact List.mem_filter.mpr ⟨hin.1, by simpa using (of_decide_eq_true hin.2).1⟩
      · rintro (h | ⟨ph, hph, htype, hbad⟩)
        · cases h
        · have hnot : ¬ok = true := fun htrue ↦ by
            rw [hok.mp htrue ph hph htype] at hbad
            cases hbad
          rw [if_neg hnot, hsegments]
          exact ⟨rfl, hchanged⟩

/-- The image of `imageMachine`, with a kernel in the two megabytes below the
heap. -/
theorem loadUserlandElf_spec_at_16MiB :
    ∃ run machine', loadUserlandElf faultless (imageMachine 0x1000000) = some run ∧
      run.outcome = some (machine', some 0x400000) ∧
      machine'.memory.mem 0x400000 = 0xEB ∧ machine'.memory.mem 0x400004 = 0 := by
  have hvalid : KernelEndValid 0x1000000 := ⟨by norm_num, by norm_num⟩
  have hheap := heapInvariant_memoryInit hvalid fun _ ↦ 0
  have hstart : (imageMachine 0x1000000).memory.heapStart = 0x1000000 :=
    (heapStart_memoryInit hvalid _).trans (by decide)
  obtain ⟨image, himage, hsample⟩ := userImage_imageMachine
  have hheaders := hsample.headers
  have hloadable : loadable image.bytes = [⟨1, 120, 0x400000, 4, 8⟩] := by
    rw [loadable, hheaders]
    decide
  have hentry : eEntry (fileView image.bytes) = 0x400000 := hsample.entry
  have hcovers : ∀ x, Phdr.Covers ⟨1, 120, 0x400000, 4, 8⟩ x → x < 0x400008 := by
    rintro x ⟨j, hj, rfl⟩
    have hj : j < 8 := hj
    show (0x400000 + j) % 2 ^ 64 < 0x400008
    omega
  have hfits : Fits (imageMachine 0x1000000).memory.heapStart
      (fun x ↦ 0xE00000 ≤ x ∧ x < 0x1000000) image.bytes := by
    refine ⟨hsample.table, ⟨?_, ?_, ?_⟩, ?_⟩
    · rw [hloadable, hsample.bytes]
      simp
    · rw [hloadable]
      exact List.pairwise_singleton _ _
    · rw [hloadable, hstart]
      intro ph hph x hx
      obtain rfl := List.mem_singleton.mp hph
      have hlow := hcovers x hx
      exact Or.inl (by omega)
    · rw [hloadable]
      intro ph hph x hx
      obtain rfl := List.mem_singleton.mp hph
      have hlow := hcovers x hx
      omega
  obtain ⟨run, machine', entry, hload, hrun, hgood, -⟩ := loadUserlandElf_spec hheap himage hfits
  obtain ⟨rfl, hloaded, -⟩ := hgood ⟨hsample.magic, by rw [hheaders]; decide⟩
  rw [hentry] at hrun
  have hsegment := hloaded ⟨1, 120, 0x400000, 4, 8⟩ (by rw [hheaders]; simp) rfl
  refine ⟨run, machine', hload, hrun, ?_, hsegment.zeros 4 (by decide) (by decide)⟩
  have hfirst := hsegment.fromFile 0 (by decide)
  rw [hsample.bytes] at hfirst
  exact hfirst

end ImplusKernel.Loader
