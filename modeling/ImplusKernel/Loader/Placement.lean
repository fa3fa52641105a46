import ImplusKernel.FileSystem.FileContents
import ImplusKernel.Loader.UserlandElf
import ImplusKernel.Memory.HeapRuns

/-!
# Where the user image goes

The loader checks where a segment starts, but neither where it ends nor
whether it meets the heap.  Which bytes it writes is therefore decided by the
program headers alone, as long as no segment is copied over them.
-/

namespace ImplusKernel.Loader

open ByteMemory Disk Fat32 Heap Syscall

variable {kernelEnd buffer i fuel : ℕ} {m m₀ : Mem} {ph : Phdr} {w : Write}

/-- Memory for user images: in the window that the loader tests, and not in
the heap that `memory_init` puts after the kernel. -/
def UserByte (kernelEnd x : ℕ) : Prop :=
  0x400000 ≤ x ∧ x < 0x80000000 ∧
    (x < firstPageAfter kernelEnd ∨ firstPageAfter kernelEnd + heapBytes ≤ x)

def Write.Placed (kernelEnd : ℕ) (w : Write) : Prop :=
  ∀ j < w.length, UserByte kernelEnd ((w.start + j) % 2 ^ 64)

/-! ## Headers -/

/-- A segment ends in the window and does not meet the heap. -/
def Phdr.Placed (kernelEnd : ℕ) (ph : Phdr) : Prop :=
  ph.pMemsz = 0 ∨ ph.pVaddr + ph.pMemsz ≤ 0x80000000 ∧
    (ph.pVaddr + ph.pMemsz ≤ firstPageAfter kernelEnd ∨
      firstPageAfter kernelEnd + heapBytes ≤ ph.pVaddr)

def Phdr.rejected (ph : Phdr) : Bool :=
  ph.pMemsz < ph.pFilesz ∨ ph.pVaddr < 0x400000 ∨ 0x80000000 ≤ ph.pVaddr

/-- The headers of type `PT_LOAD` before the first one that is rejected. -/
def segments : List Phdr → List Phdr
  | [] => []
  | ph :: rest =>
      if ph.pType ≠ ptLoad then segments rest
      else if ph.rejected then []
      else ph :: segments rest

theorem rejected_of_mem_segments {phs : List Phdr} (h : ph ∈ segments phs) :
    ph.rejected = false := by
  induction phs with
  | nil => cases h
  | cons ph' phs ih =>
      rw [segments] at h
      split at h
      · exact ih h
      split at h
      · cases h
      next hok =>
      rcases List.mem_cons.mp h with rfl | h
      · simpa using hok
      · exact ih h

/-- The headers as they stand in memory. -/
def headers (m : Mem) (buffer : ℕ) : List Phdr :=
  (List.range (ePhnum (view m buffer))).map
    (parsePhdr (view m ((buffer + ePhoff (view m buffer)) % 2 ^ 64)))

/-- The headers of a file with these bytes. -/
def fileHeaders (bytes : List UInt8) : List Phdr :=
  let ehdr : Mem := fun j ↦ bytes.getD j 0
  (List.range (ePhnum ehdr)).map (parsePhdr fun j ↦ ehdr (ePhoff ehdr + j))

/-- Both the ELF header and the table of program headers are in the file. -/
def TableInFile (bytes : List UInt8) : Prop :=
  let ehdr : Mem := fun j ↦ bytes.getD j 0
  64 ≤ bytes.length ∧ ePhoff ehdr + phdrSize * ePhnum ehdr ≤ bytes.length

/-- The bytes that decide what the loop does. -/
def HeaderByte (m₀ : Mem) (buffer x : ℕ) : Prop :=
  (∃ j < 2, x = (buffer + (56 + j)) % 2 ^ 64) ∨
    ∃ j < phdrSize * ePhnum (view m₀ buffer),
      x = ((buffer + ePhoff (view m₀ buffer)) % 2 ^ 64 + j) % 2 ^ 64

/-- No header is in the range. -/
def Avoids (m₀ : Mem) (buffer start n : ℕ) : Prop :=
  ∀ x, HeaderByte m₀ buffer x → x < start ∨ start + n ≤ x

/-- The headers are those of the memory `m₀` in which the loop started. -/
def HeadersStable (m₀ : Mem) (buffer : ℕ) (m : Mem) : Prop :=
  ∀ x, HeaderByte m₀ buffer x → m x = m₀ x

theorem Avoids.mono {start n n' : ℕ} (h : Avoids m₀ buffer start n) (hle : n' ≤ n) :
    Avoids m₀ buffer start n' := by
  intro x hx
  have hx := h x hx
  omega

theorem HeadersStable.ePhnum_eq (h : HeadersStable m₀ buffer m) :
    ePhnum (view m buffer) = ePhnum (view m₀ buffer) := by
  refine readLE_congr fun j hlow hhigh ↦ h _ (Or.inl ⟨j - 56, by omega, ?_⟩)
  rw [Nat.add_sub_cancel' hlow]

theorem parsePhdr_congr {table table' : Mem}
    (h : ∀ j, phdrSize * i ≤ j → j < phdrSize * (i + 1) → table j = table' j) :
    parsePhdr table i = parsePhdr table' i := by
  have hfield : ∀ a n, a + n ≤ phdrSize →
      readLE table (phdrSize * i + a) n = readLE table' (phdrSize * i + a) n := by
    intro a n hn
    refine readLE_congr fun j hlow hhigh ↦ h j (by omega) ?_
    rw [Nat.mul_add, Nat.mul_one]
    omega
  have htype := hfield 0 4 (by decide)
  rw [Nat.add_zero] at htype
  simp only [parsePhdr, htype, hfield 8 8 (by decide), hfield 16 8 (by decide),
    hfield 32 8 (by decide), hfield 40 8 (by decide)]

theorem HeadersStable.parsePhdr_eq (h : HeadersStable m₀ buffer m)
    (hi : i < ePhnum (view m₀ buffer)) :
    parsePhdr (view m ((buffer + ePhoff (view m₀ buffer)) % 2 ^ 64)) i =
      parsePhdr (view m₀ ((buffer + ePhoff (view m₀ buffer)) % 2 ^ 64)) i :=
  parsePhdr_congr fun j _ hj ↦
    h _ (Or.inr ⟨j, hj.trans_le (Nat.mul_le_mul_left phdrSize hi), rfl⟩)

/-! ## One segment -/

theorem Phdr.rejected_eq_false : ph.rejected = false ↔
    ph.pFilesz ≤ ph.pMemsz ∧ 0x400000 ≤ ph.pVaddr ∧ ph.pVaddr < 0x80000000 := by
  simp only [Phdr.rejected, decide_eq_false_iff_not]
  omega

/-- A range that starts below `0x80000000` and is placed does not wrap. -/
theorem Write.Placed.end_le (h : w.Placed kernelEnd) (hstart : w.start ≤ 0x80000000) :
    w.start + w.length ≤ 0x80000000 := by
  by_contra hlong
  have hlast := h (0x80000000 - w.start) (by omega)
  rw [Nat.add_sub_cancel' hstart] at hlast
  exact absurd hlast.2.1 (by decide)

theorem Write.placed_iff (hlow : 0x400000 ≤ w.start) (hhigh : w.start ≤ 0x80000000) :
    w.Placed kernelEnd ↔ w.length = 0 ∨ w.start + w.length ≤ 0x80000000 ∧
      (w.start + w.length ≤ firstPageAfter kernelEnd ∨
        firstPageAfter kernelEnd + heapBytes ≤ w.start) := by
  constructor
  · intro h
    have hend := h.end_le hhigh
    by_cases hzero : w.length = 0
    · exact Or.inl hzero
    refine Or.inr ⟨hend, ?_⟩
    -- The larger of the two starts is in both ranges when they meet.
    by_contra hmeet
    have hin := h (max w.start (firstPageAfter kernelEnd) - w.start) (by omega)
    rw [Nat.mod_eq_of_lt (by omega)] at hin
    have hheap := hin.2.2
    have hbytes : 0 < heapBytes := by decide
    omega
  · rintro (hzero | ⟨hend, happart⟩) j hj
    · omega
    · rw [Nat.mod_eq_of_lt (by omega)]
      exact ⟨by omega, by omega, by omega⟩

theorem Phdr.placed_iff (hok : ph.rejected = false) :
    ph.Placed kernelEnd ↔ Write.Placed kernelEnd ⟨ph.pVaddr, ph.pMemsz⟩ := by
  obtain ⟨-, hlow, hhigh⟩ := Phdr.rejected_eq_false.mp hok
  exact (Write.placed_iff (w := ⟨ph.pVaddr, ph.pMemsz⟩) hlow hhigh.le).symm

/-- The writes of a segment whose header the copy leaves alone. -/
def segmentWrites (ph : Phdr) : List Write :=
  ⟨ph.pVaddr, ph.pFilesz⟩ ::
    if ph.pFilesz < ph.pMemsz then
      [⟨(ph.pVaddr + ph.pFilesz) % 2 ^ 64, ph.pMemsz - ph.pFilesz⟩]
    else []

/-- A range and what follows it. -/
theorem Write.placed_split (start : ℕ) {n n' : ℕ} (hle : n ≤ n') :
    Write.Placed kernelEnd ⟨start, n'⟩ ↔ Write.Placed kernelEnd ⟨start, n⟩ ∧
      Write.Placed kernelEnd ⟨(start + n) % 2 ^ 64, n' - n⟩ := by
  have hnext : ∀ j, ((start + n) % 2 ^ 64 + j) % 2 ^ 64 = (start + (n + j)) % 2 ^ 64 := by
    intro j
    rw [Nat.mod_add_mod, Nat.add_assoc]
  constructor
  · intro h
    refine ⟨fun j hj ↦ h j (hj.trans_le hle), fun j hj ↦ ?_⟩
    have hj : j < n' - n := hj
    rw [hnext j]
    exact h (n + j) (show n + j < n' by omega)
  · rintro ⟨hfirst, hrest⟩ j hj
    have hj : j < n' := hj
    by_cases hjn : j < n
    · exact hfirst j hjn
    · have hplaced := hrest (j - n) (show j - n < n' - n by omega)
      rwa [hnext, Nat.add_sub_cancel' (by omega)] at hplaced

theorem segmentWrites_placed_iff (hok : ph.rejected = false) :
    (∀ w ∈ segmentWrites ph, w.Placed kernelEnd) ↔ ph.Placed kernelEnd := by
  obtain ⟨hle, -, -⟩ := Phdr.rejected_eq_false.mp hok
  rw [Phdr.placed_iff hok, Write.placed_split ph.pVaddr hle]
  by_cases hlt : ph.pFilesz < ph.pMemsz
  · simp [segmentWrites, hlt]
  · have hnone : ph.pMemsz - ph.pFilesz = 0 := by omega
    simp [segmentWrites, hlt, hnone, Write.Placed]

theorem Write.Placed.avoids (h : w.Placed kernelEnd) (hstart : w.start ≤ 0x80000000)
    (hsafe : ∀ x, HeaderByte m₀ buffer x → ¬UserByte kernelEnd x) :
    Avoids m₀ buffer w.start w.length := by
  have hend := h.end_le hstart
  intro x hx
  by_contra hin
  have huser := h (x - w.start) (by omega)
  rw [Nat.add_sub_cancel' (by omega), Nat.mod_eq_of_lt (by omega)] at huser
  exact hsafe x hx huser

/-- The copy of a segment that avoids the headers. -/
theorem HeadersStable.memcpy (h : HeadersStable m₀ buffer m) {start n : ℕ} (src : ℕ)
    (hfit : start + n ≤ 2 ^ 64) (havoids : Avoids m₀ buffer start n) :
    HeadersStable m₀ buffer (memcpy m start src n) := by
  intro x hx
  rw [memcpy_outside m src hfit (havoids x hx), h x hx]

theorem HeadersStable.zeroFill (h : HeadersStable m₀ buffer m)
    (hfit : ph.pVaddr + ph.pMemsz ≤ 2 ^ 64)
    (havoids : Avoids m₀ buffer ph.pVaddr ph.pMemsz) :
    HeadersStable m₀ buffer (zeroFill m ph.pVaddr ph).1 := by
  unfold Loader.zeroFill
  split
  · next hlt =>
      intro x hx
      have hout := havoids x hx
      have hstart : (ph.pVaddr + ph.pFilesz) % 2 ^ 64 = ph.pVaddr + ph.pFilesz :=
        Nat.mod_eq_of_lt (by omega)
      simp only [hstart]
      rw [memset_outside m 0 (by omega) (by omega), h x hx]
  · exact h

section loop

variable (hstable : HeadersStable m₀ buffer m) (hi : i < ePhnum (view m₀ buffer))
  (hph : parsePhdr (view m₀ ((buffer + ePhoff (view m₀ buffer)) % 2 ^ 64)) i = ph)
include hstable hi hph

/-- What a segment writes once its copy has left the headers alone. -/
theorem loadSegment_eq (hfit : ph.pVaddr + ph.pFilesz ≤ 2 ^ 64)
    (havoids : Avoids m₀ buffer ph.pVaddr ph.pFilesz) :
    ∃ m₁, HeadersStable m₀ buffer m₁ ∧
      loadSegment buffer ((buffer + ePhoff (view m₀ buffer)) % 2 ^ 64) i m =
        ((zeroFill m₁ ph.pVaddr ph).1, segmentWrites ph) := by
  have hnow := (hstable.parsePhdr_eq hi).trans hph
  have hcopied := hstable.memcpy ((buffer + ph.pOffset) % 2 ^ 64) hfit havoids
  refine ⟨_, hcopied, ?_⟩
  have hthen := (hcopied.parsePhdr_eq hi).trans hph
  simp only [loadSegment, hnow, hthen, segmentWrites, zeroFill]
  split <;> rfl

/-- A placed segment that avoids the headers. -/
theorem loadSegment_placed (hok : ph.rejected = false) (hplaced : ph.Placed kernelEnd)
    (havoids : Avoids m₀ buffer ph.pVaddr ph.pMemsz) :
    HeadersStable m₀ buffer
        (loadSegment buffer ((buffer + ePhoff (view m₀ buffer)) % 2 ^ 64) i m).1 ∧
      (loadSegment buffer ((buffer + ePhoff (view m₀ buffer)) % 2 ^ 64) i m).2 =
        segmentWrites ph := by
  obtain ⟨hle, hlow, hhigh⟩ := Phdr.rejected_eq_false.mp hok
  have hend : ph.pVaddr + ph.pMemsz ≤ 0x80000000 :=
    ((Phdr.placed_iff hok).mp hplaced).end_le hhigh.le
  obtain ⟨m₁, hm₁, heq⟩ := loadSegment_eq hstable hi hph (by omega) (havoids.mono hle)
  rw [heq]
  exact ⟨hm₁.zeroFill (by omega) havoids, rfl⟩

/-- When no header is in user memory, a segment whose writes are placed is
placed. -/
theorem loadSegment_placed_of_writes (hsafe : ∀ x, HeaderByte m₀ buffer x → ¬UserByte kernelEnd x)
    (hok : ph.rejected = false)
    (hwrites : ∀ w ∈ (loadSegment buffer ((buffer + ePhoff (view m₀ buffer)) % 2 ^ 64) i m).2,
      w.Placed kernelEnd) :
    ph.Placed kernelEnd ∧ Avoids m₀ buffer ph.pVaddr ph.pMemsz := by
  obtain ⟨hle, hlow, hhigh⟩ := Phdr.rejected_eq_false.mp hok
  have hnow := (hstable.parsePhdr_eq hi).trans hph
  have hcopy : Write.Placed kernelEnd ⟨ph.pVaddr, ph.pFilesz⟩ := by
    apply hwrites
    simp only [loadSegment, hnow]
    exact List.mem_cons_self ..
  have hend : ph.pVaddr + ph.pFilesz ≤ 0x80000000 := hcopy.end_le hhigh.le
  obtain ⟨m₁, -, heq⟩ :=
    loadSegment_eq hstable hi hph (by omega) (hcopy.avoids hhigh.le hsafe)
  rw [heq] at hwrites
  have hplaced := (segmentWrites_placed_iff hok).mp hwrites
  exact ⟨hplaced, ((Phdr.placed_iff hok).mp hplaced).avoids hhigh.le hsafe⟩

end loop

/-! ## The loop -/

theorem headers_drop (hi : i < ePhnum (view m₀ buffer)) :
    (headers m₀ buffer).drop i =
      parsePhdr (view m₀ ((buffer + ePhoff (view m₀ buffer)) % 2 ^ 64)) i ::
        (headers m₀ buffer).drop (i + 1) := by
  have hlength : i < (headers m₀ buffer).length := by simpa [headers] using hi
  rw [List.drop_eq_getElem_cons hlength]
  simp [headers]

/-- One round, for headers that are still in place. -/
theorem loadLoop_succ (hstable : HeadersStable m₀ buffer m) (hi : i < ePhnum (view m₀ buffer))
    (hph : parsePhdr (view m₀ ((buffer + ePhoff (view m₀ buffer)) % 2 ^ 64)) i = ph) :
    (loadLoop buffer ((buffer + ePhoff (view m₀ buffer)) % 2 ^ 64) (fuel + 1) i m).writes =
      if ph.pType ≠ ptLoad then
        (loadLoop buffer ((buffer + ePhoff (view m₀ buffer)) % 2 ^ 64) fuel (i + 1) m).writes
      else if ph.rejected then []
      else
        (loadSegment buffer ((buffer + ePhoff (view m₀ buffer)) % 2 ^ 64) i m).2 ++
          (loadLoop buffer ((buffer + ePhoff (view m₀ buffer)) % 2 ^ 64) fuel (i + 1)
            (loadSegment buffer ((buffer + ePhoff (view m₀ buffer)) % 2 ^ 64) i m).1).writes := by
  have hnow := (hstable.parsePhdr_eq hi).trans hph
  rw [loadLoop, hstable.ePhnum_eq, if_pos hi]
  simp only [hnow]
  by_cases htype : ph.pType ≠ ptLoad
  · rw [if_pos htype, if_pos htype]
  rw [if_neg htype, if_neg htype]
  by_cases hsize : ph.pMemsz < ph.pFilesz
  · rw [if_pos hsize, if_pos (by simp [Phdr.rejected, hsize])]
  rw [if_neg hsize]
  by_cases haddr : ph.pVaddr < 0x400000 ∨ 0x80000000 ≤ ph.pVaddr
  · rw [if_pos haddr, if_pos (by simp [Phdr.rejected, haddr])]
  · rw [if_neg haddr, if_neg (by simp [Phdr.rejected, hsize, haddr])]
    rfl

theorem loadLoop_done (hstable : HeadersStable m₀ buffer m) (hi : ¬i < ePhnum (view m₀ buffer))
    (phdrs : ℕ) : (loadLoop buffer phdrs fuel i m).writes = [] := by
  cases fuel with
  | zero => rfl
  | succ fuel => rw [loadLoop, hstable.ePhnum_eq, if_neg hi]

/-- Segments that are placed and avoid the headers are the only ones
written. -/
theorem loadLoop_placed (hstable : HeadersStable m₀ buffer m)
    (hall : ∀ ph ∈ segments ((headers m₀ buffer).drop i),
      ph.Placed kernelEnd ∧ Avoids m₀ buffer ph.pVaddr ph.pMemsz) :
    ∀ w ∈ (loadLoop buffer ((buffer + ePhoff (view m₀ buffer)) % 2 ^ 64) fuel i m).writes,
      w.Placed kernelEnd := by
  induction fuel generalizing i m with
  | zero => exact nofun
  | succ fuel ih =>
      by_cases hi : i < ePhnum (view m₀ buffer)
      swap
      · rw [loadLoop_done hstable hi]
        exact nofun
      rw [headers_drop hi] at hall
      generalize hph : parsePhdr (view m₀ ((buffer + ePhoff (view m₀ buffer)) % 2 ^ 64)) i = ph
        at hall
      rw [loadLoop_succ hstable hi hph]
      by_cases htype : ph.pType ≠ ptLoad
      · rw [if_pos htype]
        rw [segments, if_pos htype] at hall
        exact ih hstable hall
      rw [if_neg htype]
      rw [segments, if_neg htype] at hall
      cases hok : ph.rejected with
      | true => exact nofun
      | false =>
          rw [hok, if_neg (by simp)] at hall
          obtain ⟨hplaced, havoids⟩ := hall ph (List.mem_cons_self ..)
          obtain ⟨hstable', hwrites⟩ := loadSegment_placed hstable hi hph hok hplaced havoids
          rw [if_neg (by simp), hwrites]
          intro w hw
          rcases List.mem_append.mp hw with hw | hw
          · exact (segmentWrites_placed_iff hok).mpr hplaced w hw
          · exact ih hstable' (fun ph' hph' ↦ hall ph' (List.mem_cons_of_mem ph hph')) w hw

/-- Conversely, when no header is in user memory. -/
theorem loadLoop_placed_of_writes (hsafe : ∀ x, HeaderByte m₀ buffer x → ¬UserByte kernelEnd x)
    (hstable : HeadersStable m₀ buffer m) (hfuel : ePhnum (view m₀ buffer) ≤ i + fuel)
    (hwrites : ∀ w ∈ (loadLoop buffer ((buffer + ePhoff (view m₀ buffer)) % 2 ^ 64) fuel i
      m).writes, w.Placed kernelEnd) :
    ∀ ph ∈ segments ((headers m₀ buffer).drop i), ph.Placed kernelEnd := by
  induction fuel generalizing i m with
  | zero =>
      have hlength : (headers m₀ buffer).length ≤ i := by simpa [headers] using hfuel
      rw [List.drop_eq_nil_of_le hlength]
      exact nofun
  | succ fuel ih =>
      by_cases hi : i < ePhnum (view m₀ buffer)
      swap
      · have hlength : (headers m₀ buffer).length ≤ i := by simpa [headers] using hi
        rw [List.drop_eq_nil_of_le hlength]
        exact nofun
      rw [headers_drop hi]
      generalize hph : parsePhdr (view m₀ ((buffer + ePhoff (view m₀ buffer)) % 2 ^ 64)) i = ph
      rw [loadLoop_succ hstable hi hph] at hwrites
      by_cases htype : ph.pType ≠ ptLoad
      · rw [if_pos htype] at hwrites
        rw [segments, if_pos htype]
        exact ih hstable (by omega) hwrites
      rw [if_neg htype] at hwrites
      rw [segments, if_neg htype]
      cases hok : ph.rejected with
      | true => exact nofun
      | false =>
          rw [hok, if_neg (by simp)] at hwrites
          rw [if_neg (by simp)]
          obtain ⟨hplaced, havoids⟩ := loadSegment_placed_of_writes hstable hi hph hsafe hok
            fun w hw ↦ hwrites w (List.mem_append_left _ hw)
          obtain ⟨hstable', -⟩ := loadSegment_placed hstable hi hph hok hplaced havoids
          have hrest := ih hstable' (by omega) fun w hw ↦
            hwrites w (List.mem_append_right _ hw)
          intro ph' hph'
          rcases List.mem_cons.mp hph' with rfl | hph'
          · exact hplaced
          · exact hrest ph' hph'

/-! ## The file in its buffer -/

/-- The file when copying starts. -/
structure Image where
  buffer : ℕ
  bytes : List UInt8
  mem : Mem

def userImage (drive : Drive) (m : Machine) : Option Image :=
  match readImage drive m with
  | some (m', .read buffer bytes) => some ⟨buffer, bytes, m'.memory.mem⟩
  | _ => none

/-- The segments that are loaded, by the headers in memory. -/
def Image.segments (image : Image) : List Phdr :=
  if validMagic (view image.mem image.buffer) then
    Loader.segments (headers image.mem image.buffer)
  else []

/-- The same by the bytes of the file. -/
def fileSegments (bytes : List UInt8) : List Phdr :=
  if validMagic fun j ↦ bytes.getD j 0 then segments (fileHeaders bytes) else []

/-- The file is in a block of the heap. -/
structure Image.InHeap (image : Image) (heapStart : ℕ) : Prop where
  low : heapStart ≤ image.buffer
  high : image.buffer + image.bytes.length ≤ heapStart + heapBytes
  fits : heapStart + heapBytes ≤ 2 ^ 64
  stored : ∀ j < image.bytes.length, image.mem (image.buffer + j) = image.bytes.getD j 0

variable {drive : Drive} {machine machine' : Machine} {bs : List Block} {image : Image}

/-- What has been done when the file was read. -/
theorem readImage_read {bytes : List UInt8}
    (h : readImage drive machine = some (machine', .read buffer bytes)) :
    ∃ file s' r, (fat32FindFile drive machine.bpb machine.io userlandName).2 = some file ∧
      file.size ≠ 0 ∧ file.size ≤ 1024 * 1024 ∧ bytes.length = file.size ∧
      kmalloc machine.memory file.size = some (s', r) ∧ r.ptr ≠ 0 ∧ r.ptr = buffer ∧
      machine'.memory = { s' with mem := storeBytes s'.mem buffer bytes } := by
  unfold readImage at h
  split at h
  · simp at h
  · next io file hfind =>
      split at h
      · simp at h
      next hsize =>
      obtain ⟨⟨memory, r⟩, hk, h⟩ := Option.bind_eq_some_iff.mp h
      dsimp only at h
      by_cases hptr : r.ptr = 0
      · simp [hptr] at h
      rw [if_neg hptr] at h
      obtain ⟨⟨io', ok, copied⟩, hread, h⟩ := Option.bind_eq_some_iff.mp h
      cases ok with
      | false => simp at h
      | true =>
          simp only [if_true, Option.some.injEq, Prod.mk.injEq, ImageResult.read.injEq] at h
          obtain ⟨rfl, rfl, rfl⟩ := h
          exact ⟨file, memory, r, by rw [hfind], by omega, by omega,
            fat32ReadFile_length_eq hread, hk, hptr, rfl, rfl⟩

theorem readImage_inHeap (hheap : HeapInvariant machine.memory bs) {bytes : List UInt8}
    (h : readImage drive machine = some (machine', .read buffer bytes)) :
    Image.InHeap ⟨buffer, bytes, machine'.memory.mem⟩ machine.memory.heapStart := by
  obtain ⟨file, s', r, -, hpos, hsize, hlength, hk, hptr, rfl, hmem⟩ := readImage_read h
  obtain ⟨hlow, hhigh, hfits⟩ := kmalloc_inHeap hheap hpos (by omega) hk hptr
  rw [← hlength] at hhigh
  refine ⟨hlow, hhigh, hfits, fun j hj ↦ ?_⟩
  have hj : j < bytes.length := hj
  rw [hmem]
  refine (storeBytes_inside _ (by omega) hj).trans ?_
  simp [List.getD_eq_getElem?_getD, List.getElem?_eq_getElem hj]

theorem Image.InHeap.view_eq {heapStart j : ℕ} (h : image.InHeap heapStart)
    (hj : j < image.bytes.length) :
    view image.mem image.buffer j = image.bytes.getD j 0 := by
  have hhigh := h.high
  have hfits := h.fits
  rw [view, Nat.mod_eq_of_lt (by omega), h.stored j hj]

section file

variable {heapStart : ℕ} (h : image.InHeap heapStart) (htable : TableInFile image.bytes)
include h htable

theorem Image.InHeap.ePhnum_eq :
    ePhnum (view image.mem image.buffer) = ePhnum fun j ↦ image.bytes.getD j 0 :=
  readLE_congr fun j _ hhigh ↦ h.view_eq (by have := htable.1; omega)

theorem Image.InHeap.ePhoff_eq :
    ePhoff (view image.mem image.buffer) = ePhoff fun j ↦ image.bytes.getD j 0 :=
  readLE_congr fun j _ hhigh ↦ h.view_eq (by have := htable.1; omega)

theorem Image.InHeap.validMagic_eq :
    validMagic (view image.mem image.buffer) = validMagic fun j ↦ image.bytes.getD j 0 := by
  have hlength := htable.1
  simp only [validMagic, h.view_eq (show 0 < image.bytes.length by omega),
    h.view_eq (show 1 < image.bytes.length by omega),
    h.view_eq (show 2 < image.bytes.length by omega),
    h.view_eq (show 3 < image.bytes.length by omega)]

theorem Image.InHeap.headers_eq : headers image.mem image.buffer = fileHeaders image.bytes := by
  have hhigh := h.high
  have hfits := h.fits
  have hend := htable.2
  simp only [headers, fileHeaders, h.ePhnum_eq htable, h.ePhoff_eq htable]
  refine List.map_congr_left fun i hi ↦ parsePhdr_congr fun j _ hj ↦ ?_
  have hrow : phdrSize * (i + 1) ≤ phdrSize * ePhnum fun j ↦ image.bytes.getD j 0 :=
    Nat.mul_le_mul_left phdrSize (List.mem_range.mp hi)
  rw [view, Nat.mod_add_mod, Nat.add_assoc, Nat.mod_eq_of_lt (by omega), h.stored _ (by omega)]

theorem Image.InHeap.segments_eq : image.segments = fileSegments image.bytes := by
  rw [Image.segments, fileSegments, h.validMagic_eq htable, h.headers_eq htable]

/-- Headers in the file are headers in the heap. -/
theorem Image.InHeap.headers_apart (hstart : heapStart = firstPageAfter kernelEnd) {x : ℕ}
    (hx : HeaderByte image.mem image.buffer x) : ¬UserByte kernelEnd x := by
  have hlow := h.low
  have hhigh := h.high
  have hfits := h.fits
  obtain ⟨hlength, hend⟩ := htable
  rintro ⟨-, -, happart⟩
  rcases hx with ⟨j, hj, rfl⟩ | ⟨j, hj, rfl⟩
  · rw [Nat.mod_eq_of_lt (by omega)] at happart
    omega
  · rw [h.ePhnum_eq ⟨hlength, hend⟩] at hj
    rw [h.ePhoff_eq ⟨hlength, hend⟩, Nat.mod_add_mod, Nat.add_assoc,
      Nat.mod_eq_of_lt (by omega)] at happart
    omega

end file

/-! ## The loader -/

/-- What is written depends on the image alone. -/
theorem loadUserlandElf_writes {run : ElfRun} (h : loadUserlandElf drive machine = some run) :
    (userImage drive machine = none ∧ run.writes = []) ∨
      ∃ image, userImage drive machine = some image ∧
        run.writes = if validMagic (view image.mem image.buffer) then
          (loadLoop image.buffer ((image.buffer + ePhoff (view image.mem image.buffer)) % 2 ^ 64)
            (2 ^ 16) 0 image.mem).writes
        else [] := by
  obtain ⟨⟨m', result⟩, hread, h⟩ := Option.bind_eq_some_iff.mp h
  cases result with
  | failed =>
      obtain rfl := Option.some.inj h
      exact Or.inl ⟨by simp [userImage, hread], rfl⟩
  | unread buffer =>
      obtain rfl := Option.some.inj h
      exact Or.inl ⟨by simp [userImage, hread], rfl⟩
  | read buffer bytes =>
      obtain rfl := Option.some.inj h
      refine Or.inr ⟨⟨buffer, bytes, m'.memory.mem⟩, by simp [userImage, hread], ?_⟩
      cases hmagic : validMagic (view m'.memory.mem buffer) <;> simp [loadImage, hmagic]

theorem userImage_inHeap (hheap : HeapInvariant machine.memory bs)
    (h : userImage drive machine = some image) : image.InHeap machine.memory.heapStart := by
  unfold userImage at h
  split at h
  · next hread =>
      obtain rfl := Option.some.inj h
      exact readImage_inHeap hheap hread
  · cases h

/-- Segments that are placed and avoid the headers keep the image in its
place, whatever the file is.  When the file holds its own headers, being
placed is also necessary. -/
theorem loadUserlandElf_placed_iff (hheap : HeapInvariant machine.memory bs)
    (hstart : machine.memory.heapStart = firstPageAfter kernelEnd) {run : ElfRun}
    (hload : loadUserlandElf drive machine = some run) :
    ((∀ image ∈ userImage drive machine, ∀ ph ∈ image.segments,
        ph.Placed kernelEnd ∧ Avoids image.mem image.buffer ph.pVaddr ph.pMemsz) →
      ∀ w ∈ run.writes, w.Placed kernelEnd) ∧
    ((∀ image ∈ userImage drive machine, TableInFile image.bytes) →
      ((∀ w ∈ run.writes, w.Placed kernelEnd) ↔
        ∀ image ∈ userImage drive machine, ∀ ph ∈ fileSegments image.bytes,
          ph.Placed kernelEnd)) := by
  rcases loadUserlandElf_writes hload with ⟨hnone, hwrites⟩ | ⟨image, himage, hwrites⟩
  · rw [hnone, hwrites]
    exact ⟨fun _ ↦ nofun, fun _ ↦ iff_of_true nofun nofun⟩
  simp only [himage, Option.mem_some_iff, forall_eq']
  have hin := userImage_inHeap hheap himage
  have hstable : HeadersStable image.mem image.buffer image.mem := fun _ _ ↦ rfl
  have hsufficient : (∀ ph ∈ image.segments,
      ph.Placed kernelEnd ∧ Avoids image.mem image.buffer ph.pVaddr ph.pMemsz) →
      ∀ w ∈ run.writes, w.Placed kernelEnd := by
    intro hall
    rw [hwrites]
    rw [Image.segments] at hall
    split
    · next hmagic =>
        rw [if_pos hmagic] at hall
        exact loadLoop_placed hstable (i := 0) hall
    · exact nofun
  refine ⟨hsufficient, fun htable ↦ ?_⟩
  have hsafe : ∀ x, HeaderByte image.mem image.buffer x → ¬UserByte kernelEnd x :=
    fun _ hx ↦ hin.headers_apart htable hstart hx
  rw [← hin.segments_eq htable]
  constructor
  · intro hplaced
    rw [hwrites] at hplaced
    rw [Image.segments]
    split
    · next hmagic =>
        rw [if_pos hmagic] at hplaced
        have hphnum : ePhnum (view image.mem image.buffer) ≤ 0 + 2 ^ 16 := by
          have hlt := readLE_lt (view image.mem image.buffer) 56 2
          rw [ePhnum]
          omega
        exact loadLoop_placed_of_writes hsafe hstable hphnum hplaced
    · exact nofun
  · intro hall
    refine hsufficient fun ph hph ↦ ⟨hall ph hph, ?_⟩
    have hok : ph.rejected = false := by
      rw [Image.segments] at hph
      split at hph
      · exact rejected_of_mem_segments hph
      · cases hph
    obtain ⟨-, -, hhigh⟩ := Phdr.rejected_eq_false.mp hok
    exact ((Phdr.placed_iff hok).mp (hall ph hph)).avoids hhigh.le hsafe

/-- A drive with URLD.ELF in cluster 3: one segment for `0x400000`, where
user programs are linked, with four bytes in the file and eight in memory. -/
def imageSectors (s : ℕ) : Mem :=
  if s = 2148 then fun
    | 11 => 32 | 26 => 3 | 28 => 124 | i => userlandName.getD i 0
  else if s = 2149 then fun
    | 0 => 0x7F | 1 => 69 | 2 => 76 | 3 => 70 | 26 => 0x40 | 32 => 64 | 56 => 1
    | 64 => 1 | 72 => 120 | 82 => 0x40 | 96 => 4 | 104 => 8
    | 120 => 0xEB | 121 => 0xFE | _ => 0
  else fun _ ↦ 0

def imageMachine (kernelEnd : ℕ) : Machine where
  memory := memoryInit kernelEnd (.boot fun _ ↦ 0)
  io := ⟨imageSectors, 0, [], []⟩
  bpb := sampleBpb
  files _ := .cleared

/-- The file of `imageMachine`, as the loader sees it. -/
structure SampleFile (file : List UInt8) : Prop where
  bytes : file = (List.range 124).map (imageSectors 2149)
  table : TableInFile file
  headers : fileHeaders file = [⟨1, 120, 0x400000, 4, 8⟩]
  segments : fileSegments file = [⟨1, 120, 0x400000, 4, 8⟩]
  offset : (ePhoff fun j ↦ file.getD j 0) = 64
  entry : (eEntry fun j ↦ file.getD j 0) = 0x400000
  magic : (validMagic fun j ↦ file.getD j 0) = true

theorem sampleFile : SampleFile ((List.range 124).map (imageSectors 2149)) where
  bytes := rfl
  table := ⟨by simp, by decide +kernel⟩
  headers := by decide +kernel
  segments := by decide +kernel
  offset := by decide +kernel
  entry := by decide +kernel
  magic := by decide +kernel

theorem userImage_imageMachine : ∃ image,
    userImage faultless (imageMachine 0x1000000) = some image ∧ SampleFile image.bytes := by
  have hbytes : (userImage faultless (imageMachine 0x1000000)).map Image.bytes =
      some ((List.range 124).map (imageSectors 2149)) := by decide +kernel
  obtain ⟨image, himage, hbytes⟩ := Option.map_eq_some_iff.mp hbytes
  exact ⟨image, himage, hbytes ▸ sampleFile⟩

/-- A kernel that ends at 16 MiB leaves room for the segment. -/
theorem loadUserlandElf_placed_at_16MiB :
    ∃ run, loadUserlandElf faultless (imageMachine 0x1000000) = some run ∧
      run.writes = [⟨0x400000, 4⟩, ⟨0x400004, 4⟩] ∧
      ∀ w ∈ run.writes, w.Placed 0x1000000 := by
  have hvalid : KernelEndValid 0x1000000 := ⟨by norm_num, by norm_num⟩
  have hrun : (loadUserlandElf faultless (imageMachine 0x1000000)).map ElfRun.writes =
      some [⟨0x400000, 4⟩, ⟨0x400004, 4⟩] := by decide +kernel
  obtain ⟨run, hload, hwrites⟩ := Option.map_eq_some_iff.mp hrun
  obtain ⟨image, himage, hsample⟩ := userImage_imageMachine
  refine ⟨run, hload, hwrites, ?_⟩
  refine ((loadUserlandElf_placed_iff (heapInvariant_memoryInit hvalid _)
    (heapStart_memoryInit hvalid _) hload).2 ?_).mpr ?_
  · intro image' himage'
    obtain rfl := Option.some.inj (himage.symm.trans himage')
    exact hsample.table
  · intro image' himage'
    obtain rfl := Option.some.inj (himage.symm.trans himage')
    rw [hsample.segments]
    intro ph hph
    obtain rfl := List.mem_singleton.mp hph
    exact Or.inr ⟨by decide, Or.inl (by decide)⟩

/-- With the kernel below `0x400000` the same file is copied into the heap. -/
theorem loadUserlandElf_writes_heap :
    ∃ run w, loadUserlandElf faultless (imageMachine 0x110000) = some run ∧ w ∈ run.writes ∧
      w.start = 0x400000 ∧ 0 < w.length ∧
      (imageMachine 0x110000).memory.heapStart ≤ 0x400000 ∧
      0x400000 < (imageMachine 0x110000).memory.heapStart + heapBytes ∧
      ¬w.Placed 0x110000 := by
  have hrun : (loadUserlandElf faultless (imageMachine 0x110000)).map ElfRun.writes =
      some [⟨0x400000, 4⟩, ⟨0x400004, 4⟩] := by decide +kernel
  obtain ⟨run, hload, hwrites⟩ := Option.map_eq_some_iff.mp hrun
  refine ⟨run, ⟨0x400000, 4⟩, hload, by simp [hwrites], rfl, by decide, by decide +kernel,
    by decide +kernel, fun hplaced ↦ ?_⟩
  have hfirst := (hplaced 0 (by decide)).2.2
  exact absurd hfirst (by decide)

end ImplusKernel.Loader
