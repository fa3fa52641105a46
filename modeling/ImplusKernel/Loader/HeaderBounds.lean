import ImplusKernel.Loader.Placement

/-!
# What the loader reads of the file

The loader takes offsets and sizes from the file and compares none of them
with the size of the file.  Its reads of the buffer are listed here in the order
of the code, and a run depends on no other byte.  They stay inside the buffer
exactly when the headers, as far as the loop gets and as it finds them, and the
sources of the segments are in the file.  A segment may have been copied over
headers that are still to be read.
-/

namespace ImplusKernel.Loader

open ByteMemory Disk Fat32 Heap Syscall

structure Read where
  start : ℕ
  length : ℕ
deriving DecidableEq, Repr

/-! ## The reads -/

/-- The test of the magic stops at the first byte that differs. -/
def magicReads (buffer : ℕ) (ehdr : Mem) : List Read :=
  ⟨buffer, 1⟩ :: if ehdr 0 ≠ 0x7F then [] else
  ⟨buffer + 1, 1⟩ :: if ehdr 1 ≠ 69 then [] else
  ⟨buffer + 2, 1⟩ :: if ehdr 2 ≠ 76 then [] else
  [⟨buffer + 3, 1⟩]

/-- The reads of one header: `p_type`, and for a segment `p_vaddr`, `p_memsz` and
`p_filesz`, its `p_offset` and its source.  The sizes are read again for the
fill, at the same addresses. -/
def headerReads (buffer phdrs i : ℕ) (m : Mem) : List Read :=
  let ph := parsePhdr (view m phdrs) i
  let header := phdrs + phdrSize * i
  ⟨header, 4⟩ :: if ph.pType ≠ ptLoad then [] else
    [⟨header + 16, 8⟩, ⟨header + 40, 8⟩, ⟨header + 32, 8⟩] ++
      if ph.rejected then [] else [⟨header + 8, 8⟩, ⟨buffer + ph.pOffset, ph.pFilesz⟩]

/-- The reads of the loop, which begins each round with `e_phnum`. -/
def loadReads (buffer phdrs : ℕ) : ℕ → ℕ → Mem → List Read
  | 0, _, _ => []
  | fuel + 1, i, m =>
      ⟨buffer + 56, 2⟩ ::
        if i < ePhnum (view m buffer) then
          let ph := parsePhdr (view m phdrs) i
          headerReads buffer phdrs i m ++
            if ph.pType ≠ ptLoad then loadReads buffer phdrs fuel (i + 1) m
            else if ph.rejected then []
            else loadReads buffer phdrs fuel (i + 1) (loadSegment buffer phdrs i m).1
        else []

/-- The reads of the part after the file has been read: the magic, `e_entry`,
`e_phoff`, the loop, and `e_entry` again. -/
def imageReads (m : Mem) (buffer : ℕ) : List Read :=
  let ehdr := view m buffer
  magicReads buffer ehdr ++
    if validMagic ehdr = false then []
    else
      let phdrs := (buffer + ePhoff ehdr) % 2 ^ 64
      [⟨buffer + 24, 8⟩, ⟨buffer + 32, 8⟩] ++ loadReads buffer phdrs (2 ^ 16) 0 m ++
        if (loadLoop buffer phdrs (2 ^ 16) 0 m).ok then [⟨buffer + 24, 8⟩] else []

variable {buffer phdrs size i fuel : ℕ} {m m' m₀ : Mem} {ph : Phdr} {r : Read}

/-! ## A run depends on nothing else -/

def Read.Agrees (m m' : Mem) (r : Read) : Prop :=
  ∀ j < r.length, m ((r.start + j) % 2 ^ 64) = m' ((r.start + j) % 2 ^ 64)

theorem Read.Agrees.readLE_eq {ptr a n : ℕ} (h : Read.Agrees m m' ⟨ptr + a, n⟩) :
    readLE (view m ptr) a n = readLE (view m' ptr) a n := by
  refine readLE_shift fun j hj ↦ ?_
  have hbyte := h j hj
  rwa [Nat.add_assoc] at hbyte

def rejectText (i : ℕ) (ph : Phdr) : List String :=
  segmentText i ph ++
    if ph.pMemsz < ph.pFilesz then ["[OS] [USER] Invalid segment: memsz < filesz\n"]
    else ["[OS] [USER] Invalid virtual address\n"]

/-- One round, with both checks as one. -/
theorem loadLoop_round (buffer phdrs fuel i : ℕ) (m : Mem) :
    loadLoop buffer phdrs (fuel + 1) i m =
      if i < ePhnum (view m buffer) then
        if (parsePhdr (view m phdrs) i).pType ≠ ptLoad then loadLoop buffer phdrs fuel (i + 1) m
        else if (parsePhdr (view m phdrs) i).rejected then
          ⟨m, [], rejectText i (parsePhdr (view m phdrs) i), false⟩
        else
          (loadLoop buffer phdrs fuel (i + 1) (loadSegment buffer phdrs i m).1).after
            (loadSegment buffer phdrs i m).2 (segmentText i (parsePhdr (view m phdrs) i))
      else ⟨m, [], [], true⟩ := by
  rw [loadLoop]
  generalize parsePhdr (view m phdrs) i = ph
  by_cases hsize : ph.pMemsz < ph.pFilesz
  · simp [Phdr.rejected, rejectText, hsize]
  · by_cases haddr : ph.pVaddr < 0x400000 ∨ 0x80000000 ≤ ph.pVaddr
    · simp [Phdr.rejected, rejectText, hsize, haddr]
    · simp [Phdr.rejected, hsize, haddr]

theorem zeroFill_agrees (m m' : Mem) {ph ph' : Phdr} (dst : ℕ) (hmemsz : ph.pMemsz = ph'.pMemsz)
    (hfilesz : ph.pFilesz = ph'.pFilesz) :
    (zeroFill m dst ph).2 = (zeroFill m' dst ph').2 ∧
      ∀ x, m x = m' x → (zeroFill m dst ph).1 x = (zeroFill m' dst ph').1 x := by
  unfold zeroFill
  rw [hmemsz, hfilesz]
  split
  · exact ⟨rfl, fun x ↦ memset_agree _ _ 0⟩
  · exact ⟨rfl, fun x ↦ id⟩

/-- What a round decides and prints comes from three fields. -/
theorem Phdr.check_congr {ph ph' : Phdr} (hvaddr : ph.pVaddr = ph'.pVaddr)
    (hmemsz : ph.pMemsz = ph'.pMemsz) (hfilesz : ph.pFilesz = ph'.pFilesz) (i : ℕ) :
    ph.rejected = ph'.rejected ∧ segmentText i ph = segmentText i ph' ∧
      rejectText i ph = rejectText i ph' := by
  obtain ⟨t, o, v, f, n⟩ := ph
  obtain ⟨t', o', v', f', n'⟩ := ph'
  obtain rfl : v = v' := hvaddr
  obtain rfl : n = n' := hmemsz
  obtain rfl : f = f' := hfilesz
  exact ⟨rfl, rfl, rfl⟩

theorem Read.Agrees.field_eq {a : ℕ} (h : Read.Agrees m m' ⟨phdrs + phdrSize * i + a, 8⟩) :
    readLE (view m phdrs) (phdrSize * i + a) 8 = readLE (view m' phdrs) (phdrSize * i + a) 8 := by
  rw [Nat.add_assoc] at h
  exact h.readLE_eq

theorem pVaddr_agrees (h : Read.Agrees m m' ⟨phdrs + phdrSize * i + 16, 8⟩) :
    (parsePhdr (view m phdrs) i).pVaddr = (parsePhdr (view m' phdrs) i).pVaddr :=
  h.field_eq

theorem pFilesz_agrees (h : Read.Agrees m m' ⟨phdrs + phdrSize * i + 32, 8⟩) :
    (parsePhdr (view m phdrs) i).pFilesz = (parsePhdr (view m' phdrs) i).pFilesz :=
  h.field_eq

theorem pMemsz_agrees (h : Read.Agrees m m' ⟨phdrs + phdrSize * i + 40, 8⟩) :
    (parsePhdr (view m phdrs) i).pMemsz = (parsePhdr (view m' phdrs) i).pMemsz :=
  h.field_eq

/-- The sizes are read again from the memory after the copy. -/
theorem copy_fill_agrees (dst : ℕ) {src n : ℕ}
    (hmemsz : Read.Agrees m m' ⟨phdrs + phdrSize * i + 40, 8⟩)
    (hfilesz : Read.Agrees m m' ⟨phdrs + phdrSize * i + 32, 8⟩)
    (hsource : ∀ j < n, m ((src + j) % 2 ^ 64) = m' ((src + j) % 2 ^ 64)) :
    (zeroFill (memcpy m dst src n) dst (parsePhdr (view (memcpy m dst src n) phdrs) i)).2 =
        (zeroFill (memcpy m' dst src n) dst (parsePhdr (view (memcpy m' dst src n) phdrs) i)).2 ∧
      ∀ x, m x = m' x →
        (zeroFill (memcpy m dst src n) dst (parsePhdr (view (memcpy m dst src n) phdrs) i)).1 x =
          (zeroFill (memcpy m' dst src n) dst
            (parsePhdr (view (memcpy m' dst src n) phdrs) i)).1 x := by
  have hcopy : ∀ x, m x = m' x → memcpy m dst src n x = memcpy m' dst src n x :=
    fun x ↦ memcpy_agree hsource
  have hagain : ∀ r : Read, r.Agrees m m' →
      r.Agrees (memcpy m dst src n) (memcpy m' dst src n) := fun r hr j hj ↦ hcopy _ (hr j hj)
  obtain ⟨hwrites, hfill⟩ := zeroFill_agrees (memcpy m dst src n) (memcpy m' dst src n) dst
    (pMemsz_agrees (hagain _ hmemsz)) (pFilesz_agrees (hagain _ hfilesz))
  exact ⟨hwrites, fun x hx ↦ hfill x (hcopy x hx)⟩

theorem loadSegment_agrees (hvaddr : Read.Agrees m m' ⟨phdrs + phdrSize * i + 16, 8⟩)
    (hmemsz : Read.Agrees m m' ⟨phdrs + phdrSize * i + 40, 8⟩)
    (hfilesz : Read.Agrees m m' ⟨phdrs + phdrSize * i + 32, 8⟩)
    (hoffset : Read.Agrees m m' ⟨phdrs + phdrSize * i + 8, 8⟩)
    (hsource : Read.Agrees m m' ⟨buffer + (parsePhdr (view m phdrs) i).pOffset,
      (parsePhdr (view m phdrs) i).pFilesz⟩) :
    (loadSegment buffer phdrs i m).2 = (loadSegment buffer phdrs i m').2 ∧
      ∀ x, m x = m' x →
        (loadSegment buffer phdrs i m).1 x = (loadSegment buffer phdrs i m').1 x := by
  have ho : (parsePhdr (view m phdrs) i).pOffset = (parsePhdr (view m' phdrs) i).pOffset :=
    hoffset.field_eq
  have hbytes : ∀ j < (parsePhdr (view m phdrs) i).pFilesz,
      m (((buffer + (parsePhdr (view m phdrs) i).pOffset) % 2 ^ 64 + j) % 2 ^ 64) =
        m' (((buffer + (parsePhdr (view m phdrs) i).pOffset) % 2 ^ 64 + j) % 2 ^ 64) := by
    intro j hj
    rw [Nat.mod_add_mod]
    exact hsource j hj
  obtain ⟨hwrites, hmem⟩ :=
    copy_fill_agrees (parsePhdr (view m phdrs) i).pVaddr hmemsz hfilesz hbytes
  simp only [loadSegment, ← pVaddr_agrees hvaddr, ← ho, ← pFilesz_agrees hfilesz]
  exact ⟨congrArg (List.cons _) hwrites, hmem⟩

/-- Memories that agree on the bytes read give the same run. -/
theorem loadLoop_agrees (h : ∀ r ∈ loadReads buffer phdrs fuel i m, r.Agrees m m') :
    (loadLoop buffer phdrs fuel i m).writes = (loadLoop buffer phdrs fuel i m').writes ∧
      (loadLoop buffer phdrs fuel i m).serial = (loadLoop buffer phdrs fuel i m').serial ∧
      (loadLoop buffer phdrs fuel i m).ok = (loadLoop buffer phdrs fuel i m').ok ∧
      ∀ x, m x = m' x →
        (loadLoop buffer phdrs fuel i m).mem x = (loadLoop buffer phdrs fuel i m').mem x := by
  induction fuel generalizing i m m' with
  | zero => exact ⟨rfl, rfl, rfl, fun x ↦ id⟩
  | succ fuel ih =>
      obtain ⟨hphnum, h⟩ := List.forall_mem_cons.mp h
      have hnum : ePhnum (view m buffer) = ePhnum (view m' buffer) := hphnum.readLE_eq
      rw [loadLoop_round, loadLoop_round, ← hnum]
      by_cases hi : i < ePhnum (view m buffer)
      swap
      · rw [if_neg hi, if_neg hi]
        exact ⟨rfl, rfl, rfl, fun x ↦ id⟩
      rw [if_pos hi, List.forall_mem_append] at h
      rw [if_pos hi, if_pos hi]
      obtain ⟨hheader, h⟩ := h
      obtain ⟨htype, hheader⟩ := List.forall_mem_cons.mp hheader
      have hpType : (parsePhdr (view m phdrs) i).pType = (parsePhdr (view m' phdrs) i).pType :=
        htype.readLE_eq
      rw [← hpType]
      by_cases hload : (parsePhdr (view m phdrs) i).pType ≠ ptLoad
      · rw [if_pos hload] at h
        rw [if_pos hload, if_pos hload]
        exact ih h
      rw [if_neg hload] at h
      rw [if_neg hload, List.forall_mem_append] at hheader
      rw [if_neg hload, if_neg hload]
      obtain ⟨hfields, hheader⟩ := hheader
      have hvaddr := hfields _ List.mem_cons_self
      have hmemsz := hfields _ (List.mem_cons_of_mem _ List.mem_cons_self)
      have hfilesz := hfields _ (List.mem_cons_of_mem _ (List.mem_cons_of_mem _
        List.mem_cons_self))
      obtain ⟨hrejected, htext, hreject⟩ := Phdr.check_congr (pVaddr_agrees hvaddr)
        (pMemsz_agrees hmemsz) (pFilesz_agrees hfilesz) i
      rw [← hrejected, ← htext, ← hreject]
      by_cases hbad : (parsePhdr (view m phdrs) i).rejected = true
      · rw [if_pos hbad, if_pos hbad]
        exact ⟨rfl, rfl, rfl, fun x ↦ id⟩
      rw [if_neg hbad] at h hheader
      rw [if_neg hbad, if_neg hbad]
      obtain ⟨hwrites, hmem⟩ := loadSegment_agrees hvaddr hmemsz hfilesz
        (hheader _ List.mem_cons_self) (hheader _ (List.mem_cons_of_mem _ List.mem_cons_self))
      obtain ⟨hw, hs, hok, hrest⟩ := ih fun r hr j hj ↦ hmem _ (h r hr j hj)
      refine ⟨?_, ?_, hok, fun x hx ↦ hrest x (hmem x hx)⟩
      · simp only [LoopRun.after, hwrites, hw]
      · simp only [LoopRun.after, hs]

/-! ## Ranges in the buffer -/

/-- Every byte read is one of the `size` bytes from `buffer` on. -/
def Read.Within (buffer size : ℕ) (r : Read) : Prop :=
  ∀ j < r.length, ∃ k < size, (r.start + j) % 2 ^ 64 = buffer + k

theorem Read.within_of_le {start o n : ℕ} (hbuffer : buffer + size ≤ 2 ^ 64)
    (hstart : start % 2 ^ 64 = (buffer + o) % 2 ^ 64) (hle : o + n ≤ size) :
    Read.Within buffer size ⟨start, n⟩ := by
  intro j hj
  have hj : j < n := hj
  exact ⟨o + j, by omega, show (start + j) % 2 ^ 64 = _ by omega⟩

theorem Read.Within.le {start o n : ℕ} (h : Read.Within buffer size ⟨start, n⟩) (hn : n ≠ 0)
    (hsize : size < 2 ^ 64) (ho : o < 2 ^ 64)
    (hstart : start % 2 ^ 64 = (buffer + o) % 2 ^ 64) : o + n ≤ size := by
  obtain ⟨k, hk, hfirst⟩ := h 0 (Nat.pos_of_ne_zero hn)
  simp only at hfirst
  by_contra hlong
  -- The byte after the buffer would be read.
  obtain ⟨l, hl, hlast⟩ := h (size - o) (show size - o < n by omega)
  simp only at hlast
  omega

/-! ## The file -/

/-- The bytes of a file, with zeros after them. -/
def fileView (bytes : List UInt8) : Mem := fun j ↦ bytes.getD j 0

def fileHeader (bytes : List UInt8) (i : ℕ) : Phdr :=
  parsePhdr (fun j ↦ fileView bytes (ePhoff (fileView bytes) + j)) i

theorem fileHeaders_eq (bytes : List UInt8) :
    fileHeaders bytes = (List.range (ePhnum (fileView bytes))).map (fileHeader bytes) := rfl

theorem fileHeaders_drop {bytes : List UInt8} (hi : i < ePhnum (fileView bytes)) :
    (fileHeaders bytes).drop i = fileHeader bytes i :: (fileHeaders bytes).drop (i + 1) := by
  have hlength : i < (fileHeaders bytes).length := by simpa [fileHeaders_eq] using hi
  rw [List.drop_eq_getElem_cons hlength]
  simp [fileHeaders_eq]

theorem fileHeaders_drop_eq_nil {bytes : List UInt8} (hi : ePhnum (fileView bytes) ≤ i) :
    (fileHeaders bytes).drop i = [] :=
  List.drop_eq_nil_of_le (by simpa [fileHeaders_eq] using hi)

/-- A header at `offset` is in the file as far as the loop reads it, and so is
the source of its segment. -/
def Phdr.Within (ph : Phdr) (size offset : ℕ) : Prop :=
  offset + 4 ≤ size ∧ (ph.pType = ptLoad → offset + 48 ≤ size ∧
    (ph.rejected = false → ph.pFilesz = 0 ∨ ph.pOffset + ph.pFilesz ≤ size))

/-- The address of the program headers. -/
def Image.table (image : Image) : ℕ := (image.buffer + ePhoff (fileView image.bytes)) % 2 ^ 64

/-- Header number `i` as it stands in memory. -/
def Image.header (image : Image) (m : Mem) (i : ℕ) : Phdr := parsePhdr (view m image.table) i

/-- The loop comes to header number `i` with this memory: the segments before
it have been copied. -/
inductive Image.ComesTo (image : Image) : ℕ → Mem → Prop
  | start : image.ComesTo 0 image.mem
  | skip {i : ℕ} {m : Mem} (h : image.ComesTo i m) (hi : i < ePhnum (view m image.buffer))
      (hload : (image.header m i).pType ≠ ptLoad) : image.ComesTo (i + 1) m
  | load {i : ℕ} {m : Mem} (h : image.ComesTo i m) (hi : i < ePhnum (view m image.buffer))
      (hload : (image.header m i).pType = ptLoad) (hok : (image.header m i).rejected = false) :
      image.ComesTo (i + 1) (loadSegment image.buffer image.table i m).1

def elfMagic : List UInt8 := [0x7F, 69, 76, 70]

/-- The file does not end inside the magic, and a file with the magic has its
header up to `e_phnum`, with `headers` as well. -/
def Image.HeaderWithin (image : Image) (headers : Prop) : Prop :=
  (image.bytes.length < 4 → ¬image.bytes <+: elfMagic) ∧
    (validMagic (fileView image.bytes) = true → 58 ≤ image.bytes.length ∧ headers)

/-- The headers and sources are in the file, as they are when the loop comes to
them. -/
def Image.HeadersWithin (image : Image) : Prop :=
  image.HeaderWithin (∀ i m, image.ComesTo i m → i < ePhnum (view m image.buffer) →
    (image.header m i).Within image.bytes.length (ePhoff (fileView image.bytes) + phdrSize * i))

/-- Headers of a table from `offset` on, up to the first one that is rejected,
and the sources of their segments are in the file. -/
def TableWithin (size : ℕ) : ℕ → List Phdr → Prop
  | _, [] => True
  | offset, ph :: rest =>
      ph.Within size offset ∧
        ((ph.pType = ptLoad → ph.rejected = false) → TableWithin size (offset + phdrSize) rest)

/-- The same of the headers as the file has them. -/
def Image.FileHeadersWithin (image : Image) : Prop :=
  image.HeaderWithin (TableWithin image.bytes.length (ePhoff (fileView image.bytes))
    (fileHeaders image.bytes))

/-- No byte of the segment is one that decides what the loop does. -/
def Image.SparedBy (image : Image) (ph : Phdr) : Prop :=
  ∀ x, HeaderByte image.mem image.buffer x → ∀ j < ph.pMemsz, x ≠ (ph.pVaddr + j) % 2 ^ 64

section file

variable {image : Image} {heapStart : ℕ} (h : image.InHeap heapStart)
  (hsize : image.bytes.length ≤ 1024 * 1024)
include h

theorem Image.InHeap.buffer_add_le : image.buffer + image.bytes.length ≤ 2 ^ 64 :=
  h.high.trans h.fits

theorem Image.InHeap.readLE_eq {a n : ℕ} (hle : a + n ≤ image.bytes.length) :
    readLE (view image.mem image.buffer) a n = readLE (fileView image.bytes) a n :=
  readLE_congr fun _ _ hhigh ↦ h.view_eq (hhigh.trans_le hle)

theorem Image.InHeap.readLE_table_eq {o a n : ℕ} (hle : o + a + n ≤ image.bytes.length) :
    readLE (view image.mem ((image.buffer + o) % 2 ^ 64)) a n =
      readLE (fun j ↦ fileView image.bytes (o + j)) a n := by
  refine readLE_congr fun j _ hhigh ↦ ?_
  rw [view, Nat.mod_add_mod, Nat.add_assoc]
  exact h.view_eq (by omega)

variable (h58 : 58 ≤ image.bytes.length)
include h58

theorem Image.InHeap.phnum_eq :
    ePhnum (view image.mem image.buffer) = ePhnum (fileView image.bytes) :=
  h.readLE_eq (by omega)

theorem Image.InHeap.phoff_eq :
    ePhoff (view image.mem image.buffer) = ePhoff (fileView image.bytes) :=
  h.readLE_eq (by omega)

section stable

variable (hstable : HeadersStable image.mem image.buffer m) (hi : i < ePhnum (fileView image.bytes))
include hstable hi

theorem Image.InHeap.pType_eq
    (hle : ePhoff (fileView image.bytes) + phdrSize * i + 4 ≤ image.bytes.length) :
    (image.header m i).pType = (fileHeader image.bytes i).pType := by
  rw [← h.phnum_eq h58] at hi
  have hnow := hstable.parsePhdr_eq hi
  rw [h.phoff_eq h58] at hnow
  rw [Image.header, Image.table, hnow]
  exact h.readLE_table_eq hle

theorem Image.InHeap.header_eq
    (hle : ePhoff (fileView image.bytes) + phdrSize * i + 48 ≤ image.bytes.length) :
    image.header m i = fileHeader image.bytes i := by
  rw [← h.phnum_eq h58] at hi
  have hnow := hstable.parsePhdr_eq hi
  rw [h.phoff_eq h58] at hnow
  rw [Image.header, Image.table, hnow]
  have hfield : ∀ a n, a + n ≤ 48 →
      readLE (view image.mem ((image.buffer + ePhoff (fileView image.bytes)) % 2 ^ 64))
          (phdrSize * i + a) n =
        readLE (fun j ↦ fileView image.bytes (ePhoff (fileView image.bytes) + j))
          (phdrSize * i + a) n := fun a n hn ↦ h.readLE_table_eq (by omega)
  have htype := hfield 0 4 (by decide)
  rw [Nat.add_zero] at htype
  simp only [parsePhdr, fileHeader, htype, hfield 8 8 (by decide), hfield 16 8 (by decide),
    hfield 32 8 (by decide), hfield 40 8 (by decide)]

end stable

omit h h58 in
theorem Image.SparedBy.stable (hstable : HeadersStable image.mem image.buffer m)
    (hnum : i < ePhnum (view image.mem image.buffer))
    (hph : parsePhdr (view m ((image.buffer + ePhoff (view image.mem image.buffer)) % 2 ^ 64)) i =
      ph) (hspared : image.SparedBy ph) (hok : ph.rejected = false) :
    HeadersStable image.mem image.buffer (loadSegment image.buffer
      ((image.buffer + ePhoff (view image.mem image.buffer)) % 2 ^ 64) i m).1 := by
  obtain ⟨hle, -, -⟩ := Phdr.rejected_eq_false.mp hok
  have hcopied : HeadersStable image.mem image.buffer
      (memcpy m ph.pVaddr ((image.buffer + ph.pOffset) % 2 ^ 64) ph.pFilesz) := fun x hx ↦
    (memcpy_of_ne m _ fun j hj ↦ hspared x hx j (hj.trans_le hle)).trans (hstable x hx)
  have hthen := (hcopied.parsePhdr_eq hnum).trans (((hstable.parsePhdr_eq hnum).symm).trans hph)
  simp only [loadSegment, hph, hthen, zeroFill]
  split
  next hlt =>
    intro x hx
    refine (memset_of_ne _ 0 fun j hj ↦ ?_).trans (hcopied x hx)
    rw [Nat.mod_add_mod, Nat.add_assoc]
    exact hspared x hx (ph.pFilesz + j) (by omega)
  next => exact hcopied

omit h h58 in
theorem table_add_mod (buffer o a : ℕ) :
    ((buffer + o) % 2 ^ 64 + a) % 2 ^ 64 = (buffer + (o + a)) % 2 ^ 64 := by
  rw [Nat.mod_add_mod, Nat.add_assoc]

theorem Image.InHeap.spared_stable (hstable : HeadersStable image.mem image.buffer m)
    (hi : i < ePhnum (fileView image.bytes))
    (hle : ePhoff (fileView image.bytes) + phdrSize * i + 48 ≤ image.bytes.length)
    (hspared : image.SparedBy (fileHeader image.bytes i))
    (hok : (fileHeader image.bytes i).rejected = false) :
    HeadersStable image.mem image.buffer (loadSegment image.buffer image.table i m).1 := by
  have hph := h.header_eq h58 hstable hi hle
  rw [← h.phnum_eq h58] at hi
  rw [Image.header, Image.table, ← h.phoff_eq h58] at hph
  rw [Image.table, ← h.phoff_eq h58]
  exact Image.SparedBy.stable hstable hi hph hspared hok

section header

variable (hoffset : ePhoff (fileView image.bytes) + phdrSize * i < 2 ^ 64)
include hsize hoffset

omit h58 in
theorem Image.InHeap.type_within_iff :
    Read.Within image.buffer image.bytes.length ⟨image.table + phdrSize * i, 4⟩ ↔
      ePhoff (fileView image.bytes) + phdrSize * i + 4 ≤ image.bytes.length :=
  ⟨fun hwithin ↦ hwithin.le (by decide) (by omega) hoffset (table_add_mod ..),
    fun hle ↦ Read.within_of_le h.buffer_add_le (table_add_mod ..) hle⟩

omit h58 hoffset in
theorem Image.InHeap.field_within_iff {a : ℕ}
    (ha : ePhoff (fileView image.bytes) + phdrSize * i + a < 2 ^ 64) :
    Read.Within image.buffer image.bytes.length ⟨image.table + phdrSize * i + a, 8⟩ ↔
      ePhoff (fileView image.bytes) + phdrSize * i + a + 8 ≤ image.bytes.length := by
  have hmod := table_add_mod image.buffer (ePhoff (fileView image.bytes)) (phdrSize * i + a)
  rw [Nat.add_assoc image.table]
  constructor
  · intro hwithin
    have hle := hwithin.le (by decide) (by omega)
      (show ePhoff (fileView image.bytes) + (phdrSize * i + a) < 2 ^ 64 by omega) hmod
    omega
  · exact fun hle ↦ Read.within_of_le h.buffer_add_le hmod (by omega)

omit h58 hoffset in
theorem Image.InHeap.source_within_iff {ph : Phdr} (hph : ph.pOffset < 2 ^ 64) :
    Read.Within image.buffer image.bytes.length ⟨image.buffer + ph.pOffset, ph.pFilesz⟩ ↔
      ph.pFilesz = 0 ∨ ph.pOffset + ph.pFilesz ≤ image.bytes.length := by
  constructor
  · intro hsource
    by_cases hzero : ph.pFilesz = 0
    · exact Or.inl hzero
    · exact Or.inr (hsource.le hzero (by omega) hph rfl)
  · rintro (hzero | hle)
    · rw [hzero]
      exact fun j hj ↦ absurd hj (Nat.not_lt_zero j)
    · exact Read.within_of_le h.buffer_add_le rfl hle

omit h58 in
/-- One header: its reads are in the buffer exactly when it is in the file. -/
theorem Image.InHeap.headerReads_within_iff :
    (∀ r ∈ headerReads image.buffer image.table i m,
        r.Within image.buffer image.bytes.length) ↔
      (image.header m i).Within image.bytes.length
        (ePhoff (fileView image.bytes) + phdrSize * i) := by
  have hph : (image.header m i).pOffset < 2 ^ 64 := readLE_lt _ _ 8
  have hfold : parsePhdr (view m image.table) i = image.header m i := rfl
  rw [headerReads, hfold]
  generalize image.header m i = ph at hph
  rw [List.forall_mem_cons, h.type_within_iff hsize hoffset, Phdr.Within]
  refine and_congr_right fun hle4 ↦ ?_
  by_cases hload : ph.pType ≠ ptLoad
  · rw [if_pos hload]
    exact iff_of_true (List.forall_mem_nil _) fun heq ↦ absurd heq hload
  -- The fields of a header are in its first 48 bytes.
  have hfield : ∀ a ≤ 40, (Read.Within image.buffer image.bytes.length
      ⟨image.table + phdrSize * i + a, 8⟩ ↔
        ePhoff (fileView image.bytes) + phdrSize * i + a + 8 ≤ image.bytes.length) :=
    fun a ha ↦ h.field_within_iff hsize (by omega)
  rw [if_neg hload, List.forall_mem_append, forall_prop_of_true (not_ne_iff.mp hload)]
  simp only [List.forall_mem_cons, hfield 16 (by decide), hfield 40 (by decide),
    hfield 32 (by decide)]
  cases hok : ph.rejected with
  | true =>
      rw [if_pos rfl]
      refine ⟨fun hall ↦ ⟨hall.1.2.1, fun hne ↦ absurd hne.symm Bool.false_ne_true⟩,
        fun hall ↦ ⟨⟨by omega, hall.1, by omega, List.forall_mem_nil _⟩, List.forall_mem_nil _⟩⟩
  | false =>
      rw [if_neg Bool.false_ne_true, forall_prop_of_true rfl]
      simp only [List.forall_mem_cons, hfield 8 (by decide), h.source_within_iff hsize hph]
      refine ⟨fun hall ↦ ⟨hall.1.2.1, hall.2.2.1⟩, fun hall ↦ ⟨⟨by omega, hall.1, by omega,
        List.forall_mem_nil _⟩, by omega, hall.2, List.forall_mem_nil _⟩⟩

end header

omit h58 in
include hsize in
/-- The reads from a header on are in the buffer if all of them are. -/
theorem Image.InHeap.reads_from (hcomes : image.ComesTo i m) {total : ℕ}
    (htotal : 256 ^ 2 ≤ total)
    (hreads : ∀ r ∈ loadReads image.buffer image.table total 0 image.mem,
      r.Within image.buffer image.bytes.length) :
    ePhoff (fileView image.bytes) + phdrSize * i < 2 ^ 64 ∧
      ∃ fuel, i + fuel = total ∧ ∀ r ∈ loadReads image.buffer image.table fuel i m,
        r.Within image.buffer image.bytes.length := by
  -- In a round that goes on, the header is in the file, so the next offset does not wrap.
  have hround : ∀ {i m fuel}, i < ePhnum (view m image.buffer) → i + fuel = total →
      (∀ r ∈ loadReads image.buffer image.table fuel i m,
        r.Within image.buffer image.bytes.length) →
      ePhoff (fileView image.bytes) + phdrSize * i < 2 ^ 64 →
      ∃ n, fuel = n + 1 ∧ ePhoff (fileView image.bytes) + phdrSize * (i + 1) < 2 ^ 64 ∧
        ∀ r ∈ (if (image.header m i).pType ≠ ptLoad then
            loadReads image.buffer image.table n (i + 1) m
          else if (image.header m i).rejected then []
          else loadReads image.buffer image.table n (i + 1)
            (loadSegment image.buffer image.table i m).1),
          r.Within image.buffer image.bytes.length := by
    intro i m fuel hi hfuel hreads hoffset
    have hnum : ePhnum (view m image.buffer) < 256 ^ 2 := readLE_lt _ _ 2
    obtain ⟨n, rfl⟩ := Nat.exists_eq_succ_of_ne_zero (show fuel ≠ 0 by omega)
    obtain ⟨-, hreads⟩ := List.forall_mem_cons.mp hreads
    rw [if_pos hi, List.forall_mem_append] at hreads
    obtain ⟨hheader, hrest⟩ := hreads
    have hle4 := ((h.headerReads_within_iff hsize hoffset).mp hheader).1
    refine ⟨n, rfl, ?_, hrest⟩
    rw [Nat.mul_add]
    have hphdr : phdrSize = 56 := rfl
    omega
  induction hcomes with
  | start =>
      have hlt : ePhoff (fileView image.bytes) < 256 ^ 8 := readLE_lt _ _ 8
      exact ⟨by omega, total, Nat.zero_add _, hreads⟩
  | skip _ hi hload ih =>
      obtain ⟨hoffset, fuel, hfuel, hreads⟩ := ih
      obtain ⟨n, rfl, hoffset', hrest⟩ := hround hi hfuel hreads hoffset
      rw [if_pos hload] at hrest
      exact ⟨hoffset', n, by omega, hrest⟩
  | load _ hi hload hok ih =>
      obtain ⟨hoffset, fuel, hfuel, hreads⟩ := ih
      obtain ⟨n, rfl, hoffset', hrest⟩ := hround hi hfuel hreads hoffset
      rw [if_neg (not_not_intro hload), hok, if_neg Bool.false_ne_true] at hrest
      exact ⟨hoffset', n, by omega, hrest⟩

include hsize in
theorem Image.InHeap.reads_within_of_headers
    (hall : ∀ i m, image.ComesTo i m → i < ePhnum (view m image.buffer) →
      (image.header m i).Within image.bytes.length
        (ePhoff (fileView image.bytes) + phdrSize * i))
    (hcomes : image.ComesTo i m) :
    ∀ r ∈ loadReads image.buffer image.table fuel i m,
      r.Within image.buffer image.bytes.length := by
  induction fuel generalizing i m with
  | zero => exact List.forall_mem_nil _
  | succ fuel ih =>
      have hnum : Read.Within image.buffer image.bytes.length ⟨image.buffer + 56, 2⟩ :=
        Read.within_of_le h.buffer_add_le rfl (by omega)
      refine List.forall_mem_cons.mpr ⟨hnum, ?_⟩
      by_cases hi : i < ePhnum (view m image.buffer)
      swap
      · rw [if_neg hi]
        exact List.forall_mem_nil _
      have hheader := hall i m hcomes hi
      have hle4 := hheader.1
      rw [if_pos hi, List.forall_mem_append]
      refine ⟨(h.headerReads_within_iff hsize (by omega)).mpr hheader, ?_⟩
      change ∀ r ∈ if (image.header m i).pType ≠ ptLoad then _ else
        if (image.header m i).rejected then [] else _, _
      by_cases hload : (image.header m i).pType ≠ ptLoad
      · rw [if_pos hload]
        exact ih (hcomes.skip hi hload)
      rw [if_neg hload]
      cases hok : (image.header m i).rejected with
      | true => exact List.forall_mem_nil _
      | false => exact ih (hcomes.load hi (not_ne_iff.mp hload) hok)

/-! ## Segments that leave the headers alone -/

/-- The header in memory and that of the file are in the file together. -/
theorem Image.InHeap.within_iff (hstable : HeadersStable image.mem image.buffer m)
    (hi : i < ePhnum (fileView image.bytes)) :
    (image.header m i).Within image.bytes.length
        (ePhoff (fileView image.bytes) + phdrSize * i) ↔
      (fileHeader image.bytes i).Within image.bytes.length
        (ePhoff (fileView image.bytes) + phdrSize * i) := by
  refine and_congr_right fun hle4 ↦ ?_
  rw [h.pType_eq h58 hstable hi hle4]
  refine imp_congr_right fun _ ↦ and_congr_right fun hle48 ↦ ?_
  rw [h.header_eq h58 hstable hi hle48]

/-- What a round leaves for the next one. -/
structure Image.Undisturbed (image : Image) (i : ℕ) (m : Mem) : Prop where
  stable : HeadersStable image.mem image.buffer m
  spared : ∀ ph ∈ Loader.segments ((fileHeaders image.bytes).drop i), image.SparedBy ph

omit h h58 in
theorem Image.Undisturbed.skip (hm : image.Undisturbed i m)
    (hi : i < ePhnum (fileView image.bytes))
    (hload : (fileHeader image.bytes i).pType ≠ ptLoad) : image.Undisturbed (i + 1) m := by
  have hspared := hm.spared
  rw [fileHeaders_drop hi, Loader.segments, if_pos hload] at hspared
  exact ⟨hm.stable, hspared⟩

theorem Image.InHeap.undisturbed_load (hm : image.Undisturbed i m)
    (hi : i < ePhnum (fileView image.bytes))
    (hle48 : ePhoff (fileView image.bytes) + phdrSize * i + 48 ≤ image.bytes.length)
    (hload : (fileHeader image.bytes i).pType = ptLoad)
    (hok : (fileHeader image.bytes i).rejected = false) :
    image.Undisturbed (i + 1) (loadSegment image.buffer image.table i m).1 := by
  have hspared := hm.spared
  rw [fileHeaders_drop hi, Loader.segments, if_neg (not_not_intro hload), hok,
    if_neg Bool.false_ne_true] at hspared
  exact ⟨h.spared_stable h58 hm.stable hi hle48 (hspared _ List.mem_cons_self) hok,
    fun ph hph ↦ hspared ph (List.mem_cons_of_mem _ hph)⟩

theorem Image.InHeap.tableWithin_of_headers
    (hall : ∀ i m, image.ComesTo i m → i < ePhnum (view m image.buffer) →
      (image.header m i).Within image.bytes.length
        (ePhoff (fileView image.bytes) + phdrSize * i))
    {n : ℕ} (hn : ePhnum (fileView image.bytes) ≤ i + n) (hcomes : image.ComesTo i m)
    (hm : image.Undisturbed i m) :
    TableWithin image.bytes.length (ePhoff (fileView image.bytes) + phdrSize * i)
      ((fileHeaders image.bytes).drop i) := by
  induction n generalizing i m with
  | zero =>
      rw [Nat.add_zero] at hn
      rw [fileHeaders_drop_eq_nil hn]
      trivial
  | succ n ih =>
      by_cases hi : i < ePhnum (fileView image.bytes)
      swap
      · rw [fileHeaders_drop_eq_nil (not_lt.mp hi)]
        trivial
      have hnow : i < ePhnum (view m image.buffer) := by
        rwa [hm.stable.ePhnum_eq, h.phnum_eq h58]
      have hheader := (h.within_iff h58 hm.stable hi).mp (hall i m hcomes hnow)
      have hnext : ePhoff (fileView image.bytes) + phdrSize * (i + 1) =
          ePhoff (fileView image.bytes) + phdrSize * i + phdrSize := by ring
      rw [fileHeaders_drop hi, TableWithin, ← hnext]
      refine ⟨hheader, fun hgoes ↦ ?_⟩
      by_cases hload : (fileHeader image.bytes i).pType = ptLoad
      · have hle48 := (hheader.2 hload).1
        have heq := h.header_eq h58 hm.stable hi hle48
        exact ih (by omega) (hcomes.load hnow (heq ▸ hload) (heq ▸ hgoes hload))
          (h.undisturbed_load h58 hm hi hle48 hload (hgoes hload))
      · have htype := h.pType_eq h58 hm.stable hi hheader.1
        exact ih (by omega) (hcomes.skip hnow (htype ▸ hload))
          (hm.skip hi hload)

theorem Image.InHeap.headers_of_tableWithin (hspared : image.Undisturbed 0 image.mem)
    (htable : TableWithin image.bytes.length (ePhoff (fileView image.bytes))
      (fileHeaders image.bytes)) (hcomes : image.ComesTo i m) :
    image.Undisturbed i m ∧
      TableWithin image.bytes.length (ePhoff (fileView image.bytes) + phdrSize * i)
        ((fileHeaders image.bytes).drop i) := by
  have hnext : ∀ i, ePhoff (fileView image.bytes) + phdrSize * (i + 1) =
      ePhoff (fileView image.bytes) + phdrSize * i + phdrSize := fun i ↦ by ring
  induction hcomes with
  | start =>
      rw [Nat.mul_zero, Nat.add_zero, List.drop_zero]
      exact ⟨hspared, htable⟩
  | @skip i m _ hi hload ih =>
      obtain ⟨hm, htable⟩ := ih
      rw [hm.stable.ePhnum_eq, h.phnum_eq h58] at hi
      rw [fileHeaders_drop hi, TableWithin] at htable
      rw [h.pType_eq h58 hm.stable hi htable.1.1] at hload
      rw [hnext]
      exact ⟨hm.skip hi hload, htable.2 fun heq ↦ absurd heq hload⟩
  | @load i m _ hi hload hok ih =>
      obtain ⟨hm, htable⟩ := ih
      rw [hm.stable.ePhnum_eq, h.phnum_eq h58] at hi
      rw [fileHeaders_drop hi, TableWithin] at htable
      rw [h.pType_eq h58 hm.stable hi htable.1.1] at hload
      have hle48 := (htable.1.2 hload).1
      rw [h.header_eq h58 hm.stable hi hle48] at hok
      rw [hnext]
      exact ⟨h.undisturbed_load h58 hm hi hle48 hload hok, htable.2 fun _ ↦ hok⟩

end file

/-! ## The magic -/

/-- The bytes of the magic that are tested are in the file, unless the file is
a proper beginning of the magic. -/
theorem magic_in_file_iff {bytes : List UInt8} {v : Mem} (hne : bytes ≠ [])
    (hv : ∀ j < bytes.length, v j = fileView bytes j) :
    (v 0 = 0x7F → 1 < bytes.length ∧ (v 1 = 69 → 2 < bytes.length ∧
        (v 2 = 76 → 3 < bytes.length))) ↔
      (bytes.length < 4 → ¬bytes <+: elfMagic) := by
  match bytes, hne with
  | [a], _ =>
      have h0 : v 0 = a := hv 0 (by simp)
      simp [elfMagic, List.cons_prefix_cons, h0]
  | [a, b], _ =>
      have h0 : v 0 = a := hv 0 (by simp)
      have h1 : v 1 = b := hv 1 (by simp)
      simp [elfMagic, List.cons_prefix_cons, h0, h1]
  | [a, b, c], _ =>
      have h0 : v 0 = a := hv 0 (by simp)
      have h1 : v 1 = b := hv 1 (by simp)
      have h2 : v 2 = c := hv 2 (by simp)
      simp [elfMagic, List.cons_prefix_cons, h0, h1, h2]
  | a :: b :: c :: d :: rest, _ => simp

theorem validMagic_eq_of_not_beginning {bytes : List UInt8} {v : Mem} (hne : bytes ≠ [])
    (hv : ∀ j < bytes.length, v j = fileView bytes j)
    (hmagic : bytes.length < 4 → ¬bytes <+: elfMagic) :
    validMagic v = validMagic (fileView bytes) := by
  match bytes, hne with
  | [a], _ =>
      have h0 : v 0 = a := hv 0 (by simp)
      have ha : a ≠ 0x7F := by simpa [elfMagic, List.cons_prefix_cons] using hmagic
      exact decide_eq_decide.mpr (iff_of_false (fun h ↦ ha (h0 ▸ h.1)) (fun h ↦ ha h.1))
  | [a, b], _ =>
      have h0 : v 0 = a := hv 0 (by simp)
      have h1 : v 1 = b := hv 1 (by simp)
      have hab : ¬(a = 0x7F ∧ b = 69) := by simpa [elfMagic, List.cons_prefix_cons] using hmagic
      exact decide_eq_decide.mpr (iff_of_false (fun h ↦ hab ⟨h0 ▸ h.1, h1 ▸ h.2.1⟩)
        (fun h ↦ hab ⟨h.1, h.2.1⟩))
  | [a, b, c], _ =>
      have h0 : v 0 = a := hv 0 (by simp)
      have h1 : v 1 = b := hv 1 (by simp)
      have h2 : v 2 = c := hv 2 (by simp)
      have habc : ¬(a = 0x7F ∧ b = 69 ∧ c = 76) := by
        simpa [elfMagic, List.cons_prefix_cons] using hmagic
      exact decide_eq_decide.mpr
        (iff_of_false (fun h ↦ habc ⟨h0 ▸ h.1, h1 ▸ h.2.1, h2 ▸ h.2.2.1⟩)
          (fun h ↦ habc ⟨h.1, h.2.1, h.2.2.1⟩))
  | a :: b :: c :: d :: rest, _ =>
      simp only [validMagic, hv 0 (by simp), hv 1 (by simp), hv 2 (by simp), hv 3 (by simp)]

theorem Read.within_byte_iff (hbuffer : buffer + size ≤ 2 ^ 64) (hsize : size < 2 ^ 64) {j : ℕ}
    (hj : j < 2 ^ 64) : Read.Within buffer size ⟨buffer + j, 1⟩ ↔ j < size :=
  ⟨fun h ↦ h.le Nat.one_ne_zero hsize hj rfl, fun h ↦ Read.within_of_le hbuffer rfl h⟩

theorem magicReads_within_iff {bytes : List UInt8} {v : Mem} (hne : bytes ≠ [])
    (hv : ∀ j < bytes.length, v j = fileView bytes j)
    (hbuffer : buffer + bytes.length ≤ 2 ^ 64) (hsize : bytes.length < 2 ^ 64) :
    (∀ r ∈ magicReads buffer v, r.Within buffer bytes.length) ↔
      (bytes.length < 4 → ¬bytes <+: elfMagic) := by
  rw [← magic_in_file_iff hne hv]
  have hbyte : ∀ j < 2 ^ 64, Read.Within buffer bytes.length ⟨buffer + j, 1⟩ ↔ j < bytes.length :=
    fun j hj ↦ Read.within_byte_iff hbuffer hsize hj
  have hfirst : Read.Within buffer bytes.length ⟨buffer, 1⟩ :=
    (hbyte 0 (by decide)).mpr (List.length_pos_iff.mpr hne)
  by_cases h0 : v 0 = 0x7F
  swap
  · simp [magicReads, h0, hfirst]
  by_cases h1 : v 1 = 69
  swap
  · simp [magicReads, h0, h1, hfirst, hbyte]
  by_cases h2 : v 2 = 76
  · simp [magicReads, h0, h1, h2, hfirst, hbyte]
  · simp [magicReads, h0, h1, h2, hfirst, hbyte]

/-! ## The loader -/

section image

variable {image : Image} {heapStart : ℕ} (h : image.InHeap heapStart) (hne : image.bytes ≠ [])
  (hsize : image.bytes.length ≤ 1024 * 1024)
include h hne hsize

/-- The reads of the whole image. -/
theorem Image.InHeap.reads_within_iff :
    (∀ r ∈ imageReads image.mem image.buffer, r.Within image.buffer image.bytes.length) ↔
      image.HeadersWithin := by
  have hbuffer := h.buffer_add_le
  have hmagic := magicReads_within_iff hne (fun _ ↦ h.view_eq) hbuffer (by omega)
  rw [imageReads, List.forall_mem_append, hmagic, Image.HeadersWithin, Image.HeaderWithin]
  refine and_congr_right fun hfile ↦ ?_
  rw [validMagic_eq_of_not_beginning hne (fun _ ↦ h.view_eq) hfile]
  cases hvalid : validMagic (fileView image.bytes) with
  | false => simp
  | true =>
      rw [if_neg Bool.true_eq_false.mp, forall_prop_of_true rfl, List.forall_mem_append,
        List.forall_mem_append]
      constructor
      · rintro ⟨⟨-, hreads⟩, -⟩
        obtain ⟨n, hn⟩ : ∃ n, 2 ^ 16 = n + 1 := ⟨65535, rfl⟩
        rw [hn] at hreads
        have h58 : 58 ≤ image.bytes.length :=
          (List.forall_mem_cons.mp hreads).1.le (by decide) (by omega) (by decide) rfl
        rw [h.phoff_eq h58] at hreads
        refine ⟨h58, fun i m hcomes hi ↦ ?_⟩
        obtain ⟨hoffset, fuel, hfuel, hreads⟩ :=
          h.reads_from hsize hcomes (show 256 ^ 2 ≤ n + 1 by omega) hreads
        have hnum : ePhnum (view m image.buffer) < 256 ^ 2 := readLE_lt _ _ 2
        obtain ⟨n, rfl⟩ := Nat.exists_eq_succ_of_ne_zero (show fuel ≠ 0 by omega)
        obtain ⟨-, hreads⟩ := List.forall_mem_cons.mp hreads
        rw [if_pos hi, List.forall_mem_append] at hreads
        exact (h.headerReads_within_iff hsize hoffset).mp hreads.1
      · rintro ⟨h58, hall⟩
        have hfields : ∀ a, a + 8 ≤ 58 →
            Read.Within image.buffer image.bytes.length ⟨image.buffer + a, 8⟩ :=
          fun a ha ↦ Read.within_of_le hbuffer rfl (by omega)
        rw [h.phoff_eq h58]
        refine ⟨⟨?_, h.reads_within_of_headers hsize h58 hall .start⟩, ?_⟩
        · simp only [List.forall_mem_cons]
          exact ⟨hfields 24 (by decide), hfields 32 (by decide), List.forall_mem_nil _⟩
        · split
          · exact List.forall_mem_singleton.mpr (hfields 24 (by decide))
          · exact List.forall_mem_nil _

omit hne hsize in
/-- Where the segments leave the headers alone, the file decides. -/
theorem Image.InHeap.headersWithin_iff
    (hspared : ∀ ph ∈ fileSegments image.bytes, image.SparedBy ph) :
    image.HeadersWithin ↔ image.FileHeadersWithin := by
  refine and_congr_right fun _ ↦ imp_congr_right fun hvalid ↦ and_congr_right fun h58 ↦ ?_
  have hsegments : fileSegments image.bytes = Loader.segments (fileHeaders image.bytes) :=
    if_pos hvalid
  have hstart : image.Undisturbed 0 image.mem :=
    ⟨fun _ _ ↦ rfl, by rwa [List.drop_zero, ← hsegments]⟩
  constructor
  · intro hall
    have htable := h.tableWithin_of_headers h58 hall
      (show ePhnum (fileView image.bytes) ≤ 0 + ePhnum (fileView image.bytes) by omega) .start
      hstart
    rwa [Nat.mul_zero, Nat.add_zero, List.drop_zero] at htable
  · intro htable i m hcomes hi
    obtain ⟨hm, htable⟩ := h.headers_of_tableWithin h58 hstart htable hcomes
    rw [hm.stable.ePhnum_eq, h.phnum_eq h58] at hi
    rw [fileHeaders_drop hi, TableWithin] at htable
    exact (h.within_iff h58 hm.stable hi).mpr htable.1

end image

/-- All reads of the buffer; there are none when the file is not read. -/
def userlandReads (drive : Drive) (machine : Machine) : List Read :=
  match userImage drive machine with
  | some image => imageReads image.mem image.buffer
  | none => []

variable {drive : Drive} {machine machine' : Machine} {bs : List Block} {image : Image}

theorem userImage_file (h : userImage drive machine = some image) :
    ∃ file, (fat32FindFile drive machine.bpb machine.io userlandName).2 = some file ∧
      image.bytes.length = file.size ∧ file.size ≠ 0 ∧ file.size ≤ 1024 * 1024 := by
  unfold userImage at h
  split at h
  · next hread =>
      obtain rfl := Option.some.inj h
      obtain ⟨file, -, -, hfile, hpos, hsize, hlength, -⟩ := readImage_read hread
      exact ⟨file, hfile, hlength, hpos, hsize⟩
  · cases h

/-- The reads stay in the buffer if and only if the headers and sources are in
the file as the loop finds them.  When no segment is copied over the headers,
these are the headers of the file. -/
theorem userlandReads_within_iff (hheap : HeapInvariant machine.memory bs) {file : Fat32File}
    (hfile : (fat32FindFile drive machine.bpb machine.io userlandName).2 = some file)
    (himage : userImage drive machine = some image) :
    ((∀ r ∈ userlandReads drive machine, r.Within image.buffer file.size) ↔
        image.HeadersWithin) ∧
      ((∀ ph ∈ fileSegments image.bytes, image.SparedBy ph) →
        (image.HeadersWithin ↔ image.FileHeadersWithin)) := by
  obtain ⟨file', hfile', hlength, hpos, hsize⟩ := userImage_file himage
  obtain rfl := Option.some.inj (hfile'.symm.trans hfile)
  have hin := userImage_inHeap hheap himage
  have hne : image.bytes ≠ [] := by
    rintro hnil
    rw [hnil] at hlength
    exact hpos hlength.symm
  rw [userlandReads, himage, ← hlength]
  exact ⟨hin.reads_within_iff hne (by omega), hin.headersWithin_iff⟩

theorem userlandReads_within_at_16MiB :
    ∃ image, userImage faultless (imageMachine 0x1000000) = some image ∧
      ∀ r ∈ userlandReads faultless (imageMachine 0x1000000), r.Within image.buffer 124 := by
  have hvalid : KernelEndValid 0x1000000 := ⟨by norm_num, by norm_num⟩
  have hheap := heapInvariant_memoryInit hvalid fun _ ↦ 0
  obtain ⟨image, himage, hsample⟩ := userImage_imageMachine
  obtain ⟨file, hfile, hlength, -⟩ := userImage_file himage
  have hsize : image.bytes.length = 124 := by simp [hsample.bytes]
  have hoff : ePhoff (fileView image.bytes) = 64 := hsample.offset
  have hwithin : image.FileHeadersWithin := by
    refine ⟨fun hshort ↦ by omega, fun _ ↦ ⟨by omega, ?_⟩⟩
    rw [hsample.headers, hoff, hsize]
    exact ⟨⟨by decide, fun _ ↦ ⟨by decide, fun _ ↦ Or.inr (by decide)⟩⟩, fun _ ↦ trivial⟩
  obtain ⟨hiff, hheaders⟩ := userlandReads_within_iff hheap hfile himage
  rw [← hlength, hsize] at hiff
  refine ⟨image, himage, hiff.mpr ((hheaders ?_).mpr hwithin)⟩
  intro ph hph x hx j hj heq
  rw [hsample.segments] at hph
  obtain rfl := List.mem_singleton.mp hph
  -- The headers are in the heap, which starts at 16 MiB.
  refine (userImage_inHeap hheap himage).headers_apart hsample.table
    (heapStart_memoryInit hvalid _) hx ?_
  have hj : j < 8 := hj
  have heq : x = (0x400000 + j) % 2 ^ 64 := heq
  have hfirst : firstPageAfter 0x1000000 = 0x1000000 := by decide
  exact ⟨by omega, by omega, Or.inl (by omega)⟩

/-- The same drive with a directory entry of 64 bytes: the file ends where its
program headers should start. -/
def truncatedSectors (s : ℕ) : Mem :=
  if s = 2148 then fun i ↦ if i = 28 then 64 else imageSectors 2148 i else imageSectors s

def truncatedMachine : Machine :=
  { imageMachine 0x1000000 with io := ⟨truncatedSectors, 0, [], []⟩ }

theorem header_read_past_file :
    ∃ image file r, (fat32FindFile faultless truncatedMachine.bpb truncatedMachine.io
        userlandName).2 = some file ∧ file.size = 64 ∧
      userImage faultless truncatedMachine = some image ∧
      r ∈ userlandReads faultless truncatedMachine ∧ ¬r.Within image.buffer file.size := by
  have hbuffer : (userImage faultless truncatedMachine).map Image.buffer = some 0x1000010 := by
    decide +kernel
  have hread : (⟨0x1000050, 4⟩ : Read) ∈ userlandReads faultless truncatedMachine := by
    decide +kernel
  obtain ⟨image, himage, hbuffer⟩ := Option.map_eq_some_iff.mp hbuffer
  have hsize : (fat32FindFile faultless truncatedMachine.bpb truncatedMachine.io
      userlandName).2.map Fat32File.size = some 64 := by decide +kernel
  obtain ⟨file, hfile, hsize⟩ := Option.map_eq_some_iff.mp hsize
  refine ⟨image, file, ⟨0x1000050, 4⟩, hfile, hsize, himage, hread, fun hwithin ↦ ?_⟩
  rw [hbuffer, hsize] at hwithin
  exact absurd (hwithin.le (by decide) (by decide) (show 64 < 2 ^ 64 by decide) (by decide))
    (by decide)

end ImplusKernel.Loader
