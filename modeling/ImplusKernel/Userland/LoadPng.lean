import ImplusKernel.Userland.PngMemory

/-!
# Loading an image

`load_png` reads a file into a buffer of 1 MiB in pieces of 256 bytes, decodes
it and gives the buffer back.  The image that is returned is the only block
that outlives the call.  Every read of the kernel borrows a block for the whole
file in addition, and a recorded size of almost 4 GiB rounds to a block of no
bytes.
-/

namespace ImplusKernel.Userland

open ByteMemory Disk Fat32 Heap Png Syscall

/-! ## The loader -/

def fileBufferSize : ℕ := 1024 * 1024

/-- The loop that fills the buffer, with the offset at its end.  Each round
but the last reads at least one byte. -/
def fillBuffer (drive : Drive) (fd : ℤ) (fileBuffer : ℕ) :
    ℕ → Machine → ℕ → Option (Machine × ℕ)
  | 0, _, _ => none
  | fuel + 1, m, offset => do
      let (m₁, readBytes) ← syscallFileRead drive m fd (fileBuffer + offset) 256
      if 0 < readBytes then
        let offset₁ := offset + readBytes.toNat
        if fileBufferSize ≤ offset₁ then some (m₁.print ["[U] PNG too large\n"], offset₁)
        else fillBuffer drive fd fileBuffer fuel m₁ offset₁
      else some (m₁, offset)

/-- The bytes of the buffer that the loop stores to. -/
def fillStores (drive : Drive) (fd : ℤ) (fileBuffer : ℕ) : ℕ → Machine → ℕ → List Span
  | 0, _, _ => []
  | fuel + 1, m, offset =>
      match syscallFileRead drive m fd (fileBuffer + offset) 256 with
      | none => []
      | some (m₁, readBytes) =>
          if 0 < readBytes then
            ⟨offset, readBytes.toNat⟩ ::
              if fileBufferSize ≤ offset + readBytes.toNat then []
              else fillStores drive fd fileBuffer fuel m₁ (offset + readBytes.toNat)
          else []

/-- The pointer that is returned, and `out_size`. -/
structure LoadedPng where
  rgba : ℕ
  width : ℕ
  height : ℕ
deriving DecidableEq, Repr

/-- `file_open` and the allocation of the buffer: the descriptor and the
buffer when both succeed. -/
def openPng (drive : Drive) (m : Machine) (path : ℕ) : Option (Machine × Option (ℤ × ℕ)) :=
  let opened := syscallFileOpen drive m path 0
  if opened.2 < 0 then some (opened.1.print ["[U] Failed to open PNG file\n"], none)
  else do
    let (m₁, fileBuffer) ← kmallocCall opened.1 fileBufferSize
    if fileBuffer = 0 then
      let m₂ := m₁.print ["[U] Failed to allocate memory for PNG\n"]
      some ((syscallFileClose m₂ opened.2).1, none)
    else some (m₁, some (opened.2, fileBuffer))

/-- `load_png` up to the call of `png_decode_buffer`, with the arguments of
that call. -/
def readPng (drive : Drive) (m : Machine) (path : ℕ) : Option (Machine × Option (ℕ × ℕ)) := do
  let (m₁, opened) ← openPng drive m path
  match opened with
  | none => some (m₁, none)
  | some (fd, fileBuffer) =>
      let (m₂, offset) ← fillBuffer drive fd fileBuffer (fileBufferSize + 1) m₁ 0
      some ((syscallFileClose m₂ fd).1, some (fileBuffer, offset))

def loadPng (drive : Drive) (m : Machine) (path : ℕ) : Option (Machine × LoadedPng) := do
  let (m₁, filled) ← readPng drive m path
  match filled with
  | none => some (m₁, ⟨0, 0, 0⟩)
  | some (fileBuffer, offset) =>
      let (m₂, image) ← pngDecodeBuffer m₁ fileBuffer offset
      let m₃ ← kfreeCall m₂ fileBuffer
      let failed := (m₃.print ["[U] Failed to decode PNG\n"], (⟨0, 0, 0⟩ : LoadedPng))
      match image with
      | none => some failed
      | some (rgba, width, height) =>
          if width = 0 ∨ height = 0 then some failed else some (m₃, ⟨rgba, width, height⟩)

/-- What the loader stores to its buffer. -/
def loadStores (drive : Drive) (m : Machine) (path : ℕ) : List Span :=
  match openPng drive m path with
  | some (m₁, some (fd, fileBuffer)) =>
      fillStores drive fd fileBuffer (fileBufferSize + 1) m₁ 0
  | _ => []

/-! ## The buffer -/

variable {drive : Drive} {m m' m₁ : Machine} {s₀ : MemoryState} {own : List Block} {b : Block}
  {buffer size path : ℕ}

variable {before : ℕ → KernelFile} {fd offset : ℕ} {file : Fat32File}

/-- The loop has filled the buffer up to `offset`: all reads but the last were
whole. -/
structure Filling (s₀ : MemoryState) (before : ℕ → KernelFile) (fd : ℕ) (file : Fat32File)
    (b : Block) (m : Machine) (offset : ℕ) : Prop where
  owns : Owns s₀ m.memory [b]
  files : m.files = Function.update before fd ⟨true, false, file, offset⟩
  sector : m.bpb.bytesPerSector ≠ 0
  le : offset ≤ file.size
  whole : 256 ∣ offset ∨ offset = file.size

theorem Filling.print (h : Filling s₀ before fd file b m offset) (texts : List String) :
    Filling s₀ before fd file b (m.print texts) offset :=
  ⟨h.owns, h.files, h.sector, h.le, h.whole⟩

theorem Filling.file_eq (h : Filling s₀ before fd file b m offset) :
    m.files ((fd : ℤ).toNat) = ⟨true, false, file, offset⟩ := by
  rw [Int.toNat_natCast, h.files, Function.update_self]

/-- What the next read delivers. -/
def delivery (file : Fat32File) (offset : ℕ) : ℕ :=
  transferSize ⟨true, false, file, offset⟩ 256

theorem delivery_eq (file : Fat32File) (offset : ℕ) :
    delivery file offset = if 256 < file.size - offset then 256 else file.size - offset := rfl

/-- A read that delivers anything starts at a multiple of 256, and so it ends
within the buffer. -/
theorem Filling.delivery_le (h : Filling s₀ before fd file b m offset)
    (hoffset : offset < fileBufferSize) : offset + delivery file offset ≤ fileBufferSize := by
  have hwhole := h.whole
  rw [delivery_eq]
  unfold fileBufferSize at hoffset ⊢
  split <;> omega

theorem Filling.advance (h : Filling s₀ before fd file b m offset)
    (hsize : file.size ≤ 0xFFFFFFF8) (hoffset : offset < file.size)
    (howns : Owns s₀ m'.memory [b]) (hbpb : m'.bpb = m.bpb)
    (hfiles : m'.files = Function.update m.files fd
      (Syscall.advance ⟨true, false, file, offset⟩ (delivery file offset))) :
    Filling s₀ before fd file b m' (offset + delivery file offset) := by
  have hwhole := h.whole
  have hdelivery := delivery_eq file offset
  have hle : offset + delivery file offset ≤ file.size := by
    rw [hdelivery]
    split <;> omega
  refine ⟨howns, ?_, by rw [hbpb]; exact h.sector, hle, ?_⟩
  · rw [hfiles, h.files, Function.update_idem, Syscall.advance]
    dsimp only
    rw [Nat.mod_eq_of_lt (by omega)]
  · rw [hdelivery]
    split
    · left
      omega
    · right
      omega

/-- One read: it ends the loop, or moves on within the buffer. -/
theorem Filling.read (drive : Drive) (h : Filling s₀ before fd file b m offset)
    (hsize : file.size ≤ 0xFFFFFFF8) (hroom : fileBufferSize ≤ b.size)
    (hoffset : offset < fileBufferSize) :
    ∃ m' r, syscallFileRead drive m fd (payload b + offset) 256 = some (m', r) ∧
      (r ≤ 0 ∧ Filling s₀ before fd file b m' offset ∨
        0 < r ∧ offset + r.toNat ≤ fileBufferSize ∧
          Filling s₀ before fd file b m' (offset + r.toNat)) := by
  have hfile := h.file_eq
  have hbounds := h.owns.bounds (List.mem_cons_self ..)
  have hdelivery := h.delivery_le hoffset
  have hbuf : ClientBuffer m.memory (payload b + offset) (delivery file offset) := by
    refine ⟨by omega, fun x hlow hhigh ↦ h.owns.clientByte ?_⟩
    exact ⟨b, List.mem_cons_self .., by omega, by omega⟩
  have hfits : Action.Fits m (.readFile fd (payload b + offset) 256) := by
    intro _
    rw [hfile]
    exact ⟨hsize, hbuf⟩
  obtain ⟨bs, hinv⟩ := h.owns.invariant
  obtain ⟨m', r, hcall, -⟩ :=
    perform_returns ⟨bs, hinv⟩ (fun hzero ↦ absurd hzero h.sector) hfits
  have howns : Owns s₀ m'.memory [b] := by
    rcases syscallFileRead_borrows hinv (fun hbad ↦ (hfits hbad).1) (fun hbad ↦ (hfits hbad).2)
      hcall with hsame | ⟨-, hborrows⟩
    · rw [hsame]
      exact h.owns
    · rw [hfile] at hborrows
      refine h.owns.borrow hborrows hsize fun x hx ↦ Or.inr (Or.inr ?_)
      obtain ⟨-, hlow, hhigh⟩ := hx
      rw [hfile] at hhigh
      change x < payload b + offset + delivery file offset at hhigh
      exact ⟨b, List.mem_cons_self .., by omega, by omega⟩
  refine ⟨m', r, hcall, ?_⟩
  obtain ⟨hbpb, ⟨hle, hfiles⟩ | ⟨hmoves, hr, hfiles⟩⟩ := syscallFileRead_table hcall
  · refine Or.inl ⟨hle, howns, ?_, by rw [hbpb]; exact h.sector, h.le, h.whole⟩
    rw [hfiles]
    exact h.files
  · have hlt := hmoves.2.2
    rw [hfile] at hlt hr hfiles
    change r = delivery file offset at hr
    have hpos : 0 < delivery file offset := by
      have hless : offset < file.size := hlt
      rw [delivery_eq]
      split <;> omega
    rw [hr, Int.toNat_natCast]
    exact Or.inr ⟨by omega, hdelivery, h.advance hsize hlt howns hbpb hfiles⟩

/-- The loop ends with a buffer that is still owned, and has stored nothing
behind it. -/
theorem Filling.fill (drive : Drive) (h : Filling s₀ before fd file b m offset)
    (hsize : file.size ≤ 0xFFFFFFF8) (hroom : fileBufferSize ≤ b.size)
    (hoffset : offset < fileBufferSize) {fuel : ℕ} (hfuel : fileBufferSize < offset + fuel) :
    ∃ m' offset', fillBuffer drive fd (payload b) fuel m offset = some (m', offset') ∧
      Filling s₀ before fd file b m' offset' ∧
      ∀ s ∈ fillStores drive fd (payload b) fuel m offset, s.Within fileBufferSize := by
  induction fuel generalizing m offset with
  | zero => omega
  | succ fuel ih =>
      obtain ⟨m₁, r, hread, ⟨hle, hdone⟩ | ⟨hpos, hend, hmore⟩⟩ :=
        h.read drive hsize hroom hoffset
      · refine ⟨m₁, offset, ?_, hdone, ?_⟩
        · simp [fillBuffer, hread, not_lt.mpr hle]
        · simp [fillStores, hread, not_lt.mpr hle]
      have hstore : (Span.mk offset r.toNat).Within fileBufferSize := by
        rw [Span.within_iff]
        exact Or.inr hend
      by_cases hfull : fileBufferSize ≤ offset + r.toNat
      · refine ⟨_, _, ?_, hmore.print ["[U] PNG too large\n"], ?_⟩
        · simp [fillBuffer, hread, hpos, hfull]
        · simpa [fillStores, hread, hpos, hfull] using hstore
      obtain ⟨m', offset', hfill, hfilled, hstores⟩ := ih hmore (by omega) (by omega)
      refine ⟨m', offset', ?_, hfilled, ?_⟩
      · simpa [fillBuffer, hread, hpos, hfull] using hfill
      · simp only [fillStores, hread, if_pos hpos, if_neg hfull, List.forall_mem_cons]
        exact ⟨hstore, hstores⟩

/-! ## Descriptor, buffer and image -/

theorem close_files (hfd : fd < fileMaxFd) (hbefore : before fd = .cleared) {f : KernelFile}
    (hf : f.used = true) (hfiles : m.files = Function.update before fd f) :
    (syscallFileClose m fd).1.files = before := by
  have hfile : m.files fd = f := by rw [hfiles, Function.update_self]
  have hopen : ¬((fd : ℤ) < 0 ∨ (fileMaxFd : ℤ) ≤ fd ∨ (m.files (fd : ℤ).toNat).used = false) := by
    rw [Int.toNat_natCast, hfile, hf]
    simp only [Bool.true_eq_false, or_false]
    omega
  rw [syscallFileClose, if_neg hopen]
  dsimp only [Machine.setFile]
  rw [Int.toNat_natCast, hfiles, Function.update_idem, ← hbefore, Function.update_eq_self]

/-- The file that the loader reads: none when it is not opened or there is no
buffer for it. -/
def openedFile (drive : Drive) (m : Machine) (path : ℕ) : Option Fat32File :=
  match openPng drive m path with
  | some (m₁, some (fd, _)) => some (m₁.files fd.toNat).file
  | _ => none

theorem Filling.openedFile {fileBuffer : ℕ} (h : Filling s₀ before fd file b m₁ offset)
    (hopen : openPng drive m path = some (m₁, some ((fd : ℤ), fileBuffer))) :
    openedFile drive m path = some file := by
  simp only [Userland.openedFile, hopen, h.file_eq]

/-- Both the descriptor and the buffer are there, or neither is. -/
theorem openPng_owns (hrun : CallRun drive (fun m act ↦ act.Fits m) m) (path : ℕ) :
    (∃ m', openPng drive m path = some (m', none) ∧ m'.files = m.files ∧
      Owns m.memory m'.memory []) ∨
    ∃ (m' : Machine) (fd : ℕ) (file : Fat32File) (b : Block),
      openPng drive m path = some (m', some ((fd : ℤ), payload b)) ∧
      fd < fileMaxFd ∧ m.files fd = .cleared ∧ fileBufferSize ≤ b.size ∧
      Filling m.memory m.files fd file b m' 0 := by
  obtain ⟨bs, hinv⟩ := hrun.heap
  unfold openPng
  have hsector : NoneOpenAtZero (syscallFileOpen drive m path 0).1 :=
    noneOpenAtZero_open hrun.noneOpenAtZero path 0
  rcases syscallFileOpen_cases drive m path 0 with
    ⟨io, hopen⟩ | ⟨-, io, file, fd, -, -, hfd, hunused, hopen⟩
  · rw [hopen]
    exact Or.inl ⟨_, rfl, rfl, hinv.owns⟩
  have hbefore := hrun.unusedCleared fd hunused
  rw [hopen] at hsector ⊢
  have hbps : m.bpb.bytesPerSector ≠ 0 := by
    intro hzero
    have hclosed := hsector hzero fd
    simp [Machine.setFile] at hclosed
  have hnonneg : ¬(fd : ℤ) < 0 := by omega
  simp only [if_neg hnonneg]
  -- The memory of the opened machine is that of `m`.
  have howns : Owns m.memory
      ((m.setIo io).setFile fd ⟨true, decide (0 &&& 1 ≠ 0), file, 0⟩).memory [] := hinv.owns
  rcases kmallocCall_owns howns (show fileBufferSize ≠ 0 by decide) (by decide) with
    ⟨m₂, hk, hmemory, -, hfiles⟩ | ⟨m₂, b, hk, hbpb, hfiles, howns₂, hroom, -⟩
  · rw [hk]
    refine Or.inl ⟨_, rfl, close_files hfd hbefore rfl hfiles, ?_⟩
    rw [syscallFileClose_memory]
    rw [← hmemory] at howns
    exact howns
  · rw [hk]
    dsimp only [Option.bind_eq_bind, Option.bind_some]
    rw [if_neg (payload_ne_zero b)]
    refine Or.inr ⟨m₂, fd, file, b, rfl, hfd, hbefore, hroom, howns₂, hfiles, ?_,
      Nat.zero_le _, Or.inl (dvd_zero 256)⟩
    rw [hbpb]
    exact hbps

/-- Up to the decoder: all is given back, or all but the buffer. -/
theorem readPng_owns (hrun : CallRun drive (fun m act ↦ act.Fits m) m)
    (hsize : ∀ file ∈ openedFile drive m path, file.size ≤ 0xFFFFFFF8) :
    (∀ s ∈ loadStores drive m path, s.Within fileBufferSize) ∧
    ((∃ m', readPng drive m path = some (m', none) ∧ m'.files = m.files ∧
      Owns m.memory m'.memory []) ∨
    ∃ m' b offset, readPng drive m path = some (m', some (payload b, offset)) ∧
      m'.files = m.files ∧ Owns m.memory m'.memory [b] ∧ b.size ≠ 0) := by
  unfold loadStores readPng
  rcases openPng_owns hrun path with
    ⟨m₁, hopen, hfiles, howns⟩ | ⟨m₁, fd, file, b, hopen, hfd, hbefore, hroom, hstart⟩
  · rw [hopen]
    exact ⟨List.forall_mem_nil _, Or.inl ⟨m₁, rfl, hfiles, howns⟩⟩
  obtain ⟨m₂, offset, hfill, hfilled, hstores⟩ := hstart.fill drive
    (hsize _ (hstart.openedFile hopen)) hroom (by decide)
    (show fileBufferSize < 0 + (fileBufferSize + 1) by omega)
  rw [hopen]
  dsimp only [Option.bind_eq_bind, Option.bind_some]
  rw [hfill]
  refine ⟨hstores, Or.inr ⟨_, b, offset, rfl, close_files hfd hbefore rfl hfilled.files, ?_, ?_⟩⟩
  · rw [syscallFileClose_memory]
    exact hfilled.owns
  · unfold fileBufferSize at hroom
    omega

/-- The table of open files is as before.  Without an image the live
allocations are as well; otherwise the image is the one that is new. -/
structure Neutral (m m' : Machine) (result : LoadedPng) : Prop where
  files : m'.files = m.files
  null : result.rgba = 0 → liveAllocations m'.memory = liveAllocations m.memory
  image : result.rgba ≠ 0 → ∃ a, a.address = result.rgba ∧ a ∉ liveAllocations m.memory ∧
    liveAllocations m'.memory = insert a (liveAllocations m.memory)

/-- The call returns, is neutral and stays within its buffer. -/
def LoadsSafely (drive : Drive) (m : Machine) (path : ℕ) : Prop :=
  (∃ m' result, loadPng drive m path = some (m', result) ∧ Neutral m m' result) ∧
    ∀ s ∈ loadStores drive m path, s.Within fileBufferSize

/-- Where the loader calls the decoder, that works within its blocks. -/
def DecoderInBounds (drive : Drive) (m : Machine) (path : ℕ) : Prop :=
  ∀ m₁ fileBuffer offset, readPng drive m path = some (m₁, some (fileBuffer, offset)) →
    DecodesInBounds m₁ fileBuffer offset

theorem neutral_null (hfiles : m'.files = m.files) (howns : Owns m.memory m'.memory []) :
    Neutral m m' ⟨0, 0, 0⟩ :=
  ⟨hfiles, fun _ ↦ howns.live_eq, fun hne ↦ absurd rfl hne⟩

theorem neutral_image (hfiles : m'.files = m.files) (howns : Owns m.memory m'.memory [b])
    (width height : ℕ) : Neutral m m' ⟨payload b, width, height⟩ := by
  refine ⟨hfiles, fun hzero ↦ absurd hzero (payload_ne_zero b), fun _ ↦ ?_⟩
  obtain ⟨hlive, hnew⟩ := howns.live_eq_insert
  exact ⟨allocation m'.memory.mem b, rfl, hnew, hlive⟩

theorem loadPng_safe (hrun : CallRun drive (fun m act ↦ act.Fits m) m)
    (hsize : ∀ file ∈ openedFile drive m path, file.size ≤ 0xFFFFFFF8)
    (hin : DecoderInBounds drive m path) : LoadsSafely drive m path := by
  obtain ⟨hstores, hread⟩ := readPng_owns hrun hsize
  refine ⟨?_, hstores⟩
  unfold loadPng
  rcases hread with ⟨m₁, hread, hfiles, howns⟩ | ⟨m₁, b, offset, hread, hfiles, howns, hne⟩
  · rw [hread]
    exact ⟨m₁, _, rfl, neutral_null hfiles howns⟩
  rw [hread]
  dsimp only [Option.bind_eq_bind, Option.bind_some]
  rcases pngDecodeBuffer_owns howns (hin m₁ (payload b) offset hread) with
    ⟨m₂, hdecode, hfiles₂, howns₂⟩ |
    ⟨m₂, o, width, height, hdecode, hfiles₂, hwidth, hheight, howns₂⟩
  · obtain ⟨m₃, hfree, hfiles₃, howns₃, -⟩ := kfreeCall_owns howns₂ hne
    rw [hdecode]
    dsimp only [Option.bind_some]
    rw [hfree]
    exact ⟨_, _, rfl, neutral_null (hfiles₃.trans (hfiles₂.trans hfiles)) howns₃⟩
  · obtain ⟨m₃, hfree, hfiles₃, howns₃, -⟩ :=
      kfreeCall_owns (howns₂.perm (List.Perm.swap b o [])) hne
    rw [hdecode]
    dsimp only [Option.bind_some]
    rw [hfree]
    dsimp only [Option.bind_some]
    rw [if_neg (by simp [hwidth, hheight])]
    exact ⟨_, _, rfl, neutral_image (hfiles₃.trans (hfiles₂.trans hfiles)) howns₃ width height⟩

/-! ## The copies of the kernel -/

/-- A read copies the file to a block of its own: the block, the size in its
header and the number of bytes that the drive delivers. -/
structure Copy where
  ptr : ℕ
  size : ℕ
  bytes : ℕ
deriving DecidableEq, Repr

/-- What `loadFile` copies, unless there is no block for it. -/
def fileCopy (drive : Drive) (m : Machine) (file : Fat32File) : Option Copy :=
  match kmalloc m.memory file.size with
  | some (memory, .block ptr) =>
      (fat32ReadFile drive m.bpb (m.io.print []) file).map fun (_, _, copied) ↦
        ⟨ptr, blockSize memory.mem (ptr - headerSize), copied.length⟩
  | _ => none

/-- The copy that the first read of the loader makes. -/
def firstCopy (drive : Drive) (m : Machine) (path : ℕ) : Option Copy :=
  match openPng drive m path with
  | some (m₁, some (fd, _)) => fileCopy drive m₁ (m₁.files fd.toNat).file
  | _ => none

/-- What the drive delivers of the file stays within the block for it. -/
def ReadFits (drive : Drive) (m : Machine) (path : ℕ) : Prop :=
  ∀ copy ∈ firstCopy drive m path, copy.bytes ≤ copy.size

/-- The file is not opened, there is no block for the buffer, the size on
record does not wrap, or what the drive delivers fits all the same.  The block
that ends the heap cannot be given back when it has no bytes. -/
def SafeCall (drive : Drive) (m : Machine) (path : ℕ) : Prop :=
  (syscallFileOpen drive m path 0).2 < 0 ∨ roomFor m.memory fileBufferSize = false ∨
    (∀ file ∈ openedFile drive m path, file.size ≤ 0xFFFFFFF8) ∨
    ∀ copy ∈ firstCopy drive m path,
      copy.ptr < m.memory.heapStart + heapBytes ∧ copy.bytes ≤ copy.size

/-- The block of a read, and what is in it, whatever its size. -/
theorem loadFile_owns (drive : Drive) (h : Owns s₀ m.memory own) (hbps : m.bpb.bytesPerSector ≠ 0)
    (hpos : file.size ≠ 0) :
    (fileCopy drive m file = none ∧
      ∃ io, loadFile drive m file = some ({ m with io := io }, .outOfMemory)) ∨
    ∃ (s : MemoryState) (c : Block) (io : IoState) (ok : Bool) (copied : List UInt8),
      fileCopy drive m file = some ⟨payload c, c.size, copied.length⟩ ∧
      Owns s₀ s (c :: own) ∧ alignUp file.size minAllocAlign ≤ c.size ∧
      copied.length ≤ file.size ∧ (ok = true → copied.length = file.size) ∧
      loadFile drive m file = some ({ m with
          memory := { s with mem := storeBytes s.mem (payload c) copied }, io := io },
        if ok then .loaded (payload c) else .readFailed (payload c)) := by
  rcases h.kmalloc_rounded hpos with ⟨n, hk⟩ | ⟨s, c, hk, howns, hround, -⟩
  · refine Or.inl ⟨by simp [fileCopy, hk], m.io.print (KmallocResult.outOfMemory n).serial, ?_⟩
    simp [loadFile, hk, KmallocResult.ptr]
  obtain ⟨⟨io, ok, copied⟩, hread⟩ := Option.isSome_iff_exists.mp
    (fat32ReadFile_returns drive hbps (m.io.print []) file)
  refine Or.inr ⟨s, c, io, ok, copied, ?_, howns, hround, fat32ReadFile_length hread, ?_, ?_⟩
  · simp [fileCopy, hk, hread, howns.blockSize_eq (List.mem_cons_self ..)]
  · rintro rfl
    exact fat32ReadFile_length_eq hread
  · simp [loadFile, hk, KmallocResult.ptr, KmallocResult.serial, payload_ne_zero, hread,
      Machine.setIo, Machine.setMem]

/-- A size that does not wrap is that of the block at least. -/
theorem fileCopy_fits (h : Owns s₀ m.memory own) (hbps : m.bpb.bytesPerSector ≠ 0)
    (hsize : file.size ≤ 0xFFFFFFF8) : ∀ copy ∈ fileCopy drive m file, copy.bytes ≤ copy.size := by
  intro copy hcopy
  by_cases hpos : file.size = 0
  · obtain ⟨bs, hinv⟩ := h.invariant
    simp [fileCopy, kmalloc, hpos, hinv.initialized] at hcopy
  rcases loadFile_owns drive h hbps hpos with
    ⟨hnone, -⟩ | ⟨s, c, io, ok, copied, hsome, -, hround, hlength, -⟩
  · simp [hnone] at hcopy
  · obtain rfl := Option.some.inj (hsome.symm.trans hcopy)
    exact hlength.trans ((le_alignUp hsize).trans hround)

/-- A read of a size that wraps fails when what the drive delivers fits.  The
block is given back unless it ends the heap. -/
theorem Filling.read_wraps (h : Filling s₀ before fd file b m 0) (hfd : fd < fileMaxFd)
    (hwraps : 0xFFFFFFF8 < file.size)
    (hfits : ∀ copy ∈ fileCopy drive m file, copy.bytes ≤ copy.size) :
    ∃ m', syscallFileRead drive m fd (payload b) 256 = some (m', -1) ∧ m'.files = m.files ∧
      ((∀ copy ∈ fileCopy drive m file, copy.ptr < m.memory.heapStart + heapBytes) ∧
          Owns s₀ m'.memory [b] ∨
        (∃ copy ∈ fileCopy drive m file, m.memory.heapStart + heapBytes ≤ copy.ptr) ∧
          ∃ c, Owns s₀ m'.memory [c, b]) := by
  have hfile := h.file_eq
  have hmoves : Moves m fd (payload b) 256 := by
    refine ⟨?_, by decide, ?_⟩
    · simp only [badRequest, hfile, payload_ne_zero, Bool.true_eq_false, or_false,
        decide_eq_false_iff_not]
      omega
    · rw [hfile]
      dsimp only
      omega
  rw [syscallFileRead_moves hmoves, hfile]
  dsimp only
  have hpos : file.size ≠ 0 := by omega
  rcases loadFile_owns drive h.owns h.sector hpos with
    ⟨hnone, io, hload⟩ | ⟨s, c, io, ok, copied, hsome, howns, -, -, hlength, hload⟩
  · refine ⟨{ m with io := io }, by rw [hload]; rfl, rfl, Or.inl ⟨by simp [hnone], h.owns⟩⟩
  rw [hsome] at hfits ⊢
  have hfit : copied.length ≤ c.size := hfits _ rfl
  have hbounds := howns.bounds (List.mem_cons_self ..)
  have hheap : heapBytes = 16777216 := by decide
  obtain rfl : ok = false := by
    cases ok with
    | false => rfl
    | true =>
        have hall := hlength rfl
        omega
  have hstored : Owns s₀ { s with mem := storeBytes s.mem (payload c) copied } [c, b] := by
    refine howns.store fun x hx ↦ storeBytes_outside _ (by omega) ?_
    by_contra hin
    exact hx (writable_of_mem (List.mem_cons_self ..) (by omega) (by omega))
  have hstart : s.heapStart = m.memory.heapStart := howns.start.trans h.owns.start.symm
  by_cases hend : payload c < s.heapStart + heapBytes
  · obtain ⟨s', hfree, howns', -⟩ := hstored.kfree_of_lt hend
    refine ⟨{ m with memory := s', io := io.print KfreeResult.freed.serial }, ?_, rfl,
      Or.inl ⟨?_, howns'⟩⟩
    · simp [hload, finishRead, Machine.release, hfree]
    · rintro copy ⟨⟩
      rwa [← hstart]
  · obtain ⟨cs, hinv⟩ := hstored.invariant
    have hfree := hinv.kfree_at_end (not_lt.mp hend)
    refine ⟨{ m with
        memory := { s with mem := storeBytes s.mem (payload c) copied },
        io := io.print KfreeResult.invalidPointer.serial }, ?_, rfl,
      Or.inr ⟨⟨_, rfl, ?_⟩, c, hstored⟩⟩
    · simp [hload, finishRead, Machine.release, hfree]
    · rw [← hstart]
      exact not_lt.mp hend

theorem decompress_of_short (h : size < 8) (m : Machine) (buffer : ℕ) :
    decompress m buffer size = some (m, none) := by
  simp [decompress, h]

theorem pngDecodeBuffer_of_short (h : size < 8) (m : Machine) (buffer : ℕ) :
    pngDecodeBuffer m buffer size = some (m, none) := by
  simp [pngDecodeBuffer, decompress_of_short h]

/-- The call after such a read. -/
theorem loadPng_wraps (hrun : CallRun drive (fun m act ↦ act.Fits m) m)
    (hfile : openedFile drive m path = some file) (hwraps : 0xFFFFFFF8 < file.size)
    (hfits : ReadFits drive m path) :
    loadStores drive m path = [] ∧ ∃ m', loadPng drive m path = some (m', ⟨0, 0, 0⟩) ∧
      m'.files = m.files ∧
      ((∀ copy ∈ firstCopy drive m path, copy.ptr < m.memory.heapStart + heapBytes) ∧
          Owns m.memory m'.memory [] ∨
        (∃ copy ∈ firstCopy drive m path, m.memory.heapStart + heapBytes ≤ copy.ptr) ∧
          ∃ c, Owns m.memory m'.memory [c]) := by
  rcases openPng_owns hrun path with
    ⟨m₁, hopen, -⟩ | ⟨m₁, fd, file', b, hopen, hfd, hbefore, hroom, hstart⟩
  · simp [openedFile, hopen] at hfile
  obtain rfl := Option.some.inj ((hstart.openedFile hopen).symm.trans hfile)
  have hcopy : firstCopy drive m path = fileCopy drive m₁ file' := by
    simp only [firstCopy, hopen, hstart.file_eq]
  have hne : b.size ≠ 0 := by
    unfold fileBufferSize at hroom
    omega
  rw [ReadFits, hcopy] at hfits
  obtain ⟨m₂, hread, hfiles, hkept⟩ := hstart.read_wraps hfd hwraps hfits
  have hclosed : (syscallFileClose m₂ fd).1.files = m.files :=
    close_files hfd hbefore rfl (hfiles.trans hstart.files)
  -- The loop ends with its first read, and the decoder has no bytes to look at.
  have hload : ∀ m₃, kfreeCall (syscallFileClose m₂ fd).1 (payload b) = some m₃ →
      loadPng drive m path = some (m₃.print ["[U] Failed to decode PNG\n"], ⟨0, 0, 0⟩) := by
    intro m₃ hfree
    simp [loadPng, readPng, hopen, fillBuffer, hread, pngDecodeBuffer_of_short, hfree]
  refine ⟨by simp [loadStores, hopen, fillStores, hread], ?_⟩
  rw [hcopy, ← hstart.owns.start]
  rcases hkept with ⟨hlt, howns⟩ | ⟨hend, c, howns⟩
  · rw [← syscallFileClose_memory m₂ fd] at howns
    obtain ⟨m₃, hfree, hfiles₃, howns₃, -⟩ := kfreeCall_owns howns hne
    exact ⟨_, hload m₃ hfree, hfiles₃.trans hclosed, Or.inl ⟨hlt, howns₃⟩⟩
  · rw [← syscallFileClose_memory m₂ fd] at howns
    obtain ⟨m₃, hfree, hfiles₃, howns₃, -⟩ :=
      kfreeCall_owns (howns.perm (List.Perm.swap b c [])) hne
    exact ⟨_, hload m₃ hfree, hfiles₃.trans hclosed, Or.inr ⟨hend, c, howns₃⟩⟩

/-- Without the file or the buffer nothing is read. -/
theorem openPng_refused (hrun : CallRun drive (fun m act ↦ act.Fits m) m)
    (h : (syscallFileOpen drive m path 0).2 < 0 ∨ roomFor m.memory fileBufferSize = false) :
    openedFile drive m path = none ∧ firstCopy drive m path = none := by
  rcases openPng_owns hrun path with
    ⟨m₁, hopen, -⟩ | ⟨m₁, fd, file, b, hopen, -⟩
  · simp [openedFile, firstCopy, hopen]
  exfalso
  rw [openPng] at hopen
  by_cases hfd : (syscallFileOpen drive m path 0).2 < 0
  · simp [hfd] at hopen
  have hroom := h.resolve_left hfd
  obtain ⟨bs, hinv⟩ := hrun.heap
  obtain ⟨⟨memory, r⟩, hk⟩ :=
    Option.isSome_iff_exists.mp (hinv.calls_return fileBufferSize 0).1
  have hptr : r.ptr = 0 := by simpa [roomFor, hk] using hroom
  rw [← syscallFileOpen_memory drive m path 0] at hk
  simp [hfd, kmallocCall_eq hk, hptr] at hopen

theorem readFits_of_small (hrun : CallRun drive (fun m act ↦ act.Fits m) m)
    (hsize : ∀ file ∈ openedFile drive m path, file.size ≤ 0xFFFFFFF8) :
    ReadFits drive m path := by
  rcases openPng_owns hrun path with
    ⟨m₁, hopen, -⟩ | ⟨m₁, fd, file, b, hopen, -, -, -, hstart⟩
  · simp [ReadFits, firstCopy, hopen]
  · simp only [ReadFits, firstCopy, hopen, hstart.file_eq]
    exact fileCopy_fits hstart.owns hstart.sector (hsize _ (hstart.openedFile hopen))

/-! ## Sizes of almost 4 GiB -/

/-- A volume with the file `A`, its size on record and the first bytes of its
only cluster. -/
def namedFile (size : ℕ) (content : List UInt8) : IoState :=
  { blankVolume 512 with
    sectors := fun s ↦
      if s = 2148 then fun i ↦ (letterEntry 65 3 size).getD i 0
      else if s = 2149 then fun i ↦ content.getD i 0
      else (blankVolume 512).sectors s }

/-- The machine before its file system is initialised; the path of the file is
at `0x2000`. -/
def beforeInit (size : ℕ) (content : List UInt8) : Machine :=
  { twoPaths size with io := namedFile size content }

def holding (size : ℕ) (content : List UInt8) : Machine :=
  let init := fat32Init faultless (beforeInit size content).io (beforeInit size content).bpb
  syscallFileInit { beforeInit size content with io := init.1, bpb := init.2.1 }

theorem callRun_holding (size : ℕ) (content : List UInt8) :
    CallRun faultless (fun m act ↦ act.Fits m) (holding size content) := by
  have hheap : ∃ bs, HeapInvariant (beforeInit size content).memory bs :=
    ⟨_, heapInvariant_memoryInit ⟨by norm_num, by norm_num⟩ _⟩
  exact callRun_init _ hheap

/-- No allocation is live before the file is read. -/
theorem live_holding (size : ℕ) (content : List UInt8) :
    liveAllocations (holding size content).memory = ∅ := by
  have hinv : HeapInvariant (holding size content).memory [⟨0x110000, 16777200, true⟩] :=
    heapInvariant_memoryInit ⟨by norm_num, by norm_num⟩ _
  ext a
  simp [hinv.represents.mem_live]

/-- All sizes that wrap ask for the same block. -/
theorem kmalloc_wrapped {n : ℕ} (hn : 0xFFFFFFF8 < n) (hword : n < 2 ^ 32) (s : MemoryState) :
    kmalloc s n = kmalloc s 0xFFFFFFFF := by
  have hzero : n ≠ 0 := by omega
  rw [kmalloc, kmalloc, alignUp_wraps hn hword, if_neg hzero]
  rfl

/-- A read of a file of such a size that fails on the drive: what the drive
delivered is in the block that is given back. -/
theorem syscallFileRead_wrapped {s s' : MemoryState} {ptr : ℕ} {bytes : List UInt8}
    {r : KfreeResult} (hfile : m.files 0 = ⟨true, false, file, 0⟩)
    (hn : 0xFFFFFFF8 < file.size) (hword : file.size < 2 ^ 32) (hbuffer : buffer ≠ 0)
    (htake : kmalloc m.memory 0xFFFFFFFF = some (s, .block ptr)) (hptr : ptr ≠ 0)
    (hread : (fat32ReadFile drive m.bpb (m.io.print []) file).map (·.2) = some (false, bytes))
    (hgive : kfree { s with mem := storeBytes s.mem ptr bytes } ptr = some (s', r)) :
    ∃ m', syscallFileRead drive m 0 buffer 256 = some (m', -1) ∧ m'.memory = s' := by
  have hmoves : Moves m 0 buffer 256 := by
    refine ⟨?_, by decide, ?_⟩
    · simp [badRequest, hfile, hbuffer, fileMaxFd]
    · rw [Int.toNat_zero, hfile]
      dsimp only
      omega
  rw [← kmalloc_wrapped hn hword] at htake
  simp only [Option.map_eq_some_iff] at hread
  obtain ⟨⟨io, ok, copied⟩, hread, hcopied⟩ := hread
  obtain ⟨rfl, rfl⟩ := Prod.mk.inj hcopied
  rw [syscallFileRead_moves hmoves, Int.toNat_zero, hfile]
  simp [loadFile, htake, KmallocResult.ptr, KmallocResult.serial, hptr, hread, finishRead,
    Machine.release, Machine.setMem, Machine.setIo, hgive]

/-- The bytes of the first cluster take the place of the header behind the
block of no bytes, and stand for another block of no bytes from then on. -/
theorem zeros_leave_block :
    ((kmalloc (twoPaths 0).memory fileBufferSize).bind fun p₁ ↦
      (kmalloc p₁.1 0xFFFFFFFF).bind fun p₂ ↦
      (kfree { p₂.1 with mem := storeBytes p₂.1.mem 0x210020 (List.replicate 512 0) }
        0x210020).bind fun p₃ ↦
      (kfree p₃.1 0x110010).map fun p₄ ↦ ((p₁.2, p₂.2), decide (heapBlocks p₄.1 =
        some [⟨0x110000, 0x100010, true⟩, ⟨0x210020, 0, false⟩]))) =
      some ((.block 0x110010, .block 0x210020), true) := by
  decide +kernel

/-- Opening the file, and what the drive delivers of it. -/
theorem open_holding_huge : ∀ k < 7,
    (syscallFileOpen faultless (holding (0xFFFFFFF9 + k) []) 0x2000 0).2 = 0 ∧
    (syscallFileOpen faultless (holding (0xFFFFFFF9 + k) []) 0x2000 0).1.files 0 =
      ⟨true, false, ⟨sampleName, 3, 0xFFFFFFF9 + k⟩, 0⟩ ∧
    (fat32ReadFile faultless
        (syscallFileOpen faultless (holding (0xFFFFFFF9 + k) []) 0x2000 0).1.bpb
        (((syscallFileOpen faultless (holding (0xFFFFFFF9 + k) []) 0x2000 0).1.io.print []).print
          []) ⟨sampleName, 3, 0xFFFFFFF9 + k⟩).map (·.2) =
      some (false, List.replicate 512 0) := by
  decide +kernel

/-- The first read fails, and giving back the buffer leaves the empty block. -/
theorem readPng_huge {n : ℕ} (hn : 0xFFFFFFF8 < n) (hword : n < 2 ^ 32) :
    ∃ m₁ m₂, readPng faultless (holding n []) 0x2000 = some (m₁, some (0x110010, 0)) ∧
      kfreeCall m₁ 0x110010 = some m₂ ∧
      heapBlocks m₂.memory = some [⟨0x110000, 0x100010, true⟩, ⟨0x210020, 0, false⟩] := by
  obtain ⟨k, rfl⟩ := Nat.exists_eq_add_of_le (show 0xFFFFFFF9 ≤ n by omega)
  obtain ⟨hfd, hfile, hdrive⟩ := open_holding_huge k (by omega)
  have hmemory : (syscallFileOpen faultless (holding (0xFFFFFFF9 + k) []) 0x2000 0).1.memory =
      (twoPaths 0).memory := syscallFileOpen_memory ..
  have hheap := zeros_leave_block
  simp only [Option.bind_eq_some_iff, Option.map_eq_some_iff, Prod.mk.injEq,
    decide_eq_true_eq] at hheap
  obtain ⟨⟨s₁, _⟩, h₁, ⟨s₂, _⟩, h₂, ⟨s₃, r₃⟩, h₃, ⟨s₄, r₄⟩, h₄, ⟨rfl, rfl⟩, hblocks⟩ := hheap
  unfold readPng openPng
  generalize syscallFileOpen faultless (holding (0xFFFFFFF9 + k) []) 0x2000 0 = opened at *
  obtain ⟨m₀, fd⟩ := opened
  dsimp only at hfd hfile hdrive hmemory ⊢
  rw [← hmemory] at h₁
  have hbuffer := kmallocCall_eq h₁
  have hread : ∃ m', syscallFileRead faultless _ 0 0x110010 256 = some (m', -1) ∧
      m'.memory = s₃ :=
    syscallFileRead_wrapped (m := { m₀ with memory := s₁, io := m₀.io.print [] }) hfile
      (by dsimp only; omega) (by dsimp only; omega) (by decide) h₂ (by decide) hdrive h₃
  obtain ⟨m', hread, hm'⟩ := hread
  have hfill : fillBuffer faultless 0 0x110010 (fileBufferSize + 1)
      { m₀ with memory := s₁, io := m₀.io.print [] } 0 = some (m', 0) := by
    simp [fillBuffer, hread]
  have hfree : kfree (syscallFileClose m' 0).1.memory 0x110010 = some (s₄, r₄) := by
    rw [syscallFileClose_memory, hm']
    exact h₄
  refine ⟨(syscallFileClose m' 0).1, _, ?_, kfreeCall_eq hfree, hblocks⟩
  rw [hfd]
  simp [hbuffer, KmallocResult.ptr, KmallocResult.serial, hfill]

theorem loadPng_huge {n : ℕ} (hn : 0xFFFFFFF8 < n) (hword : n < 2 ^ 32) :
    ∃ m', loadPng faultless (holding n []) 0x2000 = some (m', ⟨0, 0, 0⟩) ∧
      liveAllocations m'.memory ≠ liveAllocations (holding n []).memory := by
  obtain ⟨m₁, m₂, hread, hfree, hblocks⟩ := readPng_huge hn hword
  refine ⟨m₂.print ["[U] Failed to decode PNG\n"], ?_, ?_⟩
  · simp [loadPng, hread, pngDecodeBuffer_of_short, hfree]
  · rw [live_holding]
    refine Set.nonempty_iff_ne_empty.mp ⟨_, _, hblocks, ⟨0x210020, 0, false⟩, ?_, rfl, rfl⟩
    exact List.mem_cons_of_mem _ (List.mem_cons_self ..)

theorem readPng_five_bytes : (readPng faultless (holding 5 []) 0x2000).map (·.2) =
    some (some (0x110010, 5)) := by
  decide +kernel

theorem openedFile_five_bytes :
    (openedFile faultless (holding 5 []) 0x2000).map Fat32File.size = some 5 := by
  decide +kernel

/-- A call is neutral and in bounds, the copies of its reads included, if and
only if it is one of the safe calls. -/
theorem loadPng_safe_iff (hrun : CallRun drive (fun m act ↦ act.Fits m) m)
    (hin : DecoderInBounds drive m path) :
    LoadsSafely drive m path ∧ ReadFits drive m path ↔ SafeCall drive m path := by
  have hsmall : (∀ file ∈ openedFile drive m path, file.size ≤ 0xFFFFFFF8) →
      LoadsSafely drive m path ∧ ReadFits drive m path :=
    fun hsize ↦ ⟨loadPng_safe hrun hsize hin, readFits_of_small hrun hsize⟩
  by_cases hsize : ∀ file ∈ openedFile drive m path, file.size ≤ 0xFFFFFFF8
  · exact iff_of_true (hsmall hsize) (Or.inr (Or.inr (Or.inl hsize)))
  have hhuge := hsize
  push Not at hhuge
  obtain ⟨file, hfile, hwraps⟩ := hhuge
  constructor
  · rintro ⟨⟨⟨m', result, hload, hneutral⟩, -⟩, hfits⟩
    refine Or.inr (Or.inr (Or.inr fun copy hcopy ↦ ⟨?_, hfits copy hcopy⟩))
    obtain ⟨-, m'', hload', -, ⟨hlt, -⟩ | ⟨-, c, howns⟩⟩ := loadPng_wraps hrun hfile hwraps hfits
    · exact hlt copy hcopy
    · -- The block at the end of the heap would be left.
      obtain ⟨rfl, rfl⟩ := Prod.mk.inj (Option.some.inj (hload'.symm.trans hload))
      exact absurd (hneutral.null rfl) (howns.live_ne (List.mem_cons_self ..))
  · rintro (hfd | hroom | hsize' | hcopy)
    · exact hsmall (by simp [(openPng_refused hrun (Or.inl hfd)).1])
    · exact hsmall (by simp [(openPng_refused hrun (Or.inr hroom)).1])
    · exact absurd hsize' hsize
    · have hfits : ReadFits drive m path := fun copy h ↦ (hcopy copy h).2
      refine ⟨?_, hfits⟩
      obtain ⟨hstores, m', hload, hfiles, ⟨-, howns⟩ | ⟨⟨copy, hmem, hend⟩, -⟩⟩ :=
        loadPng_wraps hrun hfile hwraps hfits
      · refine ⟨⟨m', _, hload, neutral_null hfiles howns⟩, ?_⟩
        rw [hstores]
        exact List.forall_mem_nil _
      · exact absurd (hcopy copy hmem).1 (not_lt.mpr hend)

/-- A file of five bytes is read and refused. -/
theorem loadPng_safe_five_bytes : LoadsSafely faultless (holding 5 []) 0x2000 ∧
    ReadFits faultless (holding 5 []) 0x2000 := by
  refine (loadPng_safe_iff (callRun_holding 5 []) ?_).mpr (Or.inr (Or.inr (Or.inl ?_)))
  · intro m₁ fileBuffer offset hread m' decomp j hstart
    have hfilled := readPng_five_bytes
    rw [hread] at hfilled
    obtain ⟨-, rfl⟩ := Prod.mk.inj (Option.some.inj (Option.some.inj hfilled))
    simp [decompress_of_short] at hstart
  · intro file hfile
    have hsize := openedFile_five_bytes
    rw [hfile] at hsize
    have hfive : file.size = 5 := Option.some.inj hsize
    omega

/-- A file that claims 4294967295 bytes leaves an allocation behind. -/
theorem huge_file_leaves_allocation :
    ∃ m', loadPng faultless (holding 0xFFFFFFFF []) 0x2000 = some (m', ⟨0, 0, 0⟩) ∧
      liveAllocations m'.memory ≠ liveAllocations (holding 0xFFFFFFFF []).memory :=
  loadPng_huge (by norm_num) (by norm_num)

end ImplusKernel.Userland
