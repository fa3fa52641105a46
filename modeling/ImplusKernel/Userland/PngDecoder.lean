import ImplusKernel.Memory.Heap

/-!
# The PNG decoder

The user program decodes images of 8-bit RGBA samples whose zlib stream is a
single stored block.  Pointers into a buffer are indices, buffers are followed
by memory of others, and 32-bit products wrap.  Blocks come from the kernel's
`kmalloc`.  Beside each function stands the list of the bytes it touches.
-/

namespace ImplusKernel.Png

open ByteMemory Heap

/-- Consecutive bytes of a buffer. -/
structure Span where
  start : ℕ
  count : ℕ
deriving DecidableEq, Repr

/-- Every byte has an index below the bound. -/
def Span.Within (s : Span) (bound : ℕ) : Prop :=
  ∀ i, s.start ≤ i → i < s.start + s.count → i < bound

/-- How `kmalloc` answers the decoder's two calls: whether there is a block,
and what it and the memory behind it hold.  There is none of no bytes. -/
structure Allocator where
  grants : ℕ → ℕ → Bool
  contents : ℕ → ℕ → Mem
  grants_zero : ∀ n, grants n 0 = false

theorem kmalloc_zero_ptr (s : MemoryState) : (kmalloc s 0).map (·.2.ptr) = some 0 := by
  unfold kmalloc
  split <;> rfl

/-- The kernel heap as it is at each of the two calls. -/
def Allocator.ofHeap (states : ℕ → MemoryState) : Allocator where
  grants n size := (kmalloc (states n) size).any (·.2.ptr ≠ 0)
  contents n size := fun i ↦ (kmalloc (states n) size).elim 0 fun p ↦
    p.1.mem ((p.2.ptr + i) % 2 ^ 64)
  grants_zero := by
    intro n
    have hzero := kmalloc_zero_ptr (states n)
    cases h : kmalloc (states n) 0 with
    | none => rfl
    | some p =>
        rw [h, Option.map_some, Option.some.injEq] at hzero
        simp [hzero]

def readBe32 (m : Mem) (p : ℕ) : ℕ :=
  (m p).toNat <<< 24 ||| (m (p + 1)).toNat <<< 16 ||| (m (p + 2)).toNat <<< 8 |||
    (m (p + 3)).toNat

/-! ## Filters -/

def absDiff (p q : ℤ) : ℤ := if p > q then p - q else q - p

/-- The predictor of filter type 4. -/
def paeth (a b c : UInt8) : UInt8 :=
  let p : ℤ := a.toNat + b.toNat - c.toNat
  let pa := absDiff p a.toNat
  let pb := absDiff p b.toNat
  let pc := absDiff p c.toNat
  if pa ≤ pb ∧ pa ≤ pc then a else if pb ≤ pc then b else c

/-- What is added to byte `x` of a row. -/
def prediction (filter : UInt8) (data : Mem) (row : ℕ) (prev : Option ℕ) (x : ℕ) : UInt8 :=
  let left := if 4 ≤ x then data (row + (x - 4)) else 0
  let up := prev.elim 0 fun q ↦ data (q + x)
  let upLeft := if 4 ≤ x then prev.elim 0 fun q ↦ data (q + (x - 4)) else 0
  match filter.toNat with
  | 1 => left
  | 2 => up
  | 3 => UInt8.ofNat ((left.toNat + up.toNat) / 2)
  | 4 => paeth left up upLeft
  | _ => 0

/-- The bytes of a row that the loop of its filter type visits. -/
def columns (filter : UInt8) (stride : ℕ) (hasPrev : Bool) : List ℕ :=
  match filter.toNat with
  | 1 => List.range' 4 (stride - 4)
  | 2 => if hasPrev then List.range stride else []
  | 3 => List.range stride
  | 4 => List.range stride
  | _ => []

def unfilterRow (filter : UInt8) (stride row : ℕ) (prev : Option ℕ) (data : Mem) : Mem :=
  (columns filter stride prev.isSome).foldl
    (fun d x ↦ Function.update d (row + x) (d (row + x) + prediction filter d row prev x)) data

/-- The indices that one round of the loop over a row reads or writes. -/
def touched (filter : UInt8) (row : ℕ) (prev : Option ℕ) (x : ℕ) : List ℕ :=
  let left := if 4 ≤ x then [row + (x - 4)] else []
  let up := prev.elim [] fun q ↦ [q + x]
  let upLeft := if 4 ≤ x then prev.elim [] fun q ↦ [q + (x - 4)] else []
  match filter.toNat with
  | 1 => left ++ [row + x]
  | 2 => up ++ [row + x]
  | 3 => left ++ up ++ [row + x]
  | 4 => left ++ up ++ upLeft ++ [row + x]
  | _ => []

/-- The loop over the rows, with the number of rows left. -/
def unfilterRows (stride : ℕ) : ℕ → ℕ → Option ℕ → Mem → Mem
  | 0, _, _, data => data
  | rows + 1, cur, prev, data =>
      unfilterRows stride rows (cur + (stride + 1)) (some (cur + 1))
        (unfilterRow (data cur) stride (cur + 1) prev data)

def pngUnfilter (data : Mem) (width height : ℕ) : Mem :=
  unfilterRows (width * 4 % 2 ^ 32) height 0 none data

def rowsTouched (stride : ℕ) : ℕ → ℕ → Option ℕ → Mem → List ℕ
  | 0, _, _, _ => []
  | rows + 1, cur, prev, data =>
      cur :: (columns (data cur) stride prev.isSome).flatMap (touched (data cur) (cur + 1) prev) ++
        rowsTouched stride rows (cur + (stride + 1)) (some (cur + 1))
          (unfilterRow (data cur) stride (cur + 1) prev data)

/-! ## The stored block -/

def storedLength (buffer : Mem) (data : ℕ) : ℕ :=
  (buffer (data + 3)).toNat ||| (buffer (data + 4)).toNat <<< 8

/-- `(p[0] >> 1) & 0x3` is zero. -/
def isStored (buffer : Mem) (data : ℕ) : Bool := buffer (data + 2) >>> 1 &&& 3 = 0

/-- The size and the bytes of the new block, and what lies behind it. -/
def zlibDecompressUncompressed (alloc : Allocator) (buffer : Mem) (data size : ℕ) :
    Option (ℕ × Mem) :=
  if size < 6 then none
  else if isStored buffer data = false then none
  else
    let len := storedLength buffer data
    if alloc.grants 0 len then
      some (len, fun i ↦ if i < len then buffer (data + 7 + i) else alloc.contents 0 len i)
    else none

def zlibReads (alloc : Allocator) (buffer : Mem) (data size : ℕ) : List Span :=
  if size < 6 then []
  else ⟨data + 2, 1⟩ ::
    if isStored buffer data = false then []
    else
      let len := storedLength buffer data
      [⟨data + 3, 1⟩, ⟨data + 4, 1⟩] ++ if alloc.grants 0 len then [⟨data + 7, len⟩] else []

/-! ## Chunks -/

def signature : List UInt8 := [137, 80, 78, 71, 13, 10, 26, 10]

/-- `memcmp(buffer, sig, 8) == 0`. -/
def hasSignature (buffer : Mem) : Bool :=
  (List.range 8).all fun k ↦ buffer k = signature.getD k 0

/-- The number of bytes that `memcmp` looks at. -/
def signatureReads (buffer : Mem) : ℕ :=
  match (List.range 8).find? fun k ↦ buffer k ≠ signature.getD k 0 with
  | some k => k + 1
  | none => 8

def ihdr : ℕ := 0x49484452

def idatType : ℕ := 0x49444154

def iend : ℕ := 0x49454E44

/-- The type of the chunk at `p`. -/
def chunkType (buffer : Mem) (p : ℕ) : ℕ := readBe32 buffer (p + 4)

/-- The chunk after the one at `p`: `len + 4` is a 32-bit sum. -/
def nextChunk (buffer : Mem) (p : ℕ) : ℕ := p + 8 + (readBe32 buffer p + 4) % 2 ^ 32

/-- The header chunk at `p` asks for what the decoder cannot do. -/
def unsupported (buffer : Mem) (p : ℕ) : Bool :=
  buffer (p + 16) ≠ 8 ∨ buffer (p + 17) ≠ 6 ∨ buffer (p + 20) ≠ 0

/-- The variables of the loop over the chunks. -/
structure Chunks where
  width : ℕ
  height : ℕ
  idat : Option ℕ
  idatSize : ℕ
deriving DecidableEq, Repr

/-- The loop over the chunks.  The inner `none` is `return NULL`; the outer one
stands for a loop that goes on forever. -/
def chunkLoop (buffer : Mem) (size : ℕ) : ℕ → ℕ → Chunks → Option (Option Chunks)
  | 0, _, _ => none
  | fuel + 1, p, c =>
      if p < size then
        if chunkType buffer p = ihdr then
          if unsupported buffer p then some none
          else chunkLoop buffer size fuel (nextChunk buffer p)
            { c with width := readBe32 buffer (p + 8), height := readBe32 buffer (p + 12) }
        else if chunkType buffer p = idatType then
          chunkLoop buffer size fuel (nextChunk buffer p)
            { c with idat := some (p + 8), idatSize := readBe32 buffer p }
        else if chunkType buffer p = iend then some (some c)
        else chunkLoop buffer size fuel (nextChunk buffer p) c
      else some (some c)

/-- Each round moves on by at least eight bytes. -/
def readChunks (buffer : Mem) (size : ℕ) : Option (Option Chunks) :=
  chunkLoop buffer size (size + 1) 8 ⟨0, 0, none, 0⟩

/-- What the loop reads of the chunk at `p`. -/
def headReads (buffer : Mem) (p : ℕ) : List Span :=
  [⟨p, 4⟩, ⟨p + 4, 4⟩] ++
    if chunkType buffer p = ihdr then
      [⟨p + 8, 4⟩, ⟨p + 12, 4⟩, ⟨p + 16, 1⟩, ⟨p + 17, 1⟩, ⟨p + 20, 1⟩]
    else []

/-- The loop ends with the chunk at `p`. -/
def stops (buffer : Mem) (p : ℕ) : Bool :=
  chunkType buffer p = iend ∨ chunkType buffer p = ihdr ∧ unsupported buffer p

/-- The chunks that the loop looks at. -/
def chunkStarts (buffer : Mem) (size : ℕ) : ℕ → ℕ → List ℕ
  | 0, _ => []
  | fuel + 1, p =>
      if p < size then
        p :: if stops buffer p then [] else chunkStarts buffer size fuel (nextChunk buffer p)
      else []

/-! ## Decoding -/

/-- The call of `png_unfilter`: its arguments, and the size of the block. -/
structure Job where
  width : ℕ
  height : ℕ
  decompSize : ℕ
  decomp : Mem

/-- `png_decode_buffer` up to the call of `png_unfilter`. -/
def prepare (alloc : Allocator) (buffer : Mem) (size : ℕ) : Option Job :=
  if size < 8 ∨ hasSignature buffer = false then none
  else
    match readChunks buffer size with
    | some (some c) => do
        let data ← c.idat
        let (decompSize, decomp) ← zlibDecompressUncompressed alloc buffer data c.idatSize
        some ⟨c.width, c.height, decompSize, decomp⟩
    | _ => none

def Job.stride (j : Job) : ℕ := j.width * 4 % 2 ^ 32

/-- The byte count passed to the second `kmalloc`. -/
def Job.outSize (j : Job) : ℕ := j.width * j.height % 2 ^ 32 * 4 % 2 ^ 32

/-- The bytes of row `y` in the unfiltered data, and where they go. -/
def Job.source (j : Job) (y : ℕ) : Span := ⟨y * (j.stride + 1) + 1, j.stride⟩

def Job.target (j : Job) (y : ℕ) : Span := ⟨4 * (y * j.width % 2 ^ 32), j.stride⟩

/-- The loop that copies the rows. -/
def Job.copyRows (j : Job) (decomp out : Mem) : Mem :=
  (List.range j.height).foldl (fun o y i ↦
    if (j.target y).start ≤ i ∧ i < (j.target y).start + (j.target y).count then
      decomp ((j.source y).start + (i - (j.target y).start))
    else o i) out

/-- The width, the height and the pixels. -/
def pngDecodeBuffer (alloc : Allocator) (buffer : Mem) (size : ℕ) : Option (ℕ × ℕ × Mem) := do
  let j ← prepare alloc buffer size
  let decomp := pngUnfilter j.decomp j.width j.height
  if alloc.grants 1 j.outSize then
    some (j.width, j.height, j.copyRows decomp (alloc.contents 1 j.outSize))
  else none

/-- What the decoder reads of its input, in order. -/
def inputReads (alloc : Allocator) (buffer : Mem) (size : ℕ) : List Span :=
  if size < 8 then []
  else ⟨0, signatureReads buffer⟩ ::
    if hasSignature buffer = false then []
    else (chunkStarts buffer size (size + 1) 8).flatMap (headReads buffer) ++
      match readChunks buffer size with
      | some (some c) => c.idat.elim [] fun data ↦ zlibReads alloc buffer data c.idatSize
      | _ => []

def Job.unfilterTouched (j : Job) : List ℕ := rowsTouched j.stride j.height 0 none j.decomp

end ImplusKernel.Png
