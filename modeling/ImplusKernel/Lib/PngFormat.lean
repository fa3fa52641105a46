import ImplusKernel.Lib.ByteMemory
import ImplusKernel.Lib.PngFilter

/-!
# PNG files of stored blocks

Files of non-interlaced images with 8-bit RGBA samples whose data are not
compressed.  The filtered rows are cut into stored deflate blocks, these make up
a zlib stream, and the stream is cut into consecutive data chunks.  An image is
a function of the row and of the byte in the row.
-/

namespace ImplusKernel.PngFormat

open ByteMemory PngFilter

/-! ## Integers and checksums -/

def be32 (n : ℕ) : List UInt8 :=
  [UInt8.ofNat (n / 2 ^ 24), UInt8.ofNat (n / 2 ^ 16), UInt8.ofNat (n / 2 ^ 8), UInt8.ofNat n]

def le16 (n : ℕ) : List UInt8 := [UInt8.ofNat n, UInt8.ofNat (n / 2 ^ 8)]

@[simp]
theorem be32_length (n : ℕ) : (be32 n).length = 4 := rfl

@[simp]
theorem le16_length (n : ℕ) : (le16 n).length = 2 := rfl

/-- One step of the division by the polynomial of the checksum. -/
def crcBit (c : ℕ) : ℕ := if c % 2 = 1 then c / 2 ^^^ 0xEDB88320 else c / 2

def crcByte (c : ℕ) (b : UInt8) : ℕ := crcBit^[8] (c ^^^ b.toNat)

def crc32 (bs : List UInt8) : ℕ := bs.foldl crcByte 0xFFFFFFFF ^^^ 0xFFFFFFFF

def adlerByte (s : ℕ × ℕ) (b : UInt8) : ℕ × ℕ :=
  ((s.1 + b.toNat) % 65521, (s.2 + s.1 + b.toNat) % 65521)

def adler32 (bs : List UInt8) : ℕ :=
  let s := bs.foldl adlerByte (1, 0)
  s.2 * 2 ^ 16 + s.1

/-! ## Chunks -/

def headerType : ℕ := 0x49484452

def dataType : ℕ := 0x49444154

def endType : ℕ := 0x49454E44

def chunkBytes (type : ℕ) (data : List UInt8) : List UInt8 :=
  be32 data.length ++ be32 type ++ data ++ be32 (crc32 (be32 type ++ data))

@[simp]
theorem chunkBytes_length (type : ℕ) (data : List UInt8) :
    (chunkBytes type data).length = data.length + 12 := by
  simp only [chunkBytes, List.length_append, be32_length]
  omega

/-- A chunk that is none of the three that every file has. -/
structure OtherChunk where
  type : ℕ
  data : List UInt8
  type_lt : type < 2 ^ 32
  data_lt : data.length < 2 ^ 31
  ne_header : type ≠ headerType
  ne_data : type ≠ dataType
  ne_end : type ≠ endType

def OtherChunk.bytes (c : OtherChunk) : List UInt8 := chunkBytes c.type c.data

/-! ## The zlib stream -/

/-- A stored block; the bits between its type and its length are not used. -/
structure StoredBlock where
  unused : Fin 32
  data : List UInt8
  data_lt : data.length < 2 ^ 16

def StoredBlock.bytes (final : Bool) (b : StoredBlock) : List UInt8 :=
  [UInt8.ofNat (final.toNat + 8 * b.unused)] ++ le16 b.data.length ++
    le16 (2 ^ 16 - 1 - b.data.length) ++ b.data

/-- The two bytes before the blocks: the method is deflate, the window is at
most 32 KiB, and there is no preset dictionary. -/
structure ZlibHeader where
  cmf : UInt8
  flg : UInt8
  deflate : cmf.toNat % 16 = 8
  window : cmf.toNat / 16 ≤ 7
  check : (256 * cmf.toNat + flg.toNat) % 31 = 0
  noDictionary : flg.toNat / 32 % 2 = 0

/-- A stream, with its last block apart. -/
structure Zlib where
  header : ZlibHeader
  blocks : List StoredBlock
  final : StoredBlock

def Zlib.contents (z : Zlib) : List UInt8 := z.blocks.flatMap StoredBlock.data ++ z.final.data

def Zlib.bytes (z : Zlib) : List UInt8 :=
  [z.header.cmf, z.header.flg] ++ z.blocks.flatMap (StoredBlock.bytes false) ++
    z.final.bytes true ++ be32 (adler32 z.contents)

/-! ## Images -/

/-- An image, with a choice of a filter for each row. -/
structure Image where
  width : ℕ
  height : ℕ
  raw : ℕ → ℕ → UInt8
  filters : ℕ → FilterType
  width_pos : 0 < width
  width_lt : width < 2 ^ 31
  height_pos : 0 < height
  height_lt : height < 2 ^ 31

/-- A row after its filter type. -/
def Image.line (i : Image) (y : ℕ) : List UInt8 :=
  (i.filters y).code :: (List.range (4 * i.width)).map (filtered i.filters i.raw y)

def Image.lines (i : Image) : List UInt8 := (List.range i.height).flatMap i.line

theorem Image.line_length (i : Image) (y : ℕ) : (i.line y).length = 4 * i.width + 1 := by
  simp [line]

/-! Rows of the same length, one after the other. -/

section Rows

variable {f : ℕ → List UInt8} {n : ℕ}

theorem flatMap_range_length (hlen : ∀ y, (f y).length = n) (h : ℕ) :
    ((List.range h).flatMap f).length = h * n := by
  induction h with
  | zero => simp
  | succ h ih => simp [List.range_succ, List.flatMap_append, ih, hlen, Nat.add_mul]

theorem getD_flatMap_range {h y x : ℕ} (hlen : ∀ y, (f y).length = n) (hy : y < h) (hx : x < n) :
    ((List.range h).flatMap f).getD (y * n + x) 0 = (f y).getD x 0 := by
  induction h with
  | zero => omega
  | succ h ih =>
      have hbefore := flatMap_range_length hlen h
      rw [List.range_succ, List.flatMap_append]
      rcases Nat.lt_succ_iff_lt_or_eq.mp hy with hlt | rfl
      · have hend := row_add_le hlt n
        rw [List.getD_append _ _ _ _ (by omega)]
        exact ih hlt
      · rw [List.getD_append_right _ _ _ _ (by omega), hbefore, Nat.add_sub_cancel_left]
        simp

end Rows

theorem Image.lines_length (i : Image) : i.lines.length = i.height * (4 * i.width + 1) :=
  flatMap_range_length i.line_length i.height

variable {i : Image} {y x : ℕ}

theorem Image.lines_filter (hy : y < i.height) :
    i.lines.getD (y * (4 * i.width + 1)) 0 = (i.filters y).code :=
  getD_flatMap_range (x := 0) i.line_length hy (Nat.succ_pos _)

theorem Image.lines_byte (hy : y < i.height) (hx : x < 4 * i.width) :
    i.lines.getD (y * (4 * i.width + 1) + 1 + x) 0 = filtered i.filters i.raw y x := by
  rw [Nat.add_assoc, lines, getD_flatMap_range i.line_length hy (by omega), Nat.add_comm 1]
  simp [line, hx]

/-! ## Files -/

/-- A file, with the last of its data chunks apart. -/
structure PngFile where
  image : Image
  zlib : Zlib
  contents : zlib.contents = image.lines
  parts : List (List UInt8)
  last : List UInt8
  stream : parts.flatten ++ last = zlib.bytes
  parts_lt : ∀ p ∈ parts, p.length < 2 ^ 31
  last_lt : last.length < 2 ^ 31
  before : List OtherChunk
  after : List OtherChunk

def signature : List UInt8 := [137, 80, 78, 71, 13, 10, 26, 10]

@[simp]
theorem signature_length : signature.length = 8 := rfl

/-- Bit depth 8, colour type 6, the only methods there are, no interlacing. -/
def Image.headerData (i : Image) : List UInt8 := be32 i.width ++ be32 i.height ++ [8, 6, 0, 0, 0]

/-- The file up to its last data chunk. -/
def PngFile.front (f : PngFile) : List UInt8 :=
  signature ++ chunkBytes headerType f.image.headerData ++ f.before.flatMap OtherChunk.bytes ++
    f.parts.flatMap (chunkBytes dataType)

def PngFile.bytes (f : PngFile) : List UInt8 :=
  f.front ++ chunkBytes dataType f.last ++ f.after.flatMap OtherChunk.bytes ++
    chunkBytes endType []

theorem noParts_lt : ∀ p ∈ ([] : List (List UInt8)), p.length < 2 ^ 31 := List.forall_mem_nil _

/-- All rows in one block, and the stream in one chunk. -/
def PngFile.singleBlock (i : Image) (hsize : i.height * (4 * i.width + 1) ≤ 65535)
    (header : ZlibHeader) (unused : Fin 32) (before after : List OtherChunk) : PngFile where
  image := i
  zlib := ⟨header, [], ⟨unused, i.lines, by rw [i.lines_length]; omega⟩⟩
  contents := rfl
  parts := []
  last := Zlib.bytes ⟨header, [], ⟨unused, i.lines, by rw [i.lines_length]; omega⟩⟩
  stream := rfl
  parts_lt := noParts_lt
  last_lt := by
    simp only [Zlib.bytes, StoredBlock.bytes, List.length_append, List.length_cons, be32_length,
      le16_length, i.lines_length, List.flatMap_nil, List.length_nil]
    omega
  before := before
  after := after

end ImplusKernel.PngFormat
