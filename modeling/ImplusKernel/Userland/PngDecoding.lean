import ImplusKernel.Lib.PngFormat
import ImplusKernel.Userland.PngUnfilter

/-!
# What the PNG decoder returns

On a valid file the loop over the chunks ends with the size of the image and
with the last data chunk, and the decoder goes on with the first stored block of
that chunk.  When the block holds all rows the image is right.  When the rows go
on in a later block, or began in an earlier chunk, the decoder does not notice.
-/

namespace ImplusKernel.Png

open ByteMemory PngFilter PngFormat Words

variable {m : Mem} {size p : ℕ} {c r : Chunks}

/-! ## Integers -/

theorem readBe32_eq (m : Mem) (p : ℕ) :
    readBe32 m p = (m p).toNat * 2 ^ 24 + (m (p + 1)).toNat * 2 ^ 16 +
      (m (p + 2)).toNat * 2 ^ 8 + (m (p + 3)).toNat := by
  have h₁ := (m (p + 1)).toNat_lt
  have h₂ := (m (p + 2)).toNat_lt
  have h₃ := (m (p + 3)).toNat_lt
  have hhigh : (m p).toNat * 2 ^ 24 ||| (m (p + 1)).toNat * 2 ^ 16 =
      2 ^ 16 * ((m p).toNat * 2 ^ 8 + (m (p + 1)).toNat) := by
    rw [lor_eq_add (Nat.dvd_mul_left (2 ^ 24) _) (by omega)]
    ring
  have hmiddle : 2 ^ 16 * ((m p).toNat * 2 ^ 8 + (m (p + 1)).toNat) |||
      (m (p + 2)).toNat * 2 ^ 8 =
      2 ^ 8 * ((m p).toNat * 2 ^ 16 + (m (p + 1)).toNat * 2 ^ 8 + (m (p + 2)).toNat) := by
    rw [lor_eq_add (Nat.dvd_mul_right (2 ^ 16) _) (by omega)]
    ring
  simp only [readBe32, Nat.shiftLeft_eq]
  rw [hhigh, hmiddle, lor_eq_add (Nat.dvd_mul_right (2 ^ 8) _) h₃]
  ring

theorem readBe32_of_holds {n : ℕ} (h : Holds m p (be32 n)) (hn : n < 2 ^ 32) :
    readBe32 m p = n := by
  have h₀ : m p = UInt8.ofNat (n / 2 ^ 24) := h 0 (by simp)
  have h₁ : m (p + 1) = UInt8.ofNat (n / 2 ^ 16) := h 1 (by simp)
  have h₂ : m (p + 2) = UInt8.ofNat (n / 2 ^ 8) := h 2 (by simp)
  have h₃ : m (p + 3) = UInt8.ofNat n := h 3 (by simp)
  rw [readBe32_eq, h₀, h₁, h₂, h₃]
  simp only [UInt8.toNat_ofNat']
  omega

theorem storedLength_of_holds {d n : ℕ} (h : Holds m (d + 3) (le16 n)) (hn : n < 2 ^ 16) :
    storedLength m d = n := by
  have h₀ : m (d + 3) = UInt8.ofNat n := h 0 (by simp)
  have h₁ : m (d + 4) = UInt8.ofNat (n / 2 ^ 8) := h 1 (by simp)
  rw [storedLength, h₀, h₁, Nat.or_comm, Nat.shiftLeft_eq,
    lor_eq_add (Nat.dvd_mul_left (2 ^ 8) _) (UInt8.toNat_lt _)]
  simp only [UInt8.toNat_ofNat']
  omega

/-! ## The walk over the chunks -/

section Chunk

variable {type : ℕ} {data : List UInt8}

theorem chunkType_of_holds (h : Holds m p (chunkBytes type data)) (htype : type < 2 ^ 32) :
    chunkType m p = type := by
  simp only [chunkBytes, holds_append] at h
  exact readBe32_of_holds h.1.1.2 htype

theorem chunkLength_of_holds (h : Holds m p (chunkBytes type data))
    (hdata : data.length < 2 ^ 31) : readBe32 m p = data.length := by
  simp only [chunkBytes, holds_append] at h
  exact readBe32_of_holds h.1.1.1 (by omega)

theorem chunkData_of_holds (h : Holds m p (chunkBytes type data)) : Holds m (p + 8) data := by
  simp only [chunkBytes, holds_append] at h
  exact h.1.2

theorem nextChunk_of_holds (h : Holds m p (chunkBytes type data))
    (hdata : data.length < 2 ^ 31) : nextChunk m p = p + (chunkBytes type data).length := by
  rw [nextChunk, chunkLength_of_holds h hdata, chunkBytes_length, Nat.mod_eq_of_lt (by omega)]
  omega

end Chunk

/-- From the chunk at `p` on, the loop ends with these variables, and no chunk
on the way is cut off. -/
structure WalksTo (m : Mem) (size p : ℕ) (c r : Chunks) : Prop where
  loop : ∀ fuel, size - p < fuel → chunkLoop m size fuel p c = some (some r)
  starts : ∀ fuel, ∀ q ∈ chunkStarts m size fuel p,
    q + 8 ≤ size ∧ (chunkType m q = ihdr → q + 21 ≤ size)

theorem WalksTo.stop (hp : p + 8 ≤ size) (hend : chunkType m p = iend) :
    WalksTo m size p c c := by
  constructor
  · intro fuel hfuel
    obtain ⟨fuel, rfl⟩ : ∃ n, fuel = n + 1 := ⟨fuel - 1, by omega⟩
    rw [chunkLoop, if_pos (by omega), hend, if_neg ihdr_ne_iend.symm, if_neg idatType_ne_iend.symm,
      if_pos rfl]
  · intro fuel q hq
    cases fuel with
    | zero => cases hq
    | succ fuel =>
        have hstops : stops m p = true := decide_eq_true (Or.inl hend)
        rw [chunkStarts, if_pos (by omega), hstops, if_pos rfl, List.mem_singleton] at hq
        subst hq
        exact ⟨hp, fun hihdr ↦ absurd (hihdr.symm.trans hend) ihdr_ne_iend⟩

theorem WalksTo.step (hp : p + 8 ≤ size) (hend : chunkType m p ≠ iend)
    (hsupported : chunkType m p = ihdr → unsupported m p = false ∧ p + 21 ≤ size)
    (h : WalksTo m size (nextChunk m p) (visit m c p) r) : WalksTo m size p c r := by
  constructor
  · intro fuel hfuel
    obtain ⟨fuel, rfl⟩ : ∃ n, fuel = n + 1 := ⟨fuel - 1, by omega⟩
    have hnext := add_eight_le_nextChunk m p
    have hrest := h.loop fuel (by omega)
    rw [chunkLoop, if_pos (by omega)]
    by_cases hihdr : chunkType m p = ihdr
    · rw [visit, if_pos hihdr] at hrest
      rw [if_pos hihdr, (hsupported hihdr).1]
      exact hrest
    by_cases hidat : chunkType m p = idatType
    · rw [visit, if_neg hihdr, if_pos hidat] at hrest
      rw [if_neg hihdr, if_pos hidat]
      exact hrest
    · rw [visit, if_neg hihdr, if_neg hidat] at hrest
      rw [if_neg hihdr, if_neg hidat, if_neg hend]
      exact hrest
  · intro fuel q hq
    cases fuel with
    | zero => cases hq
    | succ fuel =>
        have hgoes : stops m p = false := by
          rw [stops, decide_eq_false_iff_not]
          rintro (hiend | ⟨hihdr, hrefused⟩)
          · exact hend hiend
          · rw [(hsupported hihdr).1] at hrefused
            cases hrefused
        rw [chunkStarts, if_pos (by omega), hgoes, if_neg Bool.false_ne_true] at hq
        rcases List.mem_cons.mp hq with rfl | hq
        · exact ⟨hp, fun hihdr ↦ (hsupported hihdr).2⟩
        · exact h.starts fuel q hq

theorem dataType_eq : dataType = idatType := rfl

/-- A chunk that is neither the header nor the end. -/
theorem WalksTo.chunk {type : ℕ} {data : List UInt8} (h : Holds m p (chunkBytes type data))
    (htype : type < 2 ^ 32) (hdata : data.length < 2 ^ 31) (hihdr : type ≠ ihdr)
    (hiend : type ≠ iend) (hp : p + 8 ≤ size)
    (hrest : WalksTo m size (p + (chunkBytes type data).length)
      (if type = idatType then { c with idat := some (p + 8), idatSize := data.length } else c) r) :
    WalksTo m size p c r := by
  have htypeAt := chunkType_of_holds h htype
  refine .step hp (htypeAt ▸ hiend) (fun heq ↦ absurd (htypeAt ▸ heq) hihdr) ?_
  rw [visit, htypeAt, if_neg hihdr, chunkLength_of_holds h hdata, nextChunk_of_holds h hdata]
  exact hrest

theorem WalksTo.others (cs : List OtherChunk) (h : Holds m p (cs.flatMap OtherChunk.bytes))
    (hsize : p + (cs.flatMap OtherChunk.bytes).length ≤ size)
    (hrest : WalksTo m size (p + (cs.flatMap OtherChunk.bytes).length) c r) :
    WalksTo m size p c r := by
  induction cs generalizing p with
  | nil => exact hrest
  | cons o cs ih =>
      rw [List.flatMap_cons, holds_append] at h
      rw [List.flatMap_cons, List.length_append, ← Nat.add_assoc] at hsize hrest
      have hlength : o.bytes.length = o.data.length + 12 := chunkBytes_length _ _
      have hidat : o.type ≠ idatType := o.ne_data
      refine .chunk h.1 o.type_lt o.data_lt o.ne_header o.ne_end (by omega) ?_
      rw [if_neg hidat]
      exact ih h.2 hsize hrest

/-- Of the data chunks before the last one nothing is kept. -/
theorem WalksTo.parts (parts : List (List UInt8)) (hparts : ∀ q ∈ parts, q.length < 2 ^ 31)
    (h : Holds m p (parts.flatMap (chunkBytes dataType)))
    (hsize : p + (parts.flatMap (chunkBytes dataType)).length ≤ size)
    (hrest : ∀ i n, WalksTo m size (p + (parts.flatMap (chunkBytes dataType)).length)
      { c with idat := i, idatSize := n } r) : WalksTo m size p c r := by
  induction parts generalizing p c with
  | nil => exact hrest c.idat c.idatSize
  | cons q parts ih =>
      rw [List.flatMap_cons, holds_append] at h
      rw [List.flatMap_cons, List.length_append, ← Nat.add_assoc] at hsize hrest
      have hlength := chunkBytes_length dataType q
      refine .chunk h.1 (by decide) (hparts q List.mem_cons_self) idatType_ne_ihdr idatType_ne_iend
        (by omega) ?_
      rw [if_pos dataType_eq]
      exact ih (fun s hs ↦ hparts s (List.mem_cons_of_mem q hs)) h.2 hsize hrest

/-- The header chunk sets the size and is not refused. -/
theorem header_of_holds {i : Image} (h : Holds m p (chunkBytes headerType i.headerData)) :
    unsupported m p = false ∧
      visit m c p = { c with width := i.width, height := i.height } := by
  have htype : chunkType m p = ihdr := chunkType_of_holds h (by decide)
  have hdata := chunkData_of_holds h
  simp only [Image.headerData, holds_append, List.length_append, be32_length] at hdata
  obtain ⟨⟨hwidth, hheight⟩, hrest⟩ := hdata
  have hdepth : m (p + 16) = 8 := hrest 0 (by simp)
  have hcolor : m (p + 17) = 6 := hrest 1 (by simp)
  have hinterlace : m (p + 20) = 0 := hrest 4 (by simp)
  have hlow := i.width_lt
  have hhigh := i.height_lt
  constructor
  · simp [unsupported, hdepth, hcolor, hinterlace]
  · rw [visit, if_pos htype, readBe32_of_holds hwidth (by omega),
      readBe32_of_holds hheight (by omega)]

/-- Where the data of the last data chunk begin. -/
def lastData (f : PngFile) : ℕ := f.front.length + 8

variable {f : PngFile}

theorem walksTo_file (h : Holds m 0 f.bytes) (c : Chunks) :
    WalksTo m f.bytes.length 8 c
      ⟨f.image.width, f.image.height, some (lastData f), f.last.length⟩ := by
  have hheader : (chunkBytes headerType f.image.headerData).length = 25 := by
    simp [Image.headerData]
  have hfront : f.front.length = 33 + (f.before.flatMap OtherChunk.bytes).length +
      (f.parts.flatMap (chunkBytes dataType)).length := by
    simp only [PngFile.front, List.length_append, hheader, signature_length]
  have hlast := chunkBytes_length dataType f.last
  have hend : (chunkBytes endType []).length = 12 := rfl
  have hsize : f.bytes.length = f.front.length + (chunkBytes dataType f.last).length +
      (f.after.flatMap OtherChunk.bytes).length + 12 := by
    simp only [PngFile.bytes, List.length_append, hend]
  simp only [PngFile.bytes, holds_append, List.length_append, Nat.zero_add] at h
  obtain ⟨⟨⟨hholds, hlastAt⟩, hafter⟩, hendAt⟩ := h
  simp only [PngFile.front, holds_append, List.length_append, Nat.zero_add, hheader,
    signature_length] at hholds
  obtain ⟨⟨⟨-, hheaderAt⟩, hbefore⟩, hparts⟩ := hholds
  have htype : chunkType m 8 = ihdr := chunkType_of_holds hheaderAt (by decide)
  obtain ⟨hsupported, hvisit⟩ := header_of_holds (c := c) hheaderAt
  refine .step (by omega) (htype ▸ ihdr_ne_iend) (fun _ ↦ ⟨hsupported, by omega⟩) ?_
  rw [hvisit, nextChunk_of_holds hheaderAt (by simp [Image.headerData]), hheader]
  refine .others f.before hbefore (by omega) ?_
  refine .parts f.parts f.parts_lt hparts (by omega) fun i n ↦ ?_
  rw [← hfront]
  refine .chunk hlastAt (by decide) f.last_lt idatType_ne_ihdr idatType_ne_iend (by omega) ?_
  rw [if_pos dataType_eq]
  refine .others f.after hafter (by omega) ?_
  exact .stop (by omega) (chunkType_of_holds hendAt (by decide))

theorem hasSignature_file (h : Holds m 0 f.bytes) : hasSignature m = true := by
  simp only [PngFile.bytes, PngFile.front, holds_append] at h
  have hholds := h.1.1.1.1.1.1
  rw [hasSignature, List.all_eq_true]
  intro k hk
  have hbyte := hholds k (List.mem_range.mp hk)
  rw [Nat.zero_add] at hbyte
  exact decide_eq_true hbyte

/-! ## The call of the filters -/

/-- The new block of `zlib_decompress_uncompressed`, and what lies behind it. -/
def firstBlock (alloc : Allocator) (m : Mem) (d : ℕ) : Mem := fun i ↦
  if i < storedLength m d then m (d + 7 + i) else alloc.contents 0 (storedLength m d) i

def fileJob (f : PngFile) (alloc : Allocator) (m : Mem) : Job :=
  ⟨f.image.width, f.image.height, storedLength m (lastData f), firstBlock alloc m (lastData f)⟩

variable {alloc : Allocator}

theorem eight_le_file (f : PngFile) : ¬f.bytes.length < 8 := by
  simp only [PngFile.bytes, PngFile.front, List.length_append, signature_length]
  omega

theorem readChunks_file (h : Holds m 0 f.bytes) : readChunks m f.bytes.length =
    some (some ⟨f.image.width, f.image.height, some (lastData f), f.last.length⟩) :=
  (walksTo_file h _).loop _ (by have := eight_le_file f; omega)

theorem prepare_file (h : Holds m 0 f.bytes) :
    prepare alloc m f.bytes.length =
      if f.last.length < 6 ∨ isStored m (lastData f) = false ∨
          alloc.grants 0 (storedLength m (lastData f)) = false then none
      else some (fileJob f alloc m) := by
  rw [prepare, if_neg (by simp [eight_le_file f, hasSignature_file h]), readChunks_file h]
  simp only [Option.bind_eq_bind, Option.bind_some, zlibDecompressUncompressed]
  by_cases hshort : f.last.length < 6
  · simp [hshort]
  cases hstored : isStored m (lastData f) with
  | false => simp [hshort]
  | true =>
      cases hgrants : alloc.grants 0 (storedLength m (lastData f)) with
      | false => simp [hshort]
      | true =>
          simp only [hshort, if_false, Bool.true_eq_false, or_self, if_true]
          rfl

def decoded (f : PngFile) (alloc : Allocator) (m : Mem) : Mem :=
  (fileJob f alloc m).copyRows
    (pngUnfilter (firstBlock alloc m (lastData f)) f.image.width f.image.height)
    (alloc.contents 1 (fileJob f alloc m).outSize)

theorem pngDecodeBuffer_file (h : Holds m 0 f.bytes) :
    pngDecodeBuffer alloc m f.bytes.length =
      if f.last.length < 6 ∨ isStored m (lastData f) = false ∨
          alloc.grants 0 (storedLength m (lastData f)) = false ∨
          alloc.grants 1 (fileJob f alloc m).outSize = false then none
      else some (f.image.width, f.image.height, decoded f alloc m) := by
  rw [pngDecodeBuffer, prepare_file h]
  by_cases hnone : f.last.length < 6 ∨ isStored m (lastData f) = false ∨
      alloc.grants 0 (storedLength m (lastData f)) = false
  · rw [if_pos hnone, if_pos (by tauto)]
    rfl
  · rw [if_neg hnone]
    cases hgrants : alloc.grants 1 (fileJob f alloc m).outSize with
    | false => simp [hgrants]
    | true =>
        rw [if_neg (by simpa using hnone)]
        simp only [Option.bind_eq_bind, Option.bind_some, hgrants, if_true]
        rfl

/-! ## The pixels -/

variable {y x : ℕ}

theorem scanPixels_lines {i : Image} {d : Mem} (hd : Holds d 0 i.lines) (hy : y < i.height)
    (hx : x < 4 * i.width) : scanPixels (4 * i.width) d y x = i.raw y x := by
  have hlength := i.lines_length
  have hindex : ∀ j ≤ y, ∀ k < 4 * i.width,
      j * (4 * i.width + 1) + 1 + k < i.lines.length := by
    intro j hj k hk
    have hle : (y + 1) * (4 * i.width + 1) ≤ i.height * (4 * i.width + 1) :=
      Nat.mul_le_mul_right _ hy
    have hlt := scanIndex_lt hj hk
    omega
  have hbyte : ∀ n < i.lines.length, d n = i.lines.getD n 0 := by
    intro n hn
    rw [← hd n hn, Nat.zero_add]
  rw [← recon_filtered i.filters i.raw y]
  refine recon_congr (fun j hj ↦ ?_) fun j hj k hk ↦ ?_
  · have hlt := hindex j hj 0 (by omega)
    rw [scanFilters, hbyte _ (by omega), i.lines_filter (by omega), FilterType.ofByte_code]
  · rw [scanBytes, hbyte _ (hindex j hj k (by omega)), i.lines_byte (by omega) (by omega)]

theorem decoded_pixel (alloc : Allocator)
    (hlength : f.image.height * (4 * f.image.width + 1) ≤ storedLength m (lastData f))
    (hy : y < f.image.height) (hx : x < 4 * f.image.width) :
    decoded f alloc m (y * (4 * f.image.width) + x) =
      scanPixels (4 * f.image.width) (fun i ↦ m (lastData f + 7 + i)) y x := by
  have hshort := storedLength_lt m (lastData f)
  have hrows : (y + 1) * (4 * f.image.width + 1) ≤ f.image.height * (4 * f.image.width + 1) :=
    Nat.mul_le_mul_right _ hy
  have hrow : 4 * f.image.width + 1 ≤ (y + 1) * (4 * f.image.width + 1) :=
    Nat.le_mul_of_pos_left _ (Nat.succ_pos y)
  have hstride : f.image.width * 4 % 2 ^ 32 = 4 * f.image.width := by
    rw [Nat.mul_comm, Nat.mod_eq_of_lt (by omega)]
  have hsmall : (fileJob f alloc m).height * (4 * (fileJob f alloc m).width + 1) < 2 ^ 16 :=
    hlength.trans_lt hshort
  have hcopy := Job.copyRows_pixel (j := fileJob f alloc m) hsmall hy hx
    (pngUnfilter (firstBlock alloc m (lastData f)) f.image.width f.image.height)
    (alloc.contents 1 (fileJob f alloc m).outSize)
  have hpixels := pngUnfilter_pixels (firstBlock alloc m (lastData f)) hy (hstride ▸ hx)
  rw [hstride] at hpixels
  refine hcopy.trans (hpixels.trans (scanPixels_congr hx fun i hi ↦ ?_))
  exact if_pos (by omega)

/-- The decoder returns the image, row by row. -/
structure Shows (i : Image) (r : ℕ × ℕ × Mem) : Prop where
  width : r.1 = i.width
  height : r.2.1 = i.height
  pixels : ∀ y < i.height, ∀ x < 4 * i.width, r.2.2 (y * (4 * i.width) + x) = i.raw y x

/-- Behind the header of the first stored block of the last data chunk stand
rows that reconstruct to the image, and the block is as long as all of them. -/
structure Whole (f : PngFile) (m : Mem) : Prop where
  length : f.image.height * (4 * f.image.width + 1) ≤ storedLength m (lastData f)
  pixels : ∀ y < f.image.height, ∀ x < 4 * f.image.width,
    scanPixels (4 * f.image.width) (fun i ↦ m (lastData f + 7 + i)) y x = f.image.raw y x

theorem Whole.shows (hwhole : Whole f m) (alloc : Allocator) :
    Shows f.image (f.image.width, f.image.height, decoded f alloc m) :=
  ⟨rfl, rfl, fun y hy x hx ↦
    (decoded_pixel alloc hwhole.length hy hx).trans (hwhole.pixels y hy x hx)⟩

theorem outSize_fileJob (f : PngFile) (alloc : Allocator) (m : Mem) :
    (fileJob f alloc m).outSize = f.image.width * f.image.height * 4 % 2 ^ 32 :=
  Nat.mod_mul_mod ..

/-! ## One block in one chunk -/

theorem isStored_header (final : Bool) (unused : Fin 32) :
    UInt8.ofNat (final.toNat + 8 * unused) >>> 1 &&& 3 = 0 := by
  revert final unused
  decide

theorem storedBlock_of_holds {z : Zlib} {d : ℕ} (hblocks : z.blocks = []) (h : Holds m d z.bytes) :
    isStored m d = true ∧ storedLength m d = z.final.data.length ∧
      Holds m (d + 7) z.final.data := by
  simp only [Zlib.bytes, hblocks, List.flatMap_nil, List.append_nil, StoredBlock.bytes,
    holds_append, List.length_append, List.length_cons, List.length_nil, le16_length] at h
  obtain ⟨⟨-, ⟨⟨hheader, hlength⟩, -⟩, hdata⟩, -⟩ := h
  have hbyte : m (d + 2) = UInt8.ofNat (true.toNat + 8 * z.final.unused) := hheader 0 (by simp)
  refine ⟨?_, storedLength_of_holds hlength z.final.data_lt, hdata⟩
  exact decide_eq_true (hbyte ▸ isStored_header true z.final.unused)

theorem lastData_holds (h : Holds m 0 f.bytes) : Holds m (lastData f) f.last := by
  simp only [PngFile.bytes, holds_append, Nat.zero_add] at h
  exact chunkData_of_holds h.1.1.2

/-- A file with one data chunk and one block in it. -/
structure OneBlock (f : PngFile) : Prop where
  parts : f.parts = []
  blocks : f.zlib.blocks = []

theorem OneBlock.last_eq (hone : OneBlock f) : f.last = f.zlib.bytes := by
  rw [← f.stream, hone.parts]
  rfl

theorem OneBlock.data_eq (hone : OneBlock f) : f.zlib.final.data = f.image.lines := by
  rw [← f.contents, Zlib.contents, hone.blocks]
  rfl

theorem OneBlock.last_length (hone : OneBlock f) : ¬f.last.length < 6 := by
  rw [hone.last_eq]
  simp only [Zlib.bytes, StoredBlock.bytes, List.length_append, be32_length, le16_length]
  omega

theorem OneBlock.stored (hone : OneBlock f) (h : Holds m 0 f.bytes) :
    isStored m (lastData f) = true ∧
      storedLength m (lastData f) = f.image.height * (4 * f.image.width + 1) ∧
      Holds m (lastData f + 7) f.image.lines := by
  rw [← f.image.lines_length, ← hone.data_eq]
  exact storedBlock_of_holds hone.blocks (hone.last_eq ▸ lastData_holds h)

theorem OneBlock.whole (hone : OneBlock f) (h : Holds m 0 f.bytes) : Whole f m := by
  obtain ⟨-, hlength, hdata⟩ := hone.stored h
  refine ⟨hlength.ge, fun y hy x hx ↦ scanPixels_lines (fun n hn ↦ ?_) hy hx⟩
  rw [Nat.zero_add]
  exact hdata n hn

theorem OneBlock.decodes (hone : OneBlock f) (h : Holds m 0 f.bytes)
    (hblock : alloc.grants 0 (f.image.height * (4 * f.image.width + 1)) = true)
    (hpixels : alloc.grants 1 (f.image.width * f.image.height * 4) = true) :
    pngDecodeBuffer alloc m f.bytes.length =
      some (f.image.width, f.image.height, decoded f alloc m) := by
  obtain ⟨hstored, hlength, -⟩ := hone.stored h
  have hsmall := storedLength_lt m (lastData f)
  have hbytes : f.image.height * (4 * f.image.width + 1) =
      f.image.width * f.image.height * 4 + f.image.height := by ring
  have hsize : (fileJob f alloc m).outSize = f.image.width * f.image.height * 4 := by
    rw [outSize_fileJob, Nat.mod_eq_of_lt (by omega)]
  rw [pngDecodeBuffer_file h, hlength, hstored, hblock, hsize, hpixels]
  simp [hone.last_length]

/-- An image comes back whatever the filters of its rows, when one block holds
all of them and `kmalloc` gives memory. -/
theorem pngDecodeBuffer_singleBlock (i : Image) (hsize : i.height * (4 * i.width + 1) ≤ 65535)
    (header : ZlibHeader) (unused : Fin 32) (before after : List OtherChunk)
    (hbuffer : Holds m 0 (PngFile.singleBlock i hsize header unused before after).bytes)
    (hblock : alloc.grants 0 (i.height * (4 * i.width + 1)) = true)
    (hpixels : alloc.grants 1 (i.width * i.height * 4) = true) :
    ∃ r, pngDecodeBuffer alloc m
        (PngFile.singleBlock i hsize header unused before after).bytes.length = some r ∧
      Shows i r := by
  have hone : OneBlock (PngFile.singleBlock i hsize header unused before after) := ⟨rfl, rfl⟩
  exact ⟨_, hone.decodes hbuffer hblock hpixels, (hone.whole hbuffer).shows alloc⟩

/-- The bytes before the blocks that compressors write for the fastest level. -/
def fastest : ZlibHeader := ⟨0x78, 1, by decide, by decide, by decide, by decide⟩

def twoRows : Image where
  width := 1
  height := 2
  raw y x := UInt8.ofNat (100 * y + 50 * x)
  filters y := if y = 0 then .average else .paeth
  width_pos := by decide
  width_lt := by decide
  height_pos := by decide
  height_lt := by decide

def comment : OtherChunk where
  type := 0x74455874
  data := [84, 105, 116, 108, 101, 0]
  type_lt := by decide
  data_lt := by decide
  ne_header := by decide
  ne_data := by decide
  ne_end := by decide

def twoRowsFile : PngFile := .singleBlock twoRows (by decide) fastest 0 [comment] []

theorem holds_bufferOf (bs : List UInt8) : Holds (bufferOf bs) 0 bs := fun j _ ↦ by
  rw [Nat.zero_add, bufferOf]

theorem pngDecodeBuffer_singleBlock_twoRows : ∃ r,
    pngDecodeBuffer freshHeap (bufferOf twoRowsFile.bytes) twoRowsFile.bytes.length = some r ∧
      Shows twoRows r :=
  pngDecodeBuffer_singleBlock twoRows (by decide) fastest 0 [comment] [] (holds_bufferOf _)
    (by decide +kernel) (by decide +kernel)

/-! ## Several blocks or chunks -/

/-- No image is returned. -/
def Refused (f : PngFile) (m : Mem) : Prop :=
  f.last.length < 6 ∨ isStored m (lastData f) = false ∨ storedLength m (lastData f) = 0 ∨
    f.image.width * f.image.height * 4 % 2 ^ 32 = 0

theorem Refused.decodes_none (hrefused : Refused f m) (h : Holds m 0 f.bytes)
    (alloc : Allocator) : pngDecodeBuffer alloc m f.bytes.length = none := by
  rw [pngDecodeBuffer_file h, outSize_fileJob]
  refine if_pos ?_
  rcases hrefused with hshort | hstored | hempty | hwrapped
  · exact Or.inl hshort
  · exact Or.inr (Or.inl hstored)
  · exact Or.inr (Or.inr (Or.inl (hempty ▸ alloc.grants_zero 0)))
  · exact Or.inr (Or.inr (Or.inr (hwrapped ▸ alloc.grants_zero 1)))

/-- Memory for every call, with the given contents. -/
def granting (fill : ℕ → Mem) : Allocator where
  grants _ size := size ≠ 0
  contents n _ := fill n
  grants_zero _ := rfl

theorem decodes_of_not_refused (hrefused : ¬Refused f m) (h : Holds m 0 f.bytes)
    (fill : ℕ → Mem) : pngDecodeBuffer (granting fill) m f.bytes.length =
      some (f.image.width, f.image.height, decoded f (granting fill) m) := by
  rw [pngDecodeBuffer_file h, outSize_fileJob]
  refine if_neg fun hnone ↦ hrefused ?_
  simpa [Refused, granting] using hnone

/-- Two answers of `kmalloc` that differ in one byte behind the block. -/
theorem exists_firstBlock_ne {d stride : ℕ} (hx : x + 1 = stride)
    (hshort : storedLength m d ≤ y * (stride + 1) + 1 + x) :
    ∃ fill fill', scanPixels stride (firstBlock (granting fill) m d) y x ≠
      scanPixels stride (firstBlock (granting fill') m d) y x := by
  refine ⟨fun _ _ ↦ 0, fun _ i ↦ if i = y * (stride + 1) + 1 + x then 1 else 0, ?_⟩
  refine scanPixels_ne hx (fun i hi ↦ ?_) ?_
  · unfold firstBlock
    split
    · rfl
    · exact (if_neg hi.ne).symm
  · rw [firstBlock, firstBlock, if_neg (not_lt.mpr hshort), if_neg (not_lt.mpr hshort)]
    simp [granting]

/-- A block that is too short leaves the last pixel to the memory behind it, or
to the memory that was to receive the pixels. -/
theorem decoded_ne (hshort : storedLength m (lastData f) <
      f.image.height * (4 * f.image.width + 1)) :
    ∃ y < f.image.height, ∃ x < 4 * f.image.width, ∃ fill fill',
      decoded f (granting fill) m (y * (4 * f.image.width) + x) ≠
        decoded f (granting fill') m (y * (4 * f.image.width) + x) := by
  have hwidth := f.image.width_pos
  obtain ⟨y, hheight⟩ := Nat.exists_eq_succ_of_ne_zero f.image.height_pos.ne'
  have hy : y < f.image.height := hheight ▸ Nat.lt_succ_self y
  have hx : 4 * f.image.width - 1 < 4 * f.image.width := by omega
  refine ⟨y, hy, 4 * f.image.width - 1, hx, ?_⟩
  rcases Job.copyRows_last (j := fileJob f (granting fun _ _ ↦ 0) m) hwidth hheight with
    ⟨hstride, hcopy⟩ | hcopy
  · have hwidth4 : f.image.width * 4 % 2 ^ 32 = 4 * f.image.width := hstride
    have hpixel : ∀ fill,
        decoded f (granting fill) m (y * (4 * f.image.width) + (4 * f.image.width - 1)) =
          scanPixels (4 * f.image.width) (firstBlock (granting fill) m (lastData f)) y
            (4 * f.image.width - 1) := by
      intro fill
      have hrow := pngUnfilter_pixels (firstBlock (granting fill) m (lastData f)) hy
        (hwidth4.symm ▸ hx)
      rw [hwidth4] at hrow
      exact (hcopy _ _).trans hrow
    rw [hheight, Nat.succ_mul] at hshort
    have hend : 4 * f.image.width - 1 + 1 = 4 * f.image.width := by omega
    have hle : storedLength m (lastData f) ≤
        y * (4 * f.image.width + 1) + 1 + (4 * f.image.width - 1) := by omega
    obtain ⟨fill, fill', hne⟩ := exists_firstBlock_ne hend hle
    refine ⟨fill, fill', ?_⟩
    rw [hpixel, hpixel]
    exact hne
  · refine ⟨fun _ _ ↦ 0, fun _ _ ↦ 1, ?_⟩
    have hout : ∀ fill,
        decoded f (granting fill) m (y * (4 * f.image.width) + (4 * f.image.width - 1)) =
          fill 1 (y * (4 * f.image.width) + (4 * f.image.width - 1)) := fun fill ↦ hcopy _ _
    rw [hout, hout]
    decide

/-- Whatever `kmalloc` answers, a picture that is returned is the file's. -/
def NeverWrong (f : PngFile) (m : Mem) : Prop :=
  ∀ alloc r, pngDecodeBuffer alloc m f.bytes.length = some r → Shows f.image r

theorem NeverWrong.whole (hright : NeverWrong f m) (hrefused : ¬Refused f m)
    (h : Holds m 0 f.bytes) : Whole f m := by
  have hshows : ∀ fill,
      Shows f.image (f.image.width, f.image.height, decoded f (granting fill) m) :=
    fun fill ↦ hright _ _ (decodes_of_not_refused hrefused h fill)
  by_cases hlength : f.image.height * (4 * f.image.width + 1) ≤ storedLength m (lastData f)
  · refine ⟨hlength, fun y hy x hx ↦ ?_⟩
    rw [← decoded_pixel (granting fun _ _ ↦ 0) hlength hy hx]
    exact (hshows _).pixels y hy x hx
  · obtain ⟨y, hy, x, hx, fill, fill', hne⟩ := decoded_ne (not_le.mp hlength)
    exact absurd (((hshows fill).pixels y hy x hx).trans ((hshows fill').pixels y hy x hx).symm) hne

/-- The decoder is right on the files it refuses and on those whose first block
in the last data chunk is the whole image, and on no others. -/
theorem pngDecodeBuffer_neverWrong_iff (h : Holds m 0 f.bytes) :
    NeverWrong f m ↔ Refused f m ∨ Whole f m := by
  constructor
  · intro hright
    by_cases hrefused : Refused f m
    · exact Or.inl hrefused
    · exact Or.inr (hright.whole hrefused h)
  · rintro (hrefused | hwhole) alloc r hdecodes
    · rw [hrefused.decodes_none h alloc] at hdecodes
      cases hdecodes
    · rw [pngDecodeBuffer_file h] at hdecodes
      split at hdecodes
      · cases hdecodes
      · cases hdecodes
        exact hwhole.shows alloc

theorem pngDecodeBuffer_neverWrong_iff_twoRows :
    Holds (bufferOf twoRowsFile.bytes) 0 twoRowsFile.bytes ∧
      NeverWrong twoRowsFile (bufferOf twoRowsFile.bytes) :=
  ⟨holds_bufferOf _, (pngDecodeBuffer_neverWrong_iff (holds_bufferOf _)).mpr
    (Or.inr (OneBlock.whole ⟨rfl, rfl⟩ (holds_bufferOf _)))⟩

/-- One pixel, whose row is cut into two blocks. -/
def twoBlocks : PngFile where
  image := ⟨1, 1, fun _ x ↦ UInt8.ofNat (x + 1), fun _ ↦ .none, by decide, by decide, by decide,
    by decide⟩
  zlib := ⟨fastest, [⟨0, [0, 1], by decide⟩], ⟨0, [2, 3, 4], by decide⟩⟩
  contents := rfl
  parts := []
  last := Zlib.bytes ⟨fastest, [⟨0, [0, 1], by decide⟩], ⟨0, [2, 3, 4], by decide⟩⟩
  stream := rfl
  parts_lt := noParts_lt
  last_lt := by decide
  before := []
  after := []

theorem twoBlocks_wrong_pixel : ∃ r,
    pngDecodeBuffer freshHeap (bufferOf twoBlocks.bytes) twoBlocks.bytes.length = some r ∧
      r.2.2 1 = 0 ∧ twoBlocks.image.raw 0 1 = 2 ∧ ¬Shows twoBlocks.image r := by
  have hrun : (pngDecodeBuffer freshHeap (bufferOf twoBlocks.bytes) twoBlocks.bytes.length).map
      (·.2.2 1) = some 0 := by
    decide +kernel
  obtain ⟨r, hr, hbyte⟩ := Option.map_eq_some_iff.mp hrun
  refine ⟨r, hr, hbyte, rfl, fun hshows ↦ ?_⟩
  have hpixel : r.2.2 1 = 2 := hshows.pixels 0 (by decide) 1 (by decide)
  rw [hbyte] at hpixel
  exact absurd hpixel (by decide)

end ImplusKernel.Png
