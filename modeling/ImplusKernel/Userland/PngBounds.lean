import ImplusKernel.Lib.PngFormat
import ImplusKernel.Userland.PngDecoder
import Mathlib.Data.List.Basic

/-!
# What the PNG decoder touches

The decoder reads beyond its input exactly when a chunk that it looks at, or
the stored block of the last data chunk, is cut off by the end of the input.
It stays within its two blocks exactly when the data are long enough for the
image, computed without wrap-around.
-/

namespace ImplusKernel.Png

open ByteMemory Heap
open PngFormat (adler32 be32 chunkBytes dataType endType headerType le16)

variable {alloc : Allocator} {buffer data : Mem} {size p fuel : ℕ}

theorem Span.within_iff (s : Span) (bound : ℕ) :
    s.Within bound ↔ s.count = 0 ∨ s.start + s.count ≤ bound := by
  constructor
  · intro h
    by_contra hnot
    have hlast := h (s.start + s.count - 1) (by omega) (by omega)
    omega
  · intro h i hlow hhigh
    omega

/-! ## The walk over the chunks -/

/-- Each round moves on, also when `len + 4` wraps. -/
theorem add_eight_le_nextChunk (buffer : Mem) (p : ℕ) : p + 8 ≤ nextChunk buffer p :=
  Nat.le_add_right _ _

/-- What the chunk at `p` does to the variables of the loop. -/
def visit (buffer : Mem) (c : Chunks) (p : ℕ) : Chunks :=
  if chunkType buffer p = ihdr then
    { c with width := readBe32 buffer (p + 8), height := readBe32 buffer (p + 12) }
  else if chunkType buffer p = idatType then
    { c with idat := some (p + 8), idatSize := readBe32 buffer p }
  else c

theorem ihdr_ne_iend : ihdr ≠ iend := by decide

theorem idatType_ne_ihdr : idatType ≠ ihdr := by decide

theorem idatType_ne_iend : idatType ≠ iend := by decide

/-- The loop ends, and it is a fold over the chunks it looks at. -/
theorem chunkLoop_eq (c : Chunks) (hfuel : size ≤ p + 8 * fuel) :
    chunkLoop buffer size (fuel + 1) p c =
      some (if (chunkStarts buffer size (fuel + 1) p).any
          fun q ↦ chunkType buffer q = ihdr ∧ unsupported buffer q then none
        else some ((chunkStarts buffer size (fuel + 1) p).foldl (visit buffer) c)) := by
  induction fuel generalizing p c with
  | zero =>
      have hp : ¬p < size := by omega
      simp [chunkLoop, chunkStarts, hp]
  | succ fuel ih =>
      rw [chunkLoop, chunkStarts]
      by_cases hp : p < size
      · have hnext := add_eight_le_nextChunk buffer p
        have ih := fun c ↦ ih (p := nextChunk buffer p) c (by omega)
        simp only [if_pos hp, ih]
        by_cases hihdr : chunkType buffer p = ihdr
        · cases hsupported : unsupported buffer p with
          | true => simp [hihdr, hsupported]
          | false => simp [hihdr, hsupported, stops, ihdr_ne_iend, visit]
        by_cases hidat : chunkType buffer p = idatType
        · simp [hidat, idatType_ne_ihdr, idatType_ne_iend, stops, visit]
        by_cases hiend : chunkType buffer p = iend
        · simp [hiend, idatType_ne_iend.symm, ihdr_ne_iend.symm, stops, visit]
        · simp [hihdr, hidat, hiend, stops, visit]
      · simp [hp]

theorem readChunks_isSome (buffer : Mem) (size : ℕ) : (readChunks buffer size).isSome := by
  rw [readChunks, chunkLoop_eq _ (by omega)]
  rfl

theorem chunkStarts_length_le (buffer : Mem) (size fuel p : ℕ) :
    (chunkStarts buffer size fuel p).length ≤ fuel := by
  induction fuel generalizing p with
  | zero => exact le_rfl
  | succ fuel ih =>
      rw [chunkStarts]
      split_ifs
      · simp
      · simpa using ih (nextChunk buffer p)
      · simp

/-- Rounds beyond the end of the input add nothing. -/
theorem chunkStarts_stable {n : ℕ} (hn : size ≤ p + 8 * n) (hle : n ≤ fuel) :
    chunkStarts buffer size fuel p = chunkStarts buffer size n p := by
  induction n generalizing fuel p with
  | zero =>
      have hp : ¬p < size := by omega
      cases fuel with
      | zero => rfl
      | succ fuel => simp [chunkStarts, hp]
  | succ n ih =>
      obtain ⟨fuel, rfl⟩ := Nat.exists_eq_add_of_le' (show 1 ≤ fuel by omega)
      have hnext := add_eight_le_nextChunk buffer p
      rw [chunkStarts, chunkStarts, ih (by omega) (by omega)]

/-- The loop over the chunks ends within `size / 8 + 1` rounds, whatever the
buffer and the memory behind it hold. -/
theorem chunkLoop_rounds (buffer : Mem) (size : ℕ) (c : Chunks) :
    (∀ p, p + 8 ≤ nextChunk buffer p) ∧
      ∀ fuel, (chunkStarts buffer size fuel 8).length ≤ size / 8 + 1 ∧
        (size / 8 + 1 ≤ fuel → (chunkLoop buffer size fuel 8 c).isSome ∧
          chunkLoop buffer size fuel 8 c = chunkLoop buffer size (size / 8 + 1) 8 c) := by
  have henough : size ≤ 8 + 8 * (size / 8) := by omega
  refine ⟨add_eight_le_nextChunk buffer, fun fuel ↦ ⟨?_, fun hfuel ↦ ?_⟩⟩
  · rcases le_total fuel (size / 8 + 1) with hfuel | hfuel
    · exact (chunkStarts_length_le buffer size fuel 8).trans hfuel
    · rw [chunkStarts_stable (n := size / 8 + 1) (by omega) hfuel]
      exact chunkStarts_length_le buffer size _ 8
  · obtain ⟨fuel, rfl⟩ := Nat.exists_eq_add_of_le' (show 1 ≤ fuel by omega)
    rw [chunkLoop_eq c (by omega), chunkLoop_eq c henough,
      chunkStarts_stable (n := size / 8 + 1) (by omega) hfuel]
    exact ⟨rfl, rfl⟩

/-! ## Reads of the input -/

theorem headReads_within_iff (buffer : Mem) (size p : ℕ) :
    (∀ s ∈ headReads buffer p, s.Within size) ↔
      p + 8 ≤ size ∧ (chunkType buffer p = ihdr → p + 21 ≤ size) := by
  by_cases hihdr : chunkType buffer p = ihdr
  · simp only [headReads, hihdr, if_true, List.cons_append, List.nil_append, List.forall_mem_cons,
      Span.within_iff, forall_const]
    simp only [List.not_mem_nil, false_imp_iff, implies_true, and_true]
    omega
  · simp only [headReads, hihdr, if_false, List.append_nil, List.forall_mem_cons,
      Span.within_iff, false_imp_iff, and_true]
    simp only [List.not_mem_nil, false_imp_iff, implies_true, and_true]
    omega

/-- The stored block at `data` ends before the bound, as far as it is
looked at. -/
def StoredFits (alloc : Allocator) (buffer : Mem) (bound data size : ℕ) : Prop :=
  6 ≤ size → data + 3 ≤ bound ∧ (isStored buffer data = true → data + 5 ≤ bound ∧
    (alloc.grants 0 (storedLength buffer data) = true →
      data + 7 + storedLength buffer data ≤ bound))

theorem zlibReads_within_iff (alloc : Allocator) (buffer : Mem) (bound data size : ℕ) :
    (∀ s ∈ zlibReads alloc buffer data size, s.Within bound) ↔
      StoredFits alloc buffer bound data size := by
  unfold zlibReads StoredFits
  by_cases hsize : size < 6
  · simp [hsize, not_le.mpr hsize]
  simp only [if_neg hsize, not_lt.mp hsize, forall_const, List.forall_mem_cons, Span.within_iff]
  refine and_congr (by omega) ?_
  cases hstored : isStored buffer data with
  | false => simp
  | true =>
      simp only [Bool.true_eq_false, if_false, List.cons_append, List.nil_append,
        List.forall_mem_cons, forall_const, ← and_assoc]
      refine and_congr (by omega) ?_
      cases hgrants : alloc.grants 0 (storedLength buffer data) with
      | false => simp
      | true =>
          have hlen : storedLength buffer data ≠ 0 := by
            intro hzero
            rw [hzero, alloc.grants_zero] at hgrants
            cases hgrants
          simp [hlen]

/-- No chunk on the walk is cut off, and neither is the stored block of the
last data chunk. -/
structure Uncut (alloc : Allocator) (buffer : Mem) (size : ℕ) : Prop where
  chunks : ∀ p ∈ chunkStarts buffer size (size + 1) 8,
    p + 8 ≤ size ∧ (chunkType buffer p = ihdr → p + 21 ≤ size)
  stored : ∀ c data, readChunks buffer size = some (some c) → c.idat = some data →
    StoredFits alloc buffer size data c.idatSize

theorem signatureReads_le (buffer : Mem) : signatureReads buffer ≤ 8 := by
  unfold signatureReads
  split
  · next k hk =>
    have hlt := List.mem_range.mp (List.mem_of_find?_eq_some hk)
    omega
  · exact le_rfl

theorem inputReads_within_iff (alloc : Allocator) (buffer : Mem) (size : ℕ) :
    (∀ s ∈ inputReads alloc buffer size, s.Within size) ↔
      (8 ≤ size → hasSignature buffer = true → Uncut alloc buffer size) := by
  unfold inputReads
  by_cases hsize : size < 8
  · simp [hsize, not_le.mpr hsize]
  have hsignature : (Span.mk 0 (signatureReads buffer)).Within size := by
    have hle := signatureReads_le buffer
    rw [Span.within_iff]
    dsimp only
    omega
  simp only [if_neg hsize, not_lt.mp hsize, forall_const, List.forall_mem_cons, hsignature,
    true_and]
  cases hmatch : hasSignature buffer with
  | false => simp
  | true =>
      simp only [Bool.true_eq_false, if_false, List.forall_mem_append, List.forall_mem_flatMap,
        headReads_within_iff, forall_const]
      constructor
      · rintro ⟨hchunks, hstored⟩
        refine ⟨hchunks, ?_⟩
        intro c data hread hdata
        simp only [hread, hdata, Option.elim_some] at hstored
        exact (zlibReads_within_iff alloc buffer size data c.idatSize).mp hstored
      · rintro ⟨hchunks, hstored⟩
        refine ⟨hchunks, ?_⟩
        split
        · next c hread =>
          cases hdata : c.idat with
          | none => simp
          | some data =>
              exact (zlibReads_within_iff alloc buffer size data c.idatSize).mpr
                (hstored c data hread hdata)
        · simp

/-- A file that ends right after the first byte of a chunk. -/
def truncatedFile : List UInt8 := signature ++ [0]

/-- A buffer with the bytes of a file, followed by zeros. -/
def bufferOf (file : List UInt8) : Mem := fun i ↦ file.getD i 0

/-- The kernel heap after start-up, for both calls. -/
def freshHeap : Allocator := .ofHeap fun _ ↦ memoryInit 0x110000 (.boot fun _ ↦ 0)

theorem truncatedFile_overread :
    ⟨8, 4⟩ ∈ inputReads freshHeap (bufferOf truncatedFile) truncatedFile.length ∧
      ¬(Span.mk 8 4).Within truncatedFile.length := by
  refine ⟨by decide, ?_⟩
  rw [Span.within_iff]
  decide

/-! ## The result depends on nothing else -/

variable {buffer' : Mem}

/-- The buffers hold the same bytes in all of these places. -/
def AgreeIn (spans : List Span) (buffer buffer' : Mem) : Prop :=
  ∀ s ∈ spans, AgreeOn buffer buffer' s.start (s.start + s.count)

theorem AgreeIn.byte {spans : List Span} (h : AgreeIn spans buffer buffer')
    (hp : ⟨p, 1⟩ ∈ spans) : buffer p = buffer' p :=
  (h _ hp p le_rfl (Nat.lt_succ_self p)).symm

theorem AgreeIn.readBe32 {spans : List Span} (h : AgreeIn spans buffer buffer')
    (hp : ⟨p, 4⟩ ∈ spans) : readBe32 buffer p = readBe32 buffer' p := by
  have hbyte : ∀ k < 4, buffer (p + k) = buffer' (p + k) := fun k hk ↦
    (h _ hp (p + k) (Nat.le_add_right p k) (Nat.add_lt_add_left hk p)).symm
  simp only [Png.readBe32, hbyte 1, hbyte 2, hbyte 3, Nat.reduceLT]
  rw [show buffer p = buffer' p from hbyte 0 (by decide)]

theorem hasSignature_congr (h : AgreeOn buffer buffer' 0 (signatureReads buffer)) :
    hasSignature buffer = hasSignature buffer' := by
  unfold signatureReads at h
  split at h
  · next k hk =>
    -- Both comparisons fail at byte `k`.
    have hmem := List.mem_of_find?_eq_some hk
    have hne : buffer k ≠ signature.getD k 0 := by simpa using List.find?_some hk
    have hne' : buffer' k ≠ signature.getD k 0 := h k (Nat.zero_le k) (Nat.lt_succ_self k) ▸ hne
    have hfails : ∀ m : Mem, m k ≠ signature.getD k 0 → hasSignature m = false := by
      intro m hm
      rw [hasSignature, List.all_eq_false]
      exact ⟨k, hmem, by simpa using hm⟩
    rw [hfails _ hne, hfails _ hne']
  · next hall =>
    have hbyte : ∀ k ∈ List.range 8, buffer k = buffer' k := fun k hk ↦
      (h k (Nat.zero_le k) (List.mem_range.mp hk)).symm
    unfold hasSignature
    rw [Bool.eq_iff_iff, List.all_eq_true, List.all_eq_true]
    exact forall₂_congr fun k hk ↦ by rw [hbyte k hk]

theorem chunkType_congr (h : AgreeIn (headReads buffer p) buffer buffer') :
    chunkType buffer p = chunkType buffer' p :=
  h.readBe32 (by simp [headReads])

theorem nextChunk_congr (h : AgreeIn (headReads buffer p) buffer buffer') :
    nextChunk buffer p = nextChunk buffer' p := by
  rw [nextChunk, nextChunk, h.readBe32 (by simp [headReads])]

theorem unsupported_congr (h : AgreeIn (headReads buffer p) buffer buffer')
    (hihdr : chunkType buffer p = ihdr) : unsupported buffer p = unsupported buffer' p := by
  unfold unsupported
  rw [h.byte (p := p + 16) (by simp [headReads, hihdr]),
    h.byte (p := p + 17) (by simp [headReads, hihdr]),
    h.byte (p := p + 20) (by simp [headReads, hihdr])]

theorem visit_congr (h : AgreeIn (headReads buffer p) buffer buffer') (c : Chunks) :
    visit buffer c p = visit buffer' c p := by
  unfold visit
  rw [← chunkType_congr h]
  split
  · next hihdr =>
    rw [h.readBe32 (p := p + 8) (by simp [headReads, hihdr]),
      h.readBe32 (p := p + 12) (by simp [headReads, hihdr])]
  · rw [h.readBe32 (by simp [headReads])]

theorem stops_congr (h : AgreeIn (headReads buffer p) buffer buffer') :
    stops buffer p = stops buffer' p := by
  unfold stops
  rw [← chunkType_congr h]
  by_cases hihdr : chunkType buffer p = ihdr
  · rw [unsupported_congr h hihdr]
  · simp [hihdr]

theorem chunkStarts_congr
    (h : ∀ q ∈ chunkStarts buffer size fuel p, AgreeIn (headReads buffer q) buffer buffer') :
    chunkStarts buffer size fuel p = chunkStarts buffer' size fuel p := by
  induction fuel generalizing p with
  | zero => rfl
  | succ fuel ih =>
      rw [chunkStarts] at h
      rw [chunkStarts, chunkStarts]
      split at h
      · next hp =>
        have hhead := h p List.mem_cons_self
        rw [← stops_congr hhead, ← nextChunk_congr hhead, if_pos hp, if_pos hp]
        split at h
        · next hstops => rw [if_pos hstops, if_pos hstops]
        · next hstops =>
          rw [if_neg hstops, if_neg hstops, ih fun q hq ↦ h q (List.mem_cons_of_mem p hq)]
      · next hp => rw [if_neg hp, if_neg hp]

theorem readChunks_congr
    (h : ∀ q ∈ chunkStarts buffer size (size + 1) 8,
      AgreeIn (headReads buffer q) buffer buffer') :
    readChunks buffer size = readChunks buffer' size := by
  have hrefused : ((chunkStarts buffer size (size + 1) 8).any
        fun q ↦ chunkType buffer q = ihdr ∧ unsupported buffer q) =
      (chunkStarts buffer size (size + 1) 8).any
        fun q ↦ chunkType buffer' q = ihdr ∧ unsupported buffer' q := by
    rw [Bool.eq_iff_iff, List.any_eq_true, List.any_eq_true]
    refine exists_congr fun q ↦ and_congr_right fun hq ↦ ?_
    rw [decide_eq_true_iff, decide_eq_true_iff, ← chunkType_congr (h q hq)]
    exact and_congr_right fun hihdr ↦ by rw [unsupported_congr (h q hq) hihdr]
  have hfold := List.foldl_ext (visit buffer) (visit buffer') ⟨0, 0, none, 0⟩
    fun c q hq ↦ visit_congr (h q hq) c
  rw [readChunks, readChunks, chunkLoop_eq _ (by omega), chunkLoop_eq _ (by omega),
    ← chunkStarts_congr h, hrefused, hfold]

theorem zlibDecompressUncompressed_congr {data n : ℕ}
    (h : AgreeIn (zlibReads alloc buffer data n) buffer buffer') :
    zlibDecompressUncompressed alloc buffer data n =
      zlibDecompressUncompressed alloc buffer' data n := by
  unfold zlibReads at h
  unfold zlibDecompressUncompressed
  by_cases hn : n < 6
  · rw [if_pos hn, if_pos hn]
  rw [if_neg hn] at h
  have hstored : isStored buffer data = isStored buffer' data := by
    rw [isStored, isStored, h.byte (p := data + 2) List.mem_cons_self]
  rw [if_neg hn, if_neg hn, ← hstored]
  by_cases hkind : isStored buffer data = false
  · rw [if_pos hkind, if_pos hkind]
  rw [if_neg hkind] at h
  have hlen : storedLength buffer data = storedLength buffer' data := by
    rw [storedLength, storedLength, h.byte (p := data + 3) (by simp),
      h.byte (p := data + 4) (by simp)]
  rw [if_neg hkind, if_neg hkind, ← hlen]
  dsimp only at h ⊢
  by_cases hgrants : alloc.grants 0 (storedLength buffer data) = true
  · rw [if_pos hgrants] at h
    rw [if_pos hgrants, if_pos hgrants]
    have hcopy := h ⟨data + 7, storedLength buffer data⟩ (by simp)
    refine congrArg some (Prod.ext rfl (funext fun i ↦ ?_))
    dsimp only
    by_cases hi : i < storedLength buffer data
    · rw [if_pos hi, if_pos hi]
      exact (hcopy _ (Nat.le_add_right _ i) (Nat.add_lt_add_left hi _)).symm
    · rw [if_neg hi, if_neg hi]
  · rw [if_neg hgrants, if_neg hgrants]

theorem prepare_congr (h : AgreeIn (inputReads alloc buffer size) buffer buffer') :
    prepare alloc buffer size = prepare alloc buffer' size := by
  unfold inputReads at h
  unfold prepare
  by_cases hsize : size < 8
  · simp [hsize]
  rw [if_neg hsize] at h
  have hsame : hasSignature buffer = hasSignature buffer' := by
    refine hasSignature_congr ?_
    simpa using h _ List.mem_cons_self
  rw [← hsame]
  by_cases hmatch : hasSignature buffer = false
  · simp [hmatch]
  rw [if_neg hmatch] at h
  have hread : readChunks buffer size = readChunks buffer' size := by
    refine readChunks_congr fun q hq s hs ↦ h s ?_
    exact List.mem_cons_of_mem _ (List.mem_append_left _ (List.mem_flatMap.mpr ⟨q, hq, hs⟩))
  rw [if_neg (by simp [hsize, hmatch]), if_neg (by simp [hsize, hmatch]), ← hread]
  rcases hchunks : readChunks buffer size with _ | _ | c
  · rfl
  · rfl
  · cases hdata : c.idat with
    | none => simp [hdata]
    | some data =>
        have hzlib : zlibDecompressUncompressed alloc buffer data c.idatSize =
            zlibDecompressUncompressed alloc buffer' data c.idatSize :=
          zlibDecompressUncompressed_congr fun s hs ↦ h s (by simp [hchunks, hdata, hs])
        simp [hdata, hzlib]

/-- The bytes listed as read determine the image. -/
theorem pngDecodeBuffer_congr (h : AgreeIn (inputReads alloc buffer size) buffer buffer') :
    pngDecodeBuffer alloc buffer size = pngDecodeBuffer alloc buffer' size := by
  rw [pngDecodeBuffer, pngDecodeBuffer, prepare_congr h]

/-! ## Rows -/

variable {filter : UInt8} {stride row cur n x i : ℕ} {prev : Option ℕ} {hasPrev : Bool}

theorem mem_columns (hx : x ∈ columns filter stride hasPrev) :
    x < stride ∧ (filter.toNat = 1 ∧ 4 ≤ x ∨ filter.toNat = 2 ∧ hasPrev = true ∨
      filter.toNat = 3 ∨ filter.toNat = 4) := by
  unfold columns at hx
  split at hx
  · next hfilter =>
    rw [List.mem_range'_1] at hx
    omega
  · next hfilter =>
    cases hasPrev with
    | false => cases hx
    | true => exact ⟨List.mem_range.mp hx, Or.inr (Or.inl ⟨hfilter, rfl⟩)⟩
  · next hfilter => exact ⟨List.mem_range.mp hx, by omega⟩
  · next hfilter => exact ⟨List.mem_range.mp hx, by omega⟩
  · cases hx

/-- A filter that visits a row visits its last byte. -/
theorem last_mem_columns (h : columns filter stride hasPrev ≠ []) :
    0 < stride ∧ stride - 1 ∈ columns filter stride hasPrev := by
  obtain ⟨x, hx⟩ := List.exists_mem_of_ne_nil _ h
  obtain ⟨hlt, hfilter⟩ := mem_columns hx
  refine ⟨by omega, ?_⟩
  rcases hfilter with ⟨hfilter, hx⟩ | ⟨hfilter, rfl⟩ | hfilter | hfilter <;>
    simp only [columns, hfilter, List.mem_range'_1, List.mem_range, if_true] <;> omega

theorem self_mem_touched (hx : x ∈ columns filter stride hasPrev) (row : ℕ) (prev : Option ℕ) :
    row + x ∈ touched filter row prev x := by
  rcases (mem_columns hx).2 with ⟨hfilter, -⟩ | ⟨hfilter, -⟩ | hfilter | hfilter <;>
    simp [touched, hfilter]

/-- The bytes touched are those of the row itself and of the row before. -/
theorem mem_touched (hi : i ∈ touched filter row prev x) :
    row ≤ i ∧ i ≤ row + x ∨ ∃ q, prev = some q ∧ i ≤ q + x := by
  have hleft : i ∈ (if 4 ≤ x then [row + (x - 4)] else []) → row ≤ i ∧ i ≤ row + x := by
    intro h
    split at h
    · rw [List.mem_singleton] at h
      omega
    · cases h
  have hup : i ∈ (prev.elim [] fun q ↦ [q + x]) → ∃ q, prev = some q ∧ i ≤ q + x := by
    intro h
    cases prev with
    | none => cases h
    | some q => exact ⟨q, rfl, (List.mem_singleton.mp h).le⟩
  have hupLeft : i ∈ (if 4 ≤ x then prev.elim [] fun q ↦ [q + (x - 4)] else []) →
      ∃ q, prev = some q ∧ i ≤ q + x := by
    intro h
    split at h
    · cases prev with
      | none => cases h
      | some q =>
          rw [Option.elim_some, List.mem_singleton] at h
          exact ⟨q, rfl, by omega⟩
    · cases h
  have hself : i ∈ [row + x] → row ≤ i ∧ i ≤ row + x := by
    intro h
    rw [List.mem_singleton] at h
    omega
  unfold touched at hi
  dsimp only at hi
  generalize (if 4 ≤ x then [row + (x - 4)] else []) = left at hleft hi
  generalize (if 4 ≤ x then prev.elim [] fun q ↦ [q + (x - 4)] else []) = upLeft at hupLeft hi
  generalize (prev.elim [] fun q ↦ [q + x]) = up at hup hi
  split at hi
  · exact Or.inl ((List.mem_append.mp hi).elim hleft hself)
  · exact (List.mem_append.mp hi).symm.imp hself hup
  · simp only [List.mem_append] at hi
    rcases hi with (hi | hi) | hi
    · exact Or.inl (hleft hi)
    · exact Or.inr (hup hi)
    · exact Or.inl (hself hi)
  · simp only [List.mem_append] at hi
    rcases hi with ((hi | hi) | hi) | hi
    · exact Or.inl (hleft hi)
    · exact Or.inr (hup hi)
    · exact Or.inr (hupLeft hi)
    · exact Or.inl (hself hi)
  · cases hi

theorem unfilterRow_of_not_visited (data : Mem)
    (h : ∀ x ∈ columns filter stride prev.isSome, i ≠ row + x) :
    unfilterRow filter stride row prev data i = data i := by
  unfold unfilterRow
  generalize columns filter stride prev.isSome = xs at h ⊢
  induction xs generalizing data with
  | nil => rfl
  | cons x xs ih =>
      rw [List.foldl_cons, ih _ fun y hy ↦ h y (List.mem_cons_of_mem x hy)]
      exact Function.update_of_ne (h x List.mem_cons_self) _ _

theorem unfilterRow_outside (filter : UInt8) (prev : Option ℕ) (data : Mem)
    (h : row + stride ≤ i) : unfilterRow filter stride row prev data i = data i := by
  apply unfilterRow_of_not_visited
  intro x hx
  have hlt := (mem_columns hx).1
  omega

/-- Bytes that are not touched do not change. -/
theorem unfilterRows_of_not_touched (rows : ℕ) (data : Mem)
    (h : i ∉ rowsTouched stride rows cur prev data) :
    unfilterRows stride rows cur prev data i = data i := by
  induction rows generalizing cur prev data with
  | zero => rfl
  | succ rows ih =>
      rw [rowsTouched, List.mem_append, List.mem_cons, not_or, not_or] at h
      obtain ⟨⟨-, hrow⟩, hrest⟩ := h
      rw [unfilterRows, ih _ hrest]
      apply unfilterRow_of_not_visited
      rintro x hx rfl
      exact hrow (List.mem_flatMap.mpr ⟨x, hx, self_mem_touched hx (cur + 1) prev⟩)

/-- A filter reads nothing but the bytes that it touches. -/
theorem prediction_congr {data data' : Mem}
    (h : ∀ i ∈ touched filter row prev x, data' i = data i) :
    prediction filter data' row prev x = prediction filter data row prev x := by
  have hleft : (∀ i ∈ (if 4 ≤ x then [row + (x - 4)] else []), data' i = data i) →
      (if 4 ≤ x then data' (row + (x - 4)) else 0) =
        if 4 ≤ x then data (row + (x - 4)) else 0 := by
    intro h
    split_ifs at h ⊢
    · exact h _ (List.mem_singleton_self _)
    · rfl
  have hup : (∀ i ∈ (prev.elim [] fun q ↦ [q + x]), data' i = data i) →
      (prev.elim 0 fun q ↦ data' (q + x)) = prev.elim 0 fun q ↦ data (q + x) := by
    cases prev with
    | none => exact fun _ ↦ rfl
    | some q => exact fun h ↦ h _ (List.mem_singleton_self _)
  have hupLeft : (∀ i ∈ (if 4 ≤ x then prev.elim [] fun q ↦ [q + (x - 4)] else []),
      data' i = data i) → (if 4 ≤ x then prev.elim 0 fun q ↦ data' (q + (x - 4)) else 0) =
        if 4 ≤ x then prev.elim 0 fun q ↦ data (q + (x - 4)) else 0 := by
    intro h
    split_ifs at h ⊢
    · cases prev with
      | none => rfl
      | some q => exact h _ (List.mem_singleton_self _)
    · rfl
  unfold touched at h
  unfold prediction
  dsimp only at h ⊢
  split at h
  · exact hleft (List.forall_mem_append.mp h).1
  · exact hup (List.forall_mem_append.mp h).1
  · simp only [List.forall_mem_append] at h
    rw [hleft h.1.1, hup h.1.2]
  · simp only [List.forall_mem_append] at h
    rw [hleft h.1.1.1, hup h.1.1.2, hupLeft h.1.2]
  · rfl

theorem unfilterRow_congr {data data' : Mem} (hsame : ∀ i < n, data' i = data i)
    (hin : ∀ x ∈ columns filter stride prev.isSome, ∀ i ∈ touched filter row prev x, i < n) :
    ∀ i < n, unfilterRow filter stride row prev data' i =
      unfilterRow filter stride row prev data i := by
  unfold unfilterRow
  generalize columns filter stride prev.isSome = xs at hin ⊢
  induction xs generalizing data data' with
  | nil => exact hsame
  | cons x xs ih =>
      rw [List.foldl_cons, List.foldl_cons]
      refine ih (fun i hi ↦ ?_) fun y hy ↦ hin y (List.mem_cons_of_mem x hy)
      have hprediction : prediction filter data' row prev x = prediction filter data row prev x :=
        prediction_congr fun i hi ↦ hsame i (hin x List.mem_cons_self i hi)
      simp only [Function.update_apply]
      split
      · next heq => rw [← heq, hsame i hi, hprediction]
      · exact hsame i hi

/-- Data that agree below a bound agree below it after the filters, if these
touch nothing above. -/
theorem unfilterRows_congr (rows : ℕ) {data data' : Mem} (hsame : ∀ i < n, data' i = data i)
    (hin : ∀ i ∈ rowsTouched stride rows cur prev data, i < n) :
    ∀ i < n, unfilterRows stride rows cur prev data' i =
      unfilterRows stride rows cur prev data i := by
  induction rows generalizing cur prev data data' with
  | zero => exact hsame
  | succ rows ih =>
      rw [rowsTouched, List.forall_mem_append, List.forall_mem_cons, List.forall_mem_flatMap] at hin
      obtain ⟨⟨hcur, hrow⟩, hrest⟩ := hin
      rw [unfilterRows, unfilterRows, hsame cur hcur]
      exact ih (unfilterRow_congr hsame hrow) hrest

/-- One row stays below a bound. -/
theorem row_within_iff (filter : UInt8) (n : ℕ)
    (hprev : ∀ q, prev = some q → q + stride ≤ cur) :
    (∀ i ∈ cur :: (columns filter stride prev.isSome).flatMap (touched filter (cur + 1) prev),
      i < n) ↔
      cur < n ∧ (columns filter stride prev.isSome ≠ [] → cur + (stride + 1) ≤ n) := by
  rw [List.forall_mem_cons, List.forall_mem_flatMap]
  refine and_congr_right fun hcur ↦ ⟨?_, ?_⟩
  · intro h hcolumns
    obtain ⟨hpos, hlast⟩ := last_mem_columns hcolumns
    have hlt := h _ hlast _ (self_mem_touched hlast (cur + 1) prev)
    omega
  · intro h x hx i hi
    have hlt := (mem_columns hx).1
    have hend := h (List.ne_nil_of_mem hx)
    rcases mem_touched hi with hi | ⟨q, hq, hi⟩
    · omega
    · have hq := hprev q hq
      omega

/-- All rows stay below a bound: the first byte of each must, and the last row
as a whole if its filter visits it.  The earlier rows end before the last. -/
theorem rowsTouched_within_iff (rows : ℕ) (data : Mem)
    (hprev : ∀ q, prev = some q → q + stride ≤ cur) :
    (∀ i ∈ rowsTouched stride (rows + 1) cur prev data, i < n) ↔
      cur + rows * (stride + 1) < n ∧
        (columns (data (cur + rows * (stride + 1))) stride (prev.isSome || 0 < rows) ≠ [] →
          cur + (rows + 1) * (stride + 1) ≤ n) := by
  induction rows generalizing cur prev data with
  | zero =>
      rw [rowsTouched, rowsTouched, List.append_nil, row_within_iff _ n hprev]
      simp
  | succ rows ih =>
      have habove : ∀ q, some (cur + 1) = some q → q + stride ≤ cur + (stride + 1) := by
        intro q hq
        have hq := Option.some.inj hq
        omega
      rw [rowsTouched, List.forall_mem_append, row_within_iff _ n hprev, ih _ habove,
        unfilterRow_outside _ _ _ (by omega)]
      have hmul : cur + (stride + 1) + rows * (stride + 1) = cur + (rows + 1) * (stride + 1) := by
        ring
      have hmul' : cur + (stride + 1) + (rows + 1) * (stride + 1) =
          cur + (rows + 1 + 1) * (stride + 1) := by
        ring
      rw [hmul, hmul']
      simp only [Option.isSome_some, Bool.true_or, Nat.succ_pos, decide_true, Bool.or_true]
      constructor
      · exact fun h ↦ h.2
      · intro h
        refine ⟨⟨by omega, fun _ ↦ by omega⟩, h⟩

/-! ## Working buffers -/

variable {j : Job}

theorem storedLength_lt (buffer : Mem) (data : ℕ) : storedLength buffer data < 2 ^ 16 := by
  have hlow := (buffer (data + 3)).toNat_lt
  have hhigh := (buffer (data + 4)).toNat_lt
  refine Nat.or_lt_two_pow (by omega) ?_
  rw [Nat.shiftLeft_eq]
  omega

theorem decompSize_lt (h : prepare alloc buffer size = some j) : j.decompSize < 2 ^ 16 := by
  unfold prepare at h
  split at h
  · cases h
  split at h
  · obtain ⟨data, -, h⟩ := Option.bind_eq_some_iff.mp h
    obtain ⟨⟨len, decomp⟩, hzlib, h⟩ := Option.bind_eq_some_iff.mp h
    obtain rfl := Option.some.inj h
    unfold zlibDecompressUncompressed at hzlib
    split at hzlib
    · cases hzlib
    split at hzlib
    · cases hzlib
    dsimp only at hzlib
    split at hzlib
    · obtain ⟨rfl, -⟩ := Prod.mk.inj (Option.some.inj hzlib)
      exact storedLength_lt buffer data
    · cases hzlib
  · cases h

/-- Every index in the data is below its size; and if there is a block for the
image, so is every index of the copies, which stay within the byte count asked
for and whose products are those of the numbers. -/
structure Job.InBounds (j : Job) (alloc : Allocator) : Prop where
  unfilter : ∀ i ∈ j.unfilterTouched, i < j.decompSize
  source : alloc.grants 1 j.outSize = true → ∀ y < j.height, (j.source y).Within j.decompSize
  target : alloc.grants 1 j.outSize = true → ∀ y < j.height, (j.target y).Within j.outSize
  exact : alloc.grants 1 j.outSize = true → j.stride = j.width * 4 ∧
    (∀ y < j.height, y * j.width % 2 ^ 32 = y * j.width) ∧
    j.outSize = j.width * j.height * 4

/-- The data are long enough for the image; or, without a block for it, for
what the filters visit. -/
def Job.LongEnough (j : Job) (alloc : Allocator) : Prop :=
  if alloc.grants 1 j.outSize then j.height * (4 * j.width + 1) ≤ j.decompSize
  else j.height = 0 ∨ (j.height - 1) * (j.stride + 1) < j.decompSize ∧
    (columns (j.decomp ((j.height - 1) * (j.stride + 1))) j.stride (1 < j.height) ≠ [] →
      j.height * (j.stride + 1) ≤ j.decompSize)

theorem unfilterTouched_within_iff (j : Job) (n : ℕ) :
    (∀ i ∈ j.unfilterTouched, i < n) ↔
      j.height = 0 ∨ (j.height - 1) * (j.stride + 1) < n ∧
        (columns (j.decomp ((j.height - 1) * (j.stride + 1))) j.stride (1 < j.height) ≠ [] →
          j.height * (j.stride + 1) ≤ n) := by
  unfold Job.unfilterTouched
  cases hheight : j.height with
  | zero => simp [rowsTouched]
  | succ rows =>
      rw [rowsTouched_within_iff rows j.decomp (by simp)]
      simp

/-- The sizes of an image that fits in data of less than 64 KiB. -/
theorem Job.exact_of_long_enough (hlt : j.decompSize < 2 ^ 16)
    (hlong : j.height * (4 * j.width + 1) ≤ j.decompSize) (hheight : 0 < j.height) :
    j.stride = j.width * 4 ∧ (∀ y < j.height, y * j.width % 2 ^ 32 = y * j.width) ∧
      j.outSize = j.width * j.height * 4 := by
  have hrow : 4 * j.width + 1 ≤ j.height * (4 * j.width + 1) := Nat.le_mul_of_pos_left _ hheight
  have harea : j.height * (4 * j.width + 1) = 4 * (j.width * j.height) + j.height := by ring
  refine ⟨?_, fun y hy ↦ ?_, ?_⟩
  · rw [Job.stride]
    omega
  · have hle : y * j.width ≤ j.height * j.width := Nat.mul_le_mul_right _ hy.le
    have hcomm := Nat.mul_comm j.height j.width
    omega
  · rw [Job.outSize]
    omega

theorem Job.sides_ne_zero (h : alloc.grants n j.outSize = true) :
    j.outSize ≠ 0 ∧ j.width ≠ 0 ∧ j.height ≠ 0 := by
  have hsize : j.outSize ≠ 0 := by
    intro hzero
    rw [hzero, alloc.grants_zero] at h
    cases h
  refine ⟨hsize, ?_, ?_⟩
  · intro hzero
    simp [Job.outSize, hzero] at hsize
  · intro hzero
    simp [Job.outSize, hzero] at hsize

/-- In bounds, an image for which there is a block is no longer than the
data. -/
theorem Job.InBounds.rows_le (h : j.InBounds alloc) (hgrants : alloc.grants 1 j.outSize = true) :
    j.height * (4 * j.width + 1) ≤ j.decompSize := by
  obtain ⟨hstride, -, -⟩ := h.exact hgrants
  obtain ⟨-, hwidth, hheight⟩ := Job.sides_ne_zero hgrants
  -- The copy of the last row ends with the last byte of the image.
  have hlast := (Span.within_iff _ _).mp (h.source hgrants (j.height - 1) (by omega))
  have hrows : j.height * (4 * j.width + 1) =
      (j.height - 1) * (4 * j.width + 1) + (4 * j.width + 1) := by
    rw [← Nat.succ_mul, Nat.succ_eq_add_one, Nat.sub_add_cancel (by omega)]
  simp only [Job.source, hstride, Nat.mul_comm j.width 4] at hlast
  omega

theorem Job.InBounds.outSize_le (h : j.InBounds alloc)
    (hgrants : alloc.grants 1 j.outSize = true) : j.outSize ≤ j.decompSize := by
  obtain ⟨-, -, hout⟩ := h.exact hgrants
  have hrows := h.rows_le hgrants
  have harea : j.height * (4 * j.width + 1) = j.width * j.height * 4 + j.height := by ring
  omega

/-- Data for all rows are enough, for the image as well. -/
theorem Job.inBounds_of_rows_le (hlt : j.decompSize < 2 ^ 16) (hheight : 0 < j.height)
    (hlong : j.height * (4 * j.width + 1) ≤ j.decompSize) : j.InBounds alloc := by
  obtain ⟨hstride, hproducts, hout⟩ := Job.exact_of_long_enough hlt hlong hheight
  have hall : j.height * (j.stride + 1) ≤ j.decompSize := by
    rw [hstride, Nat.mul_comm j.width 4]
    exact hlong
  refine ⟨(unfilterTouched_within_iff j _).mpr (Or.inr ⟨?_, fun _ ↦ hall⟩), fun _ y hy ↦ ?_,
    fun _ y hy ↦ ?_, fun _ ↦ ⟨hstride, hproducts, hout⟩⟩
  · have hend := (row_add_le (show j.height - 1 < j.height by omega) _).trans hall
    omega
  · have hend := (row_add_le hy _).trans hall
    rw [Span.within_iff]
    dsimp only [Job.source]
    omega
  · have hend := row_add_le hy j.width
    have hcomm := Nat.mul_comm j.height j.width
    rw [Span.within_iff]
    dsimp only [Job.target]
    rw [hproducts y hy, hstride, hout]
    omega

theorem Job.inBounds_iff (h : prepare alloc buffer size = some j) :
    j.InBounds alloc ↔ j.LongEnough alloc := by
  have hlt := decompSize_lt h
  unfold Job.LongEnough
  cases hgrants : alloc.grants 1 j.outSize with
  | false =>
      simp only [Bool.false_eq_true, if_false]
      rw [← unfilterTouched_within_iff]
      exact ⟨fun hin ↦ hin.unfilter, fun hin ↦ ⟨hin, by simp [hgrants], by simp [hgrants],
        by simp [hgrants]⟩⟩
  | true =>
      simp only [if_true]
      have hheight : 0 < j.height := Nat.pos_of_ne_zero (Job.sides_ne_zero hgrants).2.2
      exact ⟨fun hin ↦ hin.rows_le hgrants, Job.inBounds_of_rows_le hlt hheight⟩

/-- In bounds, the filters change nothing behind the data. -/
theorem Job.InBounds.unfilter_kept (h : j.InBounds alloc) (hi : j.decompSize ≤ i) :
    pngUnfilter j.decomp j.width j.height i = j.decomp i := by
  apply unfilterRows_of_not_touched
  intro htouched
  exact absurd (h.unfilter i htouched) (not_lt.mpr hi)

/-- The file of an image of one pixel, with these bytes in its stored block. -/
def onePixel (stored : List UInt8) : List UInt8 :=
  signature ++ chunkBytes headerType (be32 1 ++ be32 1 ++ [8, 6, 0, 0, 0]) ++
    chunkBytes dataType ([0x78, 1, 1] ++ le16 stored.length ++ le16 (2 ^ 16 - 1 - stored.length) ++
      stored ++ be32 (adler32 stored)) ++ chunkBytes endType []

def jobOf (file : List UInt8) : Option Job := prepare freshHeap (bufferOf file) file.length

theorem Job.inBounds_one_pixel : ∃ j, jobOf (onePixel [0, 10, 20, 30, 40]) = some j ∧
    j.InBounds freshHeap := by
  have hjob : (jobOf (onePixel [0, 10, 20, 30, 40])).map
      (fun j ↦ (freshHeap.grants 1 j.outSize,
        decide (j.height * (4 * j.width + 1) ≤ j.decompSize))) = some (true, true) := by
    decide +kernel
  simp only [Option.map_eq_some_iff, Prod.mk.injEq, decide_eq_true_eq] at hjob
  obtain ⟨j, hj, hgrants, hlong⟩ := hjob
  refine ⟨j, hj, (Job.inBounds_iff hj).mpr ?_⟩
  rw [Job.LongEnough, if_pos hgrants]
  exact hlong

/-- One byte of data for a pixel of four: the copy reads beyond the block. -/
theorem short_data_overread : ∃ j, jobOf (onePixel [0]) = some j ∧ j.decompSize = 1 ∧
    freshHeap.grants 1 j.outSize = true ∧ j.source 0 = ⟨1, 4⟩ ∧ ¬j.InBounds freshHeap := by
  have hjob : (jobOf (onePixel [0])).map (fun j ↦ ((j.decompSize, freshHeap.grants 1 j.outSize),
      j.source 0, j.height)) = some ((1, true), ⟨1, 4⟩, 1) := by
    decide +kernel
  simp only [Option.map_eq_some_iff, Prod.mk.injEq] at hjob
  obtain ⟨j, hj, ⟨hsize, hgrants⟩, hsource, hheight⟩ := hjob
  refine ⟨j, hj, hsize, hgrants, hsource, fun hin ↦ ?_⟩
  have hwithin := hin.source hgrants 0 (by omega) 4
  rw [hsource, hsize] at hwithin
  exact absurd (hwithin (by decide) (by decide)) (by decide)

end ImplusKernel.Png
