import ImplusKernel.Userland.PngDecoding
import ImplusKernel.Userland.PngMemory

/-!
# The decoder in memory and on buffers

The program of the decoder works on one memory, which its input, its blocks
and the headers of the heap share.  As long as its reads of the input and its
work on the blocks stay in bounds, it computes what the decoder on separate
buffers computes.  They do for a file of one stored block.
-/

namespace ImplusKernel.Userland

open ByteMemory Heap Png Syscall

variable {m m₁ m' : Machine} {s₀ : MemoryState} {own : List Block} {b d : Block}
  {buffer size : ℕ}

/-- The machine after `png_unfilter`. -/
def unfiltered (m : Machine) (decomp : ℕ) (j : Job) : Machine :=
  m.setMem (unfilterInPlace m.memory.mem decomp j)

/-- The heap at the two calls of the decoder. -/
def decoderHeap (m : Machine) (buffer size : ℕ) : Allocator :=
  .ofHeap fun n ↦
    match decompress m buffer size with
    | some (m₁, some (decomp, j)) => if n = 0 then m.memory else (unfiltered m₁ decomp j).memory
    | _ => m.memory

/-- The same picture, in memory at the address that is returned. -/
def Delivers (m : Machine) : Option (ℕ × ℕ × ℕ) → Option (ℕ × ℕ × Mem) → Prop
  | none, none => True
  | some (out, width, height), some (width', height', pixels) =>
      width = width' ∧ height = height' ∧ ∀ i < width * height * 4, view m out i = pixels i
  | _, _ => False

/-! ## The first block -/

theorem ofHeap_kmallocCall {states : ℕ → MemoryState} {k n ptr : ℕ} (hk : states k = m.memory)
    (h : kmallocCall m n = some (m', ptr)) :
    (Allocator.ofHeap states).grants k n = decide (ptr ≠ 0) ∧
      (Allocator.ofHeap states).contents k n = view m' ptr := by
  obtain ⟨⟨memory, r⟩, hcall, hsome⟩ := Option.bind_eq_some_iff.mp h
  obtain ⟨rfl, rfl⟩ := Prod.mk.inj (Option.some.inj hsome)
  simp only [Allocator.ofHeap, hk, hcall]
  exact ⟨rfl, rfl⟩

theorem decoderHeap_first {n ptr : ℕ} (h : kmallocCall m n = some (m', ptr)) :
    (decoderHeap m buffer size).grants 0 n = decide (ptr ≠ 0) := by
  refine (ofHeap_kmallocCall ?_ h).1
  split <;> rfl

theorem decoderHeap_second {decomp n ptr : ℕ} {j : Job}
    (hrun : decompress m buffer size = some (m₁, some (decomp, j)))
    (h : kmallocCall (unfiltered m₁ decomp j) n = some (m', ptr)) :
    (decoderHeap m buffer size).grants 1 n = decide (ptr ≠ 0) ∧
      (decoderHeap m buffer size).contents 1 n = view m' ptr := by
  refine ofHeap_kmallocCall ?_ h
  rw [hrun]
  rfl

theorem prepare_of_none {buffer : Mem} (h : storedData buffer size = none) (alloc : Allocator) :
    prepare alloc buffer size = none := by
  unfold prepare
  by_cases hearly : size < 8 ∨ hasSignature buffer = false
  · rw [if_pos hearly]
  rw [if_neg hearly]
  rcases hread : readChunks buffer size with _ | _ | c
  · rfl
  · rfl
  dsimp only
  rcases hdata : c.idat with _ | data
  · rfl
  simp only [Option.bind_eq_bind, Option.bind_some, Png.zlibDecompressUncompressed]
  by_cases hshort : c.idatSize < 6
  · rw [if_pos hshort]
    rfl
  · rw [if_neg hshort, if_pos ((of_storedData_none h hearly hread hdata).resolve_left hshort)]
    rfl

theorem prepare_of_some {buffer : Mem} {c : Chunks} {data : ℕ}
    (h : storedData buffer size = some (c, data)) (alloc : Allocator) :
    prepare alloc buffer size = if alloc.grants 0 (storedLength buffer data) then
      some ⟨c.width, c.height, storedLength buffer data, fun i ↦
        if i < storedLength buffer data then buffer (data + 7 + i)
        else alloc.contents 0 (storedLength buffer data) i⟩
    else none := by
  obtain ⟨hearly, hread, hdata, hlong, hkind⟩ := of_storedData h
  rw [prepare, if_neg hearly, hread]
  simp only [hdata, Option.bind_eq_bind, Option.bind_some, Png.zlibDecompressUncompressed,
    if_neg hlong, if_neg hkind]
  split <;> rfl

/-- A stored block that the decoder copies ends in the input. -/
theorem stored_le {alloc : Allocator} {buffer : Mem} {c : Chunks} {data : ℕ}
    (h : storedData buffer size = some (c, data))
    (hinput : ∀ s ∈ inputReads alloc buffer size, s.Within size)
    (hgrants : alloc.grants 0 (storedLength buffer data) = true) :
    data + 7 + storedLength buffer data ≤ size := by
  obtain ⟨hearly, hread, hdata, hlong, hkind⟩ := of_storedData h
  rw [not_or, Bool.not_eq_false] at hearly
  have huncut := (inputReads_within_iff alloc buffer size).mp hinput (by omega) hearly.2
  exact ((huncut.stored c data hread hdata (by omega)).2 (by simpa using hkind)).2 hgrants

/-- The copy of the stored block in the first block. -/
theorem view_copied {data len i : ℕ} (howns : Owns s₀ m₁.memory (d :: own)) (hb : b ∈ own)
    (hd : len ≤ d.size) (hin : data + 7 + len ≤ b.size)
    (hkept : ∀ x, OwnByte own x → m₁.memory.mem x = m.memory.mem x) (hi : i < len) :
    view (blockCopied m₁ (payload d) (payload b) data len) (payload d) i =
      view m (payload b) (data + 7 + i) := by
  have hmine := List.mem_cons_of_mem d hb
  have hbounds := howns.bounds (List.mem_cons_self ..)
  have hbounds' := howns.bounds hmine
  have hne : d ≠ b := fun heq ↦ (List.nodup_cons.mp howns.nodup).1 (heq ▸ hb)
  have hapart := howns.apart (List.mem_cons_self ..) hmine hne
  have hto : (payload d + i) % 2 ^ 64 = payload d + i := Nat.mod_eq_of_lt (by omega)
  have hfrom : (payload b + (data + 7 + i)) % 2 ^ 64 = payload b + (data + 7) + i := by
    rw [Nat.mod_eq_of_lt (by omega)]
    omega
  simp only [view, blockCopied, Machine.setMem, hto, hfrom]
  rw [memcpy_inside _ (by omega) (by omega) (by omega) hi]
  exact hkept _ ⟨b, hb, by omega, by omega⟩

/-! ## The filters and the rows -/

theorem view_unfiltered {decomp i : ℕ} (j : Job) (hi : i < 2 ^ 64) (hfit : decomp + i < 2 ^ 64) :
    (unfiltered m decomp j).memory.mem (decomp + i) =
      pngUnfilter j.decomp j.width j.height i := by
  have hindex : (decomp + i + 2 ^ 64 - decomp) % 2 ^ 64 = i := by
    rw [show decomp + i + 2 ^ 64 - decomp = i + 2 ^ 64 by omega, Nat.add_mod_right,
      Nat.mod_eq_of_lt hi]
  simp only [unfiltered, Machine.setMem, unfilterInPlace, if_pos hfit, hindex]

section Rows

-- Two blocks in memory, with the data and the image.
variable {mem data image : Mem} {out decomp outSize dataSize : ℕ} (hout : out + outSize ≤ 2 ^ 64)
  (hdecomp : decomp + dataSize ≤ 2 ^ 64)
  (hapart : out + outSize ≤ decomp ∨ decomp + dataSize ≤ out)
  (hdata : ∀ i < dataSize, mem (decomp + i) = data i)
include hout hdecomp hapart hdata

/-- One row. -/
theorem memcpy_row {t s n : ℕ} (htarget : n = 0 ∨ t + n ≤ outSize)
    (hsource : n = 0 ∨ s + n ≤ dataSize) (himage : ∀ i < outSize, mem (out + i) = image i) :
    (∀ i < dataSize, memcpy mem (out + t) (decomp + s) n (decomp + i) = data i) ∧
      ∀ i < outSize, memcpy mem (out + t) (decomp + s) n (out + i) =
        if t ≤ i ∧ i < t + n then data (s + (i - t)) else image i := by
  rcases Nat.eq_zero_or_pos n with rfl | hpos
  · refine ⟨hdata, fun i hi ↦ ?_⟩
    rw [if_neg (by omega)]
    exact himage i hi
  have htarget := htarget.resolve_left (by omega)
  have hsource := hsource.resolve_left (by omega)
  refine ⟨fun i hi ↦ ?_, fun i hi ↦ ?_⟩
  · rw [memcpy_outside _ _ (by omega) (by omega), hdata i hi]
  split
  · next hrow =>
      rw [show out + i = out + t + (i - t) by omega,
        memcpy_inside _ (by omega) (by omega) (by omega) (by omega), Nat.add_assoc decomp,
        hdata _ (by omega)]
  · next hrow =>
      rw [memcpy_outside _ _ (by omega) (by omega), himage i hi]

end Rows

/-- Copies from one block to another are copies from one buffer to another. -/
theorem copyRowsTo_eq {alloc : Allocator} {j : Job} {out decomp : ℕ} {data image : Mem}
    (hin : j.InBounds alloc) (hgrants : alloc.grants 1 j.outSize = true)
    (hout : out + j.outSize ≤ 2 ^ 64) (hdecomp : decomp + j.decompSize ≤ 2 ^ 64)
    (hapart : out + j.outSize ≤ decomp ∨ decomp + j.decompSize ≤ out) (mem : Mem)
    (hdata : ∀ i < j.decompSize, mem (decomp + i) = data i)
    (himage : ∀ i < j.outSize, mem (out + i) = image i) :
    ∀ i < j.outSize, copyRowsTo mem out decomp j (out + i) = j.copyRows data image i := by
  have hrows : ∀ y ∈ List.range j.height, y < j.height := fun y ↦ List.mem_range.mp
  unfold copyRowsTo Job.copyRows
  generalize List.range j.height = ys at hrows ⊢
  induction ys generalizing mem image with
  | nil => exact himage
  | cons y ys ih =>
      have hy := hrows y List.mem_cons_self
      obtain ⟨hdata', himage'⟩ := memcpy_row (s := (j.source y).start) hout hdecomp hapart hdata
        ((Span.within_iff _ _).mp (hin.target hgrants y hy))
        ((Span.within_iff (j.source y) _).mp (hin.source hgrants y hy)) himage
      exact ih _ hdata' himage' fun y' hy' ↦ hrows y' (List.mem_cons_of_mem y hy')

/-! ## The whole decoder -/

section SecondBlock

variable {m₂ : Machine} {j : Job}
  (hrun : decompress m buffer size = some (m₂, some (payload d, j)))
  (howns : Owns s₀ m₂.memory (d :: own)) (hview : j.decomp = view m₂ (payload d))
  (hd : j.decompSize ≤ d.size) (hne : j.decompSize ≠ 0) (hlt : j.decompSize < 2 ^ 16)
  (hjob : j.InBounds (.ofHeap fun _ ↦ (unfiltered m₂ (payload d) j).memory))
include hrun howns hview hd hne hlt hjob

/-- From the second block on, with data that the first block holds. -/
theorem pngDecodeBuffer_second {data : Mem} (hdata : ∀ i < j.decompSize, data i = j.decomp i) :
    ∃ m' image, pngDecodeBuffer m buffer size = some (m', image) ∧
      Delivers m' image (if (decoderHeap m buffer size).grants 1 j.outSize then
        some (j.width, j.height, j.copyRows (pngUnfilter data j.width j.height)
          ((decoderHeap m buffer size).contents 1 j.outSize))
      else none) := by
  have hbounds := howns.bounds (List.mem_cons_self ..)
  have howns₂ : Owns s₀ (unfiltered m₂ (payload d) j).memory (d :: own) :=
    owns_setMem howns hd fun x hx ↦ unfilterInPlace_outside hjob hview (by omega) hx
  -- The data after the filters.
  have hunfiltered : ∀ i < j.decompSize, (unfiltered m₂ (payload d) j).memory.mem (payload d + i) =
      pngUnfilter data j.width j.height i := by
    intro i hi
    rw [view_unfiltered j (by omega) (by omega)]
    exact (unfilterRows_congr j.height hdata hjob.unfilter i hi).symm
  rw [pngDecodeBuffer, hrun]
  dsimp only [Option.bind_eq_bind, Option.bind_some]
  change ∃ m' image, ((kmallocCall (unfiltered m₂ (payload d) j) j.outSize).bind _) = _ ∧ _
  rcases kmallocCall_image howns₂ hjob hlt with
    ⟨m₃, hk, hmemory, -⟩ | ⟨m₃, o, hk, -, howns₃, ho, hgrants, hkept⟩
  · rw [← hmemory] at howns₂
    obtain ⟨m₄, hfree, -⟩ := kfreeCall_owns howns₂ (by omega)
    have hrefused : (decoderHeap m buffer size).grants 1 j.outSize = false :=
      (decoderHeap_second hrun hk).1
    rw [hk, hrefused]
    dsimp only [Option.bind_some]
    rw [if_pos rfl, hfree]
    exact ⟨m₄, none, rfl, trivial⟩
  obtain ⟨hgrants', hcontents⟩ := decoderHeap_second hrun hk
  have hbounds₃ := howns₃.bounds (List.mem_cons_self ..)
  have hne' : o ≠ d := fun heq ↦
    (List.nodup_cons.mp howns₃.nodup).1 (heq ▸ List.mem_cons_self ..)
  have hapart := howns₃.apart (List.mem_cons_self ..)
    (List.mem_cons_of_mem o (List.mem_cons_self ..)) hne'
  have hcopied : Owns s₀ (m₃.setMem (copyRowsTo m₃.memory.mem (payload o) (payload d) j)).memory
      (o :: d :: own) := owns_setMem howns₃ ho fun x hx ↦
    copyRowsTo_outside hjob hgrants m₃.memory.mem (payload d) (by omega) hx
  obtain ⟨m₄, hfree, -, -, hkept₄⟩ :=
    kfreeCall_owns (hcopied.perm (List.Perm.swap d o own)) (by omega)
  rw [hk, hgrants', decide_eq_true (payload_ne_zero o), hcontents]
  dsimp only [Option.bind_some]
  rw [if_neg (payload_ne_zero o), hfree, if_pos rfl]
  refine ⟨m₄, some (payload o, j.width, j.height), rfl, rfl, rfl, fun i hi ↦ ?_⟩
  rw [← (hjob.exact hgrants).2.2] at hi
  have hin : (payload o + i) % 2 ^ 64 = payload o + i := Nat.mod_eq_of_lt (by omega)
  rw [view, hin, hkept₄ _ ⟨o, List.mem_cons_self .., by omega, by omega⟩]
  refine copyRowsTo_eq hjob hgrants (by omega) (by omega) (by omega) m₃.memory.mem
    (fun i hi ↦ ?_) (fun i hi ↦ ?_) i hi
  · rw [hkept _ ⟨d, List.mem_cons_self .., by omega, by omega⟩]
    exact hunfiltered i hi
  · rw [view, Nat.mod_eq_of_lt (by omega)]

end SecondBlock

/-- The decoder in memory delivers what the decoder on buffers computes: the
same picture, or none. -/
theorem pngDecodeBuffer_refines (h : Owns s₀ m.memory own) (hb : b ∈ own) (hsize : size ≤ b.size)
    (hinput : ∀ s ∈ inputReads (decoderHeap m (payload b) size) (view m (payload b)) size,
      s.Within size)
    (hin : DecodesInBounds m (payload b) size) :
    ∃ m' image, pngDecodeBuffer m (payload b) size = some (m', image) ∧
      Delivers m' image (Png.pngDecodeBuffer (decoderHeap m (payload b) size)
        (view m (payload b)) size) := by
  cases hstored : storedData (view m (payload b)) size with
  | none =>
      refine ⟨m, none, ?_, ?_⟩
      · rw [pngDecodeBuffer, decompress_of_none hstored]
        rfl
      · rw [Png.pngDecodeBuffer, prepare_of_none hstored]
        trivial
  | some found =>
  obtain ⟨c, data⟩ := found
  rcases kmallocCall_stored h (payload b) data with
    ⟨m₁, hk, -, -⟩ | ⟨m₁, d, hk, -, howns, hd, hne, hkept⟩
  · refine ⟨m₁, none, ?_, ?_⟩
    · rw [pngDecodeBuffer, decompress_of_some hstored hk]
      rfl
    · rw [Png.pngDecodeBuffer, prepare_of_some hstored, decoderHeap_first hk]
      trivial
  have hgrants : (decoderHeap m (payload b) size).grants 0
      (storedLength (view m (payload b)) data) = true :=
    (decoderHeap_first hk).trans (decide_eq_true (payload_ne_zero d))
  have hinside := stored_le hstored hinput hgrants
  have hrun := decompress_of_some hstored hk
  rw [if_neg (payload_ne_zero d)] at hrun
  have hbounds := howns.bounds (List.mem_cons_self ..)
  have howns₂ : Owns s₀ (blockCopied m₁ (payload d) (payload b) data
      (storedLength (view m (payload b)) data)).memory (d :: own) :=
    owns_setMem howns hd fun x hx ↦ memcpy_outside _ _ (by omega) hx
  rw [Png.pngDecodeBuffer, prepare_of_some hstored, hgrants, if_pos rfl]
  refine pngDecodeBuffer_second hrun howns₂ rfl hd hne (storedLength_lt _ _) (hin _ _ _ hrun)
    fun i hi ↦ ?_
  exact (if_pos hi).trans (view_copied howns hb hd (by omega) hkept hi).symm

/-! ## Files of one block -/

section File

open PngFormat

variable {f : PngFile} (hone : OneBlock f)
include hone

/-- The decoder reads nothing behind the file. -/
theorem inputReads_file {buffer : Mem} (h : Holds buffer 0 f.bytes) (alloc : Allocator) :
    ∀ s ∈ inputReads alloc buffer f.bytes.length, s.Within f.bytes.length := by
  refine (inputReads_within_iff alloc buffer f.bytes.length).mpr fun _ _ ↦
    ⟨(walksTo_file h ⟨0, 0, none, 0⟩).starts _, ?_⟩
  intro c data hread hdata _
  obtain rfl := Option.some.inj (Option.some.inj (hread.symm.trans (readChunks_file h)))
  obtain rfl := Option.some.inj hdata
  obtain ⟨-, hlength, -⟩ := hone.stored h
  have hrows := congrArg List.length hone.data_eq
  have hlast := congrArg List.length hone.last_eq
  have hend : lastData f + f.last.length ≤ f.bytes.length := by
    simp only [lastData, PngFile.bytes, List.length_append, chunkBytes_length]
    omega
  rw [f.image.lines_length] at hrows
  simp only [Zlib.bytes, hone.blocks, StoredBlock.bytes, List.length_append, be32_length,
    le16_length, List.flatMap_nil, List.length_cons, List.length_nil] at hlast
  omega

theorem storedData_file {buffer : Mem} (h : Holds buffer 0 f.bytes) :
    storedData buffer f.bytes.length =
      some (⟨f.image.width, f.image.height, some (lastData f), f.last.length⟩, lastData f) := by
  obtain ⟨hstored, -, -⟩ := hone.stored h
  rw [storedData, if_neg (by simp [eight_le_file f, hasSignature_file h]), readChunks_file h]
  simp only [Option.bind_some]
  rw [if_neg (by simp [hone.last_length, hstored])]

theorem decodesInBounds_file (h : Owns s₀ m.memory own) (hfile : Holds (view m buffer) 0 f.bytes) :
    DecodesInBounds m buffer f.bytes.length := by
  intro m₁ decomp j hrun
  obtain ⟨-, hlength, -⟩ := hone.stored hfile
  have hcall : ∃ m₂ out,
      kmallocCall m (storedLength (view m buffer) (lastData f)) = some (m₂, out) := by
    rcases kmallocCall_stored h buffer (lastData f) with ⟨m₂, hk, -⟩ | ⟨m₂, d, hk, -⟩
    · exact ⟨m₂, 0, hk⟩
    · exact ⟨m₂, payload d, hk⟩
  obtain ⟨m₂, out, hk⟩ := hcall
  rw [decompress_of_some (storedData_file hone hfile) hk] at hrun
  split at hrun
  · cases hrun
  cases hrun
  exact Job.inBounds_of_rows_le (storedLength_lt _ _) f.image.height_pos hlength.ge

/-- A file of one block that the program holds in memory is shown, unless the
heap has no room for the rows or for the image. -/
theorem pngDecodeBuffer_file_shown (h : Owns s₀ m.memory own) (hb : b ∈ own)
    (hsize : f.bytes.length ≤ b.size) (hfile : Holds (view m (payload b)) 0 f.bytes) :
    ∃ m' image, pngDecodeBuffer m (payload b) f.bytes.length = some (m', image) ∧
      match image with
      | some (out, width, height) => Shows f.image (width, height, view m' out)
      | none =>
          let heap := decoderHeap m (payload b) f.bytes.length
          heap.grants 0 (f.image.height * (4 * f.image.width + 1)) = false ∨
            heap.grants 1 (f.image.width * f.image.height * 4) = false := by
  obtain ⟨m', image, hrun, hdelivers⟩ := pngDecodeBuffer_refines h hb hsize
    (inputReads_file hone hfile _) (decodesInBounds_file hone h hfile)
  refine ⟨m', image, hrun, ?_⟩
  cases image with
  | none =>
      by_contra hroom
      rw [not_or, Bool.not_eq_false, Bool.not_eq_false] at hroom
      rw [hone.decodes hfile hroom.1 hroom.2] at hdelivers
      exact hdelivers
  | some found =>
      obtain ⟨out, width, height⟩ := found
      rw [pngDecodeBuffer_file hfile] at hdelivers
      split at hdelivers
      · exact hdelivers.elim
      obtain ⟨rfl, rfl, hpixels⟩ := hdelivers
      refine ⟨rfl, rfl, fun y hy x hx ↦ ?_⟩
      have hindex : y * (4 * f.image.width) + x < f.image.width * f.image.height * 4 := by
        have hrow : (y + 1) * (4 * f.image.width) ≤ f.image.height * (4 * f.image.width) :=
          Nat.mul_le_mul_right _ hy
        have harea : f.image.height * (4 * f.image.width) =
            f.image.width * f.image.height * 4 := by ring
        rw [Nat.succ_mul] at hrow
        omega
      exact (hpixels _ hindex).trans (((hone.whole hfile).shows _).pixels y hy x hx)

end File

end ImplusKernel.Userland
