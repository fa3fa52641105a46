import ImplusKernel.Memory.HeapOwnership
import ImplusKernel.Syscall.FileTotality
import ImplusKernel.Userland.PngBounds

/-!
# The decoder in memory

The program of the decoder on the machine: its input and its two blocks are
bytes of memory, and the blocks come from the kernel's heap.  Of the blocks it
takes, all but the image are given back.
-/

namespace ImplusKernel.Userland

open ByteMemory Disk Fat32 Heap Png Syscall

/-! ## The program -/

/-- The system call behind `kmalloc`. -/
def kmallocCall (m : Machine) (size : ℕ) : Option (Machine × ℕ) := do
  let (memory, r) ← kmalloc m.memory size
  some ({ m with memory := memory, io := m.io.print r.serial }, r.ptr)

/-- The system call behind `kfree`. -/
def kfreeCall (m : Machine) (ptr : ℕ) : Option Machine := do
  let (memory, r) ← kfree m.memory ptr
  some { m with memory := memory, io := m.io.print r.serial }

/-- The bytes from `ptr` on. -/
def view (m : Machine) (ptr : ℕ) : Mem := fun i ↦ m.memory.mem ((ptr + i) % 2 ^ 64)

/-- The new block and its size. -/
def zlibDecompressUncompressed (m : Machine) (buffer data size : ℕ) :
    Option (Machine × Option (ℕ × ℕ)) :=
  if size < 6 then some (m, none)
  else if isStored (view m buffer) data = false then some (m, none)
  else do
    let len := storedLength (view m buffer) data
    let (m₁, out) ← kmallocCall m len
    if out = 0 then some (m₁, none)
    else some (m₁.setMem (memcpy m₁.memory.mem out (buffer + (data + 7)) len), some (out, len))

/-- `png_decode_buffer` up to the call of `png_unfilter`: the block `decomp`
and the arguments of that call. -/
def decompress (m : Machine) (buffer size : ℕ) : Option (Machine × Option (ℕ × Job)) :=
  if size < 8 ∨ hasSignature (view m buffer) = false then some (m, none)
  else
    match readChunks (view m buffer) size with
    | none => none
    | some none => some (m, none)
    | some (some c) =>
        match c.idat with
        | none => some (m, none)
        | some data => do
            let (m₁, block) ← zlibDecompressUncompressed m buffer data c.idatSize
            some (m₁, block.map fun (decomp, len) ↦
              (decomp, ⟨c.width, c.height, len, view m₁ decomp⟩))

/-- `png_unfilter` works in place.  The index of an address counts from
`decomp` on. -/
def unfilterInPlace (mem : Mem) (decomp : ℕ) (j : Job) : Mem :=
  let unfiltered := pngUnfilter j.decomp j.width j.height
  fun x ↦ if x < 2 ^ 64 then unfiltered ((x + 2 ^ 64 - decomp) % 2 ^ 64) else mem x

/-- The loop that copies the rows. -/
def copyRowsTo (mem : Mem) (out decomp : ℕ) (j : Job) : Mem :=
  (List.range j.height).foldl
    (fun mem y ↦ memcpy mem (out + (j.target y).start) (decomp + (j.source y).start) j.stride) mem

/-- `png_decode_buffer`: the pixels, the width and the height. -/
def pngDecodeBuffer (m : Machine) (buffer size : ℕ) :
    Option (Machine × Option (ℕ × ℕ × ℕ)) := do
  let (m₁, started) ← decompress m buffer size
  match started with
  | none => some (m₁, none)
  | some (decomp, j) =>
      let m₂ := m₁.setMem (unfilterInPlace m₁.memory.mem decomp j)
      let (m₃, out) ← kmallocCall m₂ j.outSize
      if out = 0 then
        let m₄ ← kfreeCall m₃ decomp
        some (m₄, none)
      else
        let m₄ ← kfreeCall (m₃.setMem (copyRowsTo m₃.memory.mem out decomp j)) decomp
        some (m₄, some (out, j.width, j.height))

/-! ## Blocks of the decoder -/

variable {m m' m₁ : Machine} {s₀ : MemoryState} {own : List Block} {b : Block}
  {buffer size : ℕ}

theorem kmallocCall_eq {memory : MemoryState} {r : KmallocResult}
    (h : kmalloc m.memory size = some (memory, r)) : kmallocCall m size =
      some ({ m with memory := memory, io := m.io.print r.serial }, r.ptr) := by
  simp [kmallocCall, h]

theorem kfreeCall_eq {ptr : ℕ} {memory : MemoryState} {r : KfreeResult}
    (h : kfree m.memory ptr = some (memory, r)) : kfreeCall m ptr =
      some { m with memory := memory, io := m.io.print r.serial } := by
  simp [kfreeCall, h]

theorem kmallocCall_owns (h : Owns s₀ m.memory own) (hpos : size ≠ 0) (hle : size ≤ 0xFFFFFFF8) :
    (∃ m', kmallocCall m size = some (m', 0) ∧ m'.memory = m.memory ∧ m'.bpb = m.bpb ∧
      m'.files = m.files) ∨
    ∃ m' b, kmallocCall m size = some (m', payload b) ∧ m'.bpb = m.bpb ∧ m'.files = m.files ∧
      Owns s₀ m'.memory (b :: own) ∧ size ≤ b.size ∧
      ∀ x, OwnByte own x → m'.memory.mem x = m.memory.mem x := by
  rcases h.kmalloc hpos hle with ⟨n, hk⟩ | ⟨memory, b, hk, howns, hsize, hkept⟩
  · exact Or.inl ⟨_, kmallocCall_eq hk, rfl, rfl, rfl⟩
  · exact Or.inr ⟨_, b, kmallocCall_eq hk, rfl, rfl, howns, hsize, hkept⟩

theorem kfreeCall_owns (h : Owns s₀ m.memory (b :: own)) (hsize : b.size ≠ 0) :
    ∃ m', kfreeCall m (payload b) = some m' ∧ m'.files = m.files ∧ Owns s₀ m'.memory own ∧
      ∀ x, OwnByte own x → m'.memory.mem x = m.memory.mem x := by
  obtain ⟨memory, hk, howns, hkept⟩ := h.kfree hsize
  exact ⟨_, kfreeCall_eq hk, rfl, howns, hkept⟩

/-- Stores to the first bytes of a block that is owned. -/
theorem owns_setMem (h : Owns s₀ m.memory (b :: own)) {mem : Mem} (hle : size ≤ b.size)
    (hmem : ∀ x, x < payload b ∨ payload b + size ≤ x → mem x = m.memory.mem x) :
    Owns s₀ (m.setMem mem).memory (b :: own) := by
  refine h.store fun x hx ↦ hmem x ?_
  by_contra hin
  exact hx (writable_of_mem (List.mem_cons_self ..) (by omega) (by omega))

/-- The chunks and the data of the last data chunk, if the decoder comes to
ask for its first block. -/
def storedData (buffer : Mem) (size : ℕ) : Option (Chunks × ℕ) :=
  if size < 8 ∨ hasSignature buffer = false then none
  else
    match readChunks buffer size with
    | some (some c) => c.idat.bind fun data ↦
        if c.idatSize < 6 ∨ isStored buffer data = false then none else some (c, data)
    | _ => none

/-- What the machine looks like once the stored block has been copied. -/
def blockCopied (m : Machine) (out buffer data len : ℕ) : Machine :=
  m.setMem (memcpy m.memory.mem out (buffer + (data + 7)) len)

theorem of_storedData {c : Chunks} {data : ℕ} {buffer : Mem}
    (h : storedData buffer size = some (c, data)) :
    ¬(size < 8 ∨ hasSignature buffer = false) ∧ readChunks buffer size = some (some c) ∧
      c.idat = some data ∧ ¬c.idatSize < 6 ∧ ¬isStored buffer data = false := by
  unfold storedData at h
  split at h
  · cases h
  next hearly =>
  split at h
  swap
  · cases h
  next c' hread =>
  obtain ⟨data', hdata, h⟩ := Option.bind_eq_some_iff.mp h
  split at h
  · cases h
  next hkind =>
  obtain ⟨rfl, rfl⟩ := Prod.mk.inj (Option.some.inj h)
  exact ⟨hearly, hread, hdata, not_or.mp hkind⟩

theorem of_storedData_none {c : Chunks} {data : ℕ} {buffer : Mem}
    (h : storedData buffer size = none) (hearly : ¬(size < 8 ∨ hasSignature buffer = false))
    (hread : readChunks buffer size = some (some c)) (hdata : c.idat = some data) :
    c.idatSize < 6 ∨ isStored buffer data = false := by
  by_contra hkind
  rw [storedData, if_neg hearly, hread] at h
  dsimp only at h
  rw [hdata, Option.bind_some, if_neg hkind] at h
  cases h

theorem decompress_of_none (h : storedData (view m buffer) size = none) :
    decompress m buffer size = some (m, none) := by
  unfold decompress
  by_cases hearly : size < 8 ∨ hasSignature (view m buffer) = false
  · rw [if_pos hearly]
  rw [if_neg hearly]
  obtain ⟨chunks, hread⟩ := Option.isSome_iff_exists.mp (readChunks_isSome (view m buffer) size)
  rw [hread]
  rcases chunks with _ | c
  · rfl
  dsimp only
  rcases hdata : c.idat with _ | data
  · rfl
  dsimp only [zlibDecompressUncompressed]
  by_cases hshort : c.idatSize < 6
  · rw [if_pos hshort]
    rfl
  · rw [if_neg hshort, if_pos ((of_storedData_none h hearly hread hdata).resolve_left hshort)]
    rfl

theorem decompress_of_some {c : Chunks} {data : ℕ} {out : ℕ}
    (h : storedData (view m buffer) size = some (c, data))
    (hk : kmallocCall m (storedLength (view m buffer) data) = some (m₁, out)) :
    decompress m buffer size = some (if out = 0 then (m₁, none) else
      (blockCopied m₁ out buffer data (storedLength (view m buffer) data),
        some (out, ⟨c.width, c.height, storedLength (view m buffer) data,
          view (blockCopied m₁ out buffer data (storedLength (view m buffer) data)) out⟩))) := by
  obtain ⟨hearly, hread, hdata, hlong, hkind⟩ := of_storedData h
  rw [decompress, if_neg hearly, hread]
  dsimp only
  rw [hdata]
  dsimp only [zlibDecompressUncompressed]
  rw [if_neg hlong, if_neg hkind, hk]
  dsimp only [Option.bind_eq_bind, Option.bind_some]
  by_cases hnull : out = 0
  · simp only [if_pos hnull, Option.bind_some, Option.map_none]
  · simp only [if_neg hnull, Option.bind_some, Option.map_some]
    rfl

/-- The call for the first block, in all cases. -/
theorem kmallocCall_stored (h : Owns s₀ m.memory own) (buffer data : ℕ) :
    (∃ m₁, kmallocCall m (storedLength (view m buffer) data) = some (m₁, 0) ∧
      m₁.files = m.files ∧ Owns s₀ m₁.memory own) ∨
    ∃ m₁ d, kmallocCall m (storedLength (view m buffer) data) = some (m₁, payload d) ∧
      m₁.files = m.files ∧ Owns s₀ m₁.memory (d :: own) ∧
      storedLength (view m buffer) data ≤ d.size ∧ storedLength (view m buffer) data ≠ 0 ∧
      ∀ x, OwnByte own x → m₁.memory.mem x = m.memory.mem x := by
  have hlt := storedLength_lt (view m buffer) data
  generalize storedLength (view m buffer) data = len at hlt
  by_cases hzero : len = 0
  · obtain ⟨bs, hinv⟩ := h.invariant
    rw [hzero, kmallocCall_eq (kmalloc_zero hinv.represents)]
    exact Or.inl ⟨_, rfl, rfl, h⟩
  rcases kmallocCall_owns h hzero (by omega) with
    ⟨m₁, hk, hmemory, -, hfiles⟩ | ⟨m₁, d, hk, -, hfiles, howns, hsize, hkept⟩
  · exact Or.inl ⟨m₁, hk, hfiles, by rwa [hmemory]⟩
  · exact Or.inr ⟨m₁, d, hk, hfiles, howns, hsize, hzero, hkept⟩

/-- `decompress` takes one block, or none. -/
theorem decompress_owns (h : Owns s₀ m.memory own) (buffer size : ℕ) :
    (∃ m₁, decompress m buffer size = some (m₁, none) ∧ m₁.files = m.files ∧
      Owns s₀ m₁.memory own) ∨
    ∃ m₁ d j, decompress m buffer size = some (m₁, some (payload d, j)) ∧ m₁.files = m.files ∧
      Owns s₀ m₁.memory (d :: own) ∧ j.decompSize ≤ d.size ∧ j.decompSize ≠ 0 ∧
      j.decompSize < 2 ^ 16 ∧ j.decomp = view m₁ (payload d) := by
  cases hstored : storedData (view m buffer) size with
  | none => exact Or.inl ⟨m, decompress_of_none hstored, rfl, h⟩
  | some found =>
      obtain ⟨c, data⟩ := found
      rcases kmallocCall_stored h buffer data with
        ⟨m₁, hk, hfiles, howns⟩ | ⟨m₁, d, hk, hfiles, howns, hsize, hne, -⟩
      · refine Or.inl ⟨m₁, ?_, hfiles, howns⟩
        rw [decompress_of_some hstored hk, if_pos rfl]
      · have hbounds := howns.bounds (List.mem_cons_self ..)
        have hcopied : Owns s₀ (blockCopied m₁ (payload d) buffer data
            (storedLength (view m buffer) data)).memory (d :: own) :=
          owns_setMem howns hsize fun x hx ↦ memcpy_outside _ _ (by omega) hx
        have hrun := decompress_of_some hstored hk
        rw [if_neg (payload_ne_zero d)] at hrun
        exact Or.inr ⟨_, d, _, hrun, hfiles, hcopied, hsize, hne, storedLength_lt _ _, rfl⟩

/-- The decoder works within its two blocks. -/
def DecodesInBounds (m : Machine) (buffer size : ℕ) : Prop :=
  ∀ m₁ decomp j, decompress m buffer size = some (m₁, some (decomp, j)) →
    j.InBounds (.ofHeap fun _ ↦ (m₁.setMem (unfilterInPlace m₁.memory.mem decomp j)).memory)

theorem unfilterInPlace_outside {alloc : Allocator} {j : Job} {decomp x : ℕ}
    (hin : j.InBounds alloc) (hview : j.decomp = view m decomp)
    (hfit : decomp + j.decompSize ≤ 2 ^ 64) (hx : x < decomp ∨ decomp + j.decompSize ≤ x) :
    unfilterInPlace m.memory.mem decomp j x = m.memory.mem x := by
  dsimp only [unfilterInPlace]
  split
  · next hlt =>
      have hback : (decomp + (x + 2 ^ 64 - decomp) % 2 ^ 64) % 2 ^ 64 = x := by omega
      rw [hin.unfilter_kept (by omega), hview, view, hback]
  · rfl

theorem copyRowsTo_outside {alloc : Allocator} {j : Job} {out x : ℕ} (hin : j.InBounds alloc)
    (hgrants : alloc.grants 1 j.outSize = true) (mem : Mem) (decomp : ℕ)
    (hfit : out + j.outSize ≤ 2 ^ 64) (hx : x < out ∨ out + j.outSize ≤ x) :
    copyRowsTo mem out decomp j x = mem x := by
  have hrows : ∀ y ∈ List.range j.height, y < j.height := fun y ↦ List.mem_range.mp
  unfold copyRowsTo
  generalize List.range j.height = ys at hrows ⊢
  induction ys generalizing mem with
  | nil => rfl
  | cons y ys ih =>
      rw [List.foldl_cons, ih _ fun y' hy' ↦ hrows y' (List.mem_cons_of_mem y hy')]
      have hwithin := (Span.within_iff _ _).mp (hin.target hgrants y (hrows y List.mem_cons_self))
      dsimp only [Job.target] at hwithin ⊢
      rcases hwithin with hzero | hwithin
      · rw [hzero]
        rfl
      · exact memcpy_outside _ _ (by omega) (by omega)

theorem grants_ofHeap {s s' : MemoryState} {r : KmallocResult} {n : ℕ}
    (h : kmalloc s n = some (s', r)) (k : ℕ) :
    (Allocator.ofHeap fun _ ↦ s).grants k n = decide (r.ptr ≠ 0) := by
  simp [Allocator.ofHeap, h]

/-- In bounds, the second block is as large as the image, or there is none. -/
theorem kmallocCall_image (h : Owns s₀ m.memory own) {j : Job}
    (hin : j.InBounds (.ofHeap fun _ ↦ m.memory)) (hlt : j.decompSize < 2 ^ 16) :
    (∃ m', kmallocCall m j.outSize = some (m', 0) ∧ m'.memory = m.memory ∧
      m'.files = m.files) ∨
    ∃ m' o, kmallocCall m j.outSize = some (m', payload o) ∧ m'.files = m.files ∧
      Owns s₀ m'.memory (o :: own) ∧ j.outSize ≤ o.size ∧
      (Allocator.ofHeap fun _ ↦ m.memory).grants 1 j.outSize = true ∧
      ∀ x, OwnByte own x → m'.memory.mem x = m.memory.mem x := by
  cases hgrants : (Allocator.ofHeap fun _ ↦ m.memory).grants 1 j.outSize with
  | true =>
      have hle := hin.outSize_le hgrants
      rcases kmallocCall_owns h (Job.sides_ne_zero hgrants).1 (by omega) with
        ⟨m', hk, hmemory, -, hfiles⟩ | ⟨m', o, hk, -, hfiles, howns, hsize, hkept⟩
      · exact Or.inl ⟨m', hk, hmemory, hfiles⟩
      · exact Or.inr ⟨m', o, hk, hfiles, howns, hsize, rfl, hkept⟩
  | false =>
      obtain ⟨bs, hinv⟩ := h.invariant
      left
      by_cases hzero : j.outSize = 0
      · rw [hzero]
        exact ⟨_, kmallocCall_eq (kmalloc_zero hinv.represents), rfl, rfl⟩
      rcases kmalloc_spec hinv hzero with ⟨pre, b, post, -, -, -, hk⟩ | ⟨-, hk⟩
      · rw [grants_ofHeap hk] at hgrants
        exact absurd (of_decide_eq_false hgrants) (not_not_intro (payload_ne_zero b))
      · exact ⟨_, kmallocCall_eq hk, rfl, rfl⟩

/-- The decoder gives back all its blocks but the image. -/
theorem pngDecodeBuffer_owns (h : Owns s₀ m.memory own) (hin : DecodesInBounds m buffer size) :
    (∃ m', pngDecodeBuffer m buffer size = some (m', none) ∧ m'.files = m.files ∧
      Owns s₀ m'.memory own) ∨
    ∃ m' o width height, pngDecodeBuffer m buffer size =
        some (m', some (payload o, width, height)) ∧ m'.files = m.files ∧ width ≠ 0 ∧
      height ≠ 0 ∧ Owns s₀ m'.memory (o :: own) := by
  unfold pngDecodeBuffer
  rcases decompress_owns h buffer size with
    ⟨m₁, hstart, hfiles, howns⟩ | ⟨m₁, d, j, hstart, hfiles, howns, hle, hne, hlt, hview⟩
  · rw [hstart]
    exact Or.inl ⟨m₁, rfl, hfiles, howns⟩
  have hjob := hin m₁ (payload d) j hstart
  have hbounds := howns.bounds (List.mem_cons_self ..)
  have howns₂ := owns_setMem howns hle fun x hx ↦
    unfilterInPlace_outside hjob hview (by omega) hx
  rw [hstart]
  dsimp only [Option.bind_eq_bind, Option.bind_some]
  generalize hm₂ : m₁.setMem (unfilterInPlace m₁.memory.mem (payload d) j) = m₂ at hjob howns₂ ⊢
  have hfiles₂ : m₂.files = m.files := by
    rw [← hm₂]
    exact hfiles
  rcases kmallocCall_image howns₂ hjob hlt with
    ⟨m₃, hk, hmemory, hfiles₃⟩ | ⟨m₃, o, hk, hfiles₃, howns₃, hout, hgrants, -⟩
  · rw [← hmemory] at howns₂
    obtain ⟨m₄, hfree, hfiles₄, howns₄, -⟩ := kfreeCall_owns howns₂ (by omega)
    rw [hk]
    dsimp only [Option.bind_some]
    rw [if_pos rfl, hfree]
    exact Or.inl ⟨m₄, rfl, hfiles₄.trans (hfiles₃.trans hfiles₂), howns₄⟩
  · obtain ⟨-, hwidth, hheight⟩ := Job.sides_ne_zero hgrants
    have hbounds₃ := howns₃.bounds (List.mem_cons_self ..)
    have hcopied := owns_setMem howns₃ hout fun x hx ↦
      copyRowsTo_outside hjob hgrants m₃.memory.mem (payload d) (by omega) hx
    obtain ⟨m₄, hfree, hfiles₄, howns₄, -⟩ :=
      kfreeCall_owns (hcopied.perm (List.Perm.swap d o own)) (by omega)
    rw [hk]
    dsimp only [Option.bind_some]
    rw [if_neg (payload_ne_zero o), hfree]
    exact Or.inr ⟨m₄, o, j.width, j.height, rfl, hfiles₄.trans (hfiles₃.trans hfiles₂), hwidth,
      hheight, howns₄⟩

end ImplusKernel.Userland
