import ImplusKernel.Memory.HeapFootprint
import ImplusKernel.Syscall.FileTransfer

/-!
# The footprint of the file calls

On any drive, valid volume or not, a read changes no client byte outside the
buffer it is given and a write changes none at all.
-/

namespace ImplusKernel.Syscall

open ByteMemory Disk Fat32 Heap

variable {drive : Drive} {m m' : Machine} {s s' : MemoryState} {bs : List Block}
  {file : Fat32File} {fd r r' : ℤ} {buffer len ptr size : ℕ} {w : ℕ → Prop} {mem : Mem}

/-! ## The two halves of a call -/

/-- The request is in order and there are bytes to move. -/
def Moves (m : Machine) (fd : ℤ) (buffer len : ℕ) : Prop :=
  badRequest m fd buffer = false ∧ len ≠ 0 ∧
    (m.files fd.toNat).offset < (m.files fd.toNat).file.size

/-- A read once the file is loaded. -/
def finishRead (m : Machine) (f : KernelFile) (fd : ℤ) (buffer len : ℕ) :
    LoadResult → Option (Machine × ℤ)
  | .outOfMemory => some (m, -1)
  | .readFailed allData => m.release allData (-1)
  | .loaded allData =>
      ((m.setMem (memcpy m.memory.mem buffer (allData + f.offset) (transferSize f len))).setFile
        fd.toNat (advance f (transferSize f len))).release allData (transferSize f len)

/-- The rest of a write, when the patched file is in memory. -/
def writeBack (drive : Drive) (m : Machine) (f : KernelFile) (fd : ℤ) (len allData : ℕ) :
    Option (Machine × ℤ) :=
  match fat32WriteFile drive m.bpb m.io f.file
    (fun i ↦ m.memory.mem ((allData + i) % 2 ^ 64)) with
  | (io, false) => (m.setIo io).release allData (-1)
  | (io, true) =>
      ((m.setIo io).setFile fd.toNat (advance f (transferSize f len))).release allData
        (transferSize f len)

/-- A write once the file is loaded. -/
def finishWrite (drive : Drive) (m : Machine) (f : KernelFile) (fd : ℤ) (buffer len : ℕ) :
    LoadResult → Option (Machine × ℤ)
  | .outOfMemory => some (m, -1)
  | .readFailed allData => m.release allData (-1)
  | .loaded allData => writeBack drive
      (m.setMem (memcpy m.memory.mem (allData + f.offset) buffer (transferSize f len)))
      f fd len allData

theorem syscallFileRead_moves (h : Moves m fd buffer len) :
    syscallFileRead drive m fd buffer len =
      (loadFile drive m (m.files fd.toNat).file).bind fun p ↦
        finishRead p.1 (m.files fd.toNat) fd buffer len p.2 := by
  obtain ⟨hbad, hlen, hoffset⟩ := h
  simp only [syscallFileRead, hbad, Bool.false_eq_true, if_false, if_neg hlen,
    if_neg (not_le.mpr hoffset), Option.bind_eq_bind]
  rfl

theorem syscallFileRead_idle (drive : Drive) (h : ¬Moves m fd buffer len) :
    ∃ r ≤ 0, syscallFileRead drive m fd buffer len = some (m, r) := by
  unfold syscallFileRead
  cases hbad : badRequest m fd buffer with
  | true => exact ⟨-1, by decide, rfl⟩
  | false =>
      simp only [Bool.false_eq_true, if_false]
      by_cases hlen : len = 0
      · exact ⟨0, le_rfl, if_pos hlen⟩
      · rw [if_neg hlen]
        exact ⟨0, le_rfl, if_pos (not_lt.mp fun hoffset ↦ h ⟨hbad, hlen, hoffset⟩)⟩

theorem syscallFileWrite_moves (h : Moves m fd buffer len)
    (hwritable : (m.files fd.toNat).writable = true) :
    syscallFileWrite drive m fd buffer len =
      (loadFile drive m (m.files fd.toNat).file).bind fun p ↦
        finishWrite drive p.1 (m.files fd.toNat) fd buffer len p.2 := by
  obtain ⟨hbad, hlen, hoffset⟩ := h
  simp only [syscallFileWrite, hbad, hwritable, Bool.false_eq_true, Bool.true_eq_false, if_false,
    if_neg hlen, if_neg (not_le.mpr hoffset), Option.bind_eq_bind]
  rfl

theorem syscallFileWrite_idle (drive : Drive)
    (h : ¬(Moves m fd buffer len ∧ (m.files fd.toNat).writable = true)) :
    ∃ r, syscallFileWrite drive m fd buffer len = some (m, r) := by
  unfold syscallFileWrite
  cases hbad : badRequest m fd buffer with
  | true => exact ⟨-1, rfl⟩
  | false =>
      cases hwritable : (m.files fd.toNat).writable with
      | false => exact ⟨-1, rfl⟩
      | true =>
          simp only [Bool.false_eq_true, Bool.true_eq_false, if_false]
          by_cases hlen : len = 0
          · exact ⟨0, if_pos hlen⟩
          · rw [if_neg hlen]
            refine ⟨0, if_pos (not_lt.mp fun hoffset ↦ ?_)⟩
            exact h ⟨⟨hbad, hlen, hoffset⟩, hwritable⟩

/-! ## Blocks for whole files -/

/-- The file goes into a block of its own, whatever the drive delivers. -/
theorem loadFile_footprint (hheap : HeapInvariant m.memory bs) (hpos : file.size ≠ 0)
    (hle : file.size ≤ 0xFFFFFFF8) {res : LoadResult} (h : loadFile drive m file = some (m', res)) :
    (res = .outOfMemory ∧ m'.memory = m.memory) ∨
      ∃ s' ptr mem, kmalloc m.memory file.size = some (s', .block ptr) ∧
        Scratch m.memory s' ptr file.size ∧ m'.memory = { s' with mem := mem } ∧
        (∀ x, x < ptr ∨ ptr + file.size ≤ x → mem x = s'.mem x) ∧
        (res = .readFailed ptr ∨ res = .loaded ptr) := by
  rcases hheap.scratch hpos hle with ⟨r, hk, hr⟩ | ⟨s', ptr, hk, hs⟩
  · simp only [loadFile, hk, Option.bind_eq_bind, Option.bind_some, if_pos hr, Option.some.injEq,
      Prod.mk.injEq] at h
    obtain ⟨rfl, rfl⟩ := h
    exact Or.inl ⟨rfl, rfl⟩
  · simp only [loadFile, hk, Option.bind_eq_bind, Option.bind_some, KmallocResult.ptr,
      if_neg hs.ptr_ne_zero] at h
    obtain ⟨⟨io, ok, copied⟩, hread, h⟩ := Option.bind_eq_some_iff.mp h
    obtain ⟨rfl, rfl⟩ := Prod.mk.inj (Option.some.inj h)
    have hlength := fat32ReadFile_length hread
    have hfits := hs.fits
    refine Or.inr ⟨s', ptr, storeBytes s'.mem ptr copied, hk, hs, rfl, ?_, ?_⟩
    · intro x hx
      exact storeBytes_outside _ (by omega) (by omega)
    · cases ok with
      | false => exact Or.inl rfl
      | true => exact Or.inr rfl

theorem release_returns (htake : kmalloc s size = some (s', .block ptr))
    (hs : Scratch s s' ptr size) (hm : m.memory = { s' with mem := mem })
    (hmem : ∀ x, ¬w x → x < ptr ∨ ptr + size ≤ x → mem x = s'.mem x)
    (hw : ∀ x, w x → ClientByte s x) (r : ℤ) :
    ∃ m', m.release ptr r = some (m', r) ∧ Borrows s size w m'.memory := by
  obtain ⟨s'', hfree, -⟩ := hs.keeps hmem hw
  refine ⟨{ m with memory := s'', io := m.io.print KfreeResult.freed.serial }, ?_,
    .returned htake hmem hfree⟩
  simp only [Machine.release, hm, hfree, Option.bind_eq_bind, Option.bind_some]

/-! ## The table of open files -/

theorem release_table (h : m.release ptr r = some (m', r')) :
    r' = r ∧ m'.bpb = m.bpb ∧ m'.files = m.files := by
  obtain ⟨⟨memory, res⟩, -, h⟩ := Option.bind_eq_some_iff.mp h
  obtain ⟨rfl, rfl⟩ := Prod.mk.inj (Option.some.inj h)
  exact ⟨rfl, rfl, rfl⟩

/-- The position of the descriptor moves by the number of bytes returned. -/
theorem finishRead_table {f : KernelFile} {res : LoadResult}
    (h : finishRead m f fd buffer len res = some (m', r)) :
    m'.bpb = m.bpb ∧ (r = -1 ∧ m'.files = m.files ∨ r = transferSize f len ∧
      m'.files = Function.update m.files fd.toNat (advance f (transferSize f len))) := by
  cases res with
  | outOfMemory =>
      obtain ⟨rfl, rfl⟩ := Prod.mk.inj (Option.some.inj h)
      exact ⟨rfl, Or.inl ⟨rfl, rfl⟩⟩
  | readFailed allData =>
      obtain ⟨hr, hbpb, hfiles⟩ := release_table h
      exact ⟨hbpb, Or.inl ⟨hr, hfiles⟩⟩
  | loaded allData =>
      obtain ⟨hr, hbpb, hfiles⟩ := release_table h
      exact ⟨hbpb, Or.inr ⟨hr, hfiles⟩⟩

theorem finishWrite_table {f : KernelFile} {res : LoadResult}
    (h : finishWrite drive m f fd buffer len res = some (m', r)) :
    m'.bpb = m.bpb ∧ (m'.files = m.files ∨
      m'.files = Function.update m.files fd.toNat (advance f (transferSize f len))) := by
  cases res with
  | outOfMemory =>
      obtain ⟨rfl, -⟩ := Prod.mk.inj (Option.some.inj h)
      exact ⟨rfl, Or.inl rfl⟩
  | readFailed allData =>
      obtain ⟨-, hbpb, hfiles⟩ := release_table h
      exact ⟨hbpb, Or.inl hfiles⟩
  | loaded allData =>
      simp only [finishWrite, writeBack] at h
      split at h
      · obtain ⟨-, hbpb, hfiles⟩ := release_table h
        exact ⟨hbpb, Or.inl hfiles⟩
      · obtain ⟨-, hbpb, hfiles⟩ := release_table h
        exact ⟨hbpb, Or.inr hfiles⟩

/-- The bytes a read is asked to fill. -/
def readTarget (m : Machine) (fd : ℤ) (buffer len x : ℕ) : Prop :=
  badRequest m fd buffer = false ∧ buffer ≤ x ∧
    x < buffer + transferSize (m.files fd.toNat) len

/-- The copy to the caller changes nothing but the target. -/
theorem copy_to_target (hbad : badRequest m fd buffer = false)
    (hbuf : ClientBuffer m.memory buffer (transferSize (m.files fd.toNat) len)) (source : ℕ)
    {x : ℕ} (hx : ¬readTarget m fd buffer len x) :
    memcpy mem buffer source (transferSize (m.files fd.toNat) len) x = mem x := by
  refine memcpy_outside _ _ hbuf.fits ?_
  by_contra hin
  exact hx ⟨hbad, by omega, by omega⟩

theorem offset_add_transferSize_le {f : KernelFile} (h : f.offset < f.file.size) (len : ℕ) :
    f.offset + transferSize f len ≤ f.file.size := by
  unfold transferSize
  dsimp only
  split <;> omega

/-- The copy from the caller stays within the block. -/
theorem copy_to_block {f : KernelFile} (hs : Scratch s s' ptr f.file.size)
    (hoffset : f.offset < f.file.size) (source : ℕ) {x : ℕ}
    (hx : x < ptr ∨ ptr + f.file.size ≤ x) :
    memcpy mem (ptr + f.offset) source (transferSize f len) x = mem x := by
  have hend := offset_add_transferSize_le hoffset len
  have hfits := hs.fits
  exact memcpy_outside _ _ (by omega) (by omega)

/-- Once the file is loaded a read returns, and gives its block back. -/
theorem finishRead_returns (hheap : HeapInvariant m.memory bs) (hmoves : Moves m fd buffer len)
    (hsize : (m.files fd.toNat).file.size ≤ 0xFFFFFFF8)
    (hbuf : ClientBuffer m.memory buffer (transferSize (m.files fd.toNat) len))
    {m₁ : Machine} {res : LoadResult}
    (hload : loadFile drive m (m.files fd.toNat).file = some (m₁, res)) :
    ∃ m' r, finishRead m₁ (m.files fd.toNat) fd buffer len res = some (m', r) ∧
      Borrows m.memory (m.files fd.toNat).file.size (readTarget m fd buffer len) m'.memory := by
  obtain ⟨hbad, -, hoffset⟩ := hmoves
  have hw : ∀ x, readTarget m fd buffer len x → ClientByte m.memory x :=
    fun x hx ↦ hbuf.owned x hx.2.1 hx.2.2
  rcases loadFile_footprint hheap (by omega) hsize hload with
    ⟨rfl, hm₁⟩ | ⟨s', ptr, mem, htake, hs, hm₁, hmem, rfl | rfl⟩
  · refine ⟨m₁, -1, rfl, ?_⟩
    rw [hm₁]
    exact .refused
  · obtain ⟨m', hrelease, hborrows⟩ :=
      release_returns htake hs hm₁ (fun x _ hx ↦ hmem x hx) hw (-1)
    exact ⟨m', -1, hrelease, hborrows⟩
  · have hcopied : ∀ x, ¬readTarget m fd buffer len x →
        x < ptr ∨ ptr + (m.files fd.toNat).file.size ≤ x →
        memcpy m₁.memory.mem buffer (ptr + (m.files fd.toNat).offset)
          (transferSize (m.files fd.toNat) len) x = s'.mem x := by
      intro x hx hout
      rw [copy_to_target hbad hbuf _ hx, hm₁]
      exact hmem x hout
    simp only [finishRead]
    generalize memcpy m₁.memory.mem buffer (ptr + (m.files fd.toNat).offset)
      (transferSize (m.files fd.toNat) len) = mem' at hcopied ⊢
    obtain ⟨m', hrelease, hborrows⟩ := release_returns htake hs
      (m := (m₁.setMem mem').setFile fd.toNat _)
      (by simp only [Machine.setFile, Machine.setMem, hm₁]) hcopied hw _
    exact ⟨m', _, hrelease, hborrows⟩

theorem finishWrite_returns (hheap : HeapInvariant m.memory bs) (hmoves : Moves m fd buffer len)
    (hsize : (m.files fd.toNat).file.size ≤ 0xFFFFFFF8) {m₁ : Machine} {res : LoadResult}
    (hload : loadFile drive m (m.files fd.toNat).file = some (m₁, res)) :
    ∃ m' r, finishWrite drive m₁ (m.files fd.toNat) fd buffer len res = some (m', r) ∧
      Borrows m.memory (m.files fd.toNat).file.size (fun _ ↦ False) m'.memory := by
  obtain ⟨-, -, hoffset⟩ := hmoves
  rcases loadFile_footprint hheap (by omega) hsize hload with
    ⟨rfl, hm₁⟩ | ⟨s', ptr, mem, htake, hs, hm₁, hmem, rfl | rfl⟩
  · refine ⟨m₁, -1, rfl, ?_⟩
    rw [hm₁]
    exact .refused
  · obtain ⟨m', hrelease, hborrows⟩ := release_returns htake hs hm₁ (fun x _ hx ↦ hmem x hx)
      (fun _ (hx : False) ↦ hx.elim) (-1)
    exact ⟨m', -1, hrelease, hborrows⟩
  · have hpatched : ∀ x, ¬False → x < ptr ∨ ptr + (m.files fd.toNat).file.size ≤ x →
        memcpy m₁.memory.mem (ptr + (m.files fd.toNat).offset) buffer
          (transferSize (m.files fd.toNat) len) x = s'.mem x := by
      intro x _ hout
      rw [copy_to_block hs hoffset _ hout, hm₁]
      exact hmem x hout
    simp only [finishWrite, writeBack]
    generalize memcpy m₁.memory.mem (ptr + (m.files fd.toNat).offset) buffer
      (transferSize (m.files fd.toNat) len) = mem' at hpatched ⊢
    -- Whatever the drive does, the block is released with the same memory.
    have hrelease : ∀ (m₂ : Machine) (r : ℤ), m₂.memory = { s' with mem := mem' } →
        ∃ m', m₂.release ptr r = some (m', r) ∧
          Borrows m.memory (m.files fd.toNat).file.size (fun _ ↦ False) m'.memory :=
      fun m₂ r hm₂ ↦ release_returns htake hs hm₂ hpatched (fun _ hx ↦ hx.elim) r
    split
    · obtain ⟨m', heq, hborrows⟩ := hrelease ((m₁.setMem mem').setIo _) (-1)
        (by simp only [Machine.setIo, Machine.setMem, hm₁])
      exact ⟨m', _, heq, hborrows⟩
    · obtain ⟨m', heq, hborrows⟩ := hrelease (((m₁.setMem mem').setIo _).setFile fd.toNat _) _
        (by simp only [Machine.setFile, Machine.setIo, Machine.setMem, hm₁])
      exact ⟨m', _, heq, hborrows⟩

/-! ## Footprints -/

/-- A file is opened only when the search finds it, in an entry of the table
that is not in use. -/
theorem syscallFileOpen_cases (drive : Drive) (m : Machine) (path flags : ℕ) :
    (∃ io, syscallFileOpen drive m path flags = (m.setIo io, -1)) ∨
    ∃ name io file fd, pathToFat83 m.memory.mem path = some name ∧
      fat32FindFile drive m.bpb m.io name = (io, some file) ∧ fd < fileMaxFd ∧
      (m.files fd).used = false ∧ syscallFileOpen drive m path flags =
        ((m.setIo io).setFile fd ⟨true, flags &&& 1 ≠ 0, file, 0⟩, (fd : ℤ)) := by
  unfold syscallFileOpen
  split
  · exact Or.inl ⟨m.io, rfl⟩
  next name hname =>
  split
  · next io hfind => exact Or.inl ⟨io, rfl⟩
  next io file hfind =>
  split
  · exact Or.inl ⟨io, rfl⟩
  next fd hfree =>
  have hunused := List.find?_some hfree
  have hfd := List.mem_range.mp (List.mem_of_find?_eq_some hfree)
  exact Or.inr ⟨name, io, file, fd, hname, hfind, hfd, of_decide_eq_true hunused, rfl⟩

theorem syscallFileOpen_memory (drive : Drive) (m : Machine) (path flags : ℕ) :
    (syscallFileOpen drive m path flags).1.memory = m.memory := by
  rcases syscallFileOpen_cases drive m path flags with
    ⟨io, hopen⟩ | ⟨name, io, file, fd, -, -, -, -, hopen⟩
  · rw [hopen]
    rfl
  · rw [hopen]
    rfl

theorem syscallFileClose_memory (m : Machine) (fd : ℤ) :
    (syscallFileClose m fd).1.memory = m.memory := by
  unfold syscallFileClose
  split <;> rfl

theorem syscallFileRead_borrows (hheap : HeapInvariant m.memory bs)
    (hsize : badRequest m fd buffer = false → (m.files fd.toNat).file.size ≤ 0xFFFFFFF8)
    (hbuf : badRequest m fd buffer = false →
      ClientBuffer m.memory buffer (transferSize (m.files fd.toNat) len))
    (h : syscallFileRead drive m fd buffer len = some (m', r)) :
    m'.memory = m.memory ∨ Moves m fd buffer len ∧
      Borrows m.memory (m.files fd.toNat).file.size (readTarget m fd buffer len) m'.memory := by
  by_cases hmoves : Moves m fd buffer len
  · rw [syscallFileRead_moves hmoves] at h
    obtain ⟨⟨m₁, res⟩, hload, h⟩ := Option.bind_eq_some_iff.mp h
    obtain ⟨m'', r'', hfinish, hborrows⟩ :=
      finishRead_returns hheap hmoves (hsize hmoves.1) (hbuf hmoves.1) hload
    obtain ⟨rfl, -⟩ := Prod.mk.inj (Option.some.inj (hfinish.symm.trans h))
    exact Or.inr ⟨hmoves, hborrows⟩
  · obtain ⟨r'', -, hidle⟩ := syscallFileRead_idle drive hmoves
    obtain ⟨rfl, -⟩ := Prod.mk.inj (Option.some.inj (hidle.symm.trans h))
    exact Or.inl rfl

theorem syscallFileRead_keeps (hheap : HeapInvariant m.memory bs)
    (hsize : badRequest m fd buffer = false → (m.files fd.toNat).file.size ≤ 0xFFFFFFF8)
    (hbuf : badRequest m fd buffer = false →
      ClientBuffer m.memory buffer (transferSize (m.files fd.toNat) len))
    (h : syscallFileRead drive m fd buffer len = some (m', r)) :
    Keeps m.memory m'.memory (readTarget m fd buffer len) := by
  rcases syscallFileRead_borrows hheap hsize hbuf h with hsame | ⟨hmoves, hborrows⟩
  · rw [hsame]
    exact hheap.keeps _
  · exact hborrows.keeps hheap (hsize hmoves.1) fun x hx ↦
      (hbuf hmoves.1).owned x hx.2.1 hx.2.2

theorem syscallFileWrite_borrows (hheap : HeapInvariant m.memory bs)
    (hsize : badRequest m fd buffer = false → (m.files fd.toNat).file.size ≤ 0xFFFFFFF8)
    (h : syscallFileWrite drive m fd buffer len = some (m', r)) :
    m'.memory = m.memory ∨ Moves m fd buffer len ∧
      Borrows m.memory (m.files fd.toNat).file.size (fun _ ↦ False) m'.memory := by
  by_cases hmoves : Moves m fd buffer len ∧ (m.files fd.toNat).writable = true
  · rw [syscallFileWrite_moves hmoves.1 hmoves.2] at h
    obtain ⟨⟨m₁, res⟩, hload, h⟩ := Option.bind_eq_some_iff.mp h
    obtain ⟨m'', r'', hfinish, hborrows⟩ :=
      finishWrite_returns hheap hmoves.1 (hsize hmoves.1.1) hload
    obtain ⟨rfl, -⟩ := Prod.mk.inj (Option.some.inj (hfinish.symm.trans h))
    exact Or.inr ⟨hmoves.1, hborrows⟩
  · obtain ⟨r'', hidle⟩ := syscallFileWrite_idle drive hmoves
    obtain ⟨rfl, -⟩ := Prod.mk.inj (Option.some.inj (hidle.symm.trans h))
    exact Or.inl rfl

theorem syscallFileWrite_keeps (hheap : HeapInvariant m.memory bs)
    (hsize : badRequest m fd buffer = false → (m.files fd.toNat).file.size ≤ 0xFFFFFFF8)
    (h : syscallFileWrite drive m fd buffer len = some (m', r)) (w : ℕ → Prop) :
    Keeps m.memory m'.memory w := by
  rcases syscallFileWrite_borrows hheap hsize h with hsame | ⟨hmoves, hborrows⟩
  · rw [hsame]
    exact hheap.keeps _
  · exact (hborrows.keeps hheap (hsize hmoves.1) fun _ hx ↦ hx.elim).mono fun _ hx ↦ hx.elim

end ImplusKernel.Syscall
