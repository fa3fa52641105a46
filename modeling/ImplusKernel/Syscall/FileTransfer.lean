import ImplusKernel.FileSystem.Directory
import ImplusKernel.Memory.HeapScratch
import ImplusKernel.Syscall.File

/-!
# One transfer

What a read or a write does once its arguments are accepted, on a valid chain
and a working drive: it fails for want of memory, or it moves all its bytes.
-/

namespace ImplusKernel.Syscall

open ByteMemory Disk Fat32 Heap

variable {drive : Drive} {m : Machine} {s s' : MemoryState} {bs : List Block} {clusters : ℕ}
  {chain : List ℕ} {file : Fat32File} {fd : ℤ} {buffer len ptr size n : ℕ}

/-- Whether `kmalloc` succeeds. -/
def roomFor (s : MemoryState) (size : ℕ) : Bool :=
  match kmalloc s size with
  | some (_, r) => r.ptr ≠ 0
  | none => false

/-- A buffer of the caller: it does not wrap, and no byte of it is the
allocator's. -/
structure ClientBuffer (s : MemoryState) (buffer n : ℕ) : Prop where
  fits : buffer + n ≤ 2 ^ 64
  owned : ∀ x, buffer ≤ x → x < buffer + n → ClientByte s x

theorem ClientBuffer.apart (h : ClientBuffer s buffer n) (hs : Scratch s s' ptr size)
    (hn : 0 < n) (hsize : 0 < size) : buffer + n ≤ ptr ∨ ptr + size ≤ buffer := by
  by_cases hle : buffer ≤ ptr
  · by_cases hlt : ptr < buffer + n
    · have hclash := hs.apart ptr (h.owned ptr hle hlt)
      omega
    · exact Or.inl (not_lt.mp hlt)
  · have hclash := hs.apart buffer (h.owned buffer le_rfl (by omega))
    omega

/-- A file of a valid volume, as the calls of the driver need it. -/
structure FileOk (m : Machine) (clusters : ℕ) (chain : List ℕ) (file : Fat32File) : Prop where
  geometry : Geometry m.bpb clusters
  chained : Chained m.bpb clusters m.io.sectors file.firstCluster chain
  nodup : chain.Nodup
  long_enough : file.size ≤ chain.length * clusterSize m.bpb
  size_pos : 0 < file.size
  size_le : file.size ≤ 0xFFFFFFF8

/-- The whole file is brought into a block of its own. -/
theorem loadFile_spec (hworks : drive.Works) (hheap : HeapInvariant m.memory bs)
    (hfile : FileOk m clusters chain file) :
    (roomFor m.memory file.size = false ∧ ∃ texts,
      loadFile drive m file = some ({ m with io := m.io.print texts }, .outOfMemory)) ∨
    (roomFor m.memory file.size = true ∧ ∃ s' ptr io mem, Scratch m.memory s' ptr file.size ∧
      io.sectors = m.io.sectors ∧
      mem = storeBytes s'.mem ptr (fileBytes m.bpb m.io.sectors chain file.size) ∧
      loadFile drive m file =
        some ({ m with memory := { s' with mem := mem }, io := io }, .loaded ptr)) := by
  rcases hheap.scratch hfile.size_pos.ne' hfile.size_le with ⟨r, hk, hr⟩ | ⟨s', ptr, hk, hs⟩
  · refine Or.inl ⟨by simp [roomFor, hk, hr], r.serial, ?_⟩
    simp [loadFile, hk, hr]
  · refine Or.inr ⟨by simp [roomFor, hk, KmallocResult.ptr, hs.ptr_ne_zero], s', ptr, ?_⟩
    obtain ⟨c, hread⟩ := fat32ReadFile_chained hworks hfile.geometry
      (show Chained m.bpb clusters (m.io.print []).sectors _ _ from hfile.chained)
      hfile.long_enough
    refine ⟨{ m.io.print [] with commands := c }, _, hs, rfl, rfl, ?_⟩
    simp only [loadFile, hk, Option.bind_eq_bind, Option.bind_some, KmallocResult.ptr,
      KmallocResult.serial, if_neg hs.ptr_ne_zero, hread, if_true]
    rfl

/-- The block is given back. -/
theorem release_spec (hs : Scratch s s' ptr size) {m : Machine} {mem : Mem}
    (hm : m.memory = { s' with mem := mem })
    (hmem : ∀ x, ¬ClientByte s x → x < ptr ∨ ptr + size ≤ x → mem x = s'.mem x) (r : ℤ) :
    ∃ m', m.release ptr r = some (m', r) ∧ m'.files = m.files ∧ m'.bpb = m.bpb ∧
      m'.io.sectors = m.io.sectors ∧ (∃ bs, HeapInvariant m'.memory bs) ∧
      ∀ x, ClientByte s x → m'.memory.mem x = mem x := by
  obtain ⟨s'', bs, hfree, hinv, hkept⟩ := hs.release mem hmem
  refine ⟨{ m with memory := s'', io := m.io.print [] }, ?_, rfl, rfl, rfl, ⟨bs, hinv⟩,
    fun x hx ↦ (hkept x hx).2⟩
  rw [Machine.release, hm, hfree]
  rfl

theorem length_le_of_offset_lt {f : KernelFile} {len : ℕ} (h : 0 < transferSize f len) :
    len ≠ 0 ∧ f.offset < f.file.size ∧ f.offset + transferSize f len ≤ f.file.size := by
  unfold transferSize at *
  dsimp only at *
  split at h <;> split <;> omega

/-- A read delivers bytes of the file. -/
theorem syscallFileRead_spec (hworks : drive.Works) (hheap : HeapInvariant m.memory bs)
    (hfile : FileOk m clusters chain (m.files fd.toNat).file)
    (hok : badRequest m fd buffer = false)
    (hn : transferSize (m.files fd.toNat) len = n) (hpos : 0 < n)
    (hbuf : ClientBuffer m.memory buffer n) :
    (roomFor m.memory (m.files fd.toNat).file.size = false ∧ ∃ texts,
      syscallFileRead drive m fd buffer len = some ({ m with io := m.io.print texts }, -1)) ∨
    (roomFor m.memory (m.files fd.toNat).file.size = true ∧ ∃ m',
      syscallFileRead drive m fd buffer len = some (m', (n : ℤ)) ∧
      m'.files = Function.update m.files fd.toNat (advance (m.files fd.toNat) n) ∧
      m'.bpb = m.bpb ∧ m'.io.sectors = m.io.sectors ∧ (∃ bs, HeapInvariant m'.memory bs) ∧
      ∀ i < n, m'.memory.mem (buffer + i) =
        chainByte m.bpb m.io.sectors chain ((m.files fd.toNat).offset + i)) := by
  obtain ⟨hlen, hoffset, hend⟩ := length_le_of_offset_lt (hn ▸ hpos)
  rw [hn] at hend
  unfold syscallFileRead
  rw [if_neg (by simp [hok]), if_neg hlen]
  simp only [if_neg (not_le.mpr hoffset), hn]
  rcases loadFile_spec hworks hheap hfile with ⟨hroom, texts, hload⟩ |
    ⟨hroom, s', ptr, io, mem, hs, hio, hmem, hload⟩
  · exact Or.inl ⟨hroom, texts, by rw [hload]; rfl⟩
  refine Or.inr ⟨hroom, ?_⟩
  have hlength := length_fileBytes m.bpb m.io.sectors chain (m.files fd.toNat).file.size
  have hfits := hs.fits
  have hapart := hbuf.apart hs hpos hfile.size_pos
  obtain ⟨m', hrelease, hfiles, hbpb, hsectors, hinv, hkept⟩ := release_spec hs
    (m := Machine.setFile (Machine.setMem { m with memory := { s' with mem := mem }, io := io }
      (memcpy mem buffer (ptr + (m.files fd.toNat).offset) n)) fd.toNat
      (advance (m.files fd.toNat) n)) rfl (fun x hx hout ↦ by
        have hbufx : x < buffer ∨ buffer + n ≤ x := by
          by_contra hin
          exact hx (hbuf.owned x (by omega) (by omega))
        rw [memcpy_outside _ _ hbuf.fits hbufx, hmem]
        exact storeBytes_outside _ (by omega) (by omega)) (n : ℤ)
  refine ⟨m', ?_, hfiles, hbpb, hsectors.trans hio, hinv, ?_⟩
  · rw [hload]
    exact hrelease
  · intro i hi
    rw [hkept _ (hbuf.owned _ (by omega) (by omega)),
      memcpy_inside _ hbuf.fits (by omega) (by omega) hi, Nat.add_assoc, hmem,
      storeBytes_inside _ (by omega) (by omega)]
    simp [fileBytes]

/-- The copy of the file with the caller's bytes put in. -/
theorem patched_copy (hs : Scratch s s' ptr size) (hbuf : ClientBuffer s buffer n) (hn : 0 < n)
    {bytes : List UInt8} (hlength : bytes.length = size) {offset : ℕ} (hend : offset + n ≤ size)
    {p : ℕ} (hp : p < size) :
    some (memcpy (storeBytes s'.mem ptr bytes) (ptr + offset) buffer n ((ptr + p) % 2 ^ 64)) =
      if offset ≤ p ∧ p < offset + n then some (s.mem (buffer + (p - offset))) else bytes[p]? := by
  have hfits := hs.fits
  have hapart := hbuf.apart hs hn (by omega)
  have hbuffits := hbuf.fits
  rw [Nat.mod_eq_of_lt (show ptr + p < 2 ^ 64 by omega)]
  by_cases hin : offset ≤ p ∧ p < offset + n
  · obtain ⟨i, rfl⟩ := Nat.exists_eq_add_of_le hin.1
    have hclient := hbuf.owned (buffer + i) (by omega) (by omega)
    rw [if_pos hin, ← Nat.add_assoc, memcpy_inside _ (by omega) hbuf.fits (by omega) (by omega),
      storeBytes_outside _ (by omega) (by omega), hs.kept _ hclient, Nat.add_sub_cancel_left]
  · rw [if_neg hin, memcpy_outside _ _ (by omega) (by omega),
      storeBytes_inside _ (by omega) (by omega), List.getElem?_eq_getElem (by omega)]

/-- A write changes bytes of the file and nothing else on the drive. -/
theorem syscallFileWrite_spec (hworks : drive.Works) (hheap : HeapInvariant m.memory bs)
    (hfile : FileOk m clusters chain (m.files fd.toNat).file)
    (hok : badRequest m fd buffer = false) (hwritable : (m.files fd.toNat).writable = true)
    (hn : transferSize (m.files fd.toNat) len = n) (hpos : 0 < n)
    (hbuf : ClientBuffer m.memory buffer n) :
    (roomFor m.memory (m.files fd.toNat).file.size = false ∧ ∃ texts,
      syscallFileWrite drive m fd buffer len = some ({ m with io := m.io.print texts }, -1)) ∨
    (roomFor m.memory (m.files fd.toNat).file.size = true ∧ ∃ m',
      syscallFileWrite drive m fd buffer len = some (m', (n : ℤ)) ∧
      m'.files = Function.update m.files fd.toNat (advance (m.files fd.toNat) n) ∧
      m'.bpb = m.bpb ∧ (∃ bs, HeapInvariant m'.memory bs) ∧
      (∀ p < (m.files fd.toNat).file.size, chainByte m.bpb m'.io.sectors chain p =
        if (m.files fd.toNat).offset ≤ p ∧ p < (m.files fd.toNat).offset + n then
          m.memory.mem (buffer + (p - (m.files fd.toNat).offset))
        else chainByte m.bpb m.io.sectors chain p) ∧
      ∀ s, ∀ i < 512, (∀ p < (m.files fd.toNat).file.size,
          ¬(s = place m.bpb chain (p / 512) ∧ i = p % 512)) →
        m'.io.sectors s i = m.io.sectors s i) := by
  obtain ⟨hlen, hoffset, hend⟩ := length_le_of_offset_lt (hn ▸ hpos)
  rw [hn] at hend
  unfold syscallFileWrite
  rw [if_neg (by simp [hok]), if_neg (by simp [hwritable]), if_neg hlen]
  simp only [if_neg (not_le.mpr hoffset), hn]
  rcases loadFile_spec hworks hheap hfile with ⟨hroom, texts, hload⟩ |
    ⟨hroom, s', ptr, io, mem, hs, hio, hmem, hload⟩
  · exact Or.inl ⟨hroom, texts, by rw [hload]; rfl⟩
  refine Or.inr ⟨hroom, ?_⟩
  have hlength := length_fileBytes m.bpb m.io.sectors chain (m.files fd.toNat).file.size
  have hfits := hs.fits
  obtain ⟨io', hwrite, hdata, hframe⟩ := fat32WriteFile_chained hworks hfile.geometry
    (show Chained m.bpb clusters io.sectors _ _ from hio ▸ hfile.chained) hfile.nodup
    hfile.long_enough fun i ↦
      memcpy mem (ptr + (m.files fd.toNat).offset) buffer n ((ptr + i) % 2 ^ 64)
  obtain ⟨m', hrelease, hfiles, hbpb, hsectors, hinv, -⟩ := release_spec hs
    (m := Machine.setFile (Machine.setIo (Machine.setMem
      { m with memory := { s' with mem := mem }, io := io }
      (memcpy mem (ptr + (m.files fd.toNat).offset) buffer n)) io') fd.toNat
      (advance (m.files fd.toNat) n)) rfl (fun x _ hout ↦ by
        rw [memcpy_outside _ _ (by omega) (by omega), hmem]
        exact storeBytes_outside _ (by omega) (by omega)) (n : ℤ)
  have hio' : m'.io.sectors = io'.sectors := hsectors
  refine ⟨m', ?_, hfiles, hbpb, hinv, ?_, ?_⟩
  · rw [hload]
    simp only [Option.bind_eq_bind, Option.bind_some, Machine.setMem_bpb, Machine.setMem_io,
      Machine.setMem_mem, hwrite]
    exact hrelease
  · intro p hp
    have hcopy := patched_copy hs hbuf hpos hlength hend hp
    rw [← hmem] at hcopy
    rw [hio', hdata p hp]
    by_cases hin : (m.files fd.toNat).offset ≤ p ∧ p < (m.files fd.toNat).offset + n
    · rw [if_pos hin] at hcopy ⊢
      exact Option.some.inj hcopy
    · rw [if_neg hin] at hcopy ⊢
      rw [List.getElem?_eq_getElem (by omega)] at hcopy
      rw [Option.some.inj hcopy]
      simp [fileBytes]
  · intro s i hi hother
    rw [hio', hframe s i hi hother, hio]

end ImplusKernel.Syscall
