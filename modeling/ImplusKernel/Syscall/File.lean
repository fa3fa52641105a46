import ImplusKernel.FileSystem.Fat32
import ImplusKernel.Memory.Heap

/-!
# The file system calls

Sixteen descriptors, each with a copy of the directory entry it was opened
on.  A read or write brings the whole file into a heap block first; a write
then puts the whole file back.  The kernel does not check the buffers it is
given.
-/

namespace ImplusKernel.Syscall

open ByteMemory Disk Fat32 Heap

def fileMaxFd : ℕ := 16

/-- `kernel_file_t`. -/
structure KernelFile where
  used : Bool
  writable : Bool
  file : Fat32File
  offset : ℕ
deriving DecidableEq, Repr

/-- An entry of `g_files` filled with zeros. -/
def KernelFile.cleared : KernelFile := ⟨false, false, ⟨List.replicate 11 0, 0, 0⟩, 0⟩

/-- What the file calls work on: memory with the heap in it, the drive, and
the statics `bpb` and `g_files`. -/
structure Machine where
  memory : MemoryState
  io : IoState
  bpb : Bpb
  files : ℕ → KernelFile

def Machine.setFile (m : Machine) (fd : ℕ) (f : KernelFile) : Machine :=
  { m with files := Function.update m.files fd f }

def Machine.setMem (m : Machine) (mem : Mem) : Machine :=
  { m with memory := { m.memory with mem := mem } }

def Machine.setIo (m : Machine) (io : IoState) : Machine := { m with io := io }

def Machine.print (m : Machine) (texts : List String) : Machine := m.setIo (m.io.print texts)

@[simp]
theorem Machine.setMem_bpb (m : Machine) (mem : Mem) : (m.setMem mem).bpb = m.bpb := rfl

@[simp]
theorem Machine.setMem_io (m : Machine) (mem : Mem) : (m.setMem mem).io = m.io := rfl

@[simp]
theorem Machine.setMem_mem (m : Machine) (mem : Mem) : (m.setMem mem).memory.mem = mem := rfl

def syscallFileInit (m : Machine) : Machine := { m with files := fun _ ↦ .cleared }

/-! ## Names -/

def toUpperAscii (c : UInt8) : UInt8 := if 97 ≤ c ∧ c ≤ 122 then c - 32 else c

/-- The loop of `path_to_fat83` over a zero-terminated path; `none` is
`return false`.  It stops after the eight bytes of a name, the three of an
extension and the dot at the latest. -/
def pathLoop (mem : Mem) : ℕ → ℕ → ℕ → ℕ → Bool → List UInt8 → Option (ℕ × List UInt8)
  | 0, _, _, _, _, _ => none
  | fuel + 1, p, nameLen, extLen, inExt, out =>
      let c := mem (p % 2 ^ 64)
      if c = 0 then some (nameLen, out)
      else if c = 46 then
        if inExt then none else pathLoop mem fuel (p + 1) nameLen extLen true out
      else if inExt = false then
        if 8 ≤ nameLen then none
        else pathLoop mem fuel (p + 1) (nameLen + 1) extLen inExt
          (out.set nameLen (toUpperAscii c))
      else if 3 ≤ extLen then none
      else pathLoop mem fuel (p + 1) nameLen (extLen + 1) inExt
        (out.set (8 + extLen) (toUpperAscii c))

def pathToFat83 (mem : Mem) (path : ℕ) : Option (List UInt8) :=
  if path = 0 then none
  else
    match pathLoop mem 13 path 0 0 false (List.replicate 11 32) with
    | none => none
    | some (nameLen, out) => if 0 < nameLen then some out else none

/-! ## Opening and closing -/

/-- The loop for a free descriptor. -/
def freeFd (m : Machine) : Option ℕ :=
  (List.range fileMaxFd).find? fun fd ↦ (m.files fd).used = false

def syscallFileOpen (drive : Drive) (m : Machine) (path flags : ℕ) : Machine × ℤ :=
  match pathToFat83 m.memory.mem path with
  | none => (m, -1)
  | some name =>
      match fat32FindFile drive m.bpb m.io name with
      | (io, none) => (m.setIo io, -1)
      | (io, some file) =>
          match freeFd m with
          | none => (m.setIo io, -1)
          | some fd =>
              ((m.setIo io).setFile fd ⟨true, flags &&& 1 ≠ 0, file, 0⟩, fd)

def syscallFileClose (m : Machine) (fd : ℤ) : Machine × ℤ :=
  if fd < 0 ∨ fileMaxFd ≤ fd ∨ (m.files fd.toNat).used = false then (m, -1)
  else (m.setFile fd.toNat .cleared, 0)

/-! ## Reading and writing -/

/-- `kfree(all_data)` and return. -/
def Machine.release (m : Machine) (allData : ℕ) (result : ℤ) : Option (Machine × ℤ) := do
  let (memory, r) ← kfree m.memory allData
  some ({ m with memory := memory, io := m.io.print r.serial }, result)

/-- How the first half of a read or write ends. -/
inductive LoadResult
  | outOfMemory
  | readFailed (allData : ℕ)
  | loaded (allData : ℕ)
deriving DecidableEq, Repr

/-- The block for the file's bytes is allocated and filled from disk. -/
def loadFile (drive : Drive) (m : Machine) (file : Fat32File) : Option (Machine × LoadResult) := do
  let (memory, r) ← kmalloc m.memory file.size
  let m := { m with memory := memory, io := m.io.print r.serial }
  if r.ptr = 0 then some (m, .outOfMemory)
  else
    let (io, ok, copied) ← fat32ReadFile drive m.bpb m.io file
    let m := (m.setIo io).setMem (storeBytes m.memory.mem r.ptr copied)
    some (m, if ok then .loaded r.ptr else .readFailed r.ptr)

/-- `fd < 0 || fd >= FILE_MAX_FD || !buffer || !g_files[fd].used`. -/
def badRequest (m : Machine) (fd : ℤ) (buffer : ℕ) : Bool :=
  fd < 0 ∨ fileMaxFd ≤ fd ∨ buffer = 0 ∨ (m.files fd.toNat).used = false

/-- The number of bytes a call moves. -/
def transferSize (f : KernelFile) (len : ℕ) : ℕ :=
  let remaining := f.file.size - f.offset
  if len < remaining then len else remaining

def advance (f : KernelFile) (count : ℕ) : KernelFile :=
  { f with offset := (f.offset + count) % 2 ^ 32 }

def syscallFileRead (drive : Drive) (m : Machine) (fd : ℤ) (buffer len : ℕ) :
    Option (Machine × ℤ) :=
  if badRequest m fd buffer then some (m, -1)
  else if len = 0 then some (m, 0)
  else
    let f := m.files fd.toNat
    if f.file.size ≤ f.offset then some (m, 0)
    else do
      let toRead := transferSize f len
      let (m, loaded) ← loadFile drive m f.file
      match loaded with
      | .outOfMemory => some (m, -1)
      | .readFailed allData => m.release allData (-1)
      | .loaded allData =>
          let m := m.setMem (memcpy m.memory.mem buffer (allData + f.offset) toRead)
          (m.setFile fd.toNat (advance f toRead)).release allData toRead

def syscallFileWrite (drive : Drive) (m : Machine) (fd : ℤ) (buffer len : ℕ) :
    Option (Machine × ℤ) :=
  if badRequest m fd buffer then some (m, -1)
  else if (m.files fd.toNat).writable = false then some (m, -1)
  else if len = 0 then some (m, 0)
  else
    let f := m.files fd.toNat
    if f.file.size ≤ f.offset then some (m, 0)
    else do
      let toWrite := transferSize f len
      let (m, loaded) ← loadFile drive m f.file
      match loaded with
      | .outOfMemory => some (m, -1)
      | .readFailed allData => m.release allData (-1)
      | .loaded allData =>
          let m := m.setMem (memcpy m.memory.mem (allData + f.offset) buffer toWrite)
          match fat32WriteFile drive m.bpb m.io f.file
            (fun i ↦ m.memory.mem ((allData + i) % 2 ^ 64)) with
          | (io, false) => (m.setIo io).release allData (-1)
          | (io, true) =>
              ((m.setIo io).setFile fd.toNat (advance f toWrite)).release allData toWrite

end ImplusKernel.Syscall
