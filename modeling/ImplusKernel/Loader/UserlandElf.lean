import ImplusKernel.Syscall.File

/-!
# The loader of the user image

`load_userland_elf` reads URLD.ELF into a heap block and copies its segments
to the addresses they name.  Headers are read where they stand in memory,
each time they are needed.  Every run is given with the ranges that the copies
and the zero fill write, in their order.  Of a program header the fields that
nothing reads are left out.
-/

namespace ImplusKernel.Loader

open ByteMemory Disk Fat32 Heap Syscall

def ptLoad : ℕ := 1

/-- The name `"URLD    ELF"`. -/
def userlandName : List UInt8 := [85, 82, 76, 68, 32, 32, 32, 32, 69, 76, 70]

/-! ## Headers -/

/-- Memory as seen through a pointer, on 64-bit addresses. -/
def view (m : Mem) (ptr : ℕ) : Mem := fun j ↦ m ((ptr + j) % 2 ^ 64)

def validMagic (ehdr : Mem) : Bool :=
  ehdr 0 = 0x7F ∧ ehdr 1 = 69 ∧ ehdr 2 = 76 ∧ ehdr 3 = 70

def eEntry (ehdr : Mem) : ℕ := readLE ehdr 24 8

def ePhoff (ehdr : Mem) : ℕ := readLE ehdr 32 8

def ePhnum (ehdr : Mem) : ℕ := readLE ehdr 56 2

/-- `Elf64_Phdr`. -/
structure Phdr where
  pType : ℕ
  pOffset : ℕ
  pVaddr : ℕ
  pFilesz : ℕ
  pMemsz : ℕ
deriving DecidableEq, Repr

def phdrSize : ℕ := 56

def parsePhdr (table : Mem) (i : ℕ) : Phdr where
  pType := readLE table (phdrSize * i) 4
  pOffset := readLE table (phdrSize * i + 8) 8
  pVaddr := readLE table (phdrSize * i + 16) 8
  pFilesz := readLE table (phdrSize * i + 32) 8
  pMemsz := readLE table (phdrSize * i + 40) 8

/-! ## Segments -/

/-- A range of bytes written. -/
structure Write where
  start : ℕ
  length : ℕ
deriving DecidableEq, Repr

structure LoopRun where
  mem : Mem
  writes : List Write
  serial : List String
  ok : Bool

/-- What comes before the rest of the loop. -/
def LoopRun.after (rest : LoopRun) (writes : List Write) (serial : List String) : LoopRun :=
  { rest with writes := writes ++ rest.writes, serial := serial ++ rest.serial }

def segmentText (i : ℕ) (ph : Phdr) : List String :=
  ["[OS] [USER] Loading segment ", serialUint64 i, " to vaddr ", serialUint64 ph.pVaddr,
    ", size ", serialUint64 ph.pMemsz, "\n"]

/-- The zero fill.  `ph` is the header as it stands after the copy, `dst` the
address taken before it. -/
def zeroFill (m : Mem) (dst : ℕ) (ph : Phdr) : Mem × List Write :=
  if ph.pFilesz < ph.pMemsz then
    let start := (dst + ph.pFilesz) % 2 ^ 64
    let n := ph.pMemsz - ph.pFilesz
    (memset m start 0 n, [⟨start, n⟩])
  else (m, [])

/-- The copy and the zero fill of segment `i`. -/
def loadSegment (buffer phdrs i : ℕ) (m : Mem) : Mem × List Write :=
  let ph := parsePhdr (view m phdrs) i
  let copied := memcpy m ph.pVaddr ((buffer + ph.pOffset) % 2 ^ 64) ph.pFilesz
  let filled := zeroFill copied ph.pVaddr (parsePhdr (view copied phdrs) i)
  (filled.1, ⟨ph.pVaddr, ph.pFilesz⟩ :: filled.2)

/-- The loop over the program headers.  The bound is a 16-bit number, read
again in each round. -/
def loadLoop (buffer phdrs : ℕ) : ℕ → ℕ → Mem → LoopRun
  | 0, _, m => ⟨m, [], [], true⟩
  | fuel + 1, i, m =>
      if i < ePhnum (view m buffer) then
        let ph := parsePhdr (view m phdrs) i
        if ph.pType ≠ ptLoad then loadLoop buffer phdrs fuel (i + 1) m
        else if ph.pMemsz < ph.pFilesz then
          ⟨m, [], segmentText i ph ++ ["[OS] [USER] Invalid segment: memsz < filesz\n"], false⟩
        else if ph.pVaddr < 0x400000 ∨ 0x80000000 ≤ ph.pVaddr then
          ⟨m, [], segmentText i ph ++ ["[OS] [USER] Invalid virtual address\n"], false⟩
        else
          let segment := loadSegment buffer phdrs i m
          (loadLoop buffer phdrs fuel (i + 1) segment.1).after segment.2 (segmentText i ph)
      else ⟨m, [], [], true⟩

/-! ## The loader -/

/-- How reading the file ends: before there is a buffer, with a buffer that
could not be filled, or with the bytes of the file in it. -/
inductive ImageResult
  | failed
  | unread (buffer : ℕ)
  | read (buffer : ℕ) (bytes : List UInt8)
deriving DecidableEq, Repr

def readImage (drive : Drive) (m : Machine) : Option (Machine × ImageResult) :=
  match fat32FindFile drive m.bpb m.io userlandName with
  | (io, none) => some ((m.setIo io).print ["[OS] [USER] File URLD.ELF not found\n"], .failed)
  | (io, some file) =>
      let m := (m.setIo io).print
        ["[OS] [USER] File found, size: ", serialUint64 file.size, "\n"]
      if file.size = 0 ∨ 1024 * 1024 < file.size then
        some (m.print ["[OS] [USER] Invalid file size\n"], .failed)
      else do
        let (memory, r) ← kmalloc m.memory file.size
        let m := { m with memory := memory }.print r.serial
        if r.ptr = 0 then some (m.print ["[OS] [USER] Out of memory\n"], .failed)
        else
          let (io, ok, copied) ← fat32ReadFile drive m.bpb m.io file
          let m := (m.setIo io).setMem (storeBytes m.memory.mem r.ptr copied)
          if ok then
            some (m.print ["[OS] [USER] File read successfully\n"], .read r.ptr copied)
          else some (m.print ["[OS] [USER] File read failed\n"], .unread r.ptr)

/-- `outcome` is the machine and `*entry_out`, or `none` in its place for
`return false`; it is `none` as a whole when `kfree` never returns. -/
structure ElfRun where
  writes : List Write
  outcome : Option (Machine × Option ℕ)

/-- `kfree(buffer)` and return. -/
def freeBuffer (m : Machine) (buffer : ℕ) (entry : Option ℕ) (texts : List String) :
    Option (Machine × Option ℕ) := do
  let (memory, r) ← kfree m.memory buffer
  some ({ m with memory := memory }.print (r.serial ++ texts), entry)

/-- The part after the file has been read. -/
def loadImage (m : Machine) (buffer : ℕ) : ElfRun :=
  let ehdr := view m.memory.mem buffer
  if validMagic ehdr = false then
    ⟨[], freeBuffer (m.print ["[OS] [USER] Invalid ELF magic\n"]) buffer none []⟩
  else
    let phdrs := (buffer + ePhoff ehdr) % 2 ^ 64
    let loop := loadLoop buffer phdrs (2 ^ 16) 0 m.memory.mem
    let m := (m.print (["[OS] [USER] Valid ELF header\n", "[OS] [USER] Entry point: ",
      serialUint64 (eEntry ehdr), "\n"] ++ loop.serial)).setMem loop.mem
    ⟨loop.writes,
      if loop.ok then
        freeBuffer m buffer (some (eEntry (view loop.mem buffer)))
          ["[OS] [USER] ELF loaded successfully\n"]
      else freeBuffer m buffer none []⟩

/-- It is `none` when the allocator or the driver never returns, before
anything is copied. -/
def loadUserlandElf (drive : Drive) (m : Machine) : Option ElfRun := do
  let (m, image) ← readImage drive m
  match image with
  | .failed => some ⟨[], some (m, none)⟩
  | .unread buffer => some ⟨[], freeBuffer m buffer none []⟩
  | .read buffer _ => some (loadImage m buffer)

end ImplusKernel.Loader
