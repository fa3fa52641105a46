import ImplusKernel.Lib.ByteMemory
import ImplusKernel.Lib.Words

/-!
# The kernel heap

The allocator keeps one singly linked list of blocks inside the memory it
hands out: each block is a 16-byte header (`size`, `is_free`, `next`)
followed by its payload.  Headers are read from and written to the byte
memory, side by side with whatever clients store in the payloads.  Addresses
are numbers below `2 ^ 64`, and `0` is `NULL`.

The spin lock and the interrupt flag have no effect on a single processor
with interrupts disabled and are left out.  A function returns `none` when one
of its list walks never ends; the texts printed on the serial port are part
of the results.
-/

namespace ImplusKernel.Heap

open ByteMemory Words

def pageSize : ℕ := 4096

def heapPageCount : ℕ := 4096

/-- `HEAP_PAGE_COUNT * PAGE_SIZE`. -/
def heapBytes : ℕ := heapPageCount * pageSize

/-- `sizeof(memory_block_t)`. -/
def headerSize : ℕ := 16

def minAllocAlign : ℕ := 8

def minSplitRemainder : ℕ := 64

/-- The static variables of the allocator together with the memory they
govern. -/
structure MemoryState where
  mem : Mem
  heapStart : ℕ
  heapSearchHint : ℕ
  heapInitialized : Bool
  totalAllocated : ℕ
  totalFreed : ℕ
  heapStartPage : ℕ
  pageAllocHint : ℕ

/-- Statics are zero when the kernel starts; memory holds anything. -/
def MemoryState.boot (mem : Mem) : MemoryState where
  mem := mem
  heapStart := 0
  heapSearchHint := 0
  heapInitialized := false
  totalAllocated := 0
  totalFreed := 0
  heapStartPage := 0
  pageAllocHint := 0

/-! ## Block headers -/

def blockSize (m : Mem) (block : ℕ) : ℕ := readLE m block 4

def blockIsFree (m : Mem) (block : ℕ) : ℕ := readLE m (block + 4) 4

def blockNext (m : Mem) (block : ℕ) : ℕ := readLE m (block + 8) 8

def setSize (m : Mem) (block size : ℕ) : Mem := writeLE m block 4 size

def setIsFree (m : Mem) (block flag : ℕ) : Mem := writeLE m (block + 4) 4 flag

def setNext (m : Mem) (block next : ℕ) : Mem := writeLE m (block + 8) 8 next

/-! ## List walks -/

def alignUp (value align : ℕ) : ℕ :=
  (value + align - 1) % 2 ^ 32 &&& (2 ^ 32 - 1 - (align - 1))

/-- A walk is determined by the current block and one flag, so one that is
still going after this many steps has repeated itself and never ends. -/
def walkFuel : ℕ := 2 ^ 65 + 1

/-- The loop of `find_block_by_payload`: the block and its predecessor, or
`0` when the list ends. -/
def findBlockFrom (m : Mem) (target : ℕ) : ℕ → ℕ → ℕ → Option (ℕ × ℕ)
  | 0, _, _ => none
  | fuel + 1, prev, current =>
      if current = 0 then some (0, 0)
      else if (current + headerSize) % 2 ^ 64 = target then some (current, prev)
      else findBlockFrom m target fuel current (blockNext m current)

def findBlockByPayload (s : MemoryState) (ptr : ℕ) : Option (ℕ × ℕ) :=
  findBlockFrom s.mem ptr walkFuel 0 s.heapStart

def splitBlockIfNeeded (m : Mem) (block size : ℕ) : Mem :=
  if size + headerSize + minSplitRemainder ≤ blockSize m block then
    let newBlock := (block + headerSize + size) % 2 ^ 64
    let m₁ := setSize m newBlock (blockSize m block - size - headerSize)
    let m₂ := setIsFree m₁ newBlock 1
    let m₃ := setNext m₂ newBlock (blockNext m₂ block)
    let m₄ := setSize m₃ block size
    setNext m₄ block newBlock
  else m

/-- The search loop of `kmalloc_locked`: the first free block that is large
enough, going round once from `start`, or `0`. -/
def searchFrom (m : Mem) (heapStart start size : ℕ) : ℕ → ℕ → Bool → Option ℕ
  | 0, _, _ => none
  | fuel + 1, current, wrapped =>
      if current = 0 then some 0
      else if blockIsFree m current ≠ 0 ∧ size ≤ blockSize m current then some current
      else
        let next := blockNext m current
        let wraps := next = 0 ∧ wrapped = false
        let current' := if wraps then heapStart else next
        let wrapped' := if wraps then true else wrapped
        if wrapped' = true ∧ current' = start then some 0
        else searchFrom m heapStart start size fuel current' wrapped'

def kmallocLocked (s : MemoryState) (size : ℕ) : Option (MemoryState × ℕ) := do
  let start := if s.heapSearchHint = 0 then s.heapStart else s.heapSearchHint
  let current ← searchFrom s.mem s.heapStart start size walkFuel start false
  if current = 0 then some ({ s with heapSearchHint := start }, 0)
  else
    let m := setIsFree (splitBlockIfNeeded s.mem current size) current 0
    let next := blockNext m current
    some ({ s with
      mem := m
      totalAllocated := (s.totalAllocated + blockSize m current) % 2 ^ 32
      heapSearchHint := if next ≠ 0 then next else s.heapStart },
      (current + headerSize) % 2 ^ 64)

/-! ## Initialisation -/

/-- `calc_heap_start_page`, with the linker symbol `_kernel_end` as argument;
the value is cached. -/
def calcHeapStartPage (kernelEnd : ℕ) (s : MemoryState) : ℕ :=
  if s.heapStartPage ≠ 0 then s.heapStartPage
  else (kernelEnd + pageSize - 1) % 2 ^ 64 / pageSize % 2 ^ 32

def memoryInit (kernelEnd : ℕ) (s : MemoryState) : MemoryState :=
  if s.heapInitialized then s
  else
    let startPage := calcHeapStartPage kernelEnd s
    let heapStart := startPage * pageSize
    let m₁ := setSize s.mem heapStart (heapBytes - headerSize)
    let m₂ := setIsFree m₁ heapStart 1
    let m₃ := setNext m₂ heapStart 0
    { mem := m₃
      heapStart := heapStart
      heapSearchHint := heapStart
      heapInitialized := true
      totalAllocated := 0
      totalFreed := 0
      heapStartPage := startPage
      pageAllocHint := 0 }

/-! ## The serial port -/

/-- `serial_write_uint64`: the sixteen hexadecimal digits, most significant
first. -/
def serialUint64 (value : ℕ) : String :=
  "0x" ++ String.ofList ((List.range 16).map fun i ↦
    "0123456789ABCDEF".toList.getD (value / 16 ^ (15 - i) % 16) '0')

/-! ## The allocator's interface -/

inductive KmallocResult
  | beforeInit
  | zeroSize
  | outOfMemory (requested : ℕ)
  | block (ptr : ℕ)
deriving DecidableEq, Repr

def KmallocResult.ptr : KmallocResult → ℕ
  | .block ptr => ptr
  | _ => 0

def KmallocResult.serial : KmallocResult → List String
  | .beforeInit => ["[OS] [Memory] kmalloc called before heap init!\n"]
  | .outOfMemory requested =>
      ["[OS] [Memory] kmalloc: Out of memory (requested ", serialUint64 requested, " bytes)\n"]
  | _ => []

def kmalloc (s : MemoryState) (size : ℕ) : Option (MemoryState × KmallocResult) :=
  if s.heapInitialized = false then some (s, .beforeInit)
  else if size = 0 then some (s, .zeroSize)
  else do
    let size := alignUp size minAllocAlign
    let (s', ptr) ← kmallocLocked s size
    if ptr ≠ 0 then some (s', .block ptr) else some (s', .outOfMemory size)

inductive KfreeResult
  | nullPointer
  | notInitialized
  | invalidPointer
  | notTracked
  | doubleFree
  | freed
deriving DecidableEq, Repr

def KfreeResult.serial : KfreeResult → List String
  | .notInitialized => ["[OS] [Memory] kfree: Heap not initialized\n"]
  | .invalidPointer => ["[OS] [Memory] kfree: Invalid pointer\n"]
  | .notTracked => ["[OS] [Memory] kfree: Pointer not tracked\n"]
  | .doubleFree => ["[OS] [Memory] kfree: Double free detected\n"]
  | _ => []

/-- `block` takes over the extent and the successor of the block after it. -/
def absorbNext (m : Mem) (block : ℕ) : Mem :=
  let m₁ := setSize m block
    ((blockSize m block + headerSize + blockSize m (blockNext m block)) % 2 ^ 32)
  setNext m₁ block (blockNext m₁ (blockNext m₁ block))

/-- `kfree` joins the freed block with a free successor. -/
def mergeForward (m : Mem) (block : ℕ) : Mem :=
  if blockNext m block ≠ 0 ∧ blockIsFree m (blockNext m block) ≠ 0 then absorbNext m block
  else m

/-- `kfree` joins it with a free predecessor, which then stands for both. -/
def mergeBackward (m : Mem) (prev block : ℕ) : Mem × ℕ :=
  if prev ≠ 0 ∧ blockIsFree m prev ≠ 0 then
    let m₁ := setSize m prev ((blockSize m prev + headerSize + blockSize m block) % 2 ^ 32)
    (setNext m₁ prev (blockNext m₁ block), prev)
  else (m, block)

/-- The tail of `kfree`, once the block is known to be in use. -/
def releaseBlock (s : MemoryState) (block prev : ℕ) : MemoryState :=
  let m₁ := setIsFree s.mem block 1
  let joined := mergeBackward (mergeForward m₁ block) prev block
  { s with
    mem := joined.1
    totalFreed := (s.totalFreed + blockSize m₁ block) % 2 ^ 32
    heapSearchHint := joined.2 }

def kfree (s : MemoryState) (ptr : ℕ) : Option (MemoryState × KfreeResult) :=
  if ptr = 0 then some (s, .nullPointer)
  else if s.heapInitialized = false ∨ s.heapStart = 0 then some (s, .notInitialized)
  else if ptr < (s.heapStart + headerSize) % 2 ^ 64 ∨
      (s.heapStart + heapBytes) % 2 ^ 64 ≤ ptr then some (s, .invalidPointer)
  else do
    let (block, prev) ← findBlockByPayload s ptr
    if block = 0 then some (s, .notTracked)
    else if blockIsFree s.mem block ≠ 0 then some (s, .doubleFree)
    else some (releaseBlock s block prev, .freed)

inductive KcallocResult
  | sizeOverflow
  | allocated (r : KmallocResult)
deriving DecidableEq, Repr

def KcallocResult.ptr : KcallocResult → ℕ
  | .sizeOverflow => 0
  | .allocated r => r.ptr

def KcallocResult.serial : KcallocResult → List String
  | .sizeOverflow => ["[OS] [Memory] kcalloc: Size overflow\n"]
  | .allocated r => r.serial

def kcalloc (s : MemoryState) (num size : ℕ) : Option (MemoryState × KcallocResult) :=
  if num ≠ 0 ∧ (2 ^ 32 - 1) / num < size then some (s, .sizeOverflow)
  else do
    let totalSize := num * size % 2 ^ 32
    let (s', r) ← kmalloc s totalSize
    if r.ptr ≠ 0 then
      some ({ s' with mem := memset s'.mem r.ptr 0 totalSize }, .allocated r)
    else some (s', .allocated r)

/-- The ways `krealloc` ends: it acts as `kmalloc` or `kfree`, rejects the
pointer, resizes in place, or moves the allocation. -/
inductive KreallocResult
  | fresh (r : KmallocResult)
  | released (r : KfreeResult)
  | invalidPointer
  | resized (ptr : ℕ)
  | moveFailed (r : KmallocResult)
  | moved (r : KmallocResult) (old : KfreeResult)
deriving DecidableEq, Repr

def KreallocResult.ptr : KreallocResult → ℕ
  | .fresh r => r.ptr
  | .resized ptr => ptr
  | .moved r _ => r.ptr
  | _ => 0

def KreallocResult.serial : KreallocResult → List String
  | .fresh r => r.serial
  | .released r => r.serial
  | .invalidPointer => ["[OS] [Memory] krealloc: Invalid pointer\n"]
  | .resized _ => []
  | .moveFailed r => r.serial
  | .moved r old => r.serial ++ old.serial

def krealloc (s : MemoryState) (ptr newSize : ℕ) :
    Option (MemoryState × KreallocResult) :=
  if ptr = 0 then do
    let (s', r) ← kmalloc s newSize
    some (s', .fresh r)
  else if newSize = 0 then do
    let (s', r) ← kfree s ptr
    some (s', .released r)
  else do
    let newSize := alignUp newSize minAllocAlign
    let (block, _) ← findBlockByPayload s ptr
    if block = 0 ∨ blockIsFree s.mem block ≠ 0 then some (s, .invalidPointer)
    else
      let oldSize := blockSize s.mem block
      let next := blockNext s.mem block
      if newSize ≤ oldSize then
        some ({ s with mem := splitBlockIfNeeded s.mem block newSize }, .resized ptr)
      else if next ≠ 0 ∧ blockIsFree s.mem next ≠ 0 ∧
          newSize ≤ oldSize + headerSize + blockSize s.mem next then
        some ({ s with mem := splitBlockIfNeeded (absorbNext s.mem block) block newSize },
          .resized ptr)
      else do
        let (s₁, r) ← kmalloc s newSize
        if r.ptr = 0 then some (s₁, .moveFailed r)
        else do
          let s₂ := { s₁ with mem := memcpy s₁.mem r.ptr ptr oldSize }
          let (s₃, old) ← kfree s₂ ptr
          some (s₃, .moved r old)

/-! ## Statistics -/

/-- The loop of `get_free_memory`. -/
def freeMemoryFrom (m : Mem) : ℕ → ℕ → ℕ → Option ℕ
  | 0, _, _ => none
  | fuel + 1, freeMemory, current =>
      if current = 0 then some freeMemory
      else
        let freeMemory' :=
          if blockIsFree m current ≠ 0 then (freeMemory + blockSize m current) % 2 ^ 32
          else freeMemory
        freeMemoryFrom m fuel freeMemory' (blockNext m current)

def getFreeMemory (s : MemoryState) : Option ℕ :=
  if s.heapInitialized = false then some 0 else freeMemoryFrom s.mem walkFuel 0 s.heapStart

def getUsedMemory (s : MemoryState) : ℕ := (s.totalAllocated + 2 ^ 32 - s.totalFreed) % 2 ^ 32

end ImplusKernel.Heap
