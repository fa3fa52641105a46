import ImplusKernel.FileSystem.SectorBuffers
import ImplusKernel.Syscall.FileFootprint
import ImplusKernel.Syscall.FileRefinement

/-!
# The file calls return

Nothing on a drive makes the driver divide by zero or follow a chain forever:
a boot sector without sector size makes every search fail, so that no file is
ever open on such a volume.  What can keep a call from returning is the heap.
The size of a file of almost 4 GiB rounds to zero in `kmalloc`, and the read
that follows overwrites the headers of the blocks behind.
-/

namespace ImplusKernel.Syscall

open ByteMemory Disk Fat32 Heap

variable {drive : Drive} {m m' m'' : Machine} {act : Action} {file : Fat32File} {fd r r' : ℤ}
  {buffer len ptr : ℕ}

/-! ## What a call makes the driver do -/

def loadEvents (drive : Drive) (m : Machine) (file : Fat32File) : List DriverEvent :=
  match kmalloc m.memory file.size with
  | none => []
  | some (_, r) =>
      if r.ptr = 0 then [] else readFileEvents drive m.bpb (m.io.print r.serial) file

def Action.events (drive : Drive) (m : Machine) : Action → List DriverEvent
  | .openFile path _ =>
      match pathToFat83 m.memory.mem path with
      | none => []
      | some name => findFileEvents drive m.bpb m.io name
  | .readFile fd buffer len =>
      let f := m.files fd.toNat
      if badRequest m fd buffer ∨ len = 0 ∨ f.file.size ≤ f.offset then []
      else loadEvents drive m f.file
  | .writeFile fd buffer len =>
      let f := m.files fd.toNat
      if badRequest m fd buffer ∨ f.writable = false ∨ len = 0 ∨ f.file.size ≤ f.offset then []
      else loadEvents drive m f.file ++
        match loadFile drive m f.file with
        | some (m₁, .loaded allData) =>
            let mem := memcpy m₁.memory.mem (allData + f.offset) buffer (transferSize f len)
            writeFileEvents drive m₁.bpb m₁.io f.file (fun i ↦ mem ((allData + i) % 2 ^ 64))
        | _ => []
  | .closeFile _ => []

/-! ## Open files and the sector size -/

/-- A volume without sector size has no open files. -/
def NoneOpenAtZero (m : Machine) : Prop :=
  m.bpb.bytesPerSector = 0 → ∀ fd, (m.files fd).used = false

/-- The same volume, and the same descriptors in use. -/
structure SameTable (m m' : Machine) : Prop where
  bpb : m'.bpb = m.bpb
  used : ∀ fd, (m'.files fd).used = (m.files fd).used

theorem SameTable.noneOpenAtZero (h : SameTable m m') (hm : NoneOpenAtZero m) :
    NoneOpenAtZero m' := by
  intro hzero fd
  rw [h.used fd]
  exact hm (h.bpb ▸ hzero) fd

theorem loadFile_table {res : LoadResult} (h : loadFile drive m file = some (m', res)) :
    m'.bpb = m.bpb ∧ m'.files = m.files := by
  obtain ⟨⟨memory, r⟩, -, h⟩ := Option.bind_eq_some_iff.mp h
  dsimp only at h
  split at h
  · obtain ⟨rfl, -⟩ := Prod.mk.inj (Option.some.inj h)
    exact ⟨rfl, rfl⟩
  · obtain ⟨⟨io, ok, copied⟩, -, h⟩ := Option.bind_eq_some_iff.mp h
    obtain ⟨rfl, -⟩ := Prod.mk.inj (Option.some.inj h)
    exact ⟨rfl, rfl⟩

/-- Moving the position of a descriptor leaves it in use. -/
theorem sameTable_advance (hbpb : m'.bpb = m.bpb) {fd n : ℕ} (hfiles : m'.files = m.files ∨
    m'.files = Function.update m.files fd (advance (m.files fd) n)) : SameTable m m' := by
  refine ⟨hbpb, fun fd' ↦ ?_⟩
  rcases hfiles with hfiles | hfiles
  · rw [hfiles]
  rw [hfiles]
  by_cases h : fd' = fd
  · rw [h, Function.update_self]
    rfl
  · rw [Function.update_of_ne h]

/-- A call that moves bytes leaves the table as it is or moves its own
position. -/
theorem syscallFileRead_table (h : syscallFileRead drive m fd buffer len = some (m', r)) :
    m'.bpb = m.bpb ∧ (r ≤ 0 ∧ m'.files = m.files ∨
      Moves m fd buffer len ∧ r = transferSize (m.files fd.toNat) len ∧
        m'.files = Function.update m.files fd.toNat
          (advance (m.files fd.toNat) (transferSize (m.files fd.toNat) len))) := by
  by_cases hmoves : Moves m fd buffer len
  · rw [syscallFileRead_moves hmoves] at h
    obtain ⟨⟨m₁, res⟩, hload, h⟩ := Option.bind_eq_some_iff.mp h
    obtain ⟨hbpb, hfiles⟩ := loadFile_table hload
    obtain ⟨hbpb', hcases⟩ := finishRead_table h
    rw [hfiles] at hcases
    refine ⟨hbpb'.trans hbpb, hcases.imp (fun hfailed ↦ ⟨?_, hfailed.2⟩) fun hread ↦
      ⟨hmoves, hread⟩⟩
    rw [hfailed.1]
    decide
  · obtain ⟨_, hle, hidle⟩ := syscallFileRead_idle drive hmoves
    obtain ⟨rfl, rfl⟩ := Prod.mk.inj (Option.some.inj (hidle.symm.trans h))
    exact ⟨rfl, Or.inl ⟨hle, rfl⟩⟩

theorem syscallFileWrite_table (h : syscallFileWrite drive m fd buffer len = some (m', r)) :
    m'.bpb = m.bpb ∧ (m'.files = m.files ∨ Moves m fd buffer len ∧
      m'.files = Function.update m.files fd.toNat
        (advance (m.files fd.toNat) (transferSize (m.files fd.toNat) len))) := by
  by_cases hmoves : Moves m fd buffer len ∧ (m.files fd.toNat).writable = true
  · rw [syscallFileWrite_moves hmoves.1 hmoves.2] at h
    obtain ⟨⟨m₁, res⟩, hload, h⟩ := Option.bind_eq_some_iff.mp h
    obtain ⟨hbpb, hfiles⟩ := loadFile_table hload
    obtain ⟨hbpb', hcases⟩ := finishWrite_table h
    rw [hfiles] at hcases
    exact ⟨hbpb'.trans hbpb, hcases.imp id fun hwritten ↦ ⟨hmoves.1, hwritten⟩⟩
  · obtain ⟨_, hidle⟩ := syscallFileWrite_idle drive hmoves
    obtain ⟨rfl, -⟩ := Prod.mk.inj (Option.some.inj (hidle.symm.trans h))
    exact ⟨rfl, Or.inl rfl⟩

theorem sameTable_read (h : syscallFileRead drive m fd buffer len = some (m', r)) :
    SameTable m m' := by
  obtain ⟨hbpb, hcases⟩ := syscallFileRead_table h
  exact sameTable_advance hbpb (hcases.imp And.right fun hread ↦ hread.2.2)

theorem sameTable_write (h : syscallFileWrite drive m fd buffer len = some (m', r)) :
    SameTable m m' := by
  obtain ⟨hbpb, hcases⟩ := syscallFileWrite_table h
  exact sameTable_advance hbpb (hcases.imp id And.right)

/-- A search on a volume without sector size looks at no cluster. -/
theorem maxClusters_of_zero {bpb : Bpb} (h : bpb.bytesPerSector = 0) : maxClusters bpb = 0 := by
  rw [maxClusters, h, Nat.mul_zero, Nat.zero_mod, Nat.zero_div]

theorem noneOpenAtZero_open (hm : NoneOpenAtZero m) (path flags : ℕ) :
    NoneOpenAtZero (syscallFileOpen drive m path flags).1 := by
  rcases syscallFileOpen_cases drive m path flags with
    ⟨io, hopen⟩ | ⟨name, io, file, fd, -, hfind, -, -, hopen⟩
  · rw [hopen]
    exact hm
  · rw [hopen]
    intro hzero
    have hnone : maxClusters m.bpb = 0 := maxClusters_of_zero hzero
    simp [fat32FindFile, hnone, searchClusters] at hfind

theorem noneOpenAtZero_close (hm : NoneOpenAtZero m) (fd : ℤ) :
    NoneOpenAtZero (syscallFileClose m fd).1 := by
  unfold syscallFileClose
  split
  · exact hm
  · intro hzero fd'
    dsimp only [Machine.setFile]
    by_cases h : fd' = fd.toNat
    · rw [h, Function.update_self]
      rfl
    · rw [Function.update_of_ne h]
      exact hm hzero fd'

theorem NoneOpenAtZero.perform (hm : NoneOpenAtZero m)
    (h : perform drive m act = some (m', r)) : NoneOpenAtZero m' := by
  cases act with
  | openFile path flags =>
      rw [← (Prod.mk.inj (Option.some.inj h)).1]
      exact noneOpenAtZero_open hm path flags
  | readFile fd buffer len => exact (sameTable_read h).noneOpenAtZero hm
  | writeFile fd buffer len => exact (sameTable_write h).noneOpenAtZero hm
  | closeFile fd =>
      rw [← (Prod.mk.inj (Option.some.inj h)).1]
      exact noneOpenAtZero_close hm fd

/-! ## Descriptors not in use -/

/-- An entry of the table that is not in use holds zeros. -/
def UnusedCleared (m : Machine) : Prop :=
  ∀ fd, (m.files fd).used = false → m.files fd = .cleared

theorem UnusedCleared.update (hm : UnusedCleared m) {fd : ℕ} {f : KernelFile}
    (hf : f.used = true ∨ f = .cleared) (hfiles : m'.files = Function.update m.files fd f) :
    UnusedCleared m' := by
  intro fd' hunused
  rw [hfiles] at hunused ⊢
  by_cases h : fd' = fd
  · rw [h, Function.update_self] at hunused ⊢
    exact hf.resolve_left (by simp [hunused])
  · rw [Function.update_of_ne h] at hunused ⊢
    exact hm fd' hunused

theorem Moves.used (h : Moves m fd buffer len) : (m.files fd.toNat).used = true := by
  have hgood := h.1
  simp only [badRequest, decide_eq_false_iff_not, not_or, Bool.not_eq_false] at hgood
  exact hgood.2.2.2

theorem UnusedCleared.advance (hm : UnusedCleared m) (hmoves : Moves m fd buffer len) {n : ℕ}
    (hfiles : m'.files =
      Function.update m.files fd.toNat (Syscall.advance (m.files fd.toNat) n)) :
    UnusedCleared m' := by
  refine hm.update (Or.inl ?_) hfiles
  exact hmoves.used

theorem unusedCleared_open (hm : UnusedCleared m) (path flags : ℕ) :
    UnusedCleared (syscallFileOpen drive m path flags).1 := by
  rcases syscallFileOpen_cases drive m path flags with
    ⟨io, hopen⟩ | ⟨name, io, file, fd, -, -, -, -, hopen⟩
  · rw [hopen]
    exact hm
  · rw [hopen]
    exact hm.update (Or.inl rfl) rfl

theorem unusedCleared_close (hm : UnusedCleared m) (fd : ℤ) :
    UnusedCleared (syscallFileClose m fd).1 := by
  unfold syscallFileClose
  split
  · exact hm
  · exact hm.update (Or.inr rfl) rfl

theorem UnusedCleared.perform (hm : UnusedCleared m) (h : perform drive m act = some (m', r)) :
    UnusedCleared m' := by
  cases act with
  | openFile path flags =>
      rw [← (Prod.mk.inj (Option.some.inj h)).1]
      exact unusedCleared_open hm path flags
  | readFile fd buffer len =>
      obtain ⟨-, ⟨-, hfiles⟩ | ⟨hmoves, -, hfiles⟩⟩ := syscallFileRead_table h
      · rw [UnusedCleared, hfiles]
        exact hm
      · exact hm.advance hmoves hfiles
  | writeFile fd buffer len =>
      obtain ⟨-, hfiles | ⟨hmoves, hfiles⟩⟩ := syscallFileWrite_table h
      · rw [UnusedCleared, hfiles]
        exact hm
      · exact hm.advance hmoves hfiles
  | closeFile fd =>
      rw [← (Prod.mk.inj (Option.some.inj h)).1]
      exact unusedCleared_close hm fd

/-! ## Divisions -/

theorem findFileEvents_of_zero {bpb : Bpb} (h : bpb.bytesPerSector = 0) (io : IoState)
    (filename : List UInt8) : findFileEvents drive bpb io filename = [] := by
  rw [findFileEvents, fat32FindFileTraced, maxClusters_of_zero h]
  rfl

theorem NoneOpenAtZero.bytesPerSector_ne_zero (hm : NoneOpenAtZero m)
    (hbad : badRequest m fd buffer = false) : m.bpb.bytesPerSector ≠ 0 := by
  intro hzero
  simp [badRequest, hm hzero fd.toNat] at hbad

theorem loadEvents_issued (drive : Drive) (m : Machine) (file : Fat32File) :
    ∀ e ∈ loadEvents drive m file, Issued m.bpb e := by
  unfold loadEvents
  split
  · simp
  split
  · simp
  · exact readFileEvents_issued _ _ _ _

theorem Action.events_issued (drive : Drive) (m : Machine) (act : Action) :
    ∀ e ∈ act.events drive m, Issued m.bpb e := by
  cases act with
  | openFile path flags =>
      rw [Action.events]
      split
      · simp
      · exact findFileEvents_issued _ _ _ _
  | readFile fd buffer len =>
      rw [Action.events]
      split
      · simp
      · exact loadEvents_issued _ _ _
  | writeFile fd buffer len =>
      rw [Action.events]
      dsimp only
      split
      · simp
      rw [List.forall_mem_append]
      refine ⟨loadEvents_issued _ _ _, ?_⟩
      split
      · next hload =>
        rw [← (loadFile_table hload).1]
        exact writeFileEvents_issued _ _ _ _ _
      · simp
  | closeFile fd => simp [Action.events]

/-- A call that divides has a file to work on, or a volume to search. -/
theorem NoneOpenAtZero.divisor_ne_zero (hm : NoneOpenAtZero m) {d : ℕ}
    (hd : .divide d ∈ act.events drive m) : d ≠ 0 := by
  rw [(act.events_issued drive m _ hd).divisor]
  intro hzero
  have hbad : ∀ (fd : ℤ) (buffer : ℕ), badRequest m fd buffer = true := by
    intro fd buffer
    cases h : badRequest m fd buffer with
    | true => rfl
    | false => exact absurd hzero (hm.bytesPerSector_ne_zero h)
  cases act with
  | openFile path flags =>
      rw [Action.events] at hd
      split at hd
      · simp at hd
      · simp [findFileEvents_of_zero hzero] at hd
  | readFile fd buffer len => simp [Action.events, hbad] at hd
  | writeFile fd buffer len => simp [Action.events, hbad] at hd
  | closeFile fd => simp [Action.events] at hd

/-! ## Runs -/

/-- Files are loaded into blocks of their size, and reads deliver into memory
of the caller. -/
def Action.Fits (m : Machine) : Action → Prop
  | .readFile fd buffer len => badRequest m fd buffer = false →
      (m.files fd.toNat).file.size ≤ 0xFFFFFFF8 ∧
        ClientBuffer m.memory buffer (transferSize (m.files fd.toNat) len)
  | .writeFile fd buffer _ => badRequest m fd buffer = false →
      (m.files fd.toNat).file.size ≤ 0xFFFFFFF8
  | _ => True

/-- The states reached by file calls from initialisation on, successful or
not.  Between two calls memory and drive may change in any way that keeps the
heap in order. -/
inductive CallRun (drive : Drive) (Allowed : Machine → Action → Prop) : Machine → Prop
  | start {m : Machine} {io : IoState} {bpb : Bpb} {ok : Bool}
      (hheap : ∃ bs, HeapInvariant m.memory bs)
      (hinit : fat32Init drive m.io m.bpb = (io, bpb, ok)) :
      CallRun drive Allowed (syscallFileInit { m with io := io, bpb := bpb })
  | call {m m' : Machine} {r : ℤ} (act : Action) (hrun : CallRun drive Allowed m)
      (hallowed : Allowed m act) (hcall : perform drive m act = some (m', r)) :
      CallRun drive Allowed m'
  | between {m : Machine} (memory : MemoryState) (io : IoState) (hrun : CallRun drive Allowed m)
      (hheap : ∃ bs, HeapInvariant memory bs) :
      CallRun drive Allowed { m with memory := memory, io := io }

/-- The machine once its file system is initialised. -/
theorem callRun_init (Allowed : Machine → Action → Prop)
    (hheap : ∃ bs, HeapInvariant m.memory bs) :
    CallRun drive Allowed (syscallFileInit { m with
      io := (fat32Init drive m.io m.bpb).1, bpb := (fat32Init drive m.io m.bpb).2.1 }) := by
  have hparts : ∀ p : IoState × Bpb × Bool, p = (p.1, p.2.1, p.2.2) := fun _ ↦ rfl
  exact .start hheap (hparts _)

theorem CallRun.noneOpenAtZero {Allowed : Machine → Action → Prop}
    (h : CallRun drive Allowed m) : NoneOpenAtZero m := by
  induction h with
  | start _ _ => exact fun _ _ ↦ rfl
  | call act _ _ hcall ih => exact ih.perform hcall
  | between memory io _ _ ih => exact ih

theorem CallRun.unusedCleared {Allowed : Machine → Action → Prop}
    (h : CallRun drive Allowed m) : UnusedCleared m := by
  induction h with
  | start _ _ => exact fun _ _ ↦ rfl
  | call act _ _ hcall ih => exact ih.perform hcall
  | between memory io _ _ ih => exact ih

theorem loadFile_returns {bs : List Block} (hheap : HeapInvariant m.memory bs)
    (hbps : m.bpb.bytesPerSector ≠ 0) (file : Fat32File) :
    ∃ m₁ res, loadFile drive m file = some (m₁, res) := by
  obtain ⟨⟨memory, r⟩, hk⟩ := Option.isSome_iff_exists.mp (hheap.calls_return file.size 0).1
  simp only [loadFile, hk, Option.bind_eq_bind, Option.bind_some]
  by_cases hr : r.ptr = 0
  · exact ⟨_, _, if_pos hr⟩
  · obtain ⟨⟨io, ok, copied⟩, hread⟩ := Option.isSome_iff_exists.mp
      (fat32ReadFile_returns drive hbps (m.io.print r.serial) file)
    rw [if_neg hr, hread]
    exact ⟨_, _, rfl⟩

/-- A call that fits returns and leaves the heap in order. -/
theorem perform_returns (hheap : ∃ bs, HeapInvariant m.memory bs) (hm : NoneOpenAtZero m)
    (hfits : act.Fits m) :
    ∃ m' r, perform drive m act = some (m', r) ∧ ∃ bs, HeapInvariant m'.memory bs := by
  obtain ⟨bs, hinv⟩ := hheap
  cases act with
  | openFile path flags =>
      refine ⟨(syscallFileOpen drive m path flags).1, _, rfl, bs, ?_⟩
      rw [syscallFileOpen_memory]
      exact hinv
  | readFile fd buffer len =>
      by_cases hmoves : Moves m fd buffer len
      · obtain ⟨hsize, hbuf⟩ := hfits hmoves.1
        obtain ⟨m₁, res, hload⟩ := loadFile_returns hinv
          (hm.bytesPerSector_ne_zero hmoves.1) (m.files fd.toNat).file
        obtain ⟨m', r, hfinish, hborrows⟩ := finishRead_returns hinv hmoves hsize hbuf hload
        have hkeeps := hborrows.keeps hinv hsize fun x hx ↦ hbuf.owned x hx.2.1 hx.2.2
        refine ⟨m', r, ?_, hkeeps.heap⟩
        rw [perform, syscallFileRead_moves hmoves, hload]
        exact hfinish
      · obtain ⟨r, -, hidle⟩ := syscallFileRead_idle drive hmoves
        exact ⟨m, r, hidle, bs, hinv⟩
  | writeFile fd buffer len =>
      by_cases hmoves : Moves m fd buffer len ∧ (m.files fd.toNat).writable = true
      · obtain ⟨m₁, res, hload⟩ := loadFile_returns hinv
          (hm.bytesPerSector_ne_zero hmoves.1.1) (m.files fd.toNat).file
        obtain ⟨m', r, hfinish, hborrows⟩ :=
          finishWrite_returns hinv hmoves.1 (hfits hmoves.1.1) hload
        have hkeeps := hborrows.keeps hinv (hfits hmoves.1.1) fun _ hx ↦ hx.elim
        refine ⟨m', r, ?_, hkeeps.heap⟩
        rw [perform, syscallFileWrite_moves hmoves.1 hmoves.2, hload]
        exact hfinish
      · obtain ⟨r, hidle⟩ := syscallFileWrite_idle drive hmoves
        exact ⟨m, r, hidle, bs, hinv⟩
  | closeFile fd =>
      refine ⟨(syscallFileClose m fd).1, _, rfl, bs, ?_⟩
      rw [syscallFileClose_memory]
      exact hinv

theorem CallRun.heap (h : CallRun drive (fun m act ↦ act.Fits m) m) :
    ∃ bs, HeapInvariant m.memory bs := by
  induction h with
  | start hheap _ => exact hheap
  | call act hrun hfits hcall ih =>
      obtain ⟨m', r, hcall', hheap⟩ := perform_returns ih hrun.noneOpenAtZero hfits
      obtain ⟨rfl, -⟩ := Prod.mk.inj (Option.some.inj (hcall'.symm.trans hcall))
      exact hheap
  | between memory io _ hheap _ => exact hheap

/-- On every drive, in every state reached by any calls: no call divides by
zero, and the chain of an open file is followed to an end.  If the calls of
the run fit, the next one that does returns. -/
theorem fileCalls_total (drive : Drive) (m : Machine) (act : Action) :
    (CallRun drive (fun _ _ ↦ True) m →
      (∀ d, .divide d ∈ act.events drive m → d ≠ 0) ∧
        ∀ fd io, (m.files fd).used = true →
          (fat32ReadFile drive m.bpb io (m.files fd).file).isSome) ∧
    (CallRun drive (fun m act ↦ act.Fits m) m → act.Fits m →
      ∃ m' r, perform drive m act = some (m', r)) := by
  constructor
  · intro hrun
    refine ⟨fun d hd ↦ hrun.noneOpenAtZero.divisor_ne_zero hd, fun fd io hused ↦ ?_⟩
    apply fat32ReadFile_returns
    intro hzero
    rw [hrun.noneOpenAtZero hzero fd] at hused
    cases hused
  · intro hrun hfits
    obtain ⟨m', r, hcall, -⟩ := perform_returns hrun.heap hrun.noneOpenAtZero hfits
    exact ⟨m', r, hcall⟩

/-! ## A search without end -/

/-- A search that stays among blocks none of which will do never ends. -/
theorem searchFrom_never {mem : Mem} {heapStart start size : ℕ} (trap : ℕ → Prop)
    (htrap : ∀ c, trap c → c ≠ 0 ∧ ¬(blockIsFree mem c ≠ 0 ∧ size ≤ blockSize mem c) ∧
      blockNext mem c ≠ 0 ∧ trap (blockNext mem c)) (fuel : ℕ) {c : ℕ} (hc : trap c) :
    searchFrom mem heapStart start size fuel c false = none := by
  induction fuel generalizing c with
  | zero => rfl
  | succ fuel ih =>
      obtain ⟨hne, hunfit, hnext, htrapped⟩ := htrap c hc
      simp only [searchFrom, if_neg hne, if_neg hunfit, hnext, false_and, if_false,
        Bool.false_eq_true]
      exact ih htrapped

/-- A directory entry of a file with a name of one letter. -/
def letterEntry (letter cluster : UInt8) (size : ℕ) : List UInt8 :=
  letter :: List.replicate 11 32 ++ List.replicate 14 0 ++ [cluster, 0] ++
    (List.range 4).map fun k ↦ UInt8.ofNat (size / 256 ^ k)

/-- A volume with the files `A`, of the given size, and `B`, of eight bytes.
The bytes of `A` form the header of a block in use that is followed by the
block at `0x110000`. -/
def twoFiles (size : ℕ) : IoState :=
  { blankVolume 512 with
    sectors := fun s ↦
      if s = 2148 then fun i ↦ (letterEntry 65 3 size ++ letterEntry 66 4 8).getD i 0
      else if s = 2149 then fun i ↦ if i = 10 then 0x11 else 0
      else (blankVolume 512).sectors s }

/-- The machine before its file system is initialised, with the paths of both
files in memory. -/
def twoPaths (size : ℕ) : Machine where
  memory := memoryInit 0x110000
    (.boot fun x ↦ if x = 0x2000 then 65 else if x = 0x2010 then 66 else 0)
  io := twoFiles size
  bpb := ⟨0, 0, 0, 0, 0, 0⟩
  files _ := .cleared

def mounted (size : ℕ) : Machine :=
  let init := fat32Init faultless (twoPaths size).io (twoPaths size).bpb
  syscallFileInit { twoPaths size with io := init.1, bpb := init.2.1 }

theorem callRun_mounted (Allowed : Machine → Action → Prop) (size : ℕ) :
    CallRun faultless Allowed (mounted size) := by
  have hheap : ∃ bs, HeapInvariant (twoPaths size).memory bs :=
    ⟨_, heapInvariant_memoryInit ⟨by norm_num, by norm_num⟩ _⟩
  exact callRun_init Allowed hheap

theorem fileCalls_total_five_bytes :
    ∃ m, perform faultless (mounted 5) (.openFile 0x2000 0) = some (m, 0) ∧
      ∃ m' r, perform faultless m (.readFile 0 0x3000 100) = some (m', r) := by
  refine ⟨_, rfl, ?_⟩
  refine (fileCalls_total faultless _ (.readFile 0 0x3000 100)).2
    (.call (r := 0) (.openFile 0x2000 0) (callRun_mounted _ 5) trivial rfl) ?_
  intro _
  refine ⟨by decide, by decide, fun x _ hx ↦ Or.inl ?_⟩
  have hx' : x < 0x3000 + 5 := hx
  exact hx'.trans (by decide)

/-- `B` is open at descriptor 1, and the list of blocks has become a cycle of
two: a free block of no bytes and a block in use. -/
def Strands (m : Machine) : Prop :=
  m.files 1 = ⟨true, false, ⟨66 :: List.replicate 10 32, 4, 8⟩, 0⟩ ∧
    m.memory.heapInitialized = true ∧ m.memory.heapSearchHint = 0x110000 ∧
    blockSize m.memory.mem 0x110000 = 0 ∧ blockNext m.memory.mem 0x110000 = 0x110010 ∧
    blockIsFree m.memory.mem 0x110010 = 0 ∧ blockNext m.memory.mem 0x110010 = 0x110000

instance (m : Machine) : Decidable (Strands m) := inferInstanceAs (Decidable (_ ∧ _))

theorem Strands.never_returns (h : Strands m) :
    perform drive m (.readFile 1 0x3000 1) = none := by
  obtain ⟨hfile, hinitialized, hhint, hsize, hnext, hused, hback⟩ := h
  have hmoves : Moves m 1 0x3000 1 := by
    simp [Moves, badRequest, fileMaxFd, hfile]
  have hsearch : searchFrom m.memory.mem m.memory.heapStart 0x110000 8 walkFuel 0x110000 false =
      none := by
    refine searchFrom_never (fun c ↦ c = 0x110000 ∨ c = 0x110010) ?_ _ (Or.inl rfl)
    rintro c (rfl | rfl)
    · simp [hsize, hnext]
    · simp [hused, hback]
  have hkmalloc : kmalloc m.memory 8 = none := by
    have halign : alignUp 8 minAllocAlign = 8 := rfl
    simp [kmalloc, kmallocLocked, hinitialized, hhint, halign, hsearch]
  rw [perform, syscallFileRead_moves hmoves]
  simp [loadFile, hfile, hkmalloc]

/-- A read of `A`, whose directory entry claims almost 4 GiB, fails and leaves
a heap in which the read of `B` searches forever. -/
theorem read_after_huge_file_never_returns : ∃ m₁ m₂ m₃,
    perform faultless (mounted 0xFFFFFFFF) (.openFile 0x2000 0) = some (m₁, 0) ∧
    perform faultless m₁ (.openFile 0x2010 0) = some (m₂, 1) ∧
    perform faultless m₂ (.readFile 0 0x3000 1) = some (m₃, -1) ∧
    CallRun faultless (fun _ _ ↦ True) m₃ ∧
    perform faultless m₃ (.readFile 1 0x3000 1) = none := by
  have hrun : ((perform faultless (mounted 0xFFFFFFFF) (.openFile 0x2000 0)).bind fun p₁ ↦
      (perform faultless p₁.1 (.openFile 0x2010 0)).bind fun p₂ ↦
        (perform faultless p₂.1 (.readFile 0 0x3000 1)).map fun p₃ ↦
          ((p₁.2, p₂.2, p₃.2), decide (Strands p₃.1))) = some ((0, 1, -1), true) := by
    decide +kernel
  simp only [Option.bind_eq_some_iff, Option.map_eq_some_iff, Prod.mk.injEq,
    decide_eq_true_eq] at hrun
  obtain ⟨⟨m₁, r₁⟩, h₁, ⟨m₂, r₂⟩, h₂, ⟨m₃, r₃⟩, h₃, ⟨hr₁, hr₂, hr₃⟩, hstrands⟩ := hrun
  subst hr₁ hr₂ hr₃
  have hreached : CallRun faultless (fun _ _ ↦ True) m₃ :=
    .call _ (.call _ (.call _ (callRun_mounted _ _) trivial h₁) trivial h₂) trivial h₃
  exact ⟨m₁, m₂, m₃, h₁, h₂, h₃, hreached, hstrands.never_returns⟩

end ImplusKernel.Syscall
