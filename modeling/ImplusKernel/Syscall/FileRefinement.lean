import ImplusKernel.Syscall.FileModel
import ImplusKernel.Syscall.FileTransfer
import Mathlib.Data.List.Find

/-!
# The file calls refine the file model

On a valid volume and a working drive, every run of file calls returns what
the model of named byte arrays returns, and the bytes of the drive are always
those the model prescribes.
-/

namespace ImplusKernel.Syscall

open ByteMemory Disk Fat32 Heap FileModel

variable {drive : Drive} {m m' : Machine} {V : Volume} {a : Store (List UInt8)}

/-! ## Calls -/

inductive Action
  | openFile (path flags : ℕ)
  | readFile (fd : ℤ) (buffer len : ℕ)
  | writeFile (fd : ℤ) (buffer len : ℕ)
  | closeFile (fd : ℤ)

def perform (drive : Drive) (m : Machine) : Action → Option (Machine × ℤ)
  | .openFile path flags => some (syscallFileOpen drive m path flags)
  | .readFile fd buffer len => syscallFileRead drive m fd buffer len
  | .writeFile fd buffer len => syscallFileWrite drive m fd buffer len
  | .closeFile fd => some (syscallFileClose m fd)

/-- The bytes of a buffer. -/
def bytesAt (mem : Mem) (buffer n : ℕ) : List UInt8 :=
  (List.range n).map fun i ↦ mem ((buffer + i) % 2 ^ 64)

/-- What a call asks of the model, with the path and the data taken from
memory. -/
def Action.call (mem : Mem) : Action → Call (List UInt8)
  | .openFile path flags => .openFile (pathToFat83 mem path) (flags &&& 1 ≠ 0)
  | .readFile fd buffer len => .readFile fd (buffer ≠ 0) len
  | .writeFile fd buffer len =>
      .writeFile fd (if buffer = 0 then none else some (bytesAt mem buffer len))
  | .closeFile fd => .closeFile fd

def Action.buffer : Action → ℕ
  | .openFile _ _ => 0
  | .readFile _ buffer _ => buffer
  | .writeFile _ buffer _ => buffer
  | .closeFile _ => 0

/-- The part of the buffer that is used belongs to the caller. -/
def Action.BufferOk (m : Machine) : Action → Prop
  | .readFile fd buffer len => badRequest m fd buffer = false →
      ClientBuffer m.memory buffer (transferSize (m.files fd.toNat) len)
  | .writeFile fd buffer len => badRequest m fd buffer = false →
      ClientBuffer m.memory buffer (transferSize (m.files fd.toNat) len)
  | _ => True

/-! ## The simulation relation -/

/-- A descriptor in use and the open file it stands for. -/
structure OpenAs (V : Volume) (k : KernelFile) (f : OpenFile (List UInt8)) : Prop where
  used : k.used = true
  writable : k.writable = f.writable
  length_name : f.name.length = 11
  entry : V.file f.name = some k.file
  offset : k.offset = f.offset
  offset_le : k.offset ≤ k.file.size

def SlotMatches (V : Volume) (k : KernelFile) : Option (OpenFile (List UInt8)) → Prop
  | none => k.used = false
  | some f => OpenAs V k f

structure Simulates (V : Volume) (m : Machine) (a : Store (List UInt8)) : Prop where
  heap : ∃ bs, HeapInvariant m.memory bs
  bpb : m.bpb = V.bpb
  contents : ∀ name, name.length = 11 → a.contents name =
    (V.file name).map fun f ↦ fileBytes V.bpb m.io.sectors (V.chainOf name) f.size
  rest : ∀ s, ∀ i < 512, ¬V.FileByte s i → m.io.sectors s i = V.sectors s i
  slots : ∀ fd < 16, SlotMatches V (m.files fd) (a.slots fd)

/-- The file model of an untouched volume. -/
def initialStore (V : Volume) : Store (List UInt8) where
  contents name :=
    if name.length = 11 then
      (V.file name).map fun f ↦ fileBytes V.bpb V.sectors (V.chainOf name) f.size
    else none
  slots _ := none

/-- The machine after a call and the outcome in the model. -/
structure Agrees (V : Volume) (m m' : Machine) (buffer : ℕ) (o : Outcome (List UInt8)) : Prop where
  simulates : Simulates V m' o.store
  delivered : ∀ i, ∀ b ∈ o.delivered[i]?, m'.memory.mem (buffer + i) = b
  unchanged : o.result = -1 →
    m'.memory = m.memory ∧ m'.files = m.files ∧ m'.io.sectors = m.io.sectors

/-! ## Slots -/

theorem Simulates.slot (h : Simulates V m a) (fd : ℤ) :
    (a.openAt fd = none ∧
      (fd < 0 ∨ (fileMaxFd : ℤ) ≤ fd ∨ (m.files fd.toNat).used = false)) ∨
    ∃ f, a.openAt fd = some f ∧ 0 ≤ fd ∧ fd < 16 ∧ OpenAs V (m.files fd.toNat) f := by
  rw [Store.openAt]
  have hmax : (fileMaxFd : ℤ) = 16 := rfl
  by_cases hfd : 0 ≤ fd ∧ fd < 16
  · have hslot := h.slots fd.toNat (by omega)
    rw [if_pos hfd]
    cases hf : a.slots fd.toNat with
    | none =>
        rw [hf] at hslot
        exact Or.inl ⟨rfl, Or.inr (Or.inr hslot)⟩
    | some f =>
        rw [hf] at hslot
        exact Or.inr ⟨f, rfl, hfd.1, hfd.2, hslot⟩
  · rw [if_neg hfd]
    exact Or.inl ⟨rfl, by omega⟩

theorem Simulates.freeFd_eq (h : Simulates V m a) : freeFd m = a.lowestFree := by
  rw [freeFd, Store.lowestFree, fileMaxFd]
  apply List.find?_congr
  intro fd hfd
  have hslot := h.slots fd (List.mem_range.mp hfd)
  cases hf : a.slots fd with
  | none =>
      have hunused : (m.files fd).used = false := by
        rw [hf] at hslot
        exact hslot
      simp [hunused]
  | some f =>
      rw [hf] at hslot
      simp [hslot.used]

theorem Simulates.bytesOf_eq (h : Simulates V m a) {k : KernelFile} {f : OpenFile (List UInt8)}
    (hopen : OpenAs V k f) :
    a.bytesOf f = fileBytes V.bpb m.io.sectors (V.chainOf f.name) k.file.size := by
  rw [Store.bytesOf, h.contents f.name hopen.length_name, hopen.entry]
  rfl

theorem Simulates.count_eq (h : Simulates V m a) {k : KernelFile} {f : OpenFile (List UInt8)}
    (hopen : OpenAs V k f) (len : ℕ) : a.count f len = transferSize k len := by
  rw [Store.count, h.bytesOf_eq hopen, length_fileBytes, ← hopen.offset, transferSize]
  split <;> omega

theorem Simulates.fileOk (h : Simulates V m a) {k : KernelFile} {f : OpenFile (List UInt8)}
    (hopen : OpenAs V k f) (hsize : 0 < k.file.size) :
    FileOk m V.clusters (V.chainOf f.name) k.file where
  geometry := h.bpb ▸ V.geometry
  chained := by
    rw [h.bpb]
    exact Volume.chained_now h.rest hopen.length_name hopen.entry hsize.ne'
  nodup := V.nodup f.name
  long_enough := by
    rw [h.bpb]
    exact V.long_enough f.name k.file hopen.length_name hopen.entry
  size_pos := hsize
  size_le := V.size_le f.name k.file hopen.length_name hopen.entry

/-- A step that keeps the bytes of the drive and changes one slot. -/
theorem Simulates.setSlot (h : Simulates V m a) (m' : Machine)
    (hheap : ∃ bs, HeapInvariant m'.memory bs)
    (hbpb : m'.bpb = m.bpb) (hio : m'.io.sectors = m.io.sectors) {fd : ℕ} {k : KernelFile}
    (hfiles : m'.files = Function.update m.files fd k) {f : Option (OpenFile (List UInt8))}
    (hslot : SlotMatches V k f) : Simulates V m' (a.setSlot fd f) where
  heap := hheap
  bpb := hbpb.trans h.bpb
  contents := by
    rw [hio]
    exact h.contents
  rest := by
    rw [hio]
    exact h.rest
  slots := by
    intro fd' hfd'
    rw [hfiles, Store.setSlot]
    by_cases heq : fd' = fd
    · subst heq
      simpa using hslot
    · simpa [Function.update_of_ne heq] using h.slots fd' hfd'

theorem Simulates.keep (h : Simulates V m a) (hheap : ∃ bs, HeapInvariant m'.memory bs)
    (hbpb : m'.bpb = m.bpb) (hio : m'.io.sectors = m.io.sectors) (hfiles : m'.files = m.files) :
    Simulates V m' a where
  heap := hheap
  bpb := hbpb.trans h.bpb
  contents := by
    rw [hio]
    exact h.contents
  rest := by
    rw [hio]
    exact h.rest
  slots := by
    rw [hfiles]
    exact h.slots

/-- A failed call. -/
theorem Simulates.fails (h : Simulates V m a) (m' : Machine) (buffer : ℕ)
    (hmemory : m'.memory = m.memory) (hbpb : m'.bpb = m.bpb)
    (hio : m'.io.sectors = m.io.sectors) (hfiles : m'.files = m.files) :
    Agrees V m m' buffer a.fails where
  simulates := h.keep (hmemory ▸ h.heap) hbpb hio hfiles
  delivered := by simp [Store.fails]
  unchanged := fun _ ↦ ⟨hmemory, hfiles, hio⟩

/-- A call that moves no byte. -/
theorem Simulates.idle (h : Simulates V m a) (buffer : ℕ) : Agrees V m m buffer ⟨a, 0, []⟩ where
  simulates := h
  delivered := by simp
  unchanged := fun hzero ↦ by simp at hzero

/-! ## The four calls -/

theorem length_pathLoop {mem : Mem} {fuel p nameLen extLen k : ℕ} {inExt : Bool}
    {out out' : List UInt8} (h : pathLoop mem fuel p nameLen extLen inExt out = some (k, out')) :
    out'.length = out.length := by
  induction fuel generalizing p nameLen extLen inExt out with
  | zero => simp [pathLoop] at h
  | succ fuel ih =>
      rw [pathLoop] at h
      split_ifs at h
      · obtain ⟨-, rfl⟩ := Prod.mk.inj (Option.some.inj h)
        rfl
      · exact ih h
      · rw [ih h, List.length_set]
      · rw [ih h, List.length_set]

theorem length_pathToFat83 {mem : Mem} {path : ℕ} {name : List UInt8}
    (h : pathToFat83 mem path = some name) : name.length = 11 := by
  unfold pathToFat83 at h
  split at h
  · cases h
  cases hloop : pathLoop mem 13 path 0 0 false (List.replicate 11 32) with
  | none =>
      rw [hloop] at h
      cases h
  | some r =>
      obtain ⟨k, out⟩ := r
      rw [hloop] at h
      dsimp only at h
      split at h
      · obtain rfl := Option.some.inj h
        rw [length_pathLoop hloop, List.length_replicate]
      · cases h

theorem Simulates.openFile (hworks : drive.Works) (h : Simulates V m a) (path flags : ℕ) :
    let o := a.step (roomFor m.memory) ((Action.openFile path flags).call m.memory.mem)
    ∃ m', syscallFileOpen drive m path flags = (m', o.result) ∧ Agrees V m m' 0 o := by
  simp only [Action.call, syscallFileOpen]
  cases hpath : pathToFat83 m.memory.mem path with
  | none => exact ⟨m, rfl, h.fails _ 0 rfl rfl rfl rfl⟩
  | some name =>
      have hlen := length_pathToFat83 hpath
      have hchain := Volume.root_chained_now h.rest
      rw [← h.bpb] at hchain
      obtain ⟨n, hfind⟩ := fat32FindFile_chained hworks (h.bpb ▸ V.geometry) hchain V.root_nodup
        name
      have hlookup : lookup m.bpb m.io.sectors V.rootChain name = V.file name := by
        rw [h.bpb]
        exact Volume.lookup_now h.rest name
      rw [hlookup] at hfind
      have hcontents := h.contents name hlen
      simp only [hfind, Store.step, hcontents, h.freeFd_eq]
      cases hfile : V.file name with
      | none => exact ⟨_, rfl, h.fails _ 0 rfl rfl rfl rfl⟩
      | some file =>
          cases hfree : a.lowestFree with
          | none => exact ⟨_, rfl, h.fails _ 0 rfl rfl rfl rfl⟩
          | some fd =>
              simp only [Option.map_some]
              refine ⟨_, rfl, ?_, by simp, fun hneg ↦ by simp at hneg⟩
              apply h.setSlot
              · exact h.heap
              · rfl
              · rfl
              · rfl
              · exact ⟨rfl, rfl, hlen, hfile, rfl, Nat.zero_le _⟩

theorem Simulates.closeFile (h : Simulates V m a) (fd : ℤ) :
    let o := a.step (roomFor m.memory) (.closeFile fd)
    ∃ m', syscallFileClose m fd = (m', o.result) ∧ Agrees V m m' 0 o := by
  simp only [syscallFileClose, Store.step]
  rcases h.slot fd with ⟨hnone, hbad⟩ | ⟨f, hsome, hlow, hhigh, hopen⟩
  · rw [hnone, if_pos hbad]
    exact ⟨m, rfl, h.fails _ 0 rfl rfl rfl rfl⟩
  · have hmax : (fileMaxFd : ℤ) = 16 := rfl
    rw [hsome, if_neg (by simp only [hopen.used, hmax, Bool.true_eq_false, or_false]; omega)]
    refine ⟨_, rfl, ?_, by simp, fun hneg ↦ by simp at hneg⟩
    exact h.setSlot (m.setFile fd.toNat .cleared) h.heap rfl rfl rfl rfl

theorem badRequest_of_slot {fd : ℤ} {buffer : ℕ}
    (h : fd < 0 ∨ (fileMaxFd : ℤ) ≤ fd ∨ (m.files fd.toNat).used = false) :
    badRequest m fd buffer = true := by
  rw [badRequest, decide_eq_true_iff]
  tauto

theorem OpenAs.badRequest_eq {fd : ℤ} {f : OpenFile (List UInt8)}
    (h : OpenAs V (m.files fd.toNat) f) (hlow : 0 ≤ fd) (hhigh : fd < 16) (buffer : ℕ) :
    badRequest m fd buffer = decide (buffer = 0) := by
  have hmax : (fileMaxFd : ℤ) = 16 := rfl
  rw [badRequest, decide_eq_decide, h.used, hmax]
  simp only [Bool.true_eq_false, or_false]
  omega

theorem transferSize_eq_zero {f : KernelFile} {len : ℕ} (h : transferSize f len = 0) :
    len = 0 ∨ f.file.size ≤ f.offset := by
  unfold transferSize at h
  dsimp only at h
  split at h <;> omega

/-- The position after a transfer is not cut to 32 bits. -/
theorem OpenAs.advance {k : KernelFile} {f : OpenFile (List UInt8)} (h : OpenAs V k f) {n : ℕ}
    (hend : k.offset + n ≤ k.file.size) :
    OpenAs V (advance k n) { f with offset := f.offset + n } := by
  have hsize := V.size_le f.name k.file h.length_name h.entry
  have hmod : (k.offset + n) % 2 ^ 32 = k.offset + n := Nat.mod_eq_of_lt (by omega)
  refine ⟨h.used, h.writable, h.length_name, h.entry, ?_, ?_⟩
  · rw [Syscall.advance, hmod, h.offset]
  · rw [Syscall.advance, hmod]
    exact hend

theorem Simulates.readFile (hworks : drive.Works) (h : Simulates V m a) {fd : ℤ}
    {buffer len : ℕ} (hbuf : (Action.readFile fd buffer len).BufferOk m) :
    let o := a.step (roomFor m.memory) ((Action.readFile fd buffer len).call m.memory.mem)
    ∃ m', syscallFileRead drive m fd buffer len = some (m', o.result) ∧
      Agrees V m m' buffer o := by
  simp only [Action.call, Store.step]
  rcases h.slot fd with ⟨hnone, hbad⟩ | ⟨f, hsome, hlow, hhigh, hopen⟩
  · rw [hnone]
    refine ⟨m, ?_, h.fails _ _ rfl rfl rfl rfl⟩
    rw [syscallFileRead, if_pos (badRequest_of_slot hbad)]
    rfl
  have hrequest := hopen.badRequest_eq hlow hhigh buffer
  rw [hsome]
  by_cases hbuffer : buffer = 0
  · refine ⟨m, ?_, by simpa [hbuffer] using h.fails _ _ rfl rfl rfl rfl⟩
    rw [syscallFileRead, hrequest, if_pos (by simpa using hbuffer)]
    simp [hbuffer, Store.fails]
  have hok : badRequest m fd buffer = false := by simp [hrequest, hbuffer]
  simp only [hbuffer, decide_not, decide_false, Bool.not_false, Bool.true_eq_false, if_false,
    h.count_eq hopen]
  by_cases hzero : transferSize (m.files fd.toNat) len = 0
  · rw [if_pos hzero]
    refine ⟨m, ?_, h.idle buffer⟩
    rw [syscallFileRead, if_neg (by simp [hok])]
    rcases transferSize_eq_zero hzero with hlen | hend
    · rw [if_pos hlen]
    · split
      · rfl
      · rw [if_pos hend]
  rw [if_neg hzero]
  obtain ⟨-, hoffset, hend⟩ := length_le_of_offset_lt (Nat.pos_of_ne_zero hzero)
  obtain ⟨bs, hheap⟩ := h.heap
  have hbytes := h.bytesOf_eq hopen
  have hlength : (a.bytesOf f).length = (m.files fd.toNat).file.size := by
    rw [hbytes, length_fileBytes]
  rw [hlength]
  rcases syscallFileRead_spec hworks hheap (h.fileOk hopen (by omega)) hok rfl
    (Nat.pos_of_ne_zero hzero) (hbuf hok) with ⟨hroom, texts, hcall⟩ |
    ⟨hroom, m', hcall, hfiles, hbpb, hsectors, hinv, hdata⟩
  · rw [if_pos hroom]
    exact ⟨_, hcall, h.fails _ _ rfl rfl rfl rfl⟩
  · rw [if_neg (by simp [hroom])]
    refine ⟨m', hcall, h.setSlot m' hinv hbpb hsectors hfiles (hopen.advance hend), ?_, ?_⟩
    · intro i b hb
      rw [Store.afterRead, hbytes, ← hopen.offset] at hb
      obtain ⟨hi, hb⟩ := List.getElem?_eq_some_iff.mp hb
      simp only [List.length_take, List.length_drop, length_fileBytes] at hi
      rw [hdata i (by omega), ← hb, h.bpb]
      simp [fileBytes]
    · intro hneg
      simp only [Store.afterRead] at hneg
      omega

theorem bytesAt_take (mem : Mem) {buffer n k i : ℕ} (hfit : buffer + k ≤ 2 ^ 64) (hk : k ≤ n)
    (hi : i < k) : ((bytesAt mem buffer n).take k)[i]? = some (mem (buffer + i)) := by
  rw [List.getElem?_take_of_lt hi, bytesAt, List.getElem?_map,
    List.getElem?_range (by omega), Option.map_some, Nat.mod_eq_of_lt (by omega)]

/-- The bytes of the written file are those of the model. -/
theorem fileBytes_overwrite {bpb : Bpb} {sectors sectors' : ℕ → Mem} {chain : List ℕ}
    {size offset n : ℕ} {data : List UInt8} (hn : data.length = n) (hend : offset + n ≤ size)
    (hdata : ∀ p < size, some (chainByte bpb sectors' chain p) =
      if offset ≤ p ∧ p < offset + n then data[p - offset]?
      else some (chainByte bpb sectors chain p)) :
    fileBytes bpb sectors' chain size =
      Store.overwrite (fileBytes bpb sectors chain size) offset data := by
  have hlength := length_fileBytes bpb sectors chain size
  apply List.ext_getElem?
  intro p
  have hget := Store.getElem?_overwrite (p := p)
    (show offset + data.length ≤ (fileBytes bpb sectors chain size).length by omega)
  by_cases hp : p < size
  · rw [hget]
    have hold : (fileBytes bpb sectors chain size)[p]? = some (chainByte bpb sectors chain p) := by
      simp [fileBytes, hp]
    have hnew : (fileBytes bpb sectors' chain size)[p]? =
        some (chainByte bpb sectors' chain p) := by
      simp [fileBytes, hp]
    rw [hnew, hold, hdata p hp, hn]
    by_cases hlow : p < offset
    · rw [if_pos hlow, if_neg (by omega)]
    · by_cases hmid : p < offset + n
      · rw [if_neg hlow, if_pos hmid, if_pos ⟨by omega, hmid⟩]
      · rw [if_neg hlow, if_neg hmid, if_neg (by omega)]
  · rw [List.getElem?_eq_none (by rw [length_fileBytes]; omega),
      List.getElem?_eq_none (by rw [Store.length_overwrite (by omega)]; omega)]

/-- A write to one file. -/
theorem Simulates.overwrite (h : Simulates V m a) {fd n : ℕ} {f : OpenFile (List UInt8)}
    (hopen : OpenAs V (m.files fd) f) {data : List UInt8} (hn : data.length = n)
    (hend : (m.files fd).offset + n ≤ (m.files fd).file.size)
    (hinv : ∃ bs, HeapInvariant m'.memory bs) (hbpb : m'.bpb = m.bpb)
    (hfiles : m'.files = Function.update m.files fd (Syscall.advance (m.files fd) n))
    (hdata : ∀ p < (m.files fd).file.size,
      some (chainByte V.bpb m'.io.sectors (V.chainOf f.name) p) =
        if (m.files fd).offset ≤ p ∧ p < (m.files fd).offset + n then
          data[p - (m.files fd).offset]?
        else some (chainByte V.bpb m.io.sectors (V.chainOf f.name) p))
    (hframe : ∀ s, ∀ i < 512, (∀ p < (m.files fd).file.size, ¬V.Holds f.name p s i) →
      m'.io.sectors s i = m.io.sectors s i) :
    Simulates V m' (a.afterWrite fd f data).store where
  heap := hinv
  bpb := hbpb.trans h.bpb
  contents := by
    intro name hlen
    by_cases heq : name = f.name
    · subst heq
      rw [Store.contents_afterWrite, Function.update_self, h.bytesOf_eq hopen, hopen.entry,
        ← hopen.offset, Option.map_some, fileBytes_overwrite hn hend hdata]
    · rw [Store.contents_afterWrite, Function.update_of_ne heq, h.contents name hlen]
      cases hfile : V.file name with
      | none => rfl
      | some f' =>
          -- No byte of the other file is a byte of the written one.
          rw [Option.map_some, Option.map_some]
          congr 1
          apply List.map_congr_left
          intro q hq
          refine (hframe _ _ (Nat.mod_lt _ (by decide)) ?_).symm
          intro p hp hholds
          exact heq (Volume.Holds.name_eq ⟨rfl, rfl⟩ hholds hlen hfile (List.mem_range.mp hq)
            hopen.length_name hopen.entry hp)
  rest := by
    intro s i hi hother
    rw [← h.rest s i hi hother]
    refine hframe s i hi fun p hp hholds ↦ hother ?_
    exact ⟨f.name, _, hopen.length_name, hopen.entry, p, hp, hholds⟩
  slots := by
    intro fd' hfd'
    rw [hfiles, Store.slots_afterWrite]
    by_cases heq : fd' = fd
    · subst heq
      rw [Function.update_self, Function.update_self, hn]
      exact hopen.advance hend
    · rw [Function.update_of_ne heq, Function.update_of_ne heq]
      exact h.slots fd' hfd'

theorem Simulates.writeFile (hworks : drive.Works) (h : Simulates V m a) {fd : ℤ}
    {buffer len : ℕ} (hbuf : (Action.writeFile fd buffer len).BufferOk m) :
    let o := a.step (roomFor m.memory) ((Action.writeFile fd buffer len).call m.memory.mem)
    ∃ m', syscallFileWrite drive m fd buffer len = some (m', o.result) ∧
      Agrees V m m' buffer o := by
  simp only [Action.call, Store.step]
  rcases h.slot fd with ⟨hnone, hbad⟩ | ⟨f, hsome, hlow, hhigh, hopen⟩
  · rw [hnone]
    refine ⟨m, ?_, h.fails _ _ rfl rfl rfl rfl⟩
    rw [syscallFileWrite, if_pos (badRequest_of_slot hbad)]
    rfl
  have hrequest := hopen.badRequest_eq hlow hhigh buffer
  rw [hsome]
  by_cases hbuffer : buffer = 0
  · rw [if_pos hbuffer]
    refine ⟨m, ?_, h.fails _ _ rfl rfl rfl rfl⟩
    rw [syscallFileWrite, hrequest, if_pos (by simpa using hbuffer)]
    rfl
  have hok : badRequest m fd buffer = false := by simp [hrequest, hbuffer]
  have hlen : (bytesAt m.memory.mem buffer len).length = len := by simp [bytesAt]
  rw [if_neg hbuffer]
  simp only [← hopen.writable, h.count_eq hopen, hlen]
  by_cases hwritable : (m.files fd.toNat).writable = false
  · rw [if_pos hwritable]
    refine ⟨m, ?_, h.fails _ _ rfl rfl rfl rfl⟩
    rw [syscallFileWrite, if_neg (by simp [hok]), if_pos hwritable]
    rfl
  rw [if_neg hwritable]
  by_cases hzero : transferSize (m.files fd.toNat) len = 0
  · rw [if_pos hzero]
    refine ⟨m, ?_, h.idle buffer⟩
    rw [syscallFileWrite, if_neg (by simp [hok]), if_neg hwritable]
    rcases transferSize_eq_zero hzero with hlen | hend
    · rw [if_pos hlen]
    · split
      · rfl
      · rw [if_pos hend]
  rw [if_neg hzero]
  obtain ⟨-, hoffset, hend⟩ := length_le_of_offset_lt (Nat.pos_of_ne_zero hzero)
  obtain ⟨bs, hheap⟩ := h.heap
  have hlength : (a.bytesOf f).length = (m.files fd.toNat).file.size := by
    rw [h.bytesOf_eq hopen, length_fileBytes]
  have hcount : transferSize (m.files fd.toNat) len ≤ len := by
    rw [transferSize]
    split <;> omega
  have hmoved : ((bytesAt m.memory.mem buffer len).take
      (transferSize (m.files fd.toNat) len)).length = transferSize (m.files fd.toNat) len := by
    rw [List.length_take, hlen, min_eq_left hcount]
  rw [hlength]
  rcases syscallFileWrite_spec hworks hheap (h.fileOk hopen (by omega)) hok
    (by simpa using hwritable) rfl (Nat.pos_of_ne_zero hzero) (hbuf hok) with
    ⟨hroom, texts, hcall⟩ | ⟨hroom, m', hcall, hfiles, hbpb, hinv, hdata, hframe⟩
  · rw [if_pos hroom]
    exact ⟨_, hcall, h.fails _ _ rfl rfl rfl rfl⟩
  · rw [if_neg (by simp [hroom])]
    rw [h.bpb] at hdata hframe
    refine ⟨m', ?_, ?_, by simp [Store.afterWrite], ?_⟩
    · rw [hcall, Store.afterWrite, hmoved]
    · refine h.overwrite hopen hmoved hend hinv hbpb hfiles ?_ hframe
      intro p hp
      rw [hdata p hp]
      by_cases hin : (m.files fd.toNat).offset ≤ p ∧
          p < (m.files fd.toNat).offset + transferSize (m.files fd.toNat) len
      · rw [if_pos hin, if_pos hin, bytesAt_take _ (hbuf hok).fits hcount (by omega)]
      · rw [if_neg hin, if_neg hin]
    · intro hneg
      simp only [Store.afterWrite] at hneg
      omega

/-! ## Runs -/

/-- One call of either kind agrees with the model. -/
theorem Simulates.perform (hworks : drive.Works) (h : Simulates V m a) {act : Action}
    (hbuf : act.BufferOk m) :
    let o := a.step (roomFor m.memory) (act.call m.memory.mem)
    ∃ m', Syscall.perform drive m act = some (m', o.result) ∧ Agrees V m m' act.buffer o := by
  cases act with
  | openFile path flags =>
      obtain ⟨m', hcall, hagrees⟩ := h.openFile hworks path flags
      exact ⟨m', congrArg some hcall, hagrees⟩
  | readFile fd buffer len => exact h.readFile hworks hbuf
  | writeFile fd buffer len => exact h.writeFile hworks hbuf
  | closeFile fd =>
      obtain ⟨m', hcall, hagrees⟩ := h.closeFile fd
      exact ⟨m', congrArg some hcall, hagrees⟩

/-- The file calls from initialisation on, beside the model.  Between two
calls memory may change in any way that keeps the heap in order. -/
inductive FileRun (drive : Drive) (V : Volume) : Machine → Store (List UInt8) → Prop
  | start {m : Machine} (hheap : ∃ bs, HeapInvariant m.memory bs) (hbpb : m.bpb = V.bpb)
      (hdisk : m.io.sectors = V.sectors) :
      FileRun drive V (syscallFileInit m) (initialStore V)
  | call {m m' : Machine} {a : Store (List UInt8)} {r : ℤ} (act : Action)
      (hrun : FileRun drive V m a) (hbuf : act.BufferOk m)
      (hcall : perform drive m act = some (m', r)) :
      FileRun drive V m' (a.step (roomFor m.memory) (act.call m.memory.mem)).store
  | between {m : Machine} {a : Store (List UInt8)} (memory : MemoryState) (io : IoState)
      (hrun : FileRun drive V m a) (hheap : ∃ bs, HeapInvariant memory bs)
      (hio : io.sectors = m.io.sectors) :
      FileRun drive V { m with memory := memory, io := io } a

theorem FileRun.simulates (hworks : drive.Works) (hrun : FileRun drive V m a) :
    Simulates V m a := by
  induction hrun with
  | start hheap hbpb hdisk =>
      refine ⟨hheap, hbpb, ?_, ?_, fun _ _ ↦ rfl⟩
      · intro name hlen
        simp only [initialStore, if_pos hlen, ← hdisk]
        rfl
      · intro s i _ _
        rw [← hdisk]
        rfl
  | call act _ hbuf hcall ih =>
      obtain ⟨m', hcall', hagrees⟩ := ih.perform hworks hbuf
      obtain ⟨rfl, -⟩ := Prod.mk.inj (Option.some.inj (hcall.symm.trans hcall'))
      exact hagrees.simulates
  | between memory io _ hheap hio ih => exact ih.keep hheap rfl hio rfl

/-- In every run the bytes on the drive are those of the model, and whatever
call comes next returns, with the model's result and bytes. -/
theorem fileRun_refines (hworks : drive.Works) (hrun : FileRun drive V m a) (act : Action)
    (hbuf : act.BufferOk m) :
    let o := a.step (roomFor m.memory) (act.call m.memory.mem)
    Simulates V m a ∧
      ∃ m', perform drive m act = some (m', o.result) ∧ Agrees V m m' act.buffer o := by
  have h := hrun.simulates hworks
  exact ⟨h, h.perform hworks hbuf⟩

/-! ## A run on a small volume -/

/-- One file of five bytes, in cluster 3. -/
def sampleSectors (s : ℕ) : Mem :=
  if s = 2148 then fun
    | 0 => 65 | 11 => 32 | 26 => 3 | 28 => 5 | i => if i < 11 then 32 else 0
  else if s = 2149 then fun
    | 0 => 104 | 1 => 101 | 2 => 108 | 3 => 108 | 4 => 111 | _ => 0
  else fun _ ↦ 0

theorem lookup_sample (name : List UInt8) :
    lookup sampleBpb sampleSectors [2] name =
      if sameName name (chainByte sampleBpb sampleSectors [2]) 0 then some ⟨sampleName, 3, 5⟩
      else none := by
  have hentries : entries 0 ([2].length * (16 * sampleBpb.sectorsPerCluster)) =
      0 :: 32 :: entries 2 14 := rfl
  have hend : scanEntries name (chainByte sampleBpb sampleSectors [2]) (32 :: entries 2 14) =
      .endOfDirectory := by
    rw [scanEntries, if_pos (by decide)]
  rw [lookup, scanChain, hentries, scanEntries, if_neg (by decide), if_neg (by decide),
    if_neg (by decide), if_neg (by decide), hend]
  split <;> rfl

theorem eq_sampleName {name : List UInt8} (hlen : name.length = 11)
    (h : sameName name (chainByte sampleBpb sampleSectors [2]) 0 = true) :
    name = sampleName := by
  apply List.ext_getElem hlen
  intro i hi hi'
  have hbyte := List.all_eq_true.mp h i (List.mem_range.mpr (by omega))
  have hentry : ∀ i < 11, chainByte sampleBpb sampleSectors [2] (0 + i) =
      sampleName.getD i 0 := by decide
  rw [decide_eq_true_iff, hentry i (by omega)] at hbyte
  simpa [List.getD_eq_getElem?_getD, hi, hi'] using hbyte

theorem file_sample {name : List UInt8} {f : Fat32File} (hlen : name.length = 11)
    (hf : lookup sampleBpb sampleSectors [2] name = some f) :
    name = sampleName ∧ f = ⟨sampleName, 3, 5⟩ := by
  rw [lookup_sample] at hf
  split at hf
  · rename_i hname
    exact ⟨eq_sampleName hlen hname, (Option.some.inj hf).symm⟩
  · cases hf

def sampleVolume : Volume where
  bpb := sampleBpb
  sectors := sampleSectors
  clusters := 2
  rootChain := [2]
  chainOf name := if name = sampleName then [3] else []
  geometry := by constructor <;> decide
  root_chained := .last ⟨by decide, by decide⟩ (by decide)
  root_nodup := by decide
  chained := by
    intro name f hlen hf _
    obtain ⟨rfl, rfl⟩ := file_sample hlen hf
    exact .last ⟨by decide, by decide⟩ (by decide)
  nodup := by
    intro name
    split <;> decide
  long_enough := by
    intro name f hlen hf
    obtain ⟨rfl, rfl⟩ := file_sample hlen hf
    decide
  size_le := by
    intro name f hlen hf
    obtain ⟨rfl, rfl⟩ := file_sample hlen hf
    decide
  root_disjoint := by
    intro name
    split <;> simp
  disjoint := by
    intro name name' hne _ _
    by_cases h : name = sampleName
    · have h' : name' ≠ sampleName := fun h' ↦ hne (h.trans h'.symm)
      simp [h']
    · simp [h]

/-- The machine after start-up, with the path `A` in memory. -/
def sampleMachine : Machine where
  memory := memoryInit 0x110000 (.boot fun x ↦ if x = 0x2000 then 65 else 0)
  io := ⟨sampleSectors, 0, [], []⟩
  bpb := sampleBpb
  files _ := .cleared

def sampleOpened : Machine := (syscallFileOpen faultless (syscallFileInit sampleMachine) 0x2000 1).1

/-- A read right after the file was opened. -/
theorem fileRun_refines_read :
    ∃ m', perform faultless sampleOpened (.readFile 0 0x3000 100) = some (m', 5) ∧
      m'.memory.mem 0x3000 = 104 ∧ m'.memory.mem 0x3004 = 111 := by
  have hworks : faultless.Works := fun _ ↦ ⟨rfl, rfl⟩
  have hheap : ∃ bs, HeapInvariant sampleMachine.memory bs :=
    ⟨_, heapInvariant_memoryInit ⟨by norm_num, by norm_num⟩ _⟩
  have hstart : FileRun faultless sampleVolume (syscallFileInit sampleMachine)
      (initialStore sampleVolume) := .start hheap rfl rfl
  have hopen : FileRun faultless sampleVolume sampleOpened _ :=
    .call (r := 0) (.openFile 0x2000 1) hstart trivial rfl
  obtain ⟨-, m', hcall, hagrees⟩ := fileRun_refines hworks hopen (.readFile 0 0x3000 100) (by
    intro _
    refine ⟨by decide, fun x _ hx ↦ Or.inl ?_⟩
    have hstart : sampleOpened.memory.heapStart = 0x110000 := rfl
    rw [hstart]
    have hx' : x < 0x3000 + 5 := hx
    omega)
  exact ⟨m', hcall, hagrees.delivered 0 104 rfl, hagrees.delivered 4 111 rfl⟩

end ImplusKernel.Syscall
