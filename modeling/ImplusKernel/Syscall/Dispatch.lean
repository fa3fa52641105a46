import ImplusKernel.Display.VirtIO
import ImplusKernel.Process.Scheduler
import ImplusKernel.Syscall.File

/-!
# The system call dispatcher

`syscall_dispatch` gets the address of the caller's register frame, performs
the call, stores its result in the frame and asks the scheduler whom to
resume.  The value it returns becomes the stack pointer of the entry stub,
which pops the registers of the resumed process from there.
-/

namespace ImplusKernel.Syscall

open ByteMemory Disk Fat32 Heap ProcessManager VirtIO

/-- The world outside the kernel. -/
structure Hardware where
  drive : Drive
  device : Device

/-- Memory and all statics; `userRsp` and `kernelRsp` are the two words of
`g_syscall_cpu_state`. -/
structure Kernel where
  machine : Machine
  gpu : Gpu
  table : ProcessTable
  userRsp : ℕ
  kernelRsp : ℕ

def Kernel.mem (k : Kernel) : Mem := k.machine.memory.mem

def Kernel.setMem (k : Kernel) (m : Mem) : Kernel := { k with machine := k.machine.setMem m }

def Kernel.print (k : Kernel) (texts : List String) : Kernel :=
  { k with machine := k.machine.setIo (k.machine.io.print texts) }

def Kernel.setMemory (k : Kernel) (s : MemoryState) : Kernel :=
  { k with machine := { k.machine with memory := s } }

inductive SyscallNumber
  | serialPutchar
  | serialPuts
  | processCreate
  | processYield
  | processExit
  | threadCreate
  | drawPixel
  | drawFillRect
  | drawPresent
  | fileOpen
  | fileRead
  | fileWrite
  | fileClose
  | userKmalloc
  | userKfree
  | userMemcpy
  | userMemcmp
deriving DecidableEq, Repr

def SyscallNumber.ofNum : ℕ → Option SyscallNumber
  | 1 => some .serialPutchar
  | 2 => some .serialPuts
  | 3 => some .processCreate
  | 4 => some .processYield
  | 5 => some .processExit
  | 6 => some .threadCreate
  | 10 => some .drawPixel
  | 11 => some .drawFillRect
  | 12 => some .drawPresent
  | 20 => some .fileOpen
  | 21 => some .fileRead
  | 22 => some .fileWrite
  | 23 => some .fileClose
  | 24 => some .userKmalloc
  | 25 => some .userKfree
  | 26 => some .userMemcpy
  | 27 => some .userMemcmp
  | _ => none

/-- The arguments of `syscall_dispatch` after the frame. -/
structure Request where
  num : UInt64
  arg1 : UInt64
  arg2 : UInt64
  arg3 : UInt64
  arg4 : UInt64
deriving DecidableEq, Repr

/-! ## Conversions -/

/-- `(uint64_t)(int64_t)v`. -/
def toU64 (v : ℤ) : ℕ := (v % 2 ^ 64).toNat

/-- `(int32_t)v`. -/
def toInt32 (v : UInt64) : ℤ :=
  let low : ℕ := v.toNat % 2 ^ 32
  if low < 2 ^ 31 then (low : ℤ) else (low : ℤ) - 2 ^ 32

/-- `(uint32_t)v`. -/
def low32 (v : UInt64) : ℕ := v.toNat % 2 ^ 32

/-- The bytes of a string in memory; `none` when it has no end. -/
def cString (m : Mem) : ℕ → ℕ → Option (List UInt8)
  | 0, _ => none
  | fuel + 1, p =>
      let c := m (p % 2 ^ 64)
      if c = 0 then some [] else (cString m fuel (p + 1)).map (c :: ·)

def textOf (bytes : List UInt8) : String := String.ofList (bytes.map fun b ↦ Char.ofNat b.toNat)

/-- The comparison loop, from index `i` on. -/
def memcmpFrom (m : Mem) (s1 s2 : ℕ) : ℕ → ℕ → ℤ
  | _, 0 => 0
  | i, n + 1 =>
      let a := m ((s1 + i) % 2 ^ 64)
      let b := m ((s2 + i) % 2 ^ 64)
      if a ≠ b then (a.toNat : ℤ) - b.toNat else memcmpFrom m s1 s2 (i + 1) n

/-! ## The cases -/

/-- How a case of the switch ends: with `set_syscall_result` and `break`,
with `break` alone, or with `return`. -/
inductive Handled
  | value (k : Kernel) (v : ℕ) (requestSwitch : Bool)
  | exited (k : Kernel)
  | direct (k : Kernel) (v : ℕ)

def Handled.result : Handled → Option ℕ
  | .value _ v _ => some v
  | .exited _ => none
  | .direct _ v => some v

def createProcess (k : Kernel) (entry : UInt64) : Option (Kernel × ℤ) := do
  let (s, t, r) ← processCreateUser k.machine.memory k.table entry.toNat
  some ({ k.setMemory s with table := t }.print r.serial, r.pid)

/-- The switch of `syscall_dispatch`, up to the point where each case stores
its result; `none` when it does not end. -/
def handle (hw : Hardware) (k : Kernel) (req : Request) : Option Handled :=
  match SyscallNumber.ofNum req.num.toNat with
  | some .serialPutchar =>
      some (.value (k.print [textOf [UInt8.ofNat req.arg1.toNat]]) 0 false)
  | some .serialPuts => do
      let text ← cString k.mem (2 ^ 64) req.arg1.toNat
      some (.value (k.print [textOf text]) 0 false)
  | some .processCreate => do
      let (k, pid) ← createProcess k req.arg1
      some (.value k (toU64 pid) false)
  | some .processYield => some (.value k 0 true)
  | some .processExit => some (.exited { k with table := processExitCurrent k.table })
  | some .threadCreate => do
      let (k, tid) ← createProcess k req.arg1
      some (.value k (toU64 tid) (0 ≤ tid))
  | some .drawPixel =>
      let m := virtioGpuDrawPixel k.gpu k.mem (low32 req.arg1) (low32 req.arg2) (low32 req.arg3)
      some (.value (k.setMem m) 0 false)
  | some .drawFillRect =>
      let m := virtioGpuFillRect k.gpu k.mem (low32 req.arg1) (low32 req.arg2)
        (req.arg3.toNat / 2 ^ 32) (low32 req.arg3) (low32 req.arg4)
      some (.value (k.setMem m) 0 false)
  | some .drawPresent =>
      let (gpu, m) := virtioGpuPresent hw.device k.gpu k.mem
      some (.value { k.setMem m with gpu := gpu } 0 false)
  | some .fileOpen =>
      let (m, fd) := syscallFileOpen hw.drive k.machine req.arg1.toNat req.arg2.toNat
      some (.value { k with machine := m } (toU64 fd) false)
  | some .fileRead => do
      let (m, n) ← syscallFileRead hw.drive k.machine (toInt32 req.arg1) req.arg2.toNat
        req.arg3.toNat
      some (.value { k with machine := m } (toU64 n) false)
  | some .fileWrite => do
      let (m, n) ← syscallFileWrite hw.drive k.machine (toInt32 req.arg1) req.arg2.toNat
        req.arg3.toNat
      some (.value { k with machine := m } (toU64 n) false)
  | some .fileClose =>
      let (m, rc) := syscallFileClose k.machine (toInt32 req.arg1)
      some (.value { k with machine := m } (toU64 rc) false)
  | some .userKmalloc => do
      let (s, r) ← kmalloc k.machine.memory (low32 req.arg1)
      some (.direct ((k.setMemory s).print r.serial) r.ptr)
  | some .userKfree => do
      let (s, r) ← kfree k.machine.memory req.arg1.toNat
      some (.direct ((k.setMemory s).print r.serial) 0)
  | some .userMemcpy =>
      let m := memcpy k.mem req.arg1.toNat req.arg2.toNat req.arg3.toNat
      some (.value (k.setMem m) req.arg1.toNat false)
  | some .userMemcmp =>
      let r := memcmpFrom k.mem req.arg1.toNat req.arg2.toNat 0 req.arg3.toNat
      some (.value k (toU64 r) false)
  | none => some (.value (k.print ["[SYSCALL] Unknown syscall\n"]) (toU64 (-1)) false)

/-! ## The dispatcher -/

def setSyscallResult (m : Mem) (savedRsp value : ℕ) : Mem :=
  writeLE m (savedRsp + 8 * syscallFrameRax) 8 value

/-- The state and value returned, with the arguments that
`set_syscall_result` and `syscall_set_user_rsp` were called with. -/
structure DispatchReturn where
  kernel : Kernel
  rsp : ℕ
  stored : Option ℕ
  userRspSet : Option ℕ

inductive DispatchResult
  | returned (r : DispatchReturn)
  | halted (k : Kernel)

/-- The lines after the switch. -/
def reschedule (k : Kernel) (savedRsp : ℕ) (stored : Option ℕ) (requestSwitch : Bool) :
    DispatchResult :=
  let scheduled := processScheduleOnSyscall k.table savedRsp k.userRsp requestSwitch
  let k := k.print scheduled.serial
  match scheduled with
  | .invalidPid rsp userRsp =>
      .returned ⟨{ k with userRsp := userRsp }, rsp, stored, some userRsp⟩
  | .resumed t rsp userRsp =>
      .returned ⟨{ k with table := t, userRsp := userRsp }, rsp, stored, some userRsp⟩
  | .halted t => .halted { k with table := t }

def syscallDispatch (hw : Hardware) (k : Kernel) (savedRsp : ℕ) (req : Request) :
    Option DispatchResult :=
  match handle hw k req with
  | none => none
  | some (.value k v requestSwitch) =>
      some (reschedule (k.setMem (setSyscallResult k.mem savedRsp v)) savedRsp (some v)
        requestSwitch)
  | some (.exited k) => some (reschedule k savedRsp none true)
  | some (.direct k v) => some (.returned ⟨k, v, none, none⟩)

/-! ## What a case does to the process table -/

variable {hw : Hardware} {k k' : Kernel} {req : Request} {savedRsp v : ℕ} {sw : Bool}

/-- The number of a call, as the header defines it. -/
def SyscallNumber.num : SyscallNumber → ℕ
  | .serialPutchar => 1
  | .serialPuts => 2
  | .processCreate => 3
  | .processYield => 4
  | .processExit => 5
  | .threadCreate => 6
  | .drawPixel => 10
  | .drawFillRect => 11
  | .drawPresent => 12
  | .fileOpen => 20
  | .fileRead => 21
  | .fileWrite => 22
  | .fileClose => 23
  | .userKmalloc => 24
  | .userKfree => 25
  | .userMemcpy => 26
  | .userMemcmp => 27

theorem SyscallNumber.ofNum_eq_some_iff {n : ℕ} {call : SyscallNumber} :
    SyscallNumber.ofNum n = some call ↔ n = call.num := by
  constructor
  · intro h
    unfold SyscallNumber.ofNum at h
    split at h <;> cases h <;> rfl
  · rintro rfl
    cases call <;> rfl

theorem toU64_lt (v : ℤ) : toU64 v < 2 ^ 64 := by
  rw [toU64]
  omega

/-- The running process goes on running, and the current slot is the same. -/
def KeepsRunning (t t' : ProcessTable) : Prop :=
  t'.currentPid = t.currentPid ∧ ∀ i, t.state i = .running → t'.state i = .running

theorem KeepsRunning.refl (t : ProcessTable) : KeepsRunning t t := ⟨rfl, fun _ h ↦ h⟩

theorem createProcess_keepsRunning {entry : UInt64} {pid : ℤ}
    (h : createProcess k entry = some (k', pid)) : KeepsRunning k.table k'.table := by
  obtain ⟨⟨s, t, r⟩, hcreate, h⟩ := Option.bind_eq_some_iff.mp h
  obtain ⟨rfl, -⟩ := Prod.mk.inj (Option.some.inj h)
  rcases processCreateUser_cases hcreate with ⟨rfl, -⟩ | ⟨slot, -, hfree, -, -, -, -, -, -, rfl⟩
  · exact .refl _
  · refine ⟨rfl, fun i hi ↦ ?_⟩
    have hne : i ≠ slot := by
      rintro rfl
      rcases hfree with hfree | hfree <;> simp [hi] at hfree
    exact (congrArg Process.state (procs_set_of_ne k.table _ hne)).trans hi

theorem Handled.value_inj {k₁ k₂ : Kernel} {v₁ v₂ : ℕ} {sw₁ sw₂ : Bool}
    (h : some (Handled.value k₁ v₁ sw₁) = some (Handled.value k₂ v₂ sw₂)) :
    k₁ = k₂ ∧ v₁ = v₂ ∧ sw₁ = sw₂ :=
  Handled.value.inj (Option.some.inj h)

/-- The cases that store a result keep the running process and are neither an
exit nor a heap call. -/
theorem handle_value (h : handle hw k req = some (.value k' v sw)) :
    v < 2 ^ 64 ∧ KeepsRunning k.table k'.table ∧
      SyscallNumber.ofNum req.num.toNat ≠ some .processExit ∧
      SyscallNumber.ofNum req.num.toNat ≠ some .userKmalloc ∧
      SyscallNumber.ofNum req.num.toNat ≠ some .userKfree := by
  have hzero : 0 < 2 ^ 64 := by norm_num
  unfold handle at h
  cases hnum : SyscallNumber.ofNum req.num.toNat with
  | none =>
      rw [hnum] at h
      obtain ⟨rfl, rfl, -⟩ := Handled.value_inj h
      exact ⟨toU64_lt _, .refl _, by simp⟩
  | some number =>
      rw [hnum] at h
      cases number with
      | serialPuts =>
          obtain ⟨text, -, h⟩ := Option.bind_eq_some_iff.mp h
          obtain ⟨rfl, rfl, -⟩ := Handled.value_inj h
          exact ⟨hzero, .refl _, by simp⟩
      | processCreate | threadCreate =>
          obtain ⟨⟨k₁, pid⟩, hcreate, h⟩ := Option.bind_eq_some_iff.mp h
          obtain ⟨rfl, rfl, -⟩ := Handled.value_inj h
          exact ⟨toU64_lt _, createProcess_keepsRunning hcreate, by simp⟩
      | fileRead | fileWrite =>
          obtain ⟨⟨m, n⟩, -, h⟩ := Option.bind_eq_some_iff.mp h
          obtain ⟨rfl, rfl, -⟩ := Handled.value_inj h
          exact ⟨toU64_lt _, .refl _, by simp⟩
      | processExit => simp at h
      | userKmalloc | userKfree =>
          obtain ⟨_, -, h⟩ := Option.bind_eq_some_iff.mp h
          simp at h
      | userMemcpy =>
          obtain ⟨rfl, rfl, -⟩ := Handled.value_inj h
          exact ⟨req.arg1.toNat_lt, .refl _, by simp⟩
      | serialPutchar | processYield | drawPixel | drawFillRect | drawPresent =>
          obtain ⟨rfl, rfl, -⟩ := Handled.value_inj h
          exact ⟨hzero, .refl _, by simp⟩
      | fileOpen | fileClose | userMemcmp =>
          obtain ⟨rfl, rfl, -⟩ := Handled.value_inj h
          exact ⟨toU64_lt _, .refl _, by simp⟩

theorem handle_exited (h : handle hw k req = some (.exited k')) :
    SyscallNumber.ofNum req.num.toNat = some .processExit ∧
      k' = { k with table := processExitCurrent k.table } := by
  unfold handle at h
  split at h
  case h_5 hnum =>
      simp only [Option.some.injEq, Handled.exited.injEq] at h
      exact ⟨hnum, h.symm⟩
  all_goals simp [Option.bind_eq_some_iff] at h

theorem handle_direct (h : handle hw k req = some (.direct k' v)) :
    SyscallNumber.ofNum req.num.toNat = some .userKmalloc ∨
      SyscallNumber.ofNum req.num.toNat = some .userKfree := by
  unfold handle at h
  split at h
  case h_14 hnum => exact Or.inl hnum
  case h_15 hnum => exact Or.inr hnum
  all_goals simp [Option.bind_eq_some_iff] at h

/-! ## The contract with the entry stub -/

/-- The value returned is the recorded stack pointer of the process that is
current and running, whose user stack pointer was handed to
`syscall_set_user_rsp`. -/
def ResumesCurrent (r : DispatchReturn) : Prop :=
  ∃ pid : ℕ, pid < 16 ∧ r.kernel.table.currentPid = pid ∧
    r.kernel.table.state pid = .running ∧
    r.rsp = (r.kernel.table.procs pid).savedRsp ∧
    r.userRspSet = some (r.kernel.table.procs pid).savedUserRsp ∧
    r.kernel.userRsp = (r.kernel.table.procs pid).savedUserRsp

/-- The result of the call was stored in the caller's frame. -/
def StoresResult (hw : Hardware) (k : Kernel) (savedRsp : ℕ) (req : Request)
    (r : DispatchReturn) : Prop :=
  ∃ v, (handle hw k req).bind Handled.result = some v ∧ r.stored = some v ∧
    readLE r.kernel.mem (savedRsp + 8 * syscallFrameRax) 8 = v

/-- `g_current_pid` is valid and its process is running. -/
def CurrentRuns (t : ProcessTable) : Prop :=
  ∃ pid : ℕ, pid < 16 ∧ t.currentPid = pid ∧ t.state pid = .running

theorem resumed_current {t : ProcessTable} {next : ℕ} (hnext : next < 16) (k : Kernel)
    (stored : Option ℕ) :
    ResumesCurrent ⟨{ k with
        table := { t.setState next .running with currentPid := next }
        userRsp := (t.procs next).savedUserRsp },
      (t.procs next).savedRsp, stored, some (t.procs next).savedUserRsp⟩ := by
  have hsaved := saved_setState t next next .running
  obtain ⟨hrsp, huser⟩ := Prod.mk.inj hsaved
  exact ⟨next, hnext, rfl, state_setState_self t next .running, hrsp.symm,
    congrArg some huser.symm, huser.symm⟩

theorem reschedule_of_resumed {t : ProcessTable} {rsp userRsp : ℕ} (stored : Option ℕ)
    (h : processScheduleOnSyscall k.table savedRsp k.userRsp sw = .resumed t rsp userRsp) :
    reschedule k savedRsp stored sw =
      .returned
        ⟨{ k.print [] with table := t, userRsp := userRsp }, rsp, stored, some userRsp⟩ := by
  rw [reschedule, h]
  rfl

theorem reschedule_of_halted {t : ProcessTable} {stored : Option ℕ} {r : DispatchReturn}
    (h : processScheduleOnSyscall k.table savedRsp k.userRsp sw = .halted t) :
    reschedule k savedRsp stored sw ≠ .returned r := by
  rw [reschedule, h]
  exact nofun

/-- The lines after the switch, for a caller that goes on living. -/
theorem reschedule_live (hcur : CurrentRuns k.table) (savedRsp : ℕ) (stored : Option ℕ)
    (sw : Bool) :
    ∃ r, reschedule k savedRsp stored sw = .returned r ∧ r.stored = stored ∧
      r.kernel.mem = k.mem ∧ ResumesCurrent r := by
  obtain ⟨pid, hpid, hcur, hrun⟩ := hcur
  obtain ⟨next, hnext, -, -, hschedule⟩ :=
    schedule_live hpid hcur (Or.inr hrun) savedRsp k.userRsp sw
  exact ⟨_, reschedule_of_resumed stored hschedule, rfl, rfl,
    resumed_current hnext (k.print []) stored⟩

/-- The same after an exit, unless no process is left. -/
theorem reschedule_exited (hcur : CurrentRuns k.table) {r : DispatchReturn}
    (h : reschedule { k with table := processExitCurrent k.table } savedRsp none true =
      .returned r) : ResumesCurrent r := by
  obtain ⟨pid, hpid, hcur, -⟩ := hcur
  have hexit := processExitCurrent_eq hpid hcur
  rw [hexit] at h
  rcases schedule_dead hpid (t := k.table.setState pid .dead) hcur
      (state_setState_self k.table pid .dead) savedRsp k.userRsp true with
    ⟨next, hnext, -, -, hschedule⟩ | ⟨-, hschedule⟩
  · rw [reschedule_of_resumed none hschedule] at h
    rw [← DispatchResult.returned.inj h]
    exact resumed_current hnext _ none
  · exact absurd h (reschedule_of_halted hschedule)

theorem KeepsRunning.currentRuns {t t' : ProcessTable} (h : KeepsRunning t t')
    (hcur : CurrentRuns t) : CurrentRuns t' := by
  obtain ⟨pid, hpid, hcur, hrun⟩ := hcur
  exact ⟨pid, hpid, h.1.trans hcur, h.2 pid hrun⟩

/-- A call that returns keeps the contract exactly when it is neither
`USER_KMALLOC` nor `USER_KFREE`. -/
theorem syscallDispatch_contract_iff (hcur : CurrentRuns k.table) {r : DispatchReturn}
    (h : syscallDispatch hw k savedRsp req = some (.returned r)) :
    (ResumesCurrent r ∧ (req.num.toNat ≠ 5 → StoresResult hw k savedRsp req r)) ↔
      req.num.toNat ≠ 24 ∧ req.num.toNat ≠ 25 := by
  unfold syscallDispatch at h
  cases hhandle : handle hw k req with
  | none =>
      rw [hhandle] at h
      cases h
  | some handled =>
      rw [hhandle] at h
      cases handled with
      | value k₁ v sw =>
          obtain ⟨hv, hkeeps, -, hkmalloc, hkfree⟩ := handle_value hhandle
          rw [ne_eq, SyscallNumber.ofNum_eq_some_iff] at hkmalloc hkfree
          obtain ⟨r', hr', hstored, hmem, hresumes⟩ := reschedule_live
            (k := k₁.setMem (setSyscallResult k₁.mem savedRsp v)) (hkeeps.currentRuns hcur)
            savedRsp (some v) sw
          simp only [hr', Option.some.injEq, DispatchResult.returned.injEq] at h
          subst h
          refine iff_of_true ⟨hresumes, fun _ ↦ ⟨v, ?_, hstored, ?_⟩⟩ ⟨hkmalloc, hkfree⟩
          · rw [hhandle]
            rfl
          · rw [hmem]
            exact readLE_writeLE_of_lt _ (by norm_num at hv ⊢; exact hv)
      | exited k₁ =>
          obtain ⟨hnum, rfl⟩ := handle_exited hhandle
          have hexit : req.num.toNat = 5 := SyscallNumber.ofNum_eq_some_iff.mp hnum
          have hresumes := reschedule_exited hcur (Option.some.inj h)
          exact iff_of_true ⟨hresumes, fun hne ↦ absurd hexit hne⟩ (by omega)
      | direct k₁ v =>
          have hnum := handle_direct hhandle
          simp only [SyscallNumber.ofNum_eq_some_iff, SyscallNumber.num] at hnum
          simp only [Option.some.injEq, DispatchResult.returned.injEq] at h
          subst h
          refine iff_of_false ?_ (by omega)
          rintro ⟨⟨_, _, _, _, _, hset, _⟩, -⟩
          cases hset

/-- The machine after start-up, when the boot process has just begun to run
on an empty drive and without a display. -/
def bootKernel : Kernel where
  machine := ⟨memoryInit 0x110000 (.boot fun _ ↦ 0), ⟨fun _ _ ↦ 0, 0, [], []⟩,
    ⟨0, 0, 0, 0, 0, 0⟩, fun _ ↦ .cleared⟩
  gpu := ⟨false, 0, 0, 0, ⟨0, 0, 0, 0, 0, 0, 0⟩, 0⟩
  table := (processRegisterBootProcess processManagerInit 0x400000 0x8000).1
  userRsp := 0x7F00
  kernelRsp := 0x109000

def sampleHardware : Hardware where
  drive := ⟨fun _ ↦ .ready, fun _ ↦ true, fun _ _ ↦ 0⟩
  device := ⟨fun _ m ↦ m, 0x108000, 0x108100⟩

/-- Every table the scheduler can reach has a running current process. -/
theorem currentRuns_of_schedRun {es : List Event} {t : ProcessTable} (h : SchedRun es t) :
    CurrentRuns t := by
  obtain ⟨pid, hinv⟩ := h.invariant
  exact ⟨pid, hinv.pid_lt, hinv.current, (hinv.running_iff pid hinv.pid_lt).mpr rfl⟩

/-- `PROCESS_YIELD` of the only process. -/
theorem syscallDispatch_contract_yield :
    ∃ r, syscallDispatch sampleHardware bootKernel 0x108F80 ⟨4, 0, 0, 0, 0⟩ =
        some (.returned r) ∧
      r.rsp = 0x108F80 ∧ ResumesCurrent r ∧
      StoresResult sampleHardware bootKernel 0x108F80 ⟨4, 0, 0, 0, 0⟩ r := by
  have hcur : CurrentRuns bootKernel.table :=
    currentRuns_of_schedRun (SchedRun.boot 0x400000 0x8000 rfl)
  obtain ⟨r, hr, hrsp⟩ : ∃ r, syscallDispatch sampleHardware bootKernel 0x108F80
      ⟨4, 0, 0, 0, 0⟩ = some (.returned r) ∧ r.rsp = 0x108F80 := ⟨_, rfl, rfl⟩
  obtain ⟨hresumes, hstores⟩ :=
    (syscallDispatch_contract_iff hcur hr).mpr ⟨by decide, by decide⟩
  exact ⟨r, hr, hrsp, hresumes, hstores (by decide)⟩

/-- `USER_KMALLOC` returns the heap pointer in place of a frame address;
neither the frame nor the user stack pointer is set. -/
theorem userKmalloc_returns_pointer :
    ∃ r, syscallDispatch sampleHardware bootKernel 0x108F80 ⟨24, 32, 0, 0, 0⟩ =
        some (.returned r) ∧
      r.rsp = 0x110010 ∧ r.stored = none ∧ r.userRspSet = none ∧
      r.kernel.table.currentPid = 0 ∧ (r.kernel.table.procs 0).savedRsp = 0x8000 ∧
      ¬ResumesCurrent r := by
  refine ⟨_, rfl, rfl, rfl, rfl, rfl, rfl, ?_⟩
  rintro ⟨pid, _, _, _, _, hset, _⟩
  cases hset

end ImplusKernel.Syscall
