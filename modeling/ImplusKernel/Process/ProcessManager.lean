import ImplusKernel.Memory.Heap
import Mathlib.Logic.Function.Basic

/-!
# The process table

Sixteen slots, one of them current.  A created process starts from a register
frame at the top of a stack taken from the heap; a switch saves only the two
stack pointers of the process it leaves.
-/

namespace ImplusKernel.ProcessManager

open ByteMemory Words Heap

def processMaxCount : ℕ := 16

def processStackSize : ℕ := 16 * 1024

def processRflagsDefault : ℕ := 0x202

def syscallFrameRax : ℕ := 0

def syscallFrameRcx : ℕ := 13

def syscallFrameR11 : ℕ := 14

/-- `PROCESS_CONTEXT_QWORDS`. -/
def syscallFrameQwords : ℕ := 15

inductive ProcessState
  | unused
  | ready
  | running
  | dead
deriving DecidableEq, Repr

structure Process where
  state : ProcessState
  entry : ℕ
  savedRsp : ℕ
  savedUserRsp : ℕ
  stackBase : ℕ
deriving DecidableEq, Repr

/-- `g_processes` and `g_current_pid`. -/
structure ProcessTable where
  procs : ℕ → Process
  currentPid : ℤ

def ProcessTable.state (t : ProcessTable) (i : ℕ) : ProcessState := (t.procs i).state

def ProcessTable.set (t : ProcessTable) (i : ℕ) (p : Process) : ProcessTable :=
  { t with procs := Function.update t.procs i p }

def ProcessTable.setState (t : ProcessTable) (i : ℕ) (state : ProcessState) : ProcessTable :=
  t.set i { t.procs i with state := state }

def processManagerInit : ProcessTable where
  procs := fun _ ↦ ⟨.unused, 0, 0, 0, 0⟩
  currentPid := -1

/-- `none` stands for `-1`. -/
def findFreeSlot (t : ProcessTable) : Option ℕ :=
  (List.range processMaxCount).find? fun i ↦ t.state i = .unused ∨ t.state i = .dead

/-- The slots in the order in which the loop over `step` visits them. -/
def slotsAfter (pid : ℕ) : List ℕ :=
  (List.range processMaxCount).map fun step ↦ (pid + (step + 1)) % processMaxCount

def pickNextReady (t : ProcessTable) (currentPid : ℤ) : Option ℕ :=
  if currentPid < 0 then
    (List.range processMaxCount).find? fun i ↦ t.state i = .ready ∨ t.state i = .running
  else
    match (slotsAfter currentPid.toNat).find? fun i ↦ t.state i = .ready with
    | some i => some i
    | none =>
        if t.state currentPid.toNat = .running ∨ t.state currentPid.toNat = .ready then
          some currentPid.toNat
        else none

/-! ## Creation -/

inductive RegisterResult
  | noSlot
  | registered (pid : ℕ)
deriving DecidableEq, Repr

def RegisterResult.serial : RegisterResult → List String
  | .noSlot => ["[OS] [PROC] No free slot for boot process\n"]
  | .registered _ => ["[OS] [PROC] Boot process registered\n"]

def processRegisterBootProcess (t : ProcessTable) (entry userStackTop : ℕ) :
    ProcessTable × RegisterResult :=
  match findFreeSlot t with
  | none => (t, .noSlot)
  | some pid =>
      ({ t.set pid ⟨.running, entry, userStackTop, userStackTop, 0⟩ with currentPid := pid },
        .registered pid)

inductive CreateResult
  | zeroEntry
  | noSlot
  | stackFailed (r : KmallocResult)
  | created (pid : ℕ)
deriving DecidableEq, Repr

def CreateResult.pid : CreateResult → ℤ
  | .created pid => pid
  | _ => -1

def CreateResult.serial : CreateResult → List String
  | .noSlot => ["[OS] [PROC] No free slot for process create\n"]
  | .stackFailed r => r.serial ++ ["[OS] [PROC] Stack allocation failed\n"]
  | _ => []

/-- The loop that clears a frame. -/
def clearFrame (m : Mem) (frame : ℕ) : ℕ → Mem
  | 0 => m
  | i + 1 => writeLE (clearFrame m frame i) (frame + 8 * i) 8 0

/-- The registers a new process starts with. -/
def initialFrame (m : Mem) (frame entry : ℕ) : Mem :=
  let m₁ := clearFrame m frame syscallFrameQwords
  let m₂ := writeLE m₁ (frame + 8 * syscallFrameRcx) 8 entry
  writeLE m₂ (frame + 8 * syscallFrameR11) 8 processRflagsDefault

/-- `stack_top` of a process whose stack is at `stack`. -/
def stackTop (stack : ℕ) : ℕ := (stack + processStackSize) % 2 ^ 64 &&& highMask 64 4

/-- The address of its initial frame. -/
def frameOf (stack : ℕ) : ℕ := (stackTop stack + 2 ^ 64 - syscallFrameQwords * 8) % 2 ^ 64

/-- The slot is chosen before the stack is allocated and filled last; `none`
when the allocation never returns. -/
def processCreateUser (s : MemoryState) (t : ProcessTable) (entry : ℕ) :
    Option (MemoryState × ProcessTable × CreateResult) :=
  if entry = 0 then some (s, t, .zeroEntry)
  else
    match findFreeSlot t with
    | none => some (s, t, .noSlot)
    | some pid => do
        let (s', r) ← kmalloc s processStackSize
        if r.ptr = 0 then some (s', t, .stackFailed r)
        else
          let stack := r.ptr
          let frame := frameOf stack
          some ({ s' with mem := initialFrame s'.mem frame entry },
            t.set pid ⟨.ready, entry, frame, stackTop stack, stack⟩, .created pid)

/-! ## Scheduling -/

def processExitCurrent (t : ProcessTable) : ProcessTable :=
  if t.currentPid < 0 ∨ processMaxCount ≤ t.currentPid then t
  else t.setState t.currentPid.toNat .dead

/-- How a call of the scheduler ends: with the stack pointers of the process
to resume, or in `halt_forever`. -/
inductive ScheduleResult
  | invalidPid (savedRsp userRsp : ℕ)
  | resumed (t : ProcessTable) (savedRsp userRsp : ℕ)
  | halted (t : ProcessTable)

def ScheduleResult.serial : ScheduleResult → List String
  | .invalidPid _ _ => ["[OS] [PROC] Invalid current PID\n"]
  | .resumed _ _ _ => []
  | .halted _ => ["[OS] [PROC] No runnable process. Halting.\n"]

/-- The current process gives up the processor unless it is dead. -/
def saveCurrent (t : ProcessTable) (pid savedRsp userRsp : ℕ) : ProcessTable :=
  if t.state pid = .running ∨ t.state pid = .ready then
    let current := { t.procs pid with savedRsp := savedRsp, savedUserRsp := userRsp }
    t.set pid { current with state := if current.state ≠ .dead then .ready else current.state }
  else t

def processScheduleOnSyscall (t : ProcessTable) (currentSavedRsp currentUserRsp : ℕ)
    (requestSwitch : Bool) : ScheduleResult :=
  if t.currentPid < 0 ∨ processMaxCount ≤ t.currentPid then
    .invalidPid currentSavedRsp currentUserRsp
  else
    let pid := t.currentPid.toNat
    let t₁ := saveCurrent t pid currentSavedRsp currentUserRsp
    if requestSwitch = false ∧ t₁.state pid ≠ .dead then
      .resumed (t₁.setState pid .running) (t₁.procs pid).savedRsp (t₁.procs pid).savedUserRsp
    else
      match pickNextReady t₁ t₁.currentPid with
      | none => .halted t₁
      | some next =>
          .resumed { t₁.setState next .running with currentPid := next }
            (t₁.procs next).savedRsp (t₁.procs next).savedUserRsp

end ImplusKernel.ProcessManager
