import ImplusKernel.Process.ProcessManager

/-!
# Runs of the scheduler

Between two system calls exactly one slot is running, and a process is always
resumed with the pair of stack pointers recorded at its own last call.
-/

namespace ImplusKernel.ProcessManager

open Heap

variable {t t' : ProcessTable} {i pid rsp userRsp : ℕ}

/-! ## Table updates -/

@[simp]
theorem procs_set_self (t : ProcessTable) (i : ℕ) (p : Process) : (t.set i p).procs i = p :=
  Function.update_self ..

theorem procs_set_of_ne (t : ProcessTable) (p : Process) {j : ℕ} (h : j ≠ i) :
    (t.set i p).procs j = t.procs j :=
  Function.update_of_ne h _ _

@[simp]
theorem currentPid_set (t : ProcessTable) (i : ℕ) (p : Process) :
    (t.set i p).currentPid = t.currentPid := rfl

@[simp]
theorem state_setState_self (t : ProcessTable) (i : ℕ) (state : ProcessState) :
    (t.setState i state).state i = state := by
  simp [ProcessTable.state, ProcessTable.setState]

theorem state_setState_of_ne (t : ProcessTable) (state : ProcessState) {j : ℕ} (h : j ≠ i) :
    (t.setState i state).state j = t.state j := by
  rw [ProcessTable.state, ProcessTable.setState, procs_set_of_ne t _ h]
  rfl

theorem procs_setState_of_ne (t : ProcessTable) (state : ProcessState) {j : ℕ} (h : j ≠ i) :
    (t.setState i state).procs j = t.procs j :=
  procs_set_of_ne t _ h

/-- The recorded pair of stack pointers. -/
def ProcessTable.saved (t : ProcessTable) (i : ℕ) : ℕ × ℕ :=
  ((t.procs i).savedRsp, (t.procs i).savedUserRsp)

@[simp]
theorem saved_setState (t : ProcessTable) (i j : ℕ) (state : ProcessState) :
    (t.setState i state).saved j = t.saved j := by
  by_cases h : j = i
  · subst h
    simp [ProcessTable.saved, ProcessTable.setState]
  · rw [ProcessTable.saved, procs_setState_of_ne t state h]
    rfl

def ProcessTable.runnable (t : ProcessTable) (i : ℕ) : Prop :=
  t.state i = .ready ∨ t.state i = .running

/-! ## Choosing a process -/

theorem findFreeSlot_spec (h : findFreeSlot t = some i) :
    i < 16 ∧ (t.state i = .unused ∨ t.state i = .dead) := by
  have hmem := List.mem_of_find?_eq_some h
  have hfree := List.find?_some h
  exact ⟨List.mem_range.mp hmem, by simpa using hfree⟩

theorem mem_slotsAfter_iff (pid i : ℕ) : i ∈ slotsAfter pid ↔ i < 16 := by
  simp only [slotsAfter, List.mem_map, List.mem_range, processMaxCount]
  constructor
  · rintro ⟨step, _, rfl⟩
    exact Nat.mod_lt _ (by norm_num)
  · intro hi
    exact ⟨(i + 16 - (pid + 1) % 16) % 16, by omega, by omega⟩

/-- A chosen process can run. -/
theorem pickNextReady_some (hpid : pid < 16) (h : pickNextReady t pid = some i) :
    i < 16 ∧ t.runnable i := by
  unfold pickNextReady at h
  rw [if_neg (by omega), Int.toNat_natCast] at h
  split at h
  · next j hfind =>
      obtain rfl := Option.some.inj h
      have hmem := List.mem_of_find?_eq_some hfind
      have hready := List.find?_some hfind
      exact ⟨(mem_slotsAfter_iff pid j).mp hmem, Or.inl (by simpa using hready)⟩
  · split at h
    · next hself =>
        obtain rfl := Option.some.inj h
        exact ⟨hpid, hself.symm⟩
    · simp at h

/-- Nothing is chosen only when nothing is ready. -/
theorem pickNextReady_none (h : pickNextReady t pid = none) :
    (∀ i < 16, t.state i ≠ .ready) ∧ t.state pid ≠ .running := by
  unfold pickNextReady at h
  rw [if_neg (by omega), Int.toNat_natCast] at h
  split at h
  · simp at h
  · next hfind =>
      split at h
      · simp at h
      · next hself =>
          refine ⟨?_, fun hrun ↦ hself (Or.inl hrun)⟩
          intro i hi
          have hnot := List.find?_eq_none.mp hfind i ((mem_slotsAfter_iff pid i).mpr hi)
          simpa using hnot

/-- The first ready slot in cyclic order after `pid`, which itself comes last
and counts when it `lives`. -/
def nextAfter (t : ProcessTable) (pid : ℕ) (lives : Bool) : Option ℕ :=
  (slotsAfter pid).find? fun i ↦ t.state i = .ready ∨ lives = true ∧ i = pid

/-- The process that runs after a call of `pid`. -/
def runsNext (t : ProcessTable) (pid : ℕ) (requestSwitch : Bool) : Option ℕ :=
  if requestSwitch then nextAfter t pid true else some pid

theorem nextAfter_congr {lives : Bool} (h : ∀ i, t.state i = t'.state i) :
    nextAfter t pid lives = nextAfter t' pid lives := by
  simp only [nextAfter, h]

/-- The choice depends on the caller only through whether it lives. -/
theorem pickNextReady_eq_nextAfter (lives : Bool) (hpid : pid < 16)
    (hself : t'.state pid = if lives then .ready else .dead)
    (hlive : lives = false → t.state pid ≠ .ready)
    (hothers : ∀ i, i ≠ pid → t'.state i = t.state i) :
    pickNextReady t' pid = nextAfter t pid lives := by
  have hsame : (fun i ↦ decide (t'.state i = .ready)) =
      fun i ↦ decide (t.state i = .ready ∨ lives = true ∧ i = pid) := by
    funext i
    by_cases hi : i = pid
    · cases lives with
      | true => simp [hi, hself]
      | false => simp [hi, hself, hlive rfl]
    · simp [hi, hothers i hi]
  have hfind : (slotsAfter pid).find? (fun i ↦ t'.state i = .ready) = nextAfter t pid lives := by
    rw [hsame]
    rfl
  unfold pickNextReady
  rw [if_neg (by omega), Int.toNat_natCast, hfind]
  cases hnext : nextAfter t pid lives with
  | some i => rfl
  | none =>
      have hnot := List.find?_eq_none.mp hnext pid ((mem_slotsAfter_iff pid pid).mpr hpid)
      have hdead : lives = false := by simp_all
      simp [hself, hdead]

/-! ## One call of the scheduler -/

theorem saveCurrent_of_runnable (h : t.runnable pid) :
    saveCurrent t pid rsp userRsp =
      t.set pid ⟨.ready, (t.procs pid).entry, rsp, userRsp, (t.procs pid).stackBase⟩ := by
  have hlive : (t.procs pid).state ≠ .dead := by
    intro hdead
    rcases h with h | h <;> · rw [ProcessTable.state, hdead] at h; cases h
  unfold saveCurrent
  rw [if_pos h.symm]
  simp [hlive]

theorem saveCurrent_of_dead (h : t.state pid = .dead) : saveCurrent t pid rsp userRsp = t := by
  unfold saveCurrent
  rw [if_neg (by simp [h])]

/-- From a live current process the scheduler resumes the next runnable
process of the table in which the current one has been saved. -/
theorem schedule_live (hpid : pid < 16) (hcur : t.currentPid = pid) (hlive : t.runnable pid)
    (rsp userRsp : ℕ) (requestSwitch : Bool) :
    ∃ next < 16, t.runnable next ∧
      runsNext t pid requestSwitch = some next ∧
      processScheduleOnSyscall t rsp userRsp requestSwitch =
        .resumed
          { (saveCurrent t pid rsp userRsp).setState next .running with currentPid := next }
          ((saveCurrent t pid rsp userRsp).procs next).savedRsp
          ((saveCurrent t pid rsp userRsp).procs next).savedUserRsp := by
  have hvalid : ¬(t.currentPid < 0 ∨ (processMaxCount : ℤ) ≤ t.currentPid) := by
    rw [hcur, processMaxCount]
    omega
  have hsave : saveCurrent t pid rsp userRsp = _ := saveCurrent_of_runnable hlive
  have hready : (saveCurrent t pid rsp userRsp).state pid = .ready := by
    simp [hsave, ProcessTable.state]
  have hcur' : (saveCurrent t pid rsp userRsp).currentPid = pid := by
    rw [hsave, currentPid_set, hcur]
  unfold processScheduleOnSyscall
  rw [if_neg hvalid]
  simp only [hcur, Int.toNat_natCast]
  cases requestSwitch with
  | false =>
      refine ⟨pid, hpid, hlive, rfl, ?_⟩
      rw [if_pos ⟨rfl, by simp [hready]⟩]
      congr 1
      simp only [ProcessTable.setState, ProcessTable.set, hcur']
  | true =>
      rw [if_neg (by simp), hcur']
      cases hpick : pickNextReady (saveCurrent t pid rsp userRsp) pid with
      | none => exact absurd hready ((pickNextReady_none hpick).1 pid hpid)
      | some next =>
          obtain ⟨hnext, hrunnable⟩ := pickNextReady_some hpid hpick
          have hothers : ∀ i, i ≠ pid → (saveCurrent t pid rsp userRsp).state i = t.state i := by
            intro i hi
            rw [hsave, ProcessTable.state, procs_set_of_ne t _ hi, ProcessTable.state]
          refine ⟨next, hnext, ?_, ?_, rfl⟩
          · by_cases hne : next = pid
            · rwa [hne]
            · rwa [ProcessTable.runnable, hothers next hne] at hrunnable
          · rw [← hpick]
            exact (pickNextReady_eq_nextAfter true hpid hready nofun hothers).symm

/-- After an exit the scheduler resumes another runnable process, or halts
when there is none. -/
theorem schedule_dead (hpid : pid < 16) (hcur : t.currentPid = pid) (hdead : t.state pid = .dead)
    (rsp userRsp : ℕ) (requestSwitch : Bool) :
    (∃ next < 16, t.runnable next ∧ nextAfter t pid false = some next ∧
      processScheduleOnSyscall t rsp userRsp requestSwitch =
        .resumed { t.setState next .running with currentPid := next }
          (t.procs next).savedRsp (t.procs next).savedUserRsp) ∨
    ((∀ i < 16, t.state i ≠ .ready) ∧
      processScheduleOnSyscall t rsp userRsp requestSwitch = .halted t) := by
  have hvalid : ¬(t.currentPid < 0 ∨ (processMaxCount : ℤ) ≤ t.currentPid) := by
    rw [hcur, processMaxCount]
    omega
  unfold processScheduleOnSyscall
  rw [if_neg hvalid]
  simp only [hcur, Int.toNat_natCast, saveCurrent_of_dead hdead]
  rw [if_neg fun h ↦ h.2 hdead]
  cases hpick : pickNextReady t pid with
  | none => exact Or.inr ⟨(pickNextReady_none hpick).1, rfl⟩
  | some next =>
      obtain ⟨hnext, hrunnable⟩ := pickNextReady_some hpid hpick
      have hchoice : nextAfter t pid false = some next := by
        rw [← hpick, pickNextReady_eq_nextAfter false hpid hdead (by simp [hdead]) fun _ _ ↦ rfl]
      exact Or.inl ⟨next, hnext, hrunnable, hchoice, rfl⟩

/-! ## Creating a process -/

/-- Creation fills a free slot with a ready process, or leaves the table
alone. -/
theorem processCreateUser_cases {s s' : MemoryState} {entry : ℕ} {r : CreateResult}
    (h : processCreateUser s t entry = some (s', t', r)) :
    (t' = t ∧ r.pid = -1) ∨
    ∃ pid < 16, (t.state pid = .unused ∨ t.state pid = .dead) ∧ r = .created pid ∧
      ∃ stack s₁, kmalloc s processStackSize = some (s₁, .block stack) ∧ stack ≠ 0 ∧
        s' = { s₁ with mem := initialFrame s₁.mem (frameOf stack) entry } ∧
        t' = t.set pid ⟨.ready, entry, frameOf stack, stackTop stack, stack⟩ := by
  unfold processCreateUser at h
  by_cases hentry : entry = 0
  · rw [if_pos hentry] at h
    simp only [Option.some.injEq, Prod.mk.injEq] at h
    obtain ⟨-, rfl, rfl⟩ := h
    exact Or.inl ⟨rfl, rfl⟩
  rw [if_neg hentry] at h
  cases hslot : findFreeSlot t with
  | none =>
      rw [hslot] at h
      simp only [Option.some.injEq, Prod.mk.injEq] at h
      obtain ⟨-, rfl, rfl⟩ := h
      exact Or.inl ⟨rfl, rfl⟩
  | some pid =>
      rw [hslot] at h
      obtain ⟨⟨s₁, k⟩, hk, h⟩ := Option.bind_eq_some_iff.mp h
      obtain ⟨hpid, hfree⟩ := findFreeSlot_spec hslot
      by_cases hnull : k.ptr = 0
      · simp only [hnull, if_true, Option.some.injEq, Prod.mk.injEq] at h
        obtain ⟨-, rfl, rfl⟩ := h
        exact Or.inl ⟨rfl, rfl⟩
      · simp only [hnull, if_false, Option.some.injEq, Prod.mk.injEq] at h
        obtain ⟨rfl, rfl, rfl⟩ := h
        cases k with
        | block stack =>
            exact Or.inr ⟨pid, hpid, hfree, rfl, stack, s₁, hk, hnull, rfl, rfl⟩
        | beforeInit => exact absurd rfl hnull
        | zeroSize => exact absurd rfl hnull
        | outOfMemory n => exact absurd rfl hnull

/-! ## Runs -/

/-- What happens to the slots, as seen from outside. -/
inductive Event
  | created (pid : ℕ) (pair : ℕ × ℕ)
  | syscall (pid : ℕ) (pair : ℕ × ℕ)
  | exited (pid : ℕ)
deriving DecidableEq, Repr

/-- The pair that the process in a slot recorded last, most recent event
first: at its last call other than an exit, or at its creation. -/
def lastRecorded : List Event → ℕ → Option (ℕ × ℕ)
  | [], _ => none
  | .created i pair :: es, pid => if i = pid then some pair else lastRecorded es pid
  | .syscall i pair :: es, pid => if i = pid then some pair else lastRecorded es pid
  | .exited _ :: es, pid => lastRecorded es pid

def createdEvents (t : ProcessTable) : CreateResult → List Event
  | .created pid => [.created pid (t.saved pid)]
  | _ => []

/-- The table that `process_schedule_on_syscall` is called on. -/
def atCall (t : ProcessTable) (exits : Bool) : ProcessTable :=
  if exits then processExitCurrent t else t

def callEvent (t : ProcessTable) (exits : Bool) (rsp userRsp : ℕ) : Event :=
  if exits then .exited t.currentPid.toNat else .syscall t.currentPid.toNat (rsp, userRsp)

/-- Runs after `process_manager_init` and one boot process.  A creation may
find the heap in any state; a call of the scheduler may follow an exit. -/
inductive SchedRun : List Event → ProcessTable → Prop
  | boot {t : ProcessTable} (entry userStackTop : ℕ) {pid : ℕ}
      (h : processRegisterBootProcess processManagerInit entry userStackTop =
        (t, .registered pid)) : SchedRun [.created pid (userStackTop, userStackTop)] t
  | create {es : List Event} {t t' : ProcessTable} (entry : ℕ) (s s' : MemoryState)
      {r : CreateResult} (hrun : SchedRun es t)
      (h : processCreateUser s t entry = some (s', t', r)) :
      SchedRun (createdEvents t' r ++ es) t'
  | call {es : List Event} {t t' : ProcessTable} (exits requestSwitch : Bool)
      (rsp userRsp : ℕ) {rsp' userRsp' : ℕ} (hrun : SchedRun es t)
      (h : processScheduleOnSyscall (atCall t exits) rsp userRsp requestSwitch =
        .resumed t' rsp' userRsp') :
      SchedRun (callEvent t exits rsp userRsp :: es) t'

/-- Exactly the current slot is running, and every process that can run has
its last recorded pair in the table. -/
structure SchedInvariant (es : List Event) (t : ProcessTable) (pid : ℕ) : Prop where
  pid_lt : pid < 16
  current : t.currentPid = pid
  running_iff : ∀ i < 16, t.state i = .running ↔ i = pid
  recorded : ∀ i < 16, t.runnable i → lastRecorded es i = some (t.saved i)

variable {es : List Event}

theorem SchedInvariant.created (h : SchedInvariant es t pid) {slot entry rsp userRsp stack : ℕ}
    (hslot : slot < 16) (hfree : t.state slot = .unused ∨ t.state slot = .dead) :
    SchedInvariant (.created slot (rsp, userRsp) :: es)
      (t.set slot ⟨.ready, entry, rsp, userRsp, stack⟩) pid := by
  have hne : slot ≠ pid := by
    rintro rfl
    have hrun := (h.running_iff slot hslot).mpr rfl
    rcases hfree with hfree | hfree <;> simp [hrun] at hfree
  refine ⟨h.pid_lt, h.current, ?_, ?_⟩
  · intro i hi
    by_cases hi' : i = slot
    · subst hi'
      simp [ProcessTable.state, hne]
    · rw [ProcessTable.state, procs_set_of_ne t _ hi']
      exact h.running_iff i hi
  · intro i hi hrunnable
    by_cases hi' : i = slot
    · subst hi'
      simp [lastRecorded, ProcessTable.saved]
    · rw [ProcessTable.runnable, ProcessTable.state, procs_set_of_ne t _ hi'] at hrunnable
      rw [lastRecorded, if_neg (Ne.symm hi'), ProcessTable.saved, procs_set_of_ne t _ hi']
      exact h.recorded i hi hrunnable

/-- Making one runnable slot the running one, when no other is. -/
theorem SchedInvariant.resume {next : ℕ} (hnext : next < 16)
    (hother : ∀ i < 16, t.state i ≠ .running)
    (hrecorded : ∀ i < 16, t.runnable i → lastRecorded es i = some (t.saved i))
    (hrunnable : t.runnable next) :
    SchedInvariant es { t.setState next .running with currentPid := next } next := by
  refine ⟨hnext, rfl, ?_, ?_⟩
  · intro i hi
    by_cases hi' : i = next
    · subst hi'
      exact iff_of_true (state_setState_self t i .running) rfl
    · have hkept := state_setState_of_ne t .running hi'
      exact iff_of_false (fun hrun ↦ hother i hi (hkept.symm.trans hrun)) hi'
  · intro i hi hrun
    have hsaved := saved_setState t next i .running
    by_cases hi' : i = next
    · subst hi'
      exact (hrecorded i hi hrunnable).trans (congrArg some hsaved.symm)
    · have hrun' : t.runnable i := by
        have hstate := state_setState_of_ne t .running hi'
        rcases hrun with hrun | hrun
        · exact Or.inl (hstate.symm.trans hrun)
        · exact Or.inr (hstate.symm.trans hrun)
      exact (hrecorded i hi hrun').trans (congrArg some hsaved.symm)

theorem processExitCurrent_eq (hpid : pid < 16) (hcur : t.currentPid = pid) :
    processExitCurrent t = t.setState pid .dead := by
  have hvalid : ¬(t.currentPid < 0 ∨ (processMaxCount : ℤ) ≤ t.currentPid) := by
    rw [hcur, processMaxCount]
    omega
  rw [processExitCurrent, if_neg hvalid, hcur, Int.toNat_natCast]

/-- A call other than an exit resumes a runnable process. -/
theorem SchedInvariant.syscall (h : SchedInvariant es t pid) (requestSwitch : Bool)
    (rsp userRsp : ℕ) :
    ∃ next < 16, t.runnable next ∧ ∃ t' rsp' userRsp',
      processScheduleOnSyscall t rsp userRsp requestSwitch = .resumed t' rsp' userRsp' ∧
      lastRecorded (.syscall pid (rsp, userRsp) :: es) next = some (rsp', userRsp') ∧
      SchedInvariant (.syscall pid (rsp, userRsp) :: es) t' next := by
  have hpid := h.pid_lt
  have hlive : t.runnable pid := Or.inr ((h.running_iff pid hpid).mpr rfl)
  obtain ⟨next, hnext, hrunnable, -, hcall⟩ :=
    schedule_live hpid h.current hlive rsp userRsp requestSwitch
  have hsave : saveCurrent t pid rsp userRsp = _ := saveCurrent_of_runnable hlive
  have hstate : ∀ i, i ≠ pid → (saveCurrent t pid rsp userRsp).procs i = t.procs i := by
    intro i hi
    rw [hsave, procs_set_of_ne t _ hi]
  have hrecorded : ∀ i < 16, (saveCurrent t pid rsp userRsp).runnable i →
      lastRecorded (.syscall pid (rsp, userRsp) :: es) i =
        some ((saveCurrent t pid rsp userRsp).saved i) := by
    intro i hi hrun
    by_cases hi' : i = pid
    · subst hi'
      simp [lastRecorded, ProcessTable.saved, hsave]
    · rw [ProcessTable.runnable, ProcessTable.state, hstate i hi'] at hrun
      rw [lastRecorded, if_neg (Ne.symm hi'), ProcessTable.saved, hstate i hi']
      exact h.recorded i hi hrun
  have hsaved : (saveCurrent t pid rsp userRsp).runnable next := by
    by_cases hne : next = pid
    · left
      simp [hne, hsave, ProcessTable.state]
    · rwa [ProcessTable.runnable, ProcessTable.state, hstate next hne]
  refine ⟨next, hnext, hrunnable, _, _, _, hcall, hrecorded next hnext hsaved, ?_⟩
  refine .resume hnext ?_ hrecorded hsaved
  intro i hi hrun
  by_cases hi' : i = pid
  · subst hi'
    simp [hsave, ProcessTable.state] at hrun
  · rw [ProcessTable.state, hstate i hi'] at hrun
    exact hi' ((h.running_iff i hi).mp hrun)

/-- An exit resumes another runnable process, or halts when none is left. -/
theorem SchedInvariant.exit (h : SchedInvariant es t pid) (requestSwitch : Bool)
    (rsp userRsp : ℕ) :
    (∃ next < 16, (t.setState pid .dead).runnable next ∧ ∃ t' rsp' userRsp',
      processScheduleOnSyscall (t.setState pid .dead) rsp userRsp requestSwitch =
        .resumed t' rsp' userRsp' ∧
      lastRecorded (.exited pid :: es) next = some (rsp', userRsp') ∧
      SchedInvariant (.exited pid :: es) t' next) ∨
    ((∀ i < 16, ¬(t.setState pid .dead).runnable i) ∧
      processScheduleOnSyscall (t.setState pid .dead) rsp userRsp requestSwitch =
        .halted (t.setState pid .dead)) := by
  have hother : ∀ i < 16, (t.setState pid .dead).state i ≠ .running := by
    intro i hi hrun
    by_cases hi' : i = pid
    · subst hi'
      simp at hrun
    · rw [state_setState_of_ne t _ hi'] at hrun
      exact hi' ((h.running_iff i hi).mp hrun)
  have hrecorded : ∀ i < 16, (t.setState pid .dead).runnable i →
      lastRecorded (.exited pid :: es) i = some ((t.setState pid .dead).saved i) := by
    intro i hi hrun
    have hi' : i ≠ pid := by
      rintro rfl
      simp [ProcessTable.runnable] at hrun
    rw [ProcessTable.runnable, state_setState_of_ne t _ hi'] at hrun
    rw [lastRecorded, saved_setState]
    exact h.recorded i hi hrun
  have hcur : (t.setState pid .dead).currentPid = pid := h.current
  rcases schedule_dead h.pid_lt hcur (state_setState_self t pid .dead) rsp userRsp
    requestSwitch with ⟨next, hnext, hrunnable, -, hcall⟩ | ⟨hnone, hcall⟩
  · exact Or.inl ⟨next, hnext, hrunnable, _, _, _, hcall, hrecorded next hnext hrunnable,
      .resume hnext hother hrecorded hrunnable⟩
  · refine Or.inr ⟨?_, hcall⟩
    rintro i hi (hready | hrun)
    · exact hnone i hi hready
    · exact hother i hi hrun

theorem SchedRun.invariant (hrun : SchedRun es t) : ∃ pid, SchedInvariant es t pid := by
  induction hrun with
  | boot entry userStackTop h =>
      have hslot : findFreeSlot processManagerInit = some 0 := rfl
      rw [processRegisterBootProcess, hslot] at h
      obtain ⟨rfl, hpid⟩ := Prod.mk.inj h
      obtain rfl := RegisterResult.registered.inj hpid
      refine ⟨0, by norm_num, rfl, ?_, ?_⟩
      · intro i _
        by_cases hi : i = 0
        · simp [hi, ProcessTable.state, ProcessTable.set]
        · simp [hi, ProcessTable.state, ProcessTable.set, processManagerInit]
      · intro i _ hrun
        by_cases hi : i = 0
        · simp [hi, lastRecorded, ProcessTable.saved, ProcessTable.set]
        · simp [hi, ProcessTable.runnable, ProcessTable.state, ProcessTable.set,
            processManagerInit] at hrun
  | @create es t t' entry s s' r _ h ih =>
      obtain ⟨pid, hinv⟩ := ih
      rcases processCreateUser_cases h with ⟨rfl, hfail⟩ |
        ⟨slot, hslot, hfree, rfl, stack, s₁, _, _, _, rfl⟩
      · cases r with
        | created slot => simp [CreateResult.pid] at hfail
        | zeroEntry => exact ⟨pid, hinv⟩
        | noSlot => exact ⟨pid, hinv⟩
        | stackFailed k => exact ⟨pid, hinv⟩
      · refine ⟨pid, ?_⟩
        have hevents : createdEvents
            (t.set slot ⟨.ready, entry, frameOf stack, stackTop stack, stack⟩) (.created slot) =
            [.created slot (frameOf stack, stackTop stack)] := by
          simp [createdEvents, ProcessTable.saved]
        rw [hevents]
        exact hinv.created hslot hfree
  | @call es t t' exits requestSwitch rsp userRsp rsp' userRsp' _ h ih =>
      obtain ⟨pid, hinv⟩ := ih
      rw [callEvent, hinv.current, Int.toNat_natCast]
      cases exits with
      | false =>
          obtain ⟨next, _, _, t'', _, _, hcall, _, hinv'⟩ :=
            hinv.syscall requestSwitch rsp userRsp
          rw [atCall, if_neg (by simp), hcall] at h
          cases h
          exact ⟨next, hinv'⟩
      | true =>
          rw [atCall, if_pos rfl, processExitCurrent_eq hinv.pid_lt hinv.current] at h
          rcases hinv.exit requestSwitch rsp userRsp with
            ⟨next, _, _, t'', _, _, hcall, _, hinv'⟩ | ⟨_, hcall⟩
          · rw [hcall] at h
            cases h
            exact ⟨next, hinv'⟩
          · rw [hcall] at h
            cases h

/-- What one call of the scheduler does, in terms of the events so far. -/
def ResumesRecorded (es : List Event) (t : ProcessTable) (exits : Bool) (rsp userRsp : ℕ) :
    ScheduleResult → Prop
  | .invalidPid _ _ => False
  | .halted t' => ∀ i < 16, t'.state i ≠ .ready ∧ t'.state i ≠ .running
  | .resumed t' rsp' userRsp' => ∃ next : ℕ, next < 16 ∧ t'.currentPid = next ∧
      (atCall t exits).state next ≠ .dead ∧ (atCall t exits).state next ≠ .unused ∧
      lastRecorded (callEvent t exits rsp userRsp :: es) next = some (rsp', userRsp')

theorem ProcessTable.runnable.alive (h : t.runnable i) :
    t.state i ≠ .dead ∧ t.state i ≠ .unused := by
  rcases h with h | h <;> simp [h]

/-- In every state of every run the current slot is the only running one, and
the next call resumes a live process with its last recorded pair or halts
because no process can run. -/
theorem schedRun_resumes_recorded (hrun : SchedRun es t) :
    (∃ pid : ℕ, pid < 16 ∧ t.currentPid = pid ∧ ∀ i < 16, t.state i = .running ↔ i = pid) ∧
    ∀ (exits requestSwitch : Bool) (rsp userRsp : ℕ), ResumesRecorded es t exits rsp userRsp
      (processScheduleOnSyscall (atCall t exits) rsp userRsp requestSwitch) := by
  obtain ⟨pid, hinv⟩ := hrun.invariant
  refine ⟨⟨pid, hinv.pid_lt, hinv.current, hinv.running_iff⟩, ?_⟩
  intro exits requestSwitch rsp userRsp
  have hevent : callEvent t exits rsp userRsp =
      if exits then .exited pid else .syscall pid (rsp, userRsp) := by
    rw [callEvent, hinv.current, Int.toNat_natCast]
  cases exits with
  | false =>
      obtain ⟨next, hnext, hrunnable, t', rsp', userRsp', hcall, hlast, hinv'⟩ :=
        hinv.syscall requestSwitch rsp userRsp
      rw [atCall, if_neg (by simp), hcall]
      refine ⟨next, hnext, hinv'.current, hrunnable.alive.1, hrunnable.alive.2, ?_⟩
      rw [hevent]
      exact hlast
  | true =>
      have hexit := processExitCurrent_eq hinv.pid_lt hinv.current
      rw [atCall, if_pos rfl, hexit]
      rcases hinv.exit requestSwitch rsp userRsp with
        ⟨next, hnext, hrunnable, t', rsp', userRsp', hcall, hlast, hinv'⟩ | ⟨hnone, hcall⟩
      · rw [hcall]
        have halive : (atCall t true).runnable next := by
          rw [atCall, if_pos rfl, hexit]
          exact hrunnable
        refine ⟨next, hnext, hinv'.current, halive.alive.1, halive.alive.2, ?_⟩
        rw [hevent]
        exact hlast
      · rw [hcall]
        intro i hi
        have hdead := hnone i hi
        exact ⟨fun hready ↦ hdead (Or.inl hready), fun hrunning ↦ hdead (Or.inr hrunning)⟩

/-- The boot process creates a second one, yields to it, and is resumed when
that one exits. -/
theorem schedRun_resumes_recorded_exit :
    ∃ es t, SchedRun es t ∧ t.currentPid = 1 ∧
      lastRecorded es 0 = some (0x1F88, 0x8000) ∧
      ResumesRecorded es t true 0x1F88 0x9000
        (processScheduleOnSyscall (atCall t true) 0x1F88 0x9000 true) := by
  have hboot := SchedRun.boot 0x400000 0x8000 rfl
  obtain ⟨s', t, hcreate, hpid⟩ : ∃ s' t,
      processCreateUser (memoryInit 0x110000 (.boot fun _ ↦ 0))
        (processRegisterBootProcess processManagerInit 0x400000 0x8000).1 0x401000 =
          some (s', t, .created 1) ∧ t.currentPid = 0 := ⟨_, _, rfl, rfl⟩
  have htwo := SchedRun.create 0x401000 _ s' hboot hcreate
  obtain ⟨t', rsp', userRsp', hyield, hcur⟩ : ∃ t' rsp' userRsp',
      processScheduleOnSyscall (atCall t false) 0x1F88 0x8000 true = .resumed t' rsp' userRsp' ∧
        t'.currentPid = 1 := by
    obtain ⟨-, rfl, -⟩ := by simpa only [Option.some.injEq, Prod.mk.injEq] using hcreate
    exact ⟨_, _, _, rfl, rfl⟩
  have hrun := SchedRun.call false true 0x1F88 0x8000 htwo hyield
  refine ⟨_, t', hrun, hcur, ?_, (schedRun_resumes_recorded hrun).2 true true 0x1F88 0x9000⟩
  simp [callEvent, hpid, lastRecorded]

end ImplusKernel.ProcessManager
