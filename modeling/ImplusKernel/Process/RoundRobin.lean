import ImplusKernel.Process.Scheduler

/-!
# Round robin without overtaking

`pick_next_ready` looks at the slots in cyclic order from the current one.
While a slot `p` is ready, each choice therefore falls between the current
slot and `p`: the cyclic distance to `p` shrinks with every choice, whatever
is created or exits in between, and no slot is chosen twice.
-/

namespace ImplusKernel.ProcessManager

open Heap

variable {t t₀ t' : ProcessTable} {p pid next rsp userRsp rsp' userRsp' : ℕ}
  {es : List Event} {requestSwitch : Bool} {choices : List ℕ}

/-- The number of steps from slot `i` to slot `p` in cyclic order. -/
def distance (p i : ℕ) : ℕ := (p + processMaxCount - i) % processMaxCount

/-- The first hit in the order of the search comes no later than any other
slot that satisfies the test. -/
theorem find_slotsAfter_le (test : ℕ → Bool) (hp : p < 16) (htest : test p = true)
    (hfind : (slotsAfter pid).find? test = some next) :
    ∃ step ≤ (p + 16 - (pid + 1) % 16) % 16, next = (pid + (step + 1)) % 16 := by
  rw [slotsAfter, List.find?_map, Option.map_eq_some_iff] at hfind
  obtain ⟨step, hstep, rfl⟩ := hfind
  refine ⟨step, ?_, rfl⟩
  by_contra hlate
  have hnot := (List.find?_range_eq_some.mp hstep).2.2 _ (not_le.mp hlate)
  have hslot : (pid + ((p + 16 - (pid + 1) % 16) % 16 + 1)) % processMaxCount = p := by
    unfold processMaxCount
    omega
  simp [hslot, htest] at hnot

/-- With `p` ready, the chosen slot lies between the current one and `p`. -/
theorem distance_pickNextReady (hpid : pid < 16) (hp : p < 16) (hne : p ≠ pid)
    (hready : t.state p = .ready) (hpick : pickNextReady t pid = some next) :
    distance p next < distance p pid := by
  obtain ⟨first, hfirst⟩ : ∃ first,
      (slotsAfter pid).find? (fun i ↦ t.state i = .ready) = some first := by
    refine Option.isSome_iff_exists.mp (List.find?_isSome.mpr ⟨p, ?_, by simp [hready]⟩)
    exact (mem_slotsAfter_iff pid p).mpr hp
  have hnext : first = next := by
    rw [pickNextReady, if_neg (by omega), Int.toNat_natCast, hfirst] at hpick
    exact Option.some.inj hpick
  obtain ⟨step, hstep, rfl⟩ := find_slotsAfter_le _ hp (by simp [hready]) hfirst
  unfold distance processMaxCount
  omega

/-! ## Choices of a call -/

/-- What `pick_next_ready` returned during a call of the scheduler, if it was
called and found a slot. -/
def chosen (t : ProcessTable) (rsp userRsp : ℕ) (requestSwitch : Bool) : Option ℕ :=
  if t.currentPid < 0 ∨ processMaxCount ≤ t.currentPid then none
  else
    let pid := t.currentPid.toNat
    let t₁ := saveCurrent t pid rsp userRsp
    if requestSwitch = false ∧ t₁.state pid ≠ .dead then none
    else pickNextReady t₁ t₁.currentPid

theorem currentPid_saveCurrent (t : ProcessTable) (pid rsp userRsp : ℕ) :
    (saveCurrent t pid rsp userRsp).currentPid = t.currentPid := by
  unfold saveCurrent
  split <;> rfl

theorem state_saveCurrent_of_ne (t : ProcessTable) (rsp userRsp : ℕ) {i : ℕ} (hne : i ≠ pid) :
    (saveCurrent t pid rsp userRsp).state i = t.state i := by
  unfold saveCurrent
  split
  · rw [ProcessTable.state, procs_set_of_ne t _ hne, ProcessTable.state]
  · rfl

/-- A call that resumes a process either keeps the current slot or moves to
the chosen one. -/
theorem schedule_chosen (hpid : pid < 16) (hcur : t.currentPid = pid)
    (hcall : processScheduleOnSyscall t rsp userRsp requestSwitch = .resumed t' rsp' userRsp') :
    (chosen t rsp userRsp requestSwitch = none ∧ t'.currentPid = pid) ∨
    ∃ next : ℕ, chosen t rsp userRsp requestSwitch = some next ∧ t'.currentPid = next ∧
      pickNextReady (saveCurrent t pid rsp userRsp) pid = some next := by
  have hvalid : ¬(t.currentPid < 0 ∨ (processMaxCount : ℤ) ≤ t.currentPid) := by
    rw [hcur, processMaxCount]
    omega
  have hcur' := (currentPid_saveCurrent t pid rsp userRsp).trans hcur
  unfold processScheduleOnSyscall at hcall
  unfold chosen
  rw [if_neg hvalid] at hcall ⊢
  simp only [hcur, Int.toNat_natCast, hcur'] at hcall ⊢
  by_cases hstay : requestSwitch = false ∧ (saveCurrent t pid rsp userRsp).state pid ≠ .dead
  · rw [if_pos hstay] at hcall ⊢
    obtain ⟨rfl, -, -⟩ := ScheduleResult.resumed.inj hcall
    exact Or.inl ⟨rfl, hcur'⟩
  · rw [if_neg hstay] at hcall ⊢
    cases hpick : pickNextReady (saveCurrent t pid rsp userRsp) pid with
    | none => simp [hpick] at hcall
    | some next =>
        simp only [hpick, ScheduleResult.resumed.injEq] at hcall
        obtain ⟨rfl, -, -⟩ := hcall
        exact Or.inr ⟨next, rfl, rfl, rfl⟩

/-! ## Stretches -/

/-- A stretch of a run in which slot `p` is ready all the time, with the slots
chosen on the way, latest first.  It may begin inside a call of `p` itself,
which becomes ready before the search for its successor. -/
inductive Stretch (p : ℕ) (t₀ : ProcessTable) : List ℕ → ProcessTable → Prop
  | start (hready : t₀.state p = .ready) : Stretch p t₀ [] t₀
  | yield {t : ProcessTable} (requestSwitch : Bool) (rsp userRsp : ℕ) {rsp' userRsp' : ℕ}
      (hcur : t₀.currentPid = p)
      (hcall : processScheduleOnSyscall t₀ rsp userRsp requestSwitch = .resumed t rsp' userRsp')
      (hready : t.state p = .ready) :
      Stretch p t₀ (chosen t₀ rsp userRsp requestSwitch).toList t
  | create {choices : List ℕ} {t t' : ProcessTable} (entry : ℕ) (s s' : MemoryState)
      {r : CreateResult} (hstretch : Stretch p t₀ choices t)
      (hcall : processCreateUser s t entry = some (s', t', r))
      (hready : t'.state p = .ready) : Stretch p t₀ choices t'
  | call {choices : List ℕ} {t t' : ProcessTable} (exits requestSwitch : Bool)
      (rsp userRsp : ℕ) {rsp' userRsp' : ℕ} (hstretch : Stretch p t₀ choices t)
      (hcall : processScheduleOnSyscall (atCall t exits) rsp userRsp requestSwitch =
        .resumed t' rsp' userRsp')
      (hready : t'.state p = .ready) :
      Stretch p t₀ ((chosen (atCall t exits) rsp userRsp requestSwitch).toList ++ choices) t'

theorem Stretch.ready (h : Stretch p t₀ choices t) : t.state p = .ready := by
  cases h <;> assumption

theorem Stretch.schedRun (h : Stretch p t₀ choices t) (hrun : SchedRun es t₀) :
    ∃ es', SchedRun es' t := by
  induction h with
  | start _ => exact ⟨es, hrun⟩
  | yield requestSwitch rsp userRsp _ hcall _ =>
      exact ⟨_, .call false requestSwitch rsp userRsp hrun hcall⟩
  | create entry s s' _ hcall _ ih =>
      obtain ⟨es', hrun'⟩ := ih
      exact ⟨_, .create entry s s' hrun' hcall⟩
  | call exits requestSwitch rsp userRsp _ hcall _ ih =>
      obtain ⟨es', hrun'⟩ := ih
      exact ⟨_, .call exits requestSwitch rsp userRsp hrun' hcall⟩

/-- The distances to `p` of the chosen slots shrink down to that of the
current one. -/
def Approaches (p : ℕ) (t : ProcessTable) (choices : List ℕ) : Prop :=
  ∃ pid : ℕ, t.currentPid = pid ∧ (∀ c ∈ choices, distance p pid ≤ distance p c) ∧
    choices.Pairwise fun c d ↦ distance p c < distance p d

theorem Approaches.choose (h : Approaches p t choices) (hcur : t.currentPid = pid)
    (hcur' : t'.currentPid = next) (hcloser : distance p next < distance p pid) :
    Approaches p t' (next :: choices) := by
  obtain ⟨pid', hpid', hle, hpair⟩ := h
  obtain rfl : pid = pid' := by
    rw [hcur] at hpid'
    exact_mod_cast hpid'
  have hlt : ∀ c ∈ choices, distance p next < distance p c := fun c hc ↦ hcloser.trans_le (hle c hc)
  refine ⟨next, hcur', ?_, List.pairwise_cons.mpr ⟨hlt, hpair⟩⟩
  intro c hc
  rcases List.mem_cons.mp hc with rfl | hc
  · exact le_rfl
  · exact (hlt c hc).le

theorem Approaches.stay (h : Approaches p t choices) (hcur : t'.currentPid = t.currentPid) :
    Approaches p t' choices := by
  obtain ⟨pid, hpid, hle⟩ := h
  exact ⟨pid, hcur.trans hpid, hle⟩

theorem currentPid_processCreateUser {s s' : MemoryState} {entry : ℕ} {r : CreateResult}
    (h : processCreateUser s t entry = some (s', t', r)) : t'.currentPid = t.currentPid := by
  rcases processCreateUser_cases h with ⟨rfl, -⟩ | ⟨_, _, _, _, _, _, _, _, _, rfl⟩
  · rfl
  · rfl

/-- An exit touches only the current slot. -/
theorem atCall_of_current (hpid : pid < 16) (hcur : t.currentPid = pid) (exits : Bool) :
    (atCall t exits).currentPid = pid ∧
      ∀ i, i ≠ pid → (atCall t exits).state i = t.state i := by
  cases exits with
  | false => exact ⟨hcur, fun i _ ↦ rfl⟩
  | true =>
      rw [atCall, if_pos rfl, processExitCurrent_eq hpid hcur]
      exact ⟨hcur, fun i hi ↦ state_setState_of_ne t _ hi⟩

theorem Stretch.approaches (h : Stretch p t₀ choices t) (hrun : SchedRun es t₀) (hp : p < 16) :
    Approaches p t choices := by
  induction h with
  | start _ =>
      obtain ⟨pid, hinv⟩ := hrun.invariant
      exact ⟨pid, hinv.current, by simp, List.Pairwise.nil⟩
  | yield requestSwitch rsp userRsp hcur hcall _ =>
      rcases schedule_chosen hp hcur hcall with ⟨hnone, hcur'⟩ | ⟨next, hsome, hcur', -⟩
      · rw [hnone]
        exact ⟨p, hcur', by simp, List.Pairwise.nil⟩
      · rw [hsome]
        exact ⟨next, hcur', by simp, List.pairwise_singleton _ _⟩
  | create entry s s' _ hcall _ ih => exact ih.stay (currentPid_processCreateUser hcall)
  | @call choices t t' exits requestSwitch rsp userRsp _ _ hstretch hcall _ ih =>
      obtain ⟨es', hrun'⟩ := hstretch.schedRun hrun
      obtain ⟨pid, hinv⟩ := hrun'.invariant
      -- the current slot is running, so it is not `p`
      have hne : p ≠ pid := by
        rintro rfl
        have hrunning := (hinv.running_iff p hp).mpr rfl
        rw [hstretch.ready] at hrunning
        cases hrunning
      obtain ⟨hcur, hothers⟩ := atCall_of_current hinv.pid_lt hinv.current exits
      rcases schedule_chosen hinv.pid_lt hcur hcall with
        ⟨hnone, hcur'⟩ | ⟨next, hsome, hcur', hpick⟩
      · rw [hnone]
        exact ih.stay (hcur'.trans hinv.current.symm)
      · rw [hsome]
        have hwaiting : (saveCurrent (atCall t exits) pid rsp userRsp).state p = .ready := by
          rw [state_saveCurrent_of_ne _ _ _ hne, hothers p hne, hstretch.ready]
        exact ih.choose hinv.current hcur'
          (distance_pickNextReady hinv.pid_lt hp hne hwaiting hpick)

/-- While a slot stays ready, `pick_next_ready` chooses no slot twice. -/
theorem stretch_choices_nodup (hrun : SchedRun es t₀) (hp : p < 16)
    (hstretch : Stretch p t₀ choices t) : choices.Nodup := by
  obtain ⟨pid, -, -, hpair⟩ := hstretch.approaches hrun hp
  refine hpair.imp ?_
  rintro c d hlt rfl
  exact lt_irrefl _ hlt

/-- The boot process and two more. -/
def threeProcesses : ProcessTable :=
  ((processRegisterBootProcess processManagerInit 0x400000 0x8000).1.set 1
    ⟨.ready, 0x401000, frameOf 0x110010, stackTop 0x110010, 0x110010⟩).set 2
    ⟨.ready, 0x402000, frameOf 0x110010, stackTop 0x110010, 0x110010⟩

theorem schedRun_threeProcesses : ∃ es, SchedRun es threeProcesses := by
  have hboot := SchedRun.boot 0x400000 0x8000 rfl
  obtain ⟨s₁, hfirst⟩ : ∃ s₁, processCreateUser (memoryInit 0x110000 (.boot fun _ ↦ 0))
      (processRegisterBootProcess processManagerInit 0x400000 0x8000).1 0x401000 =
        some (s₁, (processRegisterBootProcess processManagerInit 0x400000 0x8000).1.set 1
          ⟨.ready, 0x401000, frameOf 0x110010, stackTop 0x110010, 0x110010⟩, .created 1) :=
    ⟨_, rfl⟩
  have hone := SchedRun.create 0x401000 _ s₁ hboot hfirst
  obtain ⟨s₂, hsecond⟩ : ∃ s₂, processCreateUser (memoryInit 0x110000 (.boot fun _ ↦ 0))
      ((processRegisterBootProcess processManagerInit 0x400000 0x8000).1.set 1
          ⟨.ready, 0x401000, frameOf 0x110010, stackTop 0x110010, 0x110010⟩) 0x402000 =
        some (s₂, threeProcesses, .created 2) := ⟨_, rfl⟩
  exact ⟨_, SchedRun.create 0x402000 _ s₂ hone hsecond⟩

/-- While the boot process waits, the other two get their turns. -/
theorem stretch_choices_nodup_two_turns :
    ∃ es t₀ t, SchedRun es t₀ ∧ Stretch 0 t₀ [2, 1] t ∧ [2, 1].Nodup := by
  obtain ⟨es, hrun⟩ := schedRun_threeProcesses
  obtain ⟨t₁, rsp₁, userRsp₁, hfirst, hready₁, hsecond⟩ : ∃ t₁ rsp₁ userRsp₁,
      processScheduleOnSyscall threeProcesses 0x1F88 0x8000 true = .resumed t₁ rsp₁ userRsp₁ ∧
      t₁.state 0 = .ready ∧ ∃ t₂ rsp₂ userRsp₂,
        processScheduleOnSyscall (atCall t₁ false) 0x2F88 0x9000 true =
          .resumed t₂ rsp₂ userRsp₂ ∧ t₂.state 0 = .ready ∧
        chosen (atCall t₁ false) 0x2F88 0x9000 true = some 2 :=
    ⟨_, _, _, rfl, rfl, _, _, _, rfl, rfl, rfl⟩
  obtain ⟨t₂, rsp₂, userRsp₂, hsecond, hready₂, hchosen⟩ := hsecond
  have hyield := Stretch.yield true 0x1F88 0x8000 rfl hfirst hready₁
  have hstretch := Stretch.call false true 0x2F88 0x9000 hyield hsecond hready₂
  rw [hchosen] at hstretch
  exact ⟨es, threeProcesses, t₂, hrun, hstretch, stretch_choices_nodup hrun (by norm_num) hstretch⟩

end ImplusKernel.ProcessManager
