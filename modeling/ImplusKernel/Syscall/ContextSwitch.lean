import ImplusKernel.Syscall.CallEffect

/-!
# Context switches

All callers push their registers at the same place, the top of the one kernel
stack, and a process that waits is remembered only by the address of its
frame.  A process that has made a call and is resumed by another one
therefore gets the registers of that other process.
-/

namespace ImplusKernel.Syscall

open ByteMemory Heap ProcessManager VirtIO

variable {hw : Hardware} {g : ℕ → Prop} {k k' : Kernel} {regs regs' : Registers} {rsp rsp' pid : ℕ}

/-- What a process is to find in its registers: nothing yet for an empty slot
or the boot process before its first call, else its first frame or the
registers of its own last call. -/
inductive Origin
  | fresh
  | created (entry : UInt64)
  | called (regs : Registers)

def Origin.registers : Origin → Option Registers
  | .fresh => none
  | .created entry => some (initialRegisters entry)
  | .called regs => some regs

variable {o : ℕ → Origin} {origin : Origin}

/-- The address of every caller's frame. -/
def kernelFrame (k : Kernel) : ℕ := entryRsp k.kernelRsp - 120

def isFree (t : ProcessTable) (i : ℕ) : Bool := t.state i = .unused ∨ t.state i = .dead

/-- What is to be remembered after a call that leads from `k` to `k'`. -/
def record (o : ℕ → Origin) (k k' : Kernel) (regs : Registers) (i : ℕ) : Origin :=
  if isFree k'.table i then .fresh
  else if i = k.table.currentPid.toNat then .called regs
  else if isFree k.table i then .created (regs .rdi)
  else o i

/-! ## Runs -/

/-- The kernel stack and the display are in place, apart from each other and
from the allocator. -/
structure Booted (hw : Hardware) (g : ℕ → Prop) (k : Kernel) : Prop where
  heap : ∃ bs, HeapInvariant k.machine.memory bs
  room : 120 ≤ entryRsp k.kernelRsp
  frame_client : ∀ x, OnFrame (kernelFrame k) x → ClientByte k.machine.memory x
  display : DisplayWithin hw.device k.gpu g
  display_client : ∀ x, g x → ClientByte k.machine.memory x
  display_apart : ∀ x, g x → ¬OnFrame (kernelFrame k) x

/-- The first frames of processes that have not run yet. -/
def Waiting (k : Kernel) (o : ℕ → Origin) (x : ℕ) : Prop :=
  ∃ i < 16, k.table.state i = .ready ∧ (∃ entry, o i = .created entry) ∧
    OnFrame (k.table.procs i).savedRsp x

/-- A call other than the two that return to an address of the heap, which
sends no data to the kernel's frame or to a frame that waits. -/
structure RequestOk (k : Kernel) (o : ℕ → Origin) (req : Request) : Prop
    extends RequestFits k req where
  not_kmalloc : SyscallNumber.ofNum req.num.toNat ≠ some .userKmalloc
  not_kfree : SyscallNumber.ofNum req.num.toNat ≠ some .userKfree
  target_frame : ∀ x, target k req x → ¬OnFrame (kernelFrame k) x
  target_waiting : ∀ x, target k req x → ¬Waiting k o x

/-- Runs from the registration of the boot process: user code stores into
memory and makes calls. -/
inductive KernelRun (hw : Hardware) (g : ℕ → Prop) : Kernel → (ℕ → Origin) → Prop
  | boot {k : Kernel} {entry userStackTop pid : ℕ} {t : ProcessTable} (hboot : Booted hw g k)
      (h : processRegisterBootProcess processManagerInit entry userStackTop =
        (t, .registered pid)) :
      KernelRun hw g { k with table := t } (fun _ ↦ .fresh)
  | store {k : Kernel} {o : ℕ → Origin} (hrun : KernelRun hw g k o) {m : Mem}
      (h : ∀ x, m x ≠ k.mem x → ClientByte k.machine.memory x ∧ ¬Waiting k o x) :
      KernelRun hw g (k.setMem m) o
  | syscall {k k' : Kernel} {o : ℕ → Origin} (hrun : KernelRun hw g k o)
      {regs regs' : Registers} {rsp rsp' : ℕ} (hok : RequestOk k o (requestOf regs))
      (h : syscallEntry hw k regs rsp = some (.resumed k' regs' rsp')) :
      KernelRun hw g k' (record o k k' regs)

/-! ## The invariant -/

/-- A frame from which a waiting process will be resumed. -/
def Resumable (g : ℕ → Prop) (k : Kernel) (frame : ℕ) : Origin → Prop
  | .fresh => False
  | .created entry => frame + 120 ≤ 2 ^ 64 ∧
      (∀ r, Saves k.mem frame r (initialRegisters entry r)) ∧
      ∀ x, OnFrame frame x →
        ClientByte k.machine.memory x ∧ ¬g x ∧ ¬OnFrame (kernelFrame k) x
  | .called _ => frame = kernelFrame k

/-- One process runs; of the others, those that never ran still have their
first frame, and all that made a call share the kernel's frame. -/
structure KernelInvariant (hw : Hardware) (g : ℕ → Prop) (k : Kernel) (o : ℕ → Origin) (pid : ℕ) :
    Prop where
  booted : Booted hw g k
  pid_lt : pid < 16
  current : k.table.currentPid = pid
  running_iff : ∀ i < 16, k.table.state i = .running ↔ i = pid
  ready : ∀ i < 16, k.table.state i = .ready → Resumable g k (k.table.procs i).savedRsp (o i)
  free : ∀ i < 16, isFree k.table i = true → o i = .fresh

theorem kernelFrame_fits (h : Booted hw g k) : kernelFrame k + 120 ≤ 2 ^ 64 := by
  have hroom := h.room
  have hlt : entryRsp k.kernelRsp < 2 ^ 64 := Nat.mod_lt _ (by norm_num)
  rw [kernelFrame]
  omega

theorem kernelFrame_congr (h : k'.kernelRsp = k.kernelRsp) : kernelFrame k' = kernelFrame k := by
  rw [kernelFrame, kernelFrame, h]

theorem Booted.keeps {w : ℕ → Prop} (h : Booted hw g k)
    (hkeeps : Keeps k.machine.memory k'.machine.memory w)
    (hdisplay : DisplayWithin hw.device k'.gpu g) (hrsp : k'.kernelRsp = k.kernelRsp) :
    Booted hw g k' := by
  have hframe := kernelFrame_congr hrsp
  refine ⟨hkeeps.heap, hrsp ▸ h.room, ?_, hdisplay, ?_, ?_⟩
  · intro x hx
    exact hkeeps.client x (h.frame_client x (hframe ▸ hx))
  · intro x hx
    exact hkeeps.client x (h.display_client x hx)
  · rw [hframe]
    exact h.display_apart

theorem Resumable.keeps {frame : ℕ} {w : ℕ → Prop} (h : Resumable g k frame origin)
    (hkeeps : Keeps k.machine.memory k'.machine.memory w) (hrsp : k'.kernelRsp = k.kernelRsp)
    (hw : ∀ entry, origin = .created entry → ∀ x, OnFrame frame x → ¬w x) :
    Resumable g k' frame origin := by
  have hframe := kernelFrame_congr hrsp
  cases origin with
  | fresh => exact h
  | called regs =>
      rw [Resumable, hframe]
      exact h
  | created entry =>
      obtain ⟨hfit, hsaves, happart⟩ := h
      rw [Resumable, hframe]
      refine ⟨hfit, fun r ↦ (hsaves r).congr fun x hlow hhigh ↦ ?_, fun x hx ↦ ?_⟩
      · have hon := saves_onFrame r hlow hhigh
        exact hkeeps.kept x (happart x hon).1 (hw entry rfl x hon)
      · exact ⟨hkeeps.client x (happart x hx).1, (happart x hx).2⟩

/-! ## Leaving the kernel -/

/-- The current process has in all registers but RAX what it is to find
there. -/
def Restored (o : ℕ → Origin) (k : Kernel) (regs : Registers) : Prop :=
  ∃ expected, (o k.table.currentPid.toNat).registers = some expected ∧
    ∀ r, r ≠ .rax → regs r = expected r

/-- The state in which the dispatcher asks the scheduler: the slot of the
caller is about to be saved, all others are as they will be left. -/
structure MidCall (hw : Hardware) (g : ℕ → Prop) (k k₂ : Kernel) (o : ℕ → Origin)
    (regs : Registers) (pid : ℕ) : Prop where
  booted : Booted hw g k₂
  current : k₂.table.currentPid = pid
  saves : ∀ r, r ≠ .rax → Saves k₂.mem (kernelFrame k₂) r (regs r)
  idle : ∀ i < 16, i ≠ pid → k₂.table.state i ≠ .running
  ready : ∀ i < 16, i ≠ pid → k₂.table.state i = .ready →
    Resumable g k₂ (k₂.table.procs i).savedRsp
      (if isFree k.table i then .created (regs .rdi) else o i)

theorem isFree_of_ready {t : ProcessTable} {i : ℕ} (h : t.state i = .ready ∨ t.state i = .running) :
    isFree t i = false := by
  rcases h with h | h <;> simp [isFree, h]

theorem origin_of_ready {i : ℕ} (created : Origin) (h : k.table.state i = .ready) :
    (if isFree k.table i then created else o i) = o i := by
  rw [isFree_of_ready (Or.inl h), if_neg (by simp)]

/-- What is recorded for a process that lives after the call. -/
theorem record_live (o : ℕ → Origin) (regs : Registers) {i : ℕ} (hcur : k.table.currentPid = pid)
    (hlive : k'.table.state i = .ready ∨ k'.table.state i = .running) :
    record o k k' regs i = if i = pid then .called regs
      else if isFree k.table i then .created (regs .rdi) else o i := by
  simp [record, isFree_of_ready hlive, hcur]

section resume

variable {k₂ : Kernel} {t₁ : ProcessTable} {next userRsp : ℕ} {texts : List String}

/-- The kernel that resumes `next` with the saved table `t₁`. -/
def resumed (k₂ : Kernel) (t₁ : ProcessTable) (next userRsp : ℕ) (texts : List String) : Kernel :=
  { k₂.print texts with
    table := { t₁.setState next .running with currentPid := next }
    userRsp := userRsp }

theorem resumed_state_self (k₂ : Kernel) (t₁ : ProcessTable) (next userRsp : ℕ)
    (texts : List String) : (resumed k₂ t₁ next userRsp texts).table.state next = .running :=
  state_setState_self t₁ next .running

theorem resumed_procs_of_ne {i : ℕ} (hi : i ≠ next) :
    (resumed k₂ t₁ next userRsp texts).table.procs i = t₁.procs i :=
  procs_setState_of_ne t₁ .running hi

theorem resumed_state_of_ne {i : ℕ} (hi : i ≠ next) :
    (resumed k₂ t₁ next userRsp texts).table.state i = t₁.state i :=
  congrArg Process.state (resumed_procs_of_ne hi)

variable (h : MidCall hw g k k₂ o regs pid)
  (hothers : ∀ i, i ≠ pid → t₁.procs i = k₂.table.procs i)
  (hself : t₁.state pid = .dead ∨
    t₁.state pid = .ready ∧ (t₁.procs pid).savedRsp = kernelFrame k₂)
include h hothers hself

theorem MidCall.invariant (hcur : k.table.currentPid = pid) (hnext : next < 16) :
    KernelInvariant hw g (resumed k₂ t₁ next userRsp texts)
      (record o k (resumed k₂ t₁ next userRsp texts) regs) next := by
  have hb := h.booted
  refine ⟨⟨hb.heap, hb.room, hb.frame_client, hb.display, hb.display_client, hb.display_apart⟩,
    hnext, rfl, ?_, ?_, ?_⟩
  · intro i hi
    by_cases hin : i = next
    · rw [hin]
      exact iff_of_true (resumed_state_self ..) rfl
    · rw [resumed_state_of_ne hin]
      refine iff_of_false (fun hrun ↦ ?_) hin
      by_cases hip : i = pid
      · rw [hip] at hrun
        rcases hself with hself | ⟨hself, -⟩ <;> simp [hself] at hrun
      · rw [ProcessTable.state, hothers i hip] at hrun
        exact h.idle i hi hip hrun
  · intro i hi hready
    have hin : i ≠ next := by
      rintro rfl
      simp [resumed_state_self] at hready
    rw [record_live o regs hcur (Or.inl hready), resumed_procs_of_ne hin]
    rw [resumed_state_of_ne hin] at hready
    by_cases hip : i = pid
    · rw [if_pos hip, hip]
      rw [hip] at hready
      rcases hself with hself | ⟨-, hrsp⟩
      · simp [hself] at hready
      · exact hrsp
    · rw [if_neg hip, hothers i hip]
      rw [ProcessTable.state, hothers i hip] at hready
      exact h.ready i hi hip hready
  · intro i _ hfree
    rw [record, if_pos hfree]

/-- The registers popped are those of the caller, unless the process resumed
has not run before. -/
theorem MidCall.restored_iff (hcur : k.table.currentPid = pid)
    (hfree : ∀ i < 16, isFree k.table i = true → o i = .fresh) (hnext : next < 16)
    (hready : t₁.state next = .ready) :
    Restored (record o k (resumed k₂ t₁ next userRsp texts) regs)
        (resumed k₂ t₁ next userRsp texts) (popFrame k₂.mem (t₁.procs next).savedRsp) ↔
      next = pid ∨ ∀ last, o next = .called last → ∀ r, r ≠ .rax → last r = regs r := by
  have hfit := kernelFrame_fits h.booted
  have hpopped : ∀ r, r ≠ .rax → popFrame k₂.mem (kernelFrame k₂) r = regs r :=
    fun r hr ↦ (h.saves r hr).popFrame_eq hfit
  have hrecord := record_live o regs hcur (Or.inr (resumed_state_self k₂ t₁ next userRsp texts))
  have hcurrent : (resumed k₂ t₁ next userRsp texts).table.currentPid.toNat = next := rfl
  rw [Restored, hcurrent, hrecord]
  by_cases hnp : next = pid
  · rw [if_pos hnp]
    refine iff_of_true ⟨regs, rfl, fun r hr ↦ ?_⟩ (Or.inl hnp)
    rw [hnp] at hready ⊢
    rcases hself with hself | ⟨-, hrsp⟩
    · simp [hself] at hready
    · rw [hrsp, hpopped r hr]
  · rw [if_neg hnp]
    have hresumable := h.ready next hnext hnp
      (by rwa [ProcessTable.state, hothers next hnp] at hready)
    rw [hothers next hnp]
    cases horigin : (if isFree k.table next then Origin.created (regs .rdi) else o next) with
    | fresh =>
        rw [horigin] at hresumable
        exact hresumable.elim
    | created entry =>
        rw [horigin] at hresumable
        obtain ⟨hfits, hsaves, -⟩ := hresumable
        refine iff_of_true ⟨_, rfl, fun r _ ↦ (hsaves r).popFrame_eq hfits⟩ (Or.inr ?_)
        intro last hlast
        by_cases hf : isFree k.table next = true
        · rw [hfree next hnext hf] at hlast
          cases hlast
        · rw [if_neg hf, hlast] at horigin
          cases horigin
    | called last =>
        rw [horigin] at hresumable
        have hlast : o next = .called last := by
          by_cases hf : isFree k.table next = true
          · rw [if_pos hf] at horigin
            cases horigin
          · rwa [if_neg hf] at horigin
        have hrsp : (k₂.table.procs next).savedRsp = kernelFrame k₂ := hresumable
        rw [hrsp]
        constructor
        · rintro ⟨expected, hexpected, hregs⟩
          obtain rfl := Option.some.inj hexpected
          right
          intro last' hlast' r hr
          rw [hlast] at hlast'
          obtain rfl := Origin.called.inj hlast'
          rw [← hregs r hr, hpopped r hr]
        · rintro (heq | hsame)
          · exact absurd heq hnp
          · refine ⟨last, rfl, fun r hr ↦ ?_⟩
            rw [hpopped r hr, hsame last hlast r hr]

end resume

section leave

variable {k₂ : Kernel} {stored : Option ℕ} {sw : Bool} {r : DispatchReturn}

/-- The state in which the dispatcher leaves, and what the stub then pops. -/
def Leaves (hw : Hardware) (g : ℕ → Prop) (k : Kernel) (o : ℕ → Origin) (regs : Registers)
    (pid next : ℕ) (r : DispatchReturn) : Prop :=
  KernelInvariant hw g r.kernel (record o k r.kernel regs) next ∧
    (Restored (record o k r.kernel regs) r.kernel (popFrame r.kernel.mem r.rsp) ↔
      next = pid ∨ ∀ last, o next = .called last → ∀ r, r ≠ .rax → last r = regs r)

theorem MidCall.leaves_live (h : MidCall hw g k k₂ o regs pid) (hk : KernelInvariant hw g k o pid)
    (hlive : k₂.table.state pid = .running)
    (hr : reschedule k₂ (kernelFrame k₂) stored sw = .returned r) :
    ∃ next, runsNext k₂.table pid sw = some next ∧ Leaves hw g k o regs pid next r := by
  obtain ⟨next, hnext, hrunnable, hchoice, hschedule⟩ :=
    schedule_live hk.pid_lt h.current (Or.inr hlive) (kernelFrame k₂) k₂.userRsp sw
  have hsave : saveCurrent k₂.table pid (kernelFrame k₂) k₂.userRsp = _ :=
    saveCurrent_of_runnable (Or.inr hlive)
  rw [reschedule_of_resumed stored hschedule] at hr
  obtain rfl := DispatchResult.returned.inj hr
  have hothers : ∀ i, i ≠ pid →
      (saveCurrent k₂.table pid (kernelFrame k₂) k₂.userRsp).procs i = k₂.table.procs i := by
    intro i hi
    rw [hsave, procs_set_of_ne k₂.table _ hi]
  have hself : (saveCurrent k₂.table pid (kernelFrame k₂) k₂.userRsp).state pid = .ready ∧
      ((saveCurrent k₂.table pid (kernelFrame k₂) k₂.userRsp).procs pid).savedRsp =
        kernelFrame k₂ := by
    simp [hsave, ProcessTable.state]
  have hready : (saveCurrent k₂.table pid (kernelFrame k₂) k₂.userRsp).state next = .ready := by
    by_cases hne : next = pid
    · rw [hne]
      exact hself.1
    · rw [ProcessTable.state, hothers next hne]
      exact hrunnable.resolve_right (h.idle next hnext hne)
  exact ⟨next, hchoice, h.invariant hothers (Or.inr hself) hk.current hnext,
    h.restored_iff hothers (Or.inr hself) hk.current hk.free hnext hready⟩

theorem MidCall.leaves_dead (h : MidCall hw g k k₂ o regs pid) (hk : KernelInvariant hw g k o pid)
    (hdead : k₂.table.state pid = .dead)
    (hr : reschedule k₂ (kernelFrame k₂) stored sw = .returned r) :
    ∃ next, nextAfter k₂.table pid false = some next ∧ Leaves hw g k o regs pid next r := by
  rcases schedule_dead hk.pid_lt h.current hdead (kernelFrame k₂) k₂.userRsp sw with
    ⟨next, hnext, hrunnable, hchoice, hschedule⟩ | ⟨-, hschedule⟩
  swap
  · exact absurd hr (reschedule_of_halted hschedule)
  rw [reschedule_of_resumed stored hschedule] at hr
  obtain rfl := DispatchResult.returned.inj hr
  have hothers : ∀ i, i ≠ pid → k₂.table.procs i = k₂.table.procs i := fun _ _ ↦ rfl
  have hne : next ≠ pid := by
    rintro rfl
    simp [ProcessTable.runnable, hdead] at hrunnable
  have hready : k₂.table.state next = .ready :=
    hrunnable.resolve_right (h.idle next hnext hne)
  exact ⟨next, hchoice, h.invariant hothers (Or.inl hdead) hk.current hnext,
    h.restored_iff hothers (Or.inl hdead) hk.current hk.free hnext hready⟩

end leave

/-! ## Entering the kernel -/

/-- The kernel after the pushes of the stub. -/
def entered (k : Kernel) (regs : Registers) (rsp : ℕ) : Kernel :=
  { k.setMem (pushFrame k.mem (entryRsp k.kernelRsp) regs).1 with userRsp := rsp }

theorem Booted.pushFrame_spec (h : Booted hw g k) (regs : Registers) (rsp : ℕ) :
    (pushFrame k.mem (entryRsp k.kernelRsp) regs).2 = kernelFrame k ∧
      (∀ x, ¬OnFrame (kernelFrame k) x → (entered k regs rsp).mem x = k.mem x) ∧
      ∀ r, Saves (entered k regs rsp).mem (kernelFrame k) r (regs r) :=
  Syscall.pushFrame_spec k.mem regs (Nat.mod_lt _ (by norm_num)) h.room

theorem Booted.keeps_entered (h : Booted hw g k) (regs : Registers) (rsp : ℕ) :
    Keeps k.machine.memory (entered k regs rsp).machine.memory (OnFrame (kernelFrame k)) := by
  obtain ⟨bs, hheap⟩ := h.heap
  exact hheap.keeps_store h.frame_client (h.pushFrame_spec regs rsp).2.1

theorem Booted.entered (h : Booted hw g k) (regs : Registers) (rsp : ℕ) :
    Booted hw g (entered k regs rsp) :=
  h.keeps (h.keeps_entered regs rsp) h.display rfl

theorem syscallEntry_eq (h : Booted hw g k) (regs : Registers) (rsp : ℕ) :
    syscallEntry hw k regs rsp =
      match syscallDispatch hw (entered k regs rsp) (kernelFrame k) (requestOf regs) with
      | none => none
      | some (.halted k) => some (.halted k)
      | some (.returned r) =>
          some (.resumed r.kernel (popFrame r.kernel.mem r.rsp) r.kernel.userRsp) := by
  obtain ⟨hrsp, -, hsaves⟩ := h.pushFrame_spec regs rsp
  have hreq := requestAt_eq hsaves (kernelFrame_fits h)
  simp only [syscallEntry, hrsp]
  rw [← hreq]
  rfl

theorem slotFor_entered (h : Booted hw g k) (entry : UInt64) :
    slotFor (entered k regs rsp) entry = slotFor k entry := by
  obtain ⟨bs, hheap⟩ := h.heap
  have hheap' : HeapInvariant (entered k regs rsp).machine.memory bs :=
    hheap.clientStore h.frame_client (h.pushFrame_spec regs rsp).2.1
  have hroom : stackAvailable (entered k regs rsp).machine.memory =
      stackAvailable k.machine.memory := by
    rw [Bool.eq_iff_iff, stackAvailable_iff hheap, stackAvailable_iff hheap']
  rw [slotFor, slotFor, hroom]
  rfl

theorem nextRunner_entered (h : Booted hw g k) (req : Request) :
    nextRunner (entered k regs rsp) req = nextRunner k req := by
  simp only [nextRunner, slotFor_entered h]
  rfl

theorem RequestFits.entered {req : Request} (hfits : RequestFits k req)
    (hclient : ∀ x, ClientByte k.machine.memory x →
      ClientByte (entered k regs rsp).machine.memory x) :
    RequestFits (entered k regs rsp) req where
  copy := fun hnum ↦
    ⟨(hfits.copy hnum).fits, fun x hlow hhigh ↦ hclient x ((hfits.copy hnum).owned x hlow hhigh)⟩
  read := fun hnum hbad ↦
    ⟨(hfits.read hnum hbad).fits,
      fun x hlow hhigh ↦ hclient x ((hfits.read hnum hbad).owned x hlow hhigh)⟩
  size := hfits.size

/-! ## One call -/

/-- A process that waited before the call can still be resumed. -/
theorem KernelInvariant.resumable {k₂ : Kernel} {w : ℕ → Prop} {i : ℕ}
    (h : KernelInvariant hw g k o pid)
    (hkeeps : Keeps k.machine.memory k₂.machine.memory w) (hrsp : k₂.kernelRsp = k.kernelRsp)
    (hw : ∀ x, w x → OnFrame (kernelFrame k) x ∨ g x ∨ ¬Waiting k o x) (hi : i < 16)
    (hready : k.table.state i = .ready) :
    Resumable g k₂ (k.table.procs i).savedRsp (o i) := by
  have hresumable := h.ready i hi hready
  refine hresumable.keeps hkeeps hrsp fun entry horigin x hon hwx ↦ ?_
  rw [horigin] at hresumable
  obtain ⟨-, hdisplay, hframe⟩ := hresumable.2.2 x hon
  rcases hw x hwx with hx | hx | hx
  · exact hframe hx
  · exact hdisplay hx
  · exact hx ⟨i, hi, hready, ⟨entry, horigin⟩, hon⟩

/-- The kernel after the result has been stored in the caller's frame. -/
def answered (k k₂ : Kernel) (v : ℕ) : Kernel :=
  k₂.setMem (setSyscallResult k₂.mem (kernelFrame k) v)

theorem kernelFrame_answered {k₂ : Kernel} (v : ℕ) (h : k₂.kernelRsp = k.kernelRsp) :
    kernelFrame (answered k k₂ v) = kernelFrame k :=
  kernelFrame_congr h

section value

variable {k₂ : Kernel} {v : ℕ} {sw : Bool} (h : KernelInvariant hw g k o pid)
  (heffect : CallEffect hw g (entered k regs rsp) k₂ (requestOf regs) sw)
include h heffect

/-- The result changes the first word of the frame. -/
theorem KernelInvariant.keeps_answered : Keeps k₂.machine.memory (answered k k₂ v).machine.memory
    (fun x ↦ kernelFrame k ≤ x ∧ x < kernelFrame k + 8) := by
  have hb := h.booted
  obtain ⟨bs, hheap⟩ := heffect.keeps.heap
  refine hheap.keeps_store (fun x hx ↦ ?_) fun x hx ↦ writeLE_outside _ ?_
  · exact heffect.keeps.client x ((hb.keeps_entered regs rsp).client x
      (hb.frame_client x ⟨hx.1, by omega⟩))
  · simp only [syscallFrameRax]
    omega

/-- What the whole call may have changed. -/
theorem KernelInvariant.keeps_value : Keeps k.machine.memory (answered k k₂ v).machine.memory
    (fun x ↦ OnFrame (kernelFrame k) x ∨ g x ∨ target k (requestOf regs) x) := by
  have hpushed := h.booted.keeps_entered regs rsp
  refine ((hpushed.mono fun _ ↦ Or.inl).trans (heffect.keeps.mono fun _ ↦ Or.inr)).trans
    ((h.keeps_answered heffect).mono fun x hx ↦ Or.inl ⟨hx.1, by omega⟩)

/-- The frame of the caller goes through the call unharmed. -/
theorem KernelInvariant.saves_value (hok : RequestOk k o (requestOf regs)) {r : Register}
    (hr : r ≠ .rax) : Saves (answered k k₂ v).mem (kernelFrame k) r (regs r) := by
  have hb := h.booted
  have hpushed := hb.keeps_entered regs rsp
  refine ((hb.pushFrame_spec regs rsp).2.2 r).congr fun x hlow hhigh ↦ ?_
  have hon := saves_onFrame r hlow hhigh
  have hindex := r.index_pos hr
  have hclient := hpushed.client x (hb.frame_client x hon)
  have hresult := (h.keeps_answered heffect (v := v)).kept x (heffect.keeps.client x hclient)
    (by omega)
  refine hresult.trans (heffect.keeps.kept x hclient ?_)
  rintro (hx | hx)
  · exact hb.display_apart x hx hon
  · exact hok.target_frame x hx hon

/-- A process created by the call can be resumed. -/
theorem KernelInvariant.resumable_new {slot frame : ℕ}
    (hnew : NewProcess (entered k regs rsp) k₂ (regs .rdi) slot frame) :
    Resumable g (answered k k₂ v) frame (.created (regs .rdi)) := by
  have hb := h.booted
  have hb₁ := hb.entered regs rsp
  have hstore := h.keeps_answered heffect (v := v)
  have hframe : ∀ x, OnFrame frame x → ¬OnFrame (kernelFrame k) x := fun x hx hon ↦
    hnew.fresh x hx (hb₁.frame_client x hon)
  refine ⟨hnew.fits, fun r ↦ (hnew.saves r).congr fun x hlow hhigh ↦ ?_, fun x hx ↦ ⟨?_, ?_, ?_⟩⟩
  · have hon := saves_onFrame r hlow hhigh
    refine hstore.kept x (hnew.client x hon) fun hx ↦ hframe x hon ⟨hx.1, by omega⟩
  · exact hstore.client x (hnew.client x hx)
  · exact fun hgx ↦ hnew.fresh x hx (hb₁.display_client x hgx)
  · rw [kernelFrame_answered (k := k) v heffect.kernelRsp]
    exact hframe x hx

/-- Every slot but the caller's, as the scheduler finds it. -/
theorem KernelInvariant.others_value (hok : RequestOk k o (requestOf regs)) {i : ℕ} (hi : i < 16)
    (hip : i ≠ pid) :
    k₂.table.state i ≠ .running ∧
      (k₂.table.state i = .ready → Resumable g (answered k k₂ v) (k₂.table.procs i).savedRsp
        (if isFree k.table i then .created (regs .rdi) else o i)) := by
  have hidle : k.table.state i ≠ .running := fun hrun ↦ hip ((h.running_iff i hi).mp hrun)
  have hold : k.table.state i = .ready → Resumable g (answered k k₂ v) (k.table.procs i).savedRsp
      (if isFree k.table i then .created (regs .rdi) else o i) := by
    intro hready
    rw [origin_of_ready _ hready]
    refine h.resumable (h.keeps_value heffect) heffect.kernelRsp ?_ hi hready
    rintro x (hx | hx | hx)
    · exact Or.inl hx
    · exact Or.inr (Or.inl hx)
    · exact Or.inr (Or.inr (hok.target_waiting x hx))
  rcases heffect.table with htable | ⟨slot, frame, hnew⟩
  · have htable : k₂.table = k.table := htable
    rw [htable]
    exact ⟨hidle, hold⟩
  · obtain ⟨userRsp, stack, htable⟩ := hnew.table
    have htable : k₂.table = k.table.set slot ⟨.ready, _, frame, userRsp, stack⟩ := htable
    by_cases hslot : i = slot
    · have hfree : isFree k.table i = true := by
        rw [isFree, hslot, decide_eq_true_iff]
        exact hnew.free
      rw [htable, hslot, procs_set_self, ProcessTable.state, procs_set_self, ← hslot, if_pos hfree]
      exact ⟨by simp, fun _ ↦ h.resumable_new heffect hnew⟩
    · rw [htable, ProcessTable.state, procs_set_of_ne k.table _ hslot]
      exact ⟨hidle, hold⟩

theorem KernelInvariant.midCall_value (hok : RequestOk k o (requestOf regs))
    (hcur : k₂.table.currentPid = pid) : MidCall hw g k (answered k k₂ v) o regs pid where
  booted := h.booted.keeps (h.keeps_value heffect) heffect.display heffect.kernelRsp
  current := hcur
  saves := by
    rw [kernelFrame_answered (k := k) v heffect.kernelRsp]
    exact fun r hr ↦ h.saves_value heffect hok hr
  idle := fun i hi hip ↦ (h.others_value heffect (v := v) hok hi hip).1
  ready := fun i hi hip ↦ (h.others_value heffect hok hi hip).2

end value

theorem nextAfter_dead {t : ProcessTable} (h : t.state pid ≠ .ready) :
    nextAfter (t.setState pid .dead) pid false = nextAfter t pid false := by
  have hsame : ∀ i, (t.setState pid .dead).state i = .ready ↔ t.state i = .ready := by
    intro i
    by_cases hi : i = pid
    · rw [hi, state_setState_self]
      exact iff_of_false (by simp) h
    · rw [state_setState_of_ne t _ hi]
  simp only [nextAfter, hsame]

/-- An exit leaves memory as the pushes have left it. -/
theorem KernelInvariant.midCall_exit (h : KernelInvariant hw g k o pid) :
    MidCall hw g k
      { entered k regs rsp with table := (entered k regs rsp).table.setState pid .dead } o regs
      pid := by
  have hb₁ := h.booted.entered regs rsp
  have hstate : ∀ i, i ≠ pid →
      ((entered k regs rsp).table.setState pid .dead).procs i = k.table.procs i :=
    fun i hi ↦ procs_setState_of_ne _ _ hi
  refine ⟨⟨hb₁.heap, hb₁.room, hb₁.frame_client, hb₁.display, hb₁.display_client,
    hb₁.display_apart⟩, h.current, fun r _ ↦ (h.booted.pushFrame_spec regs rsp).2.2 r, ?_, ?_⟩
  · intro i hi hip
    rw [ProcessTable.state, hstate i hip]
    exact fun hrun ↦ hip ((h.running_iff i hi).mp hrun)
  · intro i hi hip hready
    rw [ProcessTable.state, hstate i hip] at hready
    rw [hstate i hip, origin_of_ready _ hready]
    exact h.resumable (h.booted.keeps_entered regs rsp) rfl (fun _ ↦ Or.inl) hi hready

/-- A call that resumes somebody keeps the invariant, and restores registers
unless it resumes another process that has made a call with other ones. -/
theorem KernelInvariant.syscall (h : KernelInvariant hw g k o pid)
    (hok : RequestOk k o (requestOf regs))
    (hcall : syscallEntry hw k regs rsp = some (.resumed k' regs' rsp')) :
    ∃ next, nextRunner k (requestOf regs) = some next ∧
      KernelInvariant hw g k' (record o k k' regs) next ∧
      (Restored (record o k k' regs) k' regs' ↔
        next = pid ∨ ∀ last, o next = .called last → ∀ r, r ≠ .rax → last r = regs r) := by
  have hb := h.booted
  have hrunning := (h.running_iff pid h.pid_lt).mpr rfl
  obtain ⟨r, hdispatch, rfl, rfl⟩ : ∃ r,
      syscallDispatch hw (entered k regs rsp) (kernelFrame k) (requestOf regs) =
        some (.returned r) ∧ r.kernel = k' ∧ popFrame r.kernel.mem r.rsp = regs' := by
    rw [syscallEntry_eq hb] at hcall
    split at hcall
    · cases hcall
    · cases hcall
    · next r heq =>
        simp only [Option.some.injEq, EntryResult.resumed.injEq] at hcall
        exact ⟨r, heq, hcall.1, hcall.2.1⟩
  unfold syscallDispatch at hdispatch
  cases hhandle : handle hw (entered k regs rsp) (requestOf regs) with
  | none => simp [hhandle] at hdispatch
  | some handled =>
      cases handled with
      | direct k₂ v =>
          rcases handle_direct hhandle with hnum | hnum
          · exact absurd hnum hok.not_kmalloc
          · exact absurd hnum hok.not_kfree
      | exited k₂ =>
          obtain ⟨hnum, rfl⟩ := handle_exited hhandle
          have htable : processExitCurrent (entered k regs rsp).table =
              (entered k regs rsp).table.setState pid .dead :=
            processExitCurrent_eq h.pid_lt h.current
          simp only [hhandle, htable, Option.some.injEq] at hdispatch
          obtain ⟨next, hchoice, hleaves⟩ := h.midCall_exit.leaves_dead h
            (state_setState_self _ pid .dead) hdispatch
          refine ⟨next, ?_, hleaves⟩
          have hnotReady : k.table.state pid ≠ .ready := by simp [hrunning]
          rw [nextRunner, hnum, h.current, ← hchoice]
          exact (nextAfter_dead hnotReady).symm
      | value k₂ v sw =>
          have hb₁ := hb.entered regs rsp
          obtain ⟨bs, hheap⟩ := hb₁.heap
          have heffect := handle_callEffect hheap hb₁.display hb₁.display_client
            (hok.toRequestFits.entered (hb.keeps_entered regs rsp).client) hhandle
          obtain ⟨-, ⟨hcur, hkept⟩, -⟩ := handle_value hhandle
          have hmid := h.midCall_value heffect (v := v) hok (hcur.trans h.current)
          simp only [hhandle, Option.some.injEq] at hdispatch
          have hr : reschedule (answered k k₂ v) (kernelFrame (answered k k₂ v)) (some v) sw =
              .returned r := by
            rw [kernelFrame_answered (k := k) v heffect.kernelRsp]
            exact hdispatch
          obtain ⟨next, hchoice, hleaves⟩ := hmid.leaves_live h (hkept pid hrunning) hr
          refine ⟨next, ?_, hleaves⟩
          have hpid : (entered k regs rsp).table.currentPid = pid := h.current
          rw [← nextRunner_entered hb, ← heffect.next, hpid]
          exact hchoice

/-! ## All runs -/

theorem KernelInvariant.boot {entry userStackTop : ℕ} {t : ProcessTable}
    (hboot : Booted hw g k)
    (h : processRegisterBootProcess processManagerInit entry userStackTop = (t, .registered pid)) :
    KernelInvariant hw g { k with table := t } (fun _ ↦ .fresh) pid := by
  have hslot : findFreeSlot processManagerInit = some 0 := rfl
  rw [processRegisterBootProcess, hslot] at h
  obtain ⟨rfl, hpid⟩ := Prod.mk.inj h
  obtain rfl := RegisterResult.registered.inj hpid
  have hothers : ∀ i, i ≠ 0 → (processManagerInit.set 0
      ⟨.running, entry, userStackTop, userStackTop, 0⟩).state i = .unused :=
    fun i hi ↦ congrArg Process.state (procs_set_of_ne _ _ hi)
  refine ⟨⟨hboot.heap, hboot.room, hboot.frame_client, hboot.display, hboot.display_client,
    hboot.display_apart⟩, by norm_num, rfl, ?_, ?_, fun _ _ _ ↦ rfl⟩
  · intro i _
    by_cases hi : i = 0
    · rw [hi]
      exact iff_of_true rfl rfl
    · refine iff_of_false (fun hrun ↦ ?_) hi
      cases (hothers i hi).symm.trans hrun
  · intro i _ hready
    by_cases hi : i = 0
    · rw [hi] at hready
      cases hready
    · cases (hothers i hi).symm.trans hready

theorem KernelInvariant.store (h : KernelInvariant hw g k o pid) {m : Mem}
    (hm : ∀ x, m x ≠ k.mem x → ClientByte k.machine.memory x ∧ ¬Waiting k o x) :
    KernelInvariant hw g (k.setMem m) o pid := by
  obtain ⟨bs, hheap⟩ := h.booted.heap
  have hkeeps : Keeps k.machine.memory (k.setMem m).machine.memory (fun x ↦ m x ≠ k.mem x) :=
    hheap.keeps_store (fun x hx ↦ (hm x hx).1) fun x hx ↦ not_not.mp hx
  refine ⟨h.booted.keeps hkeeps h.booted.display rfl, h.pid_lt, h.current, h.running_iff,
    fun i hi hready ↦ ?_, h.free⟩
  exact h.resumable hkeeps rfl (fun x hx ↦ Or.inr (Or.inr (hm x hx).2)) hi hready

theorem KernelRun.invariant (hrun : KernelRun hw g k o) :
    ∃ pid, KernelInvariant hw g k o pid := by
  induction hrun with
  | boot hboot h => exact ⟨_, .boot hboot h⟩
  | store _ h ih =>
      obtain ⟨pid, ih⟩ := ih
      exact ⟨pid, ih.store h⟩
  | syscall _ hok h ih =>
      obtain ⟨pid, ih⟩ := ih
      obtain ⟨next, -, hinv, -⟩ := ih.syscall hok h
      exact ⟨next, hinv⟩

/-- A call restores the registers of the process it resumes exactly when that
process is the caller, has not made a call yet, or made its last call with
the registers the caller has now. -/
theorem syscallEntry_restores_iff (hrun : KernelRun hw g k o)
    (hok : RequestOk k o (requestOf regs))
    (hcall : syscallEntry hw k regs rsp = some (.resumed k' regs' rsp')) :
    Restored (record o k k' regs) k' regs' ↔
      ∃ next, nextRunner k (requestOf regs) = some next ∧
        (next = k.table.currentPid.toNat ∨
          ∀ last, o next = .called last → ∀ r, r ≠ .rax → last r = regs r) := by
  obtain ⟨pid, hinv⟩ := hrun.invariant
  obtain ⟨next, hnext, -, hiff⟩ := hinv.syscall hok hcall
  rw [hiff, hnext, hinv.current, Int.toNat_natCast]
  simp

/-! ## A boot process and its child -/

/-- The queue and the command structures of the sample machine. -/
def sampleDisplay (x : ℕ) : Prop := x < 32 ∨ 0x108000 ≤ x ∧ x < 0x108120

theorem sampleDisplay_within :
    DisplayWithin sampleHardware.device bootKernel.gpu sampleDisplay where
  pixels_fit := by decide
  pixels := fun x _ hx ↦ Or.inl (hx.trans (by decide))
  desc := fun x _ hx ↦ Or.inl hx
  avail := fun x _ hx ↦ Or.inl (hx.trans (by decide))
  cmd_fit := by decide
  cmd := fun x hlow hhigh ↦ Or.inr ⟨hlow, hhigh.trans (by decide)⟩
  resp_fit := by decide
  resp := fun x hlow hhigh ↦ Or.inr ⟨le_trans (by decide) hlow, hhigh.trans (by decide)⟩
  serve := fun _ _ _ _ ↦ rfl

theorem bootKernel_booted : Booted sampleHardware sampleDisplay bootKernel := by
  have hvalid : KernelEndValid 0x110000 := ⟨by norm_num, by norm_num⟩
  have hstart : bootKernel.machine.memory.heapStart = 0x110000 := by decide +kernel
  have hframe : kernelFrame bootKernel = 0x108F80 := by decide +kernel
  have hbelow : ∀ x, x < 0x110000 → ClientByte bootKernel.machine.memory x :=
    fun x hx ↦ Or.inl (by rwa [hstart])
  refine ⟨⟨_, heapInvariant_memoryInit hvalid _⟩, by decide +kernel, ?_, sampleDisplay_within,
    ?_, ?_⟩
  · rintro x ⟨-, hx⟩
    rw [hframe] at hx
    exact hbelow x (by omega)
  · rintro x (hx | hx)
    · exact hbelow x (by omega)
    · exact hbelow x (by omega)
  · rintro x hx ⟨hlow, -⟩
    rw [hframe] at hlow
    rcases hx with hx | hx
    · omega
    · omega

/-- The registers of a call with one argument that returns to `rip`. -/
def callWith (number argument rip : UInt64) : Registers
  | .rax => number
  | .rdi => argument
  | .rcx => rip
  | _ => 0

/-- Where a call on the sample machine leads. -/
def goOn (k : Kernel) (regs : Registers) : Kernel × Registers × ℕ :=
  match syscallEntry sampleHardware k regs 0x7F00 with
  | some (.resumed k' regs' rsp') => (k', regs', rsp')
  | _ => (k, regs, 0)

def returns (k : Kernel) (regs : Registers) : Bool :=
  match syscallEntry sampleHardware k regs 0x7F00 with
  | some (.resumed _ _ _) => true
  | _ => false

theorem goOn_eq (h : returns k regs = true) :
    syscallEntry sampleHardware k regs 0x7F00 =
      some (.resumed (goOn k regs).1 (goOn k regs).2.1 (goOn k regs).2.2) := by
  unfold returns at h
  unfold goOn
  split at h
  · next heq => rw [heq]
  · cases h

/-- Calls that name no memory of the caller. -/
theorem requestOk_of_quiet {req : Request} {n : SyscallNumber} (o : ℕ → Origin)
    (hquiet : n ∈ [.serialPutchar, .processCreate, .processYield])
    (h : SyscallNumber.ofNum req.num.toNat = some n) : RequestOk k o req := by
  have hothers : n ≠ .userMemcpy ∧ n ≠ .fileRead ∧ n ≠ .fileWrite ∧
      n ≠ .userKmalloc ∧ n ≠ .userKfree := by
    simp only [List.mem_cons, List.not_mem_nil, or_false] at hquiet
    rcases hquiet with rfl | rfl | rfl <;> decide
  have htarget : ∀ x, ¬target k req x := by
    intro x
    rw [target, h]
    split
    · next heq => exact absurd (Option.some.inj heq) hothers.1
    · next heq => exact absurd (Option.some.inj heq) hothers.2.1
    · exact id
  refine ⟨⟨?_, ?_, ?_⟩, ?_, ?_, fun x hx ↦ absurd hx (htarget x),
    fun x hx ↦ absurd hx (htarget x)⟩
  all_goals simp [h, hothers]

theorem requestOk_yield {req : Request} (o : ℕ → Origin) (h : req.num = 4) :
    RequestOk k o req :=
  requestOk_of_quiet o (n := .processYield) (by decide) (by rw [h]; rfl)

/-- `PROCESS_CREATE` by the boot process, its `PROCESS_YIELD`, and that of the
child. -/
def sampleCreate : Registers := callWith 3 0x500000 0x400010

def sampleYield : Registers := callWith 4 0 0x400020

def childYield : Registers := callWith 4 0 0x500020

def afterCreate : Kernel := (goOn bootKernel sampleCreate).1

def afterYield : Kernel := (goOn afterCreate sampleYield).1

def recordCreate : ℕ → Origin := record (fun _ ↦ .fresh) bootKernel afterCreate sampleCreate

def recordYield : ℕ → Origin := record recordCreate afterCreate afterYield sampleYield

theorem run_afterCreate : KernelRun sampleHardware sampleDisplay afterCreate recordCreate :=
  (KernelRun.boot (t := bootKernel.table) bootKernel_booted rfl).syscall
    (requestOk_of_quiet _ (n := .processCreate) (by decide) rfl) (goOn_eq (by decide +kernel))

theorem run_afterYield : KernelRun sampleHardware sampleDisplay afterYield recordYield :=
  run_afterCreate.syscall (requestOk_yield _ rfl) (goOn_eq (by decide +kernel))

/-- The child gets its first frame. -/
theorem syscallEntry_restores_child :
    ∃ k o k' regs' rsp', KernelRun sampleHardware sampleDisplay k o ∧
      syscallEntry sampleHardware k sampleYield 0x7F00 = some (.resumed k' regs' rsp') ∧
      k'.table.currentPid = 1 ∧ Restored (record o k k' sampleYield) k' regs' := by
  have hcall := goOn_eq (show returns afterCreate sampleYield = true by decide +kernel)
  have hnext : nextRunner afterCreate (requestOf sampleYield) = some 1 := by decide +kernel
  have hrecord : recordCreate 1 = .created 0x500000 := by
    have hnew : isFree afterCreate.table 1 = false := by decide +kernel
    rw [recordCreate, record, hnew]
    rfl
  refine ⟨afterCreate, recordCreate, _, _, _, run_afterCreate, hcall, by decide +kernel, ?_⟩
  refine (syscallEntry_restores_iff run_afterCreate (requestOk_yield _ rfl) hcall).mpr
    ⟨1, hnext, Or.inr fun last hlast ↦ ?_⟩
  rw [hrecord] at hlast
  cases hlast

/-- When the child yields, the boot process returns to the child's RIP. -/
theorem bootProcess_resumes_as_child :
    ∃ k o k' regs' rsp', KernelRun sampleHardware sampleDisplay k o ∧
      RequestOk k o (requestOf childYield) ∧
      syscallEntry sampleHardware k childYield 0x7F00 = some (.resumed k' regs' rsp') ∧
      k'.table.currentPid = 0 ∧ record o k k' childYield 0 = .called sampleYield ∧
      sampleYield .rcx = 0x400020 ∧ regs' .rcx = 0x500020 ∧
      ¬Restored (record o k k' childYield) k' regs' := by
  have hcall := goOn_eq (show returns afterYield childYield = true by decide +kernel)
  have hcur : (goOn afterYield childYield).1.table.currentPid = 0 := by decide +kernel
  have hrcx : (goOn afterYield childYield).2.1 .rcx = 0x500020 := by decide +kernel
  have hrecord : record recordYield afterYield (goOn afterYield childYield).1 childYield 0 =
      .called sampleYield := by
    have hlive : isFree (goOn afterYield childYield).1.table 0 = false := by decide +kernel
    have hother : (0 : ℕ) ≠ afterYield.table.currentPid.toNat := by decide +kernel
    have hold : isFree afterYield.table 0 = false := by decide +kernel
    have hself : (0 : ℕ) = afterCreate.table.currentPid.toNat := by decide +kernel
    rw [record, hlive, if_neg (by simp), if_neg hother, hold, if_neg (by simp), recordYield, record,
      hold, if_neg (by simp), if_pos hself]
  refine ⟨afterYield, recordYield, _, _, _, run_afterYield, requestOk_yield _ rfl,
    hcall, hcur, hrecord, rfl, hrcx, ?_⟩
  rintro ⟨expected, hexpected, hregs⟩
  rw [hcur, Int.toNat_zero, hrecord] at hexpected
  obtain rfl := Option.some.inj hexpected
  have hwrong := hregs .rcx (by decide)
  rw [hrcx] at hwrong
  exact absurd hwrong (by decide)

end ImplusKernel.Syscall
