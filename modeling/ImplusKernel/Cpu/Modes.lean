import ImplusKernel.Cpu.Interrupts
import ImplusKernel.Syscall.ContextSwitch

/-!
# User mode and kernel mode

User code runs at level 3 and enters the kernel in two ways.  `syscall` takes
its selectors from a register, and the entry stub finds the kernel's data
behind the second GS base; interrupts take theirs from the tables and leave
GS alone.  Here the steps of user code, interrupts and system calls follow
each other in any order.  Whatever the order, user code goes on at level 3
with interrupts enabled, the tables are as they were set up, and the kernel
has only made steps of the system call model.
-/

namespace ImplusKernel.Cpu

open ByteMemory Heap Words Processor Syscall ProcessManager VirtIO

/-! ## Entering and leaving the kernel -/

/-- `syscall_init`: user code runs with GS base zero, and the stub swaps in
the address of its data. -/
def syscallInit (s : Statics) (c : Cpu Register) : Cpu Register :=
  { c with gsBase := 0, kernelGsBase := s.cpuState }

def userStackSize : ℕ := 8192

/-- The words that `entry_user_mode` pushes, the first one at the highest
address. -/
def userFrame (userEntry : UInt64) (userStack : ℕ) : List UInt64 :=
  [UInt64.ofNat (gdtUserData ||| 3), UInt64.ofNat ((userStack + userStackSize) &&& highMask 64 4),
    0x202, UInt64.ofNat (gdtUserCode ||| 3), userEntry]

/-- `entry_user_mode`.  Loading GS sets its base from the descriptor. -/
def entryUserMode (s : Statics) (m : Mem) (c : Cpu Register) (userEntry : UInt64)
    (userStack : ℕ) : Option (Mem × Cpu Register) :=
  match descriptor (gdtr s) m (gdtUserData ||| 3) with
  | none => none
  | some data =>
      let pushed := (userFrame userEntry userStack).foldl push (m, c.rsp)
      (Cpu.iretq (systemRegisters s) pushed.1 { c with
        rsp := pushed.2
        regs := Function.update c.regs .rax (c.regs .rax &&& ~~~0xFFFF ||| 0x23)
        rflags := c.rflags &&& ~~~interruptFlag
        gsBase := data.base }).map fun c' ↦ (pushed.1, c')

/-- The registers with which the entry stub begins. -/
def callRegisters (s : Statics) (c : Cpu Register) : Registers :=
  (c.syscall (systemRegisters s) .rcx .r11).regs

/-- A system call, from `syscall` to `sysret`.  The stub reaches the kernel's
data only when they are behind GS; it reloads the stack pointer from a word of
them. -/
def systemCall (s : Statics) (hw : Hardware) (k : Kernel) (c : Cpu Register) :
    Option (Kernel × Cpu Register) :=
  let inside := (c.syscall (systemRegisters s) .rcx .r11).swapgs
  if inside.gsBase = s.cpuState then
    match syscallEntry hw k inside.regs inside.rsp with
    | some (.resumed k' regs rsp) =>
        (Cpu.sysret (systemRegisters s) .rcx .r11
          (Cpu.swapgs { inside with regs := regs, rsp := rsp % 2 ^ 64 })).map fun c' ↦ (k', c')
    | _ => none
  else none

/-! ## Runs -/

variable {s : Statics} {hw : Hardware} {g : ℕ → Prop} {k k' : Kernel} {o : ℕ → Origin} {m : Mem}
  {c c' : Cpu Register} {regs regs' : Registers} {rsp rsp' pid : ℕ}

/-- The processor while it runs user code. -/
structure UserMode (s : Statics) (c : Cpu Register) : Prop where
  cs : c.cs = gdtUserCode + 3
  ss : c.ss = gdtUserData + 3
  rsp_lt : c.rsp < 2 ^ 64
  rip : canonical c.rip = true
  flags : c.rflags &&& returnFlags ||| 2 = c.rflags
  enabled : c.rflags &&& interruptFlag ≠ 0
  kernelGsBase : c.kernelGsBase = s.cpuState

/-- What instructions at level 3 leave alone: selectors, the interrupt flag
and the second GS base.  A far transfer to the 32-bit code segment, which the
table also has for level 3, is no such step. -/
structure UserStep (c c' : Cpu Register) : Prop where
  cs : c'.cs = c.cs
  ss : c'.ss = c.ss
  rsp_lt : c'.rsp < 2 ^ 64
  rip : canonical c'.rip = true
  flags : c'.rflags &&& returnFlags ||| 2 = c'.rflags
  enabled : c'.rflags &&& interruptFlag = c.rflags &&& interruptFlag
  kernelGsBase : c'.kernelGsBase = c.kernelGsBase

/-- The stack on which interrupts of user code are served. -/
def InterruptStack (s : Statics) (x : ℕ) : Prop :=
  s.kernelStack ≤ x ∧ x < s.kernelStack + kernelStackSize

/-- The display's memory with the tables and the interrupt stack. -/
def Reserved (s : Statics) (g : ℕ → Prop) (x : ℕ) : Prop :=
  g x ∨ TableByte s x ∨ InterruptStack s x

/-- The tables and the interrupt stack are no memory of the allocator, of the
system call stack or, in the case of the tables, of the display. -/
structure Layout (s : Statics) (g : ℕ → Prop) (k : Kernel) : Prop where
  client : ∀ x, TableByte s x ∨ InterruptStack s x → ClientByte k.machine.memory x
  frame : ∀ x, TableByte s x ∨ InterruptStack s x → ¬OnFrame (kernelFrame k) x
  display : ∀ x, TableByte s x → ¬g x

/-- Runs from the entry to user mode.  Programs are trusted with memory: their
stores, and the destinations they name in calls, are not the kernel's.  They do
not make the two calls that return to an address of the heap. -/
inductive SystemRun (s : Statics) (hw : Hardware) (g : ℕ → Prop) :
    Kernel → (ℕ → Origin) → Cpu Register → Prop
  | boot {k : Kernel} {userEntry : UInt64} {userStack pid : ℕ} {t : ProcessTable} {m : Mem}
      {c c' : Cpu Register} (hboot : Booted hw g k) (hlayout : Layout s g k)
      (hready : TablesReady s k.mem)
      (hregister : processRegisterBootProcess processManagerInit userEntry.toNat
        (userStack + userStackSize) = (t, .registered pid))
      (hcpl : c.cpl = 0) (hroom : 40 ≤ c.rsp) (hrsp : c.rsp < 2 ^ 64)
      (hstack : ∀ x, c.rsp - 40 ≤ x → x < c.rsp → ClientByte k.machine.memory x ∧ ¬TableByte s x)
      (henter : entryUserMode s k.mem (syscallInit s c) userEntry userStack = some (m, c')) :
      SystemRun s hw g ({ k with table := t }.setMem m) (fun _ ↦ .fresh) c'
  | user {k : Kernel} {o : ℕ → Origin} {c c' : Cpu Register} (hrun : SystemRun s hw g k o c)
      {m : Mem} (hstep : UserStep c c')
      (hstore : ∀ x, m x ≠ k.mem x →
        ClientByte k.machine.memory x ∧ ¬Waiting k o x ∧ ¬TableByte s x) :
      SystemRun s hw g (k.setMem m) o c'
  | interrupt {k : Kernel} {o : ℕ → Origin} {c c' : Cpu Register} (hrun : SystemRun s hw g k o c)
      {v : ℕ} {m : Mem} {ports : List (ℕ × UInt8)} (hv : v < idtEntries) (hfault : v ≠ 14)
      (hserve : serve s k.mem c v none = some (m, c', ports)) :
      SystemRun s hw g (k.setMem m) o c'
  | syscall {k k' : Kernel} {o : ℕ → Origin} {c c' : Cpu Register}
      (hrun : SystemRun s hw g k o c) (hok : RequestOk k o (requestOf (callRegisters s c)))
      (htables : ∀ x, target k (requestOf (callRegisters s c)) x → ¬TableByte s x)
      (hcall : systemCall s hw k c = some (k', c')) :
      SystemRun s hw g k' (record o k k' (callRegisters s c)) c'

/-! ## User mode -/

theorem interruptTop_user (h : UserMode s c) :
    interruptTop s c = s.kernelStack + kernelStackSize := by
  have hcpl : c.cpl = 3 := by
    rw [Cpu.cpl, h.cs]
    rfl
  rw [interruptTop, if_neg (by omega)]

theorem UserMode.interruptible (h : UserMode s c) : Interruptible s c := by
  have htop := interruptTop_user h
  have hsize : kernelStackSize = 16384 := rfl
  refine ⟨Or.inl ⟨h.cs, h.ss⟩, h.rsp_lt, h.rip, h.flags, by omega, fun x hlow hhigh ↦ ?_⟩
  have hgdt := s.stack_gdt
  have hidt := s.stack_idt
  have htss := s.stack_tss
  rw [htop] at hlow hhigh
  rw [TableByte]
  omega

theorem UserMode.step (h : UserMode s c) (hstep : UserStep c c') : UserMode s c' where
  cs := hstep.cs.trans h.cs
  ss := hstep.ss.trans h.ss
  rsp_lt := hstep.rsp_lt
  rip := hstep.rip
  flags := hstep.flags
  enabled := by
    rw [hstep.enabled]
    exact h.enabled
  kernelGsBase := hstep.kernelGsBase.trans h.kernelGsBase

/-- `sysret` always goes back to user mode. -/
theorem userMode_sysret (hgs : c.kernelGsBase = s.cpuState) (hrsp : c.rsp < 2 ^ 64)
    (hflags : c.regs .r11 &&& interruptFlag ≠ 0)
    (h : c.sysret (systemRegisters s) .rcx .r11 = some c') : UserMode s c' := by
  have hstar : starSelector (systemRegisters s) 48 = gdtUserCompatCode := by
    change star.toNat / 2 ^ 48 % 2 ^ 16 = gdtUserCompatCode
    decide
  have hcs : (starSelector (systemRegisters s) 48 + 16) ||| 3 = gdtUserCode + 3 := by
    rw [hstar]
    decide
  have hss : (starSelector (systemRegisters s) 48 + 8) ||| 3 = gdtUserData + 3 := by
    rw [hstar]
    decide
  rw [Cpu.sysret] at h
  split_ifs at h with hcanonical
  cases h
  simp only [not_or, Bool.not_eq_false] at hcanonical
  refine ⟨hcs, hss, hrsp, hcanonical.2, sysret_flags _, ?_, hgs⟩
  rw [sysret_interruptFlag]
  exact hflags

theorem sysret_returns (hcpl : c.cpl = 0) (hrip : canonical (c.regs .rcx) = true) :
    ∃ c', c.sysret (systemRegisters s) .rcx .r11 = some c' ∧ c'.rip = c.regs .rcx := by
  rw [Cpu.sysret, if_neg (by simp [hcpl, hrip])]
  exact ⟨_, rfl, rfl⟩

/-! ## What a system call leaves -/

section call

/-- The same history, except that every process has made its last call with
these registers. -/
def withCall (regs : Registers) : Origin → Origin
  | .called _ => .called regs
  | origin => origin

theorem withCall_created {origin : Origin} {entry : UInt64} :
    withCall regs origin = .created entry ↔ origin = .created entry := by
  cases origin <;> simp [withCall]

theorem waiting_withCall {x : ℕ} :
    Waiting k (fun i ↦ withCall regs (o i)) x ↔ Waiting k o x := by
  simp only [Waiting, withCall_created]

theorem invariant_withCall (h : KernelInvariant hw g k o pid) :
    KernelInvariant hw g k (fun i ↦ withCall regs (o i)) pid := by
  refine ⟨h.booted, h.pid_lt, h.current, h.running_iff, fun i hi hready ↦ ?_, fun i hi hfree ↦ ?_⟩
  · have hresumable := h.ready i hi hready
    cases horigin : o i <;> rw [horigin] at hresumable <;> exact hresumable
  · rw [h.free i hi hfree]
    rfl

/-- The registers popped are those of the caller or of a new process. -/
theorem resumed_registers (h : KernelInvariant hw g k o pid)
    (hok : RequestOk k o (requestOf regs))
    (hcall : syscallEntry hw k regs rsp = some (.resumed k' regs' rsp')) :
    (∀ r, r ≠ .rax → regs' r = regs r) ∨
      ∃ entry, ∀ r, r ≠ .rax → regs' r = initialRegisters entry r := by
  -- The registers of earlier calls do not matter, so they may be taken to be the caller's.
  have hok' : RequestOk k (fun i ↦ withCall regs (o i)) (requestOf regs) :=
    ⟨hok.toRequestFits, hok.not_kmalloc, hok.not_kfree, hok.target_frame,
      fun x hx hwaiting ↦ hok.target_waiting x hx (waiting_withCall.mp hwaiting)⟩
  obtain ⟨next, -, -, hrestored⟩ := (invariant_withCall h).syscall hok' hcall
  obtain ⟨expected, horigin, hregs⟩ := hrestored.mpr <| Or.inr fun last hlast r _ ↦ by
    cases ho : o next <;> simp [withCall, ho] at hlast
    rw [hlast]
  simp only [record] at horigin
  split_ifs at horigin
  · cases horigin
  · exact Or.inl (Option.some.inj horigin ▸ hregs)
  · exact Or.inr ⟨_, Option.some.inj horigin ▸ hregs⟩
  · cases ho : o k'.table.currentPid.toNat with
    | fresh => simp [withCall, ho, Origin.registers] at horigin
    | created entry =>
        simp only [withCall, ho, Origin.registers, Option.some.injEq] at horigin
        exact Or.inr ⟨entry, horigin ▸ hregs⟩
    | called last =>
        simp only [withCall, ho, Origin.registers, Option.some.injEq] at horigin
        exact Or.inl (horigin ▸ hregs)

theorem reschedule_memory {stored : Option ℕ} {sw : Bool} {r : DispatchReturn}
    (h : reschedule k rsp stored sw = .returned r) :
    r.kernel.machine.memory = k.machine.memory := by
  rw [reschedule] at h
  split at h
  · cases h
    rfl
  · cases h
    rfl
  · cases h

/-- A call changes the frame on the kernel's stack, the display's memory, the
destination it names and memory of the allocator. -/
theorem keeps_syscall (h : KernelInvariant hw g k o pid) (hok : RequestOk k o (requestOf regs))
    (hcall : syscallEntry hw k regs rsp = some (.resumed k' regs' rsp')) :
    Keeps k.machine.memory k'.machine.memory
      (fun x ↦ OnFrame (kernelFrame k) x ∨ g x ∨ target k (requestOf regs) x) := by
  have hb := h.booted
  rw [syscallEntry_eq hb, syscallDispatch] at hcall
  cases hhandle : handle hw (entered k regs rsp) (requestOf regs) with
  | none => simp [hhandle] at hcall
  | some handled =>
      cases handled with
      | direct k₂ v =>
          rcases handle_direct hhandle with hnum | hnum
          · exact absurd hnum hok.not_kmalloc
          · exact absurd hnum hok.not_kfree
      | exited k₂ =>
          obtain ⟨-, rfl⟩ := handle_exited hhandle
          simp only [hhandle] at hcall
          split at hcall
          · cases hcall
          · cases hcall
          · next r heq =>
              cases hcall
              rw [reschedule_memory (Option.some.inj heq)]
              exact (hb.keeps_entered regs rsp).mono fun _ ↦ Or.inl
      | value k₂ v sw =>
          have hb₁ := hb.entered regs rsp
          obtain ⟨bs, hheap⟩ := hb₁.heap
          have heffect := handle_callEffect hheap hb₁.display hb₁.display_client
            (hok.toRequestFits.entered (hb.keeps_entered regs rsp).client) hhandle
          simp only [hhandle] at hcall
          split at hcall
          · cases hcall
          · cases hcall
          · next r heq =>
              cases hcall
              rw [reschedule_memory (Option.some.inj heq)]
              exact h.keeps_value heffect

/-- A call that is answered resumes somebody: the caller can run. -/
theorem value_returns (h : KernelInvariant hw g k o pid) {k₂ : Kernel} {v : ℕ} {sw : Bool}
    (hhandle : handle hw (entered k regs rsp) (requestOf regs) = some (.value k₂ v sw)) :
    ∃ k' regs' rsp', syscallEntry hw k regs rsp = some (.resumed k' regs' rsp') := by
  have hrunning := (h.running_iff pid h.pid_lt).mpr rfl
  obtain ⟨-, ⟨hcur, hkept⟩, -⟩ := handle_value hhandle
  obtain ⟨next, -, -, -, hschedule⟩ := schedule_live (t := (answered k k₂ v).table) h.pid_lt
    (hcur.trans h.current) (Or.inr (hkept pid hrunning)) (kernelFrame k) k₂.userRsp sw
  have hreturned := reschedule_of_resumed (k := answered k k₂ v) (some v) hschedule
  rw [syscallEntry_eq h.booted, syscallDispatch, hhandle]
  rw [answered] at hreturned
  simp only [hreturned]
  exact ⟨_, _, _, rfl⟩

/-- `SERIAL_PUTCHAR` comes back to the caller with its registers. -/
theorem putchar_returns (h : KernelInvariant hw g k o pid) (regs : Registers) (rsp : ℕ)
    (hnum : regs .rax = 1) :
    ∃ k' regs' rsp', syscallEntry hw k regs rsp = some (.resumed k' regs' rsp') ∧
      ∀ r, r ≠ .rax → regs' r = regs r := by
  have hofNum : SyscallNumber.ofNum (requestOf regs).num.toNat = some .serialPutchar := by
    change SyscallNumber.ofNum (regs .rax).toNat = _
    rw [hnum]
    rfl
  have hok : RequestOk k o (requestOf regs) := requestOk_of_quiet o (by decide) hofNum
  have hhandle : handle hw (entered k regs rsp) (requestOf regs) =
      some (.value ((entered k regs rsp).print
        [textOf [UInt8.ofNat (requestOf regs).arg1.toNat]]) 0 false) := by
    rw [handle, hofNum]
  obtain ⟨k', regs', rsp', hcall⟩ := value_returns h hhandle
  refine ⟨k', regs', rsp', hcall, ?_⟩
  obtain ⟨next, hnext, hinv', hrestored⟩ := h.syscall hok hcall
  have hpid : next = pid := by
    rw [nextRunner, hofNum, h.current] at hnext
    exact (Option.some.inj hnext).symm
  obtain ⟨expected, horigin, hregs⟩ := hrestored.mpr (Or.inl hpid)
  have hlive := (hinv'.running_iff next hinv'.pid_lt).mpr rfl
  rw [hinv'.current, Int.toNat_natCast, record_live o regs h.current (Or.inr hlive),
    if_pos hpid] at horigin
  obtain rfl := Option.some.inj horigin
  exact hregs

end call

/-! ## The first entry to user mode -/

/-- The program at its first instruction, with no flag set but the interrupt
flag. -/
def firstProgram (c : Cpu Register) (userEntry : UInt64) (userStack : ℕ) : Cpu Register :=
  { c with
    regs := Function.update c.regs .rax (c.regs .rax &&& ~~~0xFFFF ||| 0x23)
    rsp := (userStack + userStackSize) &&& highMask 64 4
    rip := userEntry
    rflags := 0x202
    cs := gdtUserCode + 3
    ss := gdtUserData + 3
    gsBase := 0 }

variable {userEntry : UInt64} {userStack : ℕ}

theorem userRsp_lt (userStack : ℕ) : (userStack + userStackSize) &&& highMask 64 4 < 2 ^ 64 :=
  lt_of_le_of_lt Nat.and_le_right (by decide)

theorem userMode_firstProgram (userStack : ℕ) (hentry : canonical userEntry = true)
    (hgs : c.kernelGsBase = s.cpuState) : UserMode s (firstProgram c userEntry userStack) := by
  have hflags : (0x202 : UInt64) &&& returnFlags ||| 2 = 0x202 := by decide
  have henabled : (0x202 : UInt64) &&& interruptFlag ≠ 0 := by decide
  exact ⟨rfl, rfl, userRsp_lt userStack, hentry, hflags, henabled, hgs⟩

theorem userFrame_onStack (m : Mem) (userEntry : UInt64) (userStack : ℕ) (hroom : 40 ≤ c.rsp)
    (hrsp : c.rsp < 2 ^ 64) :
    ((userFrame userEntry userStack).foldl push (m, c.rsp)).2 = c.rsp - 40 ∧
      (∀ x, x < c.rsp - 40 ∨ c.rsp ≤ x →
        ((userFrame userEntry userStack).foldl push (m, c.rsp)).1 x = m x) ∧
      OnStack ((userFrame userEntry userStack).foldl push (m, c.rsp)).1 (c.rsp - 40)
        (firstProgram c userEntry userStack) := by
  obtain ⟨hlast, hkept, hread⟩ := foldl_push (userFrame userEntry userStack) m hrsp hroom
  have hlength : (userFrame userEntry userStack).length = 5 := rfl
  refine ⟨hlast, hkept, hread 4 (by omega), ?_, ?_, ?_, ?_⟩
  · rw [show c.rsp - 40 + 8 = c.rsp - 8 * (3 + 1) by omega]
    exact hread 3 (by omega)
  · rw [show c.rsp - 40 + 16 = c.rsp - 8 * (2 + 1) by omega]
    exact hread 2 (by omega)
  · rw [show c.rsp - 40 + 24 = c.rsp - 8 * (1 + 1) by omega, hread 1 (by omega)]
    exact UInt64.toNat_ofNat_of_lt' (userRsp_lt userStack)
  · rw [show c.rsp - 40 + 32 = c.rsp - 8 * (0 + 1) by omega]
    exact hread 0 (by omega)

/-- The program starts at its entry in user mode; the frame goes to the stack
of the kernel. -/
theorem entryUserMode_eq (userStack : ℕ) (hready : TablesReady s m) (hcpl : c.cpl = 0)
    (hroom : 40 ≤ c.rsp) (hrsp : c.rsp < 2 ^ 64) (hgs : c.kernelGsBase = s.cpuState)
    (hstack : ∀ x, c.rsp - 40 ≤ x → x < c.rsp → ¬TableByte s x)
    (hentry : canonical userEntry = true) :
    ∃ m', entryUserMode s m c userEntry userStack = some (m', firstProgram c userEntry userStack) ∧
      ∀ x, x < c.rsp - 40 ∨ c.rsp ≤ x → m' x = m x := by
  obtain ⟨hlast, hkept, honStack⟩ := userFrame_onStack m userEntry userStack hroom hrsp
  refine ⟨_, ?_, hkept⟩
  have hdata : descriptor (gdtr s) m (gdtUserData ||| 3) = some ⟨0, 0xFFFFF, 0xF2, 0x8⟩ :=
    hready.descriptor_userData
  have htables : TablesReady s ((userFrame userEntry userStack).foldl push (m, c.rsp)).1 := by
    refine hready.congr fun x hx ↦ hkept x ?_
    by_contra hin
    exact hstack x (by omega) (by omega) hx
  have hmode := userMode_firstProgram userStack hentry hgs
  simp only [entryUserMode, hdata, Option.map_eq_some_iff, hlast]
  exact ⟨_, iretq_eq htables hmode.interruptible hcpl (by dsimp only; omega) honStack, rfl⟩

theorem canonical_of_entryUserMode (hroom : 40 ≤ c.rsp) (hrsp : c.rsp < 2 ^ 64) {m' : Mem}
    (h : entryUserMode s m c userEntry userStack = some (m', c')) :
    canonical userEntry = true := by
  obtain ⟨hlast, -, honStack⟩ := userFrame_onStack m userEntry userStack hroom hrsp
  rw [entryUserMode] at h
  split at h
  · cases h
  · simp only [Option.map_eq_some_iff, hlast] at h
    obtain ⟨c₁, hiretq, -⟩ := h
    obtain ⟨hrip, hcanonical⟩ := Cpu.iretq_rip hiretq
    rw [hrip, stackWord, Nat.mod_eq_of_lt (by dsimp only; omega), honStack.rip,
      UInt64.ofNat_toNat] at hcanonical
    exact hcanonical

/-! ## All runs -/

theorem displayWithin_mono {device : Device} {gpu : Gpu} {g' : ℕ → Prop}
    (h : DisplayWithin device gpu g) (hg : ∀ x, g x → g' x) : DisplayWithin device gpu g' where
  pixels_fit := h.pixels_fit
  pixels := fun x hlow hhigh ↦ hg x (h.pixels x hlow hhigh)
  desc := fun x hlow hhigh ↦ hg x (h.desc x hlow hhigh)
  avail := fun x hlow hhigh ↦ hg x (h.avail x hlow hhigh)
  cmd_fit := h.cmd_fit
  cmd := fun x hlow hhigh ↦ hg x (h.cmd x hlow hhigh)
  resp_fit := h.resp_fit
  resp := fun x hlow hhigh ↦ hg x (h.resp x hlow hhigh)
  serve := fun n m x hx ↦ h.serve n m x fun hgx ↦ hx (hg x hgx)

/-- The tables and the interrupt stack may be counted to the display. -/
theorem Layout.booted (h : Layout s g k) (hb : Booted hw g k) : Booted hw (Reserved s g) k where
  heap := hb.heap
  room := hb.room
  frame_client := hb.frame_client
  display := displayWithin_mono hb.display fun _ ↦ Or.inl
  display_client := fun x hx ↦ hx.elim (hb.display_client x) (h.client x)
  display_apart := fun x hx ↦ hx.elim (hb.display_apart x) (h.frame x)

theorem not_waiting (h : KernelInvariant hw g k o pid) {x : ℕ} (hx : g x) : ¬Waiting k o x := by
  rintro ⟨i, hi, hready, ⟨entry, horigin⟩, hon⟩
  have hresumable := h.ready i hi hready
  rw [horigin] at hresumable
  exact (hresumable.2.2 x hon).2.1 hx

/-- What holds whenever user code is about to execute an instruction. -/
structure SystemInvariant (s : Statics) (hw : Hardware) (g : ℕ → Prop) (k : Kernel)
    (o : ℕ → Origin) (c : Cpu Register) : Prop where
  mode : UserMode s c
  tables : TablesReady s k.mem
  run : KernelRun hw g k o
  reserved : KernelRun hw (Reserved s g) k o
  display : ∀ x, TableByte s x → ¬g x

theorem SystemInvariant.user (h : SystemInvariant s hw g k o c) (hstep : UserStep c c')
    (hstore : ∀ x, m x ≠ k.mem x →
      ClientByte k.machine.memory x ∧ ¬Waiting k o x ∧ ¬TableByte s x) :
    SystemInvariant s hw g (k.setMem m) o c' where
  mode := h.mode.step hstep
  tables := h.tables.congr fun x hx ↦ by
    by_contra hne
    exact (hstore x hne).2.2 hx
  run := h.run.store fun x hx ↦ ⟨(hstore x hx).1, (hstore x hx).2.1⟩
  reserved := h.reserved.store fun x hx ↦ ⟨(hstore x hx).1, (hstore x hx).2.1⟩
  display := h.display

/-- An interrupt stores to its own stack, which to the kernel is a store of
user code. -/
theorem SystemInvariant.interrupt (h : SystemInvariant s hw g k o c) {v : ℕ} (hv : v < idtEntries)
    (hfault : v ≠ 14) :
    ∃ m, serve s k.mem c v none = some (m, c, [(0x20, 0x20)]) ∧
      (∀ x, m x ≠ k.mem x → InterruptStack s x) ∧ SystemInvariant s hw g (k.setMem m) o c := by
  obtain ⟨m, hserve, hkept⟩ := serve_none h.tables h.mode.interruptible hv hfault
  have htop := interruptTop_user h.mode
  have hsize : kernelStackSize = 16384 := rfl
  obtain ⟨pid, hinv⟩ := h.reserved.invariant
  have hstack : ∀ x, m x ≠ k.mem x → InterruptStack s x := by
    intro x hx
    by_contra hout
    rw [InterruptStack] at hout
    exact hx (hkept x (by omega))
  refine ⟨m, hserve, hstack, ?_⟩
  have hstore : ∀ x, m x ≠ k.mem x → ClientByte k.machine.memory x ∧ ¬Waiting k o x := by
    intro x hx
    have hreserved : Reserved s g x := Or.inr (Or.inr (hstack x hx))
    exact ⟨hinv.booted.display_client x hreserved, not_waiting hinv hreserved⟩
  refine ⟨h.mode, ?_, h.run.store hstore, h.reserved.store hstore, h.display⟩
  refine h.tables.congr fun x hx ↦ hkept x ?_
  by_contra hout
  exact h.mode.interruptible.apart x (by omega) (by omega) hx

theorem SystemInvariant.syscall (h : SystemInvariant s hw g k o c)
    (hok : RequestOk k o (requestOf (callRegisters s c)))
    (htables : ∀ x, target k (requestOf (callRegisters s c)) x → ¬TableByte s x)
    (hcall : systemCall s hw k c = some (k', c')) :
    SystemInvariant s hw g k' (record o k k' (callRegisters s c)) c' := by
  have hgs : ((c.syscall (systemRegisters s) .rcx .r11).swapgs).gsBase = s.cpuState :=
    h.mode.kernelGsBase
  simp only [systemCall, hgs, if_true] at hcall
  split at hcall
  · next k₁ regs rsp hentry =>
      rw [Option.map_eq_some_iff] at hcall
      obtain ⟨c₁, hsysret, heq⟩ := hcall
      cases heq
      have hentry : syscallEntry hw k (callRegisters s c) c.rsp = some (.resumed k' regs rsp) :=
        hentry
      obtain ⟨pid, hinv⟩ := h.run.invariant
      obtain ⟨pid', hinv'⟩ := h.reserved.invariant
      refine ⟨?_, ?_, h.run.syscall hok hentry, h.reserved.syscall hok hentry, h.display⟩
      · refine userMode_sysret rfl (Nat.mod_lt _ (by norm_num)) ?_ hsysret
        change regs .r11 &&& interruptFlag ≠ 0
        rcases resumed_registers hinv hok hentry with hregs | ⟨entry, hregs⟩
        · rw [hregs .r11 (by decide)]
          exact h.mode.enabled
        · have hinitial : (0x202 : UInt64) &&& interruptFlag ≠ 0 := by decide
          rw [hregs .r11 (by decide)]
          exact hinitial
      · refine h.tables.congr fun x hx ↦ ?_
        have hreserved : Reserved s g x := Or.inr (Or.inl hx)
        refine (keeps_syscall hinv hok hentry).kept x
          (hinv'.booted.display_client x hreserved) ?_
        rintro (hframe | hgx | htarget)
        · exact hinv'.booted.display_apart x hreserved hframe
        · exact h.display x hx hgx
        · exact htables x htarget hx
  · cases hcall

/-- `SERIAL_PUTCHAR` returns behind the `syscall` instruction. -/
theorem SystemInvariant.putchar (h : SystemInvariant s hw g k o c) (hnum : c.regs .rax = 1)
    (hrip : canonical (c.rip + 2) = true) :
    ∃ k' c', systemCall s hw k c = some (k', c') ∧ c'.rip = c.rip + 2 := by
  obtain ⟨pid, hinv⟩ := h.run.invariant
  obtain ⟨k', regs', rsp', hentry, hregs⟩ :=
    putchar_returns hinv (callRegisters s c) c.rsp hnum
  have hgs : ((c.syscall (systemRegisters s) .rcx .r11).swapgs).gsBase = s.cpuState :=
    h.mode.kernelGsBase
  have hcs : starSelector (systemRegisters s) 32 = gdtKernelCode := by
    change star.toNat / 2 ^ 32 % 2 ^ 16 = gdtKernelCode
    decide
  have hrcx : regs' .rcx = c.rip + 2 := hregs .rcx (by decide)
  have hentry : syscallEntry hw k ((c.syscall (systemRegisters s) .rcx .r11).swapgs).regs
      ((c.syscall (systemRegisters s) .rcx .r11).swapgs).rsp = some (.resumed k' regs' rsp') :=
    hentry
  simp only [systemCall, hgs, if_true, hentry, Option.map_eq_some_iff]
  obtain ⟨c', hsysret, hc'⟩ := sysret_returns (s := s) (c := Cpu.swapgs
    { (c.syscall (systemRegisters s) .rcx .r11).swapgs with
      regs := regs'
      rsp := rsp' % 2 ^ 64
      gsBase := s.cpuState }) (by
    simp [Cpu.cpl, Cpu.swapgs, Cpu.syscall, hcs, gdtKernelCode]) (by rwa [← hrcx] at hrip)
  exact ⟨k', c', ⟨c', hsysret, rfl⟩, hc'.trans hrcx⟩

theorem SystemRun.invariant (hrun : SystemRun s hw g k o c) : SystemInvariant s hw g k o c := by
  induction hrun with
  | @boot k _ _ _ t m c _ hboot hlayout hready hregister hcpl hroom hrsp hstack henter =>
      have hentry := canonical_of_entryUserMode (c := syscallInit s c) hroom hrsp henter
      obtain ⟨m', henter', hkept⟩ := entryUserMode_eq (c := syscallInit s c) _ hready hcpl hroom
        hrsp rfl (fun x hlow hhigh ↦ (hstack x hlow hhigh).2) hentry
      rw [henter'] at henter
      cases henter
      have hpushed : ∀ x, m x ≠ k.mem x → ClientByte k.machine.memory x ∧ ¬TableByte s x := by
        intro x hx
        have hin : ¬(x < c.rsp - 40 ∨ c.rsp ≤ x) := fun hout ↦ hx (hkept x hout)
        exact hstack x (by omega) (by omega)
      have hstore : ∀ x, m x ≠ { k with table := t }.mem x →
          ClientByte { k with table := t }.machine.memory x ∧
            ¬Waiting { k with table := t } (fun _ ↦ .fresh) x := by
        intro x hx
        refine ⟨(hpushed x hx).1, ?_⟩
        rintro ⟨_, _, _, ⟨_, hfresh⟩, _⟩
        cases hfresh
      refine ⟨userMode_firstProgram _ hentry rfl, ?_, (KernelRun.boot hboot hregister).store hstore,
        (KernelRun.boot (hlayout.booted hboot) hregister).store hstore, hlayout.display⟩
      refine hready.congr fun x hx ↦ ?_
      by_contra hne
      exact (hpushed x hne).2 hx
  | user _ hstep hstore ih => exact ih.user hstep hstore
  | interrupt _ hv hfault hserve ih =>
      obtain ⟨m, hserve', -, hinv⟩ := ih.interrupt hv hfault
      rw [hserve'] at hserve
      cases hserve
      exact hinv
  | syscall _ hok htables hcall ih => exact ih.syscall hok htables hcall

/-- The sample machine with its tables goes to user mode. -/
theorem sampleRun : ∃ k c,
    SystemRun sampleStatics sampleHardware sampleDisplay k (fun _ ↦ .fresh) c ∧
      k.machine.memory.heapStart = 0x110000 := by
  obtain ⟨m, -, hready, hkept⟩ := tablesReady_init sampleStatics bootKernel.mem
  have hstart : bootKernel.machine.memory.heapStart = 0x110000 := by decide +kernel
  have hframe : kernelFrame bootKernel = 0x108F80 := by decide +kernel
  have hbelow : ∀ x, x < 0x110000 → ClientByte bootKernel.machine.memory x :=
    fun x hx ↦ Or.inl (by rwa [hstart])
  have htables : ∀ x, TableByte sampleStatics x → 0x101000 ≤ x ∧ x < 0x105000 := by
    intro x hx
    simp only [TableByte, sampleStatics, gdtSize, idtEntries, tssSize] at hx
    omega
  have hstack : ∀ x, InterruptStack sampleStatics x → 0x10A000 ≤ x ∧ x < 0x10E000 :=
    fun x hx ↦ hx
  obtain ⟨bs, hheap⟩ := bootKernel_booted.heap
  have hkeeps : Keeps bootKernel.machine.memory (bootKernel.setMem m).machine.memory
      (TableByte sampleStatics) :=
    hheap.keeps_store (fun x hx ↦ hbelow x (by have := htables x hx; omega)) hkept
  have hbooted : Booted sampleHardware sampleDisplay (bootKernel.setMem m) :=
    bootKernel_booted.keeps hkeeps bootKernel_booted.display rfl
  have hlayout : Layout sampleStatics sampleDisplay (bootKernel.setMem m) := by
    have hrange : ∀ x, TableByte sampleStatics x ∨ InterruptStack sampleStatics x →
        (0x101000 ≤ x ∧ x < 0x105000) ∨ (0x10A000 ≤ x ∧ x < 0x10E000) :=
      fun x hx ↦ hx.imp (htables x) (hstack x)
    refine ⟨fun x hx ↦ hkeeps.client x (hbelow x ?_), fun x hx hon ↦ ?_, fun x hx hgx ↦ ?_⟩
    · have := hrange x hx
      omega
    · have hon : OnFrame (kernelFrame bootKernel) x := hon
      have := hrange x hx
      rw [OnFrame, hframe] at hon
      omega
    · have := htables x hx
      rw [sampleDisplay] at hgx
      omega
  have hpushed : ∀ x, 0x10F000 - 40 ≤ x → x < 0x10F000 →
      ClientByte (bootKernel.setMem m).machine.memory x ∧ ¬TableByte sampleStatics x := by
    intro x hlow hhigh
    refine ⟨hkeeps.client x (hbelow x (by omega)), fun hx ↦ ?_⟩
    have := htables x hx
    omega
  have hentry : canonical 0x400000 = true := by decide
  obtain ⟨m', henter, -⟩ := entryUserMode_eq
    (c := syscallInit sampleStatics { sampleProgram with
      cs := gdtKernelCode, ss := gdtKernelData, rsp := 0x10F000 })
    0x106000 hready rfl (by decide) (by decide) rfl (fun x hlow hhigh ↦ (hpushed x hlow hhigh).2)
    hentry
  exact ⟨_, _, .boot hbooted hlayout hready rfl rfl (by decide) (by decide) hpushed henter,
    hstart⟩

/-- The program loads a call number and stores a byte of its own, is
interrupted, and makes the call. -/
theorem sampleRun_steps : ∃ (k : Kernel) (c c₁ : Cpu Register) (m₁ m₂ : Mem) (k₃ : Kernel)
    (c₃ : Cpu Register), SystemRun sampleStatics sampleHardware sampleDisplay k (fun _ ↦ .fresh) c ∧
      UserStep c c₁ ∧ m₁ = Function.update k.mem 0x2000 65 ∧
      serve sampleStatics m₁ c₁ 33 none = some (m₂, c₁, [(0x20, 0x20)]) ∧
      systemCall sampleStatics sampleHardware (k.setMem m₂) c₁ = some (k₃, c₃) ∧
      c₃.rip = c₁.rip + 2 ∧
      SystemRun sampleStatics sampleHardware sampleDisplay k₃
        (record (fun _ ↦ .fresh) (k.setMem m₂) k₃ (callRegisters sampleStatics c₁)) c₃ := by
  obtain ⟨k, c, hrun, hstart⟩ := sampleRun
  have hmode := hrun.invariant.mode
  have hstep : UserStep c { c with regs := Function.update c.regs .rax 1, rip := 0x400007 } :=
    ⟨rfl, rfl, hmode.rsp_lt, show canonical 0x400007 = true by decide, hmode.flags, rfl, rfl⟩
  have hstore : ∀ x, Function.update k.mem 0x2000 65 x ≠ k.mem x →
      ClientByte k.machine.memory x ∧ ¬Waiting k (fun _ ↦ .fresh) x ∧
        ¬TableByte sampleStatics x := by
    intro x hx
    obtain rfl : x = 0x2000 := by
      by_contra hne
      exact hx (Function.update_of_ne hne ..)
    refine ⟨Or.inl (by rw [hstart]; norm_num), ?_, ?_⟩
    · rintro ⟨_, _, _, ⟨_, hfresh⟩, _⟩
      cases hfresh
    · simp only [TableByte, sampleStatics, gdtSize, idtEntries, tssSize]
      omega
  have hrun₁ := hrun.user hstep hstore
  have hv : 33 < idtEntries := by decide
  obtain ⟨m₂, hserve, -, hinv₂⟩ := hrun₁.invariant.interrupt hv (by decide)
  have hrun₂ := hrun₁.interrupt hv (by decide) hserve
  obtain ⟨k₃, c₃, hcall, hrip₃⟩ := hinv₂.putchar rfl (show canonical 0x400009 = true by decide)
  have hofNum : SyscallNumber.ofNum (1 : UInt64).toNat = some .serialPutchar := rfl
  have hrun₃ := hrun₂.syscall (requestOk_of_quiet _ (by decide) hofNum)
    (fun x hx ↦ by cases hx) hcall
  exact ⟨k, c, _, _, m₂, k₃, c₃, hrun, hstep, rfl, hserve, hcall, hrip₃, hrun₃⟩

/-- Whatever the order of instructions, interrupts and calls, user code runs in
user mode with interrupts enabled, the tables are intact, and the kernel is in
a state of the system call model. -/
theorem systemRun_refines (hrun : SystemRun s hw g k o c) :
    UserMode s c ∧ TablesReady s k.mem ∧ KernelRun hw g k o :=
  ⟨hrun.invariant.mode, hrun.invariant.tables, hrun.invariant.run⟩

theorem sampleRun_refines : ∃ (k : Kernel) (o : ℕ → Origin) (c c₁ : Cpu Register) (m₁ m₂ : Mem)
    (k₃ : Kernel) (c₃ : Cpu Register), SystemRun sampleStatics sampleHardware sampleDisplay k o c ∧
      UserStep c c₁ ∧ m₁ = Function.update k.mem 0x2000 65 ∧
      serve sampleStatics m₁ c₁ 33 none = some (m₂, c₁, [(0x20, 0x20)]) ∧
      systemCall sampleStatics sampleHardware (k.setMem m₂) c₁ = some (k₃, c₃) ∧
      UserMode sampleStatics c₃ ∧ TablesReady sampleStatics k₃.mem ∧
      KernelRun sampleHardware sampleDisplay k₃
        (record o (k.setMem m₂) k₃ (callRegisters sampleStatics c₁)) := by
  obtain ⟨k, c, c₁, m₁, m₂, k₃, c₃, hrun, hstep, hstore, hserve, hcall, -, hrun₃⟩ :=
    sampleRun_steps
  exact ⟨k, _, c, c₁, m₁, m₂, k₃, c₃, hrun, hstep, hstore, hserve, hcall, systemRun_refines hrun₃⟩

/-- Interrupts one after the other: memory, the processor and the ports. -/
def serveAll (s : Statics) (m : Mem) (c : Cpu Register) :
    List ℕ → Option (Mem × Cpu Register × List (ℕ × UInt8))
  | [] => some (m, c, [])
  | v :: vs =>
      match serve s m c v none with
      | none => none
      | some (m', c', ports) =>
          (serveAll s m' c' vs).map fun r ↦ (r.1, r.2.1, ports ++ r.2.2)

/-- Any number of interrupts at any point of a run is served, each is
acknowledged once, and the program does not notice: its registers are as they
were, and so is memory outside the interrupt stack. -/
theorem serveAll_transparent (hrun : SystemRun s hw g k o c) {vs : List ℕ}
    (hvs : ∀ v ∈ vs, v < idtEntries ∧ v ≠ 14) :
    ∃ m, serveAll s k.mem c vs = some (m, c, List.replicate vs.length (0x20, 0x20)) ∧
      (∀ x, m x ≠ k.mem x → InterruptStack s x) ∧ SystemRun s hw g (k.setMem m) o c := by
  induction vs generalizing k with
  | nil => exact ⟨k.mem, rfl, fun x hx ↦ absurd rfl hx, hrun⟩
  | cons v vs ih =>
      obtain ⟨hv, hfault⟩ := hvs v (List.mem_cons_self ..)
      obtain ⟨m₁, hserve, hstack₁, -⟩ := hrun.invariant.interrupt hv hfault
      obtain ⟨m₂, hrest, hstack₂, hrun₂⟩ := ih (hrun.interrupt hv hfault hserve)
        fun v' hv' ↦ hvs v' (List.mem_cons_of_mem v hv')
      have hmem : (k.setMem m₁).mem = m₁ := rfl
      rw [hmem] at hrest hstack₂
      refine ⟨m₂, ?_, fun x hx ↦ ?_, hrun₂⟩
      · simp only [serveAll, hserve, hrest, Option.map_some]
        rfl
      · by_cases hsame : m₁ x = k.mem x
        · exact hstack₂ x (hsame ▸ hx)
        · exact hstack₁ x hsame

/-- Two interrupts after a step, an interrupt and a call. -/
theorem sampleRun_transparent : ∃ (k : Kernel) (c : Cpu Register) (k₃ : Kernel)
    (c₃ : Cpu Register) (m : Mem),
      systemCall sampleStatics sampleHardware k c = some (k₃, c₃) ∧
      serveAll sampleStatics k₃.mem c₃ [8, 33] = some (m, c₃, [(0x20, 0x20), (0x20, 0x20)]) ∧
      ∀ x, m x ≠ k₃.mem x → InterruptStack sampleStatics x := by
  obtain ⟨k, c, c₁, m₁, m₂, k₃, c₃, -, -, -, -, hcall, -, hrun₃⟩ := sampleRun_steps
  have hvs : ∀ v ∈ [8, 33], v < idtEntries ∧ v ≠ 14 := by decide
  obtain ⟨m, hserve, hstack, -⟩ := serveAll_transparent hrun₃ hvs
  exact ⟨k.setMem m₂, c₁, k₃, c₃, m, hcall, hserve, hstack⟩

end ImplusKernel.Cpu
