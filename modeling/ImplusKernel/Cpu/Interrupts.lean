import ImplusKernel.Cpu.Descriptors
import ImplusKernel.Lib.SavedRegisters
import ImplusKernel.Syscall.Entry

/-!
# Interrupt routines

All vectors but that of page faults lead to `isr_default`, which saves the
registers, acknowledges the interrupt and returns.  It returns to the program
that was interrupted when the processor has pushed no error code; an error
code stays on the stack and is taken for the address to return to.

`isr_page_fault` passes what it finds on the stack to the handler that reports
the fault and halts.
-/

namespace ImplusKernel.Cpu

open ByteMemory Fields Processor SavedRegisters Syscall

/-! ## The routines -/

def isrDefault : List (Instr Register) :=
  [.push .rax, .push .rbx, .push .rcx, .push .rdx, .push .rsi, .push .rdi, .push .rbp, .push .r8,
    .push .r9, .push .r10, .push .r11, .push .r12, .push .r13, .push .r14, .push .r15,
    .movByte .rax 0x20, .outByte 0x20 .rax,
    .pop .r15, .pop .r14, .pop .r13, .pop .r12, .pop .r11, .pop .r10, .pop .r9, .pop .r8,
    .pop .rbp, .pop .rdi, .pop .rsi, .pop .rdx, .pop .rcx, .pop .rbx, .pop .rax]

/-- `isr_page_fault` up to the call of the handler. -/
def isrPageFault : List (Instr Register) :=
  [.movRsp .rbx,
    .push .rax, .push .rbx, .push .rcx, .push .rdx, .push .rsi, .push .rdi, .push .rbp, .push .r8,
    .push .r9, .push .r10, .push .r11, .push .r12, .push .r13, .push .r14, .push .r15,
    .load .rdi .rbx 0, .load .rsi .rbx 8, .load .rdx .rbx 32, .movCr2 .rax, .mov .rcx .rax,
    .subRsp 8]

/-- The registers that the default routine saves, the first one outermost. -/
def savedRegisters : List Register :=
  [.rax, .rbx, .rcx, .rdx, .rsi, .rdi, .rbp, .r8, .r9, .r10, .r11, .r12, .r13, .r14, .r15]

theorem isrDefault_eq :
    isrDefault = saved savedRegisters [.movByte .rax 0x20, .outByte 0x20 .rax] := rfl

/-- The processor at the end of a routine, before it returns. -/
def afterRoutine (c : Cpu Register) (core : Core Register) : Cpu Register :=
  { c with regs := core.regs, rsp := core.rsp }

/-- An interrupt that `isr_default` serves: memory, the processor and the
ports afterwards. -/
def serve (s : Statics) (m : Mem) (c : Cpu Register) (vector : ℕ) (error : Option ℕ) :
    Option (Mem × Cpu Register × List (ℕ × UInt8)) :=
  match interrupt (systemRegisters s) m c vector error with
  | none => none
  | some (m₁, c₁) =>
      if c₁.rip = s.isrDefault then
        let core := run isrDefault ⟨c₁.regs, c₁.rsp, m₁, 0, []⟩
        ((afterRoutine c₁ core).iretq (systemRegisters s) core.mem).map
          fun c₂ ↦ (core.mem, c₂, core.ports)
      else none

/-! ## Taking an interrupt -/

variable {s : Statics} {m m' : Mem} {c : Cpu Register} {v : ℕ} {error : Option ℕ}

/-- The selectors of user code or of the kernel.  While it serves an interrupt
from user code, the kernel has no stack segment. -/
def Selectors (c : Cpu Register) : Prop :=
  (c.cs = gdtUserCode + 3 ∧ c.ss = gdtUserData + 3) ∨
    (c.cs = gdtKernelCode ∧ (c.ss = gdtKernelData ∨ c.ss = 0))

/-- The top of the stack on which an interrupt is served. -/
def interruptTop (s : Statics) (c : Cpu Register) : ℕ :=
  if c.cpl = 0 then c.rsp / 16 * 16 else s.kernelStack + kernelStackSize

/-- The state of a program that can be interrupted: its selectors are those of
the tables, and there is room on the stack. -/
structure Interruptible (s : Statics) (c : Cpu Register) : Prop where
  selectors : Selectors c
  rsp_lt : c.rsp < 2 ^ 64
  rip : canonical c.rip = true
  flags : c.rflags &&& returnFlags ||| 2 = c.rflags
  room : 184 ≤ interruptTop s c
  apart : ∀ x, interruptTop s c - 184 ≤ x → x < interruptTop s c → ¬TableByte s x

theorem interruptTop_lt (h : Interruptible s c) : interruptTop s c < 2 ^ 64 := by
  have hlt := h.rsp_lt
  have hstack := s.stack_lt
  rw [interruptTop]
  split <;> omega

theorem TablesReady.tssBase_eq (h : TablesReady s m) :
    tssBase (systemRegisters s) m = s.tss := by
  have haddr : descriptorAddr (systemRegisters s).gdtr (systemRegisters s).tr =
      some (s.gdt + gdtTss) :=
    descriptorAddr_gdtr s gdtTss (by decide) (by decide) (by decide)
  simp only [tssBase, haddr, h.tss, h.tss_upper]
  omega

theorem TablesReady.descriptor_kernelCode (h : TablesReady s m) :
    descriptor (gdtr s) m gdtKernelCode = some ⟨0, 0xFFFFF, 0x9A, 0xA⟩ := by
  rw [descriptor, descriptorAddr_gdtr s gdtKernelCode (by decide) (by decide) (by decide)]
  exact congrArg some h.kernelCode

theorem TablesReady.descriptor_kernelData (h : TablesReady s m) :
    descriptor (gdtr s) m gdtKernelData = some ⟨0, 0xFFFFF, 0x92, 0x8⟩ := by
  rw [descriptor, descriptorAddr_gdtr s gdtKernelData (by decide) (by decide) (by decide)]
  exact congrArg some h.kernelData

theorem TablesReady.descriptor_userCode (h : TablesReady s m) :
    descriptor (gdtr s) m (gdtUserCode + 3) = some ⟨0, 0xFFFFF, 0xFA, 0xA⟩ := by
  rw [descriptor, descriptorAddr_gdtr s (gdtUserCode + 3) (by decide) (by decide) (by decide)]
  exact congrArg some h.userCode

theorem TablesReady.descriptor_userData (h : TablesReady s m) :
    descriptor (gdtr s) m (gdtUserData + 3) = some ⟨0, 0xFFFFF, 0xF2, 0x8⟩ := by
  rw [descriptor, descriptorAddr_gdtr s (gdtUserData + 3) (by decide) (by decide) (by decide)]
  exact congrArg some h.userData

theorem descriptor_null (gdtr : TableRegister) (m : Mem) : descriptor gdtr m 0 = none := by
  simp [descriptor, descriptorAddr]

/-- The processor when the routine begins. -/
def entryCpu (s : Statics) (c : Cpu Register) (v : ℕ) (error : Option ℕ) : Cpu Register :=
  { c with
    rsp := interruptTop s c - frameSize error
    rip := initialHandlers s v
    rflags := c.rflags &&& ~~~clearedFlags 14
    cs := gdtKernelCode
    ss := if c.cpl = 0 then c.ss else 0 }

theorem frameSize_le (error : Option ℕ) : frameSize error ≤ 48 := by
  cases error with
  | none => decide
  | some e => exact le_rfl

/-- Every vector is delivered, from user code and from the kernel, to the
handler of the table. -/
theorem interrupt_eq (h : TablesReady s m) (hc : Interruptible s c) (hv : v < idtEntries) :
    interrupt (systemRegisters s) m c v error =
      some (storeFields m (interruptTop s c - frameSize error) (interruptFrame c error),
        entryCpu s c v error) := by
  have hgate : gateAt m ((systemRegisters s).idtr.base + 16 * v) =
      handlerGate (initialHandlers s v) := h.handlers v hv
  have hlimit : ¬((systemRegisters s).idtr.limit < 16 * v + 15) := by
    have hlimit : (systemRegisters s).idtr.limit = 16 * idtEntries - 1 := rfl
    omega
  have hcode : descriptor (systemRegisters s).gdtr m gdtKernelCode =
      some ⟨0, 0xFFFFF, 0x9A, 0xA⟩ := h.descriptor_kernelCode
  have htop : handlerStack (systemRegisters s) m c 0 0 = interruptTop s c := by
    have hstack := s.stack_aligned
    have hsize : kernelStackSize % 16 = 0 := rfl
    rw [handlerStack, interruptTop, h.tssBase_eq]
    by_cases hcpl : c.cpl = 0
    · rw [if_neg (by simp), if_neg (by omega), if_pos hcpl]
    · rw [if_neg (by simp), if_pos (by omega), if_neg hcpl]
      have hrsp0 := h.rsp0
      simp only [Nat.mul_zero, Nat.add_zero, hrsp0]
      omega
  have hrsp : (interruptTop s c + 2 ^ 64 - frameSize error) % 2 ^ 64 =
      interruptTop s c - frameSize error := by
    have hroom := hc.room
    have hlt := interruptTop_lt hc
    have hsize := frameSize_le error
    omega
  have hcpl : ¬c.cpl < 0 := Nat.not_lt_zero _
  have hss : (if 0 < c.cpl then 0 else c.ss) = if c.cpl = 0 then c.ss else 0 := by
    by_cases h0 : c.cpl = 0
    · rw [if_neg (by omega), if_pos h0]
    · rw [if_pos (by omega), if_neg h0]
  have hselector : (8 : ℕ) = gdtKernelCode := rfl
  have hdpl : Segment.dpl ⟨0, 0xFFFFF, 0x9A, 0xA⟩ = 0 := by decide
  have hisCode : Segment.isCode ⟨0, 0xFFFFF, 0x9A, 0xA⟩ = true := by decide
  have hisLong : Segment.isLong ⟨0, 0xFFFFF, 0x9A, 0xA⟩ = true := by decide
  simp only [interrupt, hgate, handlerGate, hlimit, hselector, hcode, hdpl, hisCode, hisLong, hcpl,
    htop, hrsp, hss, UInt64.ofNat_toNat]
  simp [entryCpu, gdtKernelCode]

/-! ## Returning -/

/-- The frame of an interrupted program on the stack. -/
structure OnStack (m : Mem) (a : ℕ) (c : Cpu Register) : Prop where
  rip : readLE m a 8 = c.rip.toNat
  cs : readLE m (a + 8) 8 = c.cs
  rflags : readLE m (a + 16) 8 = c.rflags.toNat
  rsp : readLE m (a + 24) 8 = c.rsp
  ss : readLE m (a + 32) 8 = c.ss

theorem Selectors.lt (h : Selectors c) : c.cs < 2 ^ 16 ∧ c.ss < 2 ^ 16 := by
  rcases h with ⟨hcs, hss⟩ | ⟨hcs, hss | hss⟩
  all_goals rw [hcs, hss]
  all_goals decide

/-- The processor accepts the selectors of a program that was interrupted. -/
theorem iretq_eq (h : TablesReady s m) (hc : Interruptible s c) {c₁ : Cpu Register}
    (hcpl : c₁.cpl = 0) (hfit : c₁.rsp + 40 ≤ 2 ^ 64) (hstack : OnStack m c₁.rsp c) :
    Cpu.iretq (systemRegisters s) m c₁ = some { c₁ with
      rip := c.rip, cs := c.cs, rflags := c.rflags, rsp := c.rsp, ss := c.ss } := by
  obtain ⟨hcs, hss⟩ := hc.selectors.lt
  have hword : ∀ o, o + 8 ≤ 40 → stackWord m (c₁.rsp + o) = readLE m (c₁.rsp + o) 8 := fun o ho ↦ by
    rw [stackWord, Nat.mod_eq_of_lt (by omega)]
  have hrip : stackWord m c₁.rsp = c.rip.toNat := (hword 0 (by decide)).trans hstack.rip
  have hcs' : stackWord m (c₁.rsp + 8) % 2 ^ 16 = c.cs := by
    rw [hword 8 (by decide), hstack.cs, Nat.mod_eq_of_lt hcs]
  have hflags : stackWord m (c₁.rsp + 16) = c.rflags.toNat :=
    (hword 16 (by decide)).trans hstack.rflags
  have hrsp : stackWord m (c₁.rsp + 24) = c.rsp := (hword 24 (by decide)).trans hstack.rsp
  have hss' : stackWord m (c₁.rsp + 32) % 2 ^ 16 = c.ss := by
    rw [hword 32 (by decide), hstack.ss, Nat.mod_eq_of_lt hss]
  have hgdtr : (systemRegisters s).gdtr = gdtr s := rfl
  simp only [Cpu.iretq, hrip, hcs', hflags, hrsp, hss', UInt64.ofNat_toNat, hc.rip, hc.flags, hcpl,
    hgdtr]
  rcases hc.selectors with ⟨hcs, hss⟩ | ⟨hcs, hss | hss⟩
  · rw [hcs, hss, h.descriptor_userCode, h.descriptor_userData]
    rfl
  · rw [hcs, hss, h.descriptor_kernelCode, h.descriptor_kernelData]
    rfl
  · rw [hcs, hss, h.descriptor_kernelCode, descriptor_null]
    rfl

/-! ## The default routine -/

theorem acknowledge_byte (v : UInt64) :
    (v &&& ~~~0xFF ||| (0x20 : UInt8).toUInt64).toUInt8 = 0x20 := by
  rw [UInt64.toUInt8_or, UInt64.toUInt8_and]
  have hmask : (~~~0xFF : UInt64).toUInt8 = 0 := by decide
  rw [hmask, UInt8.and_zero]
  decide

theorem acknowledge_balanced :
    StackBalanced [Instr.movByte Register.rax 0x20, .outByte 0x20 .rax] 0 (fun r ↦ r ≠ .rax)
      (fun _ ↦ [(0x20, 0x20)]) := by
  refine ⟨fun _ _ _ ↦ rfl, fun _ _ _ _ _ ↦ rfl, fun c _ _ r hr ↦ ?_, fun c ↦ ?_⟩
  · exact Function.update_of_ne hr _ _
  · have hbyte := acknowledge_byte (c.regs .rax)
    have hports : (run [Instr.movByte Register.rax 0x20, .outByte 0x20 .rax] c).ports =
        c.ports ++ [(0x20, (c.regs .rax &&& ~~~0xFF ||| (0x20 : UInt8).toUInt64).toUInt8)] := rfl
    rw [hports, hbyte]

theorem isrDefault_balanced :
    StackBalanced isrDefault 120 (fun _ ↦ True) (fun _ ↦ [(0x20, 0x20)]) := by
  have hsaved := acknowledge_balanced.saved savedRegisters
  rw [isrDefault_eq]
  refine ⟨hsaved.rsp, hsaved.mem, fun c hroom hlt r _ ↦ hsaved.regs c hroom hlt r ?_, hsaved.ports⟩
  left
  cases r <;> decide

/-! ## Serving an interrupt -/

/-- The state of the processor and of memory when `isr_default` returns. -/
def servedCore (s : Statics) (m : Mem) (c : Cpu Register) (error : Option ℕ) : Core Register :=
  run isrDefault ⟨c.regs, interruptTop s c - frameSize error,
    storeFields m (interruptTop s c - frameSize error) (interruptFrame c error), 0, []⟩

theorem initialHandlers_of_ne (hv : v ≠ 14) : initialHandlers s v = s.isrDefault :=
  Function.update_of_ne hv ..

theorem serve_eq (h : TablesReady s m) (hc : Interruptible s c) (hv : v < idtEntries)
    (hv' : v ≠ 14) :
    serve s m c v error =
      ((afterRoutine (entryCpu s c v error) (servedCore s m c error)).iretq (systemRegisters s)
        (servedCore s m c error).mem).map
        fun c₂ ↦ ((servedCore s m c error).mem, c₂, (servedCore s m c error).ports) := by
  have hhandler : (entryCpu s c v error).rip = s.isrDefault := initialHandlers_of_ne hv'
  rw [serve, interrupt_eq h hc hv]
  exact if_pos hhandler

theorem servedCore_rsp (hc : Interruptible s c) :
    (servedCore s m c error).rsp = interruptTop s c - frameSize error := by
  have hroom := hc.room
  have hlt := interruptTop_lt hc
  have hsize := frameSize_le error
  exact isrDefault_balanced.rsp _ (by dsimp only; omega) (by dsimp only; omega)

theorem servedCore_regs (hc : Interruptible s c) : (servedCore s m c error).regs = c.regs := by
  have hroom := hc.room
  have hlt := interruptTop_lt hc
  have hsize := frameSize_le error
  funext r
  exact isrDefault_balanced.regs _ (by dsimp only; omega) (by dsimp only; omega) r trivial

theorem servedCore_ports : (servedCore s m c error).ports = [(0x20, 0x20)] :=
  isrDefault_balanced.ports _

/-- Above the saved registers the stack holds the frame that was pushed. -/
theorem servedCore_frame (hc : Interruptible s c) {x : ℕ}
    (hx : x < interruptTop s c - frameSize error - 120 ∨
      interruptTop s c - frameSize error ≤ x) :
    (servedCore s m c error).mem x =
      storeFields m (interruptTop s c - frameSize error) (interruptFrame c error) x := by
  have hroom := hc.room
  have hlt := interruptTop_lt hc
  have hsize := frameSize_le error
  exact isrDefault_balanced.mem _ (by dsimp only; omega) (by dsimp only; omega) x hx

theorem interruptFrame_bounds (c : Cpu Register) (error : Option ℕ) :
    ∀ f ∈ interruptFrame c error, f.1 + f.2.1 ≤ frameSize error := by
  cases error <;> simp [interruptFrame, frameSize]

theorem interruptFrame_separate (c : Cpu Register) (error : Option ℕ) :
    Separate (interruptFrame c error) := by
  cases error <;> simp [Separate, interruptFrame, Apart]

/-- A word of the frame is still there when the routine returns. -/
theorem servedCore_word (offset : ℕ) (hc : Interruptible s c) {value : ℕ}
    (hfield : (offset, 8, value) ∈ interruptFrame c error) (hvalue : value < 2 ^ 64) :
    readLE (servedCore s m c error).mem (interruptTop s c - frameSize error + offset) 8 =
      value := by
  have hframe := (interruptFrame_separate c error).readLE
    (m := m) (a := interruptTop s c - frameSize error) hfield
  have hmod : value % 256 ^ 8 = value := Nat.mod_eq_of_lt hvalue
  rw [← hmod, ← hframe]
  refine readLE_congr fun x hlow hhigh ↦ servedCore_frame hc (Or.inr ?_)
  omega

/-- The routine stores below the top of the stack only. -/
theorem servedCore_mem (hc : Interruptible s c) {x : ℕ}
    (hx : x < interruptTop s c - frameSize error - 120 ∨ interruptTop s c ≤ x) :
    (servedCore s m c error).mem x = m x := by
  have hroom := hc.room
  have hsize := frameSize_le error
  rw [servedCore_frame hc (by omega)]
  exact storeFields_outside (interruptFrame_bounds c error) (by omega)

theorem servedCore_tablesReady (h : TablesReady s m) (hc : Interruptible s c) :
    TablesReady s (servedCore s m c error).mem := by
  refine h.congr fun x hx ↦ servedCore_mem hc ?_
  by_contra hstack
  have hsize := frameSize_le error
  exact hc.apart x (by omega) (by omega) hx

/-- Without an error code the routine is transparent: the program goes on as
it was, and the interrupt is acknowledged. -/
theorem serve_none (h : TablesReady s m) (hc : Interruptible s c) (hv : v < idtEntries)
    (hv' : v ≠ 14) :
    ∃ m', serve s m c v none = some (m', c, [(0x20, 0x20)]) ∧
      ∀ x, x < interruptTop s c - 160 ∨ interruptTop s c ≤ x → m' x = m x := by
  have hroom := hc.room
  have hlt := interruptTop_lt hc
  obtain ⟨hcs, hss⟩ := hc.selectors.lt
  have hsize : frameSize none = 40 := rfl
  have hrsp : (afterRoutine (entryCpu s c v none) (servedCore s m c none)).rsp =
      interruptTop s c - frameSize none := servedCore_rsp hc
  have hcpl : (afterRoutine (entryCpu s c v none) (servedCore s m c none)).cpl = 0 := by
    change gdtKernelCode % 4 = 0
    decide
  have hstack : OnStack (servedCore s m c none).mem (interruptTop s c - frameSize none) c := by
    constructor
    · exact servedCore_word 0 hc (by simp [interruptFrame]) c.rip.toNat_lt
    · exact servedCore_word 8 hc (by simp [interruptFrame]) (by omega)
    · exact servedCore_word 16 hc (by simp [interruptFrame]) c.rflags.toNat_lt
    · exact servedCore_word 24 hc (by simp [interruptFrame]) hc.rsp_lt
    · exact servedCore_word 32 hc (by simp [interruptFrame]) (by omega)
  have hiretq := iretq_eq (servedCore_tablesReady h hc) hc hcpl (by rw [hrsp]; omega)
    (by rw [hrsp]; exact hstack)
  refine ⟨(servedCore s m c none).mem, ?_, fun x hx ↦ servedCore_mem hc (by omega)⟩
  rw [serve_eq h hc hv hv', hiretq, servedCore_ports, afterRoutine, servedCore_regs hc]
  rfl

/-- An error code is taken for the address to return to. -/
theorem serve_error (h : TablesReady s m) (hc : Interruptible s c) (hv : v < idtEntries)
    (hv' : v ≠ 14) {e : ℕ} (he : e < 2 ^ 64) {m' : Mem} {c' : Cpu Register}
    {ports : List (ℕ × UInt8)} (hserve : serve s m c v (some e) = some (m', c', ports)) :
    c'.rip.toNat = e := by
  have hroom := hc.room
  have hlt := interruptTop_lt hc
  have hsize := frameSize_le (some e)
  have hrsp : (afterRoutine (entryCpu s c v (some e)) (servedCore s m c (some e))).rsp =
      interruptTop s c - frameSize (some e) := servedCore_rsp hc
  have hword : readLE (servedCore s m c (some e)).mem (interruptTop s c - frameSize (some e)) 8 =
      e :=
    servedCore_word 0 hc (by simp [interruptFrame]) he
  rw [serve_eq h hc hv hv', Option.map_eq_some_iff] at hserve
  obtain ⟨c₂, hiretq, heq⟩ := hserve
  have hc₂ : c₂ = c' := congrArg (·.2.1) heq
  rw [← hc₂, (Cpu.iretq_rip hiretq).1, hrsp, stackWord, Nat.mod_eq_of_lt (by omega), hword,
    UInt64.toNat_ofNat_of_lt' he]

/-- The default routine goes back to the interrupted program, unchanged and
with the interrupt acknowledged, exactly when there is no error code. -/
theorem serve_resumes_iff (h : TablesReady s m) (hc : Interruptible s c) (hv : v < idtEntries)
    (hv' : v ≠ 14) (hrip : 2 ^ 16 ≤ c.rip.toNat) (herror : ∀ e ∈ error, e < 2 ^ 16) :
    (∃ m', serve s m c v error = some (m', c, [(0x20, 0x20)]) ∧
      ∀ x, x < interruptTop s c - 160 ∨ interruptTop s c ≤ x → m' x = m x) ↔ error = none := by
  constructor
  · rintro ⟨m', hserve, -⟩
    cases error with
    | none => rfl
    | some e =>
        have he : e < 2 ^ 16 := herror e rfl
        have hreturn := serve_error h hc hv hv' (by omega) hserve
        omega
  · rintro rfl
    exact serve_none h hc hv hv'

/-- Tables and a stack behind one another. -/
def sampleStatics : Statics where
  gdt := 0x101000
  idt := 0x102000
  tss := 0x104000
  kernelStack := 0x10A000
  cpuState := 0x105000
  isrDefault := 0x100100
  isrPageFault := 0x100200
  syscallEntry := 0x100300
  gdt_idt := by decide
  gdt_tss := by decide
  idt_tss := by decide
  stack_gdt := by decide
  stack_idt := by decide
  stack_tss := by decide
  tss_lt := by decide
  stack_lt := by decide
  stack_aligned := by decide

/-- A user program at its first instruction. -/
def sampleProgram : Cpu Register where
  regs := fun _ ↦ 0
  rsp := 0x500000
  rip := 0x400000
  rflags := 0x202
  cs := gdtUserCode + 3
  ss := gdtUserData + 3
  gsBase := 0
  kernelGsBase := 0x105000

theorem sampleProgram_interruptible : Interruptible sampleStatics sampleProgram := by
  have htop : interruptTop sampleStatics sampleProgram = 0x10A000 + kernelStackSize := rfl
  refine ⟨Or.inl ⟨rfl, rfl⟩, by decide, by decide, by decide, by decide, fun x hlow hhigh ↦ ?_⟩
  rw [htop] at hlow hhigh
  simp only [TableByte, sampleStatics, gdtSize, idtEntries, tssSize, kernelStackSize] at *
  omega

theorem sampleProgram_resumes : ∃ m m', TablesReady sampleStatics m ∧
    serve sampleStatics m sampleProgram 32 none = some (m', sampleProgram, [(0x20, 0x20)]) := by
  obtain ⟨m, -, h, -⟩ := tablesReady_init sampleStatics fun _ ↦ 0
  have hnone : ∀ e ∈ (none : Option ℕ), e < 2 ^ 16 := by simp
  obtain ⟨m', hserve, -⟩ := (serve_resumes_iff (v := 32) h sampleProgram_interruptible (by decide)
    (by decide) (by decide) hnone).mpr rfl
  exact ⟨m, m', h, hserve⟩

/-! ## Page faults -/

/-- The text that `page_fault_handler` writes before it halts. -/
def pageFaultHandler (errorCode rip rsp cr2 : ℕ) : List String :=
  ["[OS] [PF] Page fault\n", "[OS] [PF] CR2: ", Heap.serialUint64 cr2, "\n",
    "[OS] [PF] RIP: ", Heap.serialUint64 rip, "\n", "[OS] [PF] RSP: ", Heap.serialUint64 rsp, "\n",
    "[OS] [PF] Error: ", Heap.serialUint64 errorCode, "\n"]

/-- A page fault: the stack pointer at the call of the handler, and what the
handler writes.  `cr2` is the address that faulted. -/
def pageFault (s : Statics) (m : Mem) (c : Cpu Register) (error : ℕ) (cr2 : UInt64) :
    Option (ℕ × List String) :=
  match interrupt (systemRegisters s) m c 14 (some error) with
  | none => none
  | some (m₁, c₁) =>
      if c₁.rip = s.isrPageFault then
        let core := run isrPageFault ⟨c₁.regs, c₁.rsp, m₁, cr2, []⟩
        some (core.rsp, pageFaultHandler (core.regs .rdi).toNat (core.regs .rsi).toNat
          (core.regs .rdx).toNat (core.regs .rcx).toNat)
      else none

/-- `isr_page_fault` once the registers are pushed. -/
def loadArguments : List (Instr Register) :=
  [.load .rdi .rbx 0, .load .rsi .rbx 8, .load .rdx .rbx 32, .movCr2 .rax, .mov .rcx .rax,
    .subRsp 8]

theorem isrPageFault_eq :
    isrPageFault = .movRsp .rbx :: (savedRegisters.map Instr.push ++ loadArguments) := rfl

theorem loadArguments_regs (c : Core Register) :
    (run loadArguments c).regs .rdi =
        UInt64.ofNat (stackWord c.mem ((c.regs .rbx).toNat + 0)) ∧
      (run loadArguments c).regs .rsi =
        UInt64.ofNat (stackWord c.mem ((c.regs .rbx).toNat + 8)) ∧
      (run loadArguments c).regs .rdx =
        UInt64.ofNat (stackWord c.mem ((c.regs .rbx).toNat + 32)) ∧
      (run loadArguments c).regs .rcx = c.cr2 := ⟨rfl, rfl, rfl, rfl⟩

/-- The frame of the page fault, once the registers are pushed below it. -/
theorem pageFault_word (hc : Interruptible s c) {e offset value : ℕ} {core : Core Register}
    (hmem : ∀ x, interruptTop s c - frameSize (some e) ≤ x → core.mem x =
      storeFields m (interruptTop s c - frameSize (some e)) (interruptFrame c (some e)) x)
    (hfield : (offset, 8, value) ∈ interruptFrame c (some e)) (hvalue : value < 2 ^ 64) :
    stackWord core.mem (interruptTop s c - frameSize (some e) + offset) = value := by
  have hlt := interruptTop_lt hc
  have hroom := hc.room
  have hsize : frameSize (some e) = 48 := rfl
  have hbound := interruptFrame_bounds c (some e) _ hfield
  have hframe := (interruptFrame_separate c (some e)).readLE
    (m := m) (a := interruptTop s c - frameSize (some e)) hfield
  have hmod : value % 256 ^ 8 = value := Nat.mod_eq_of_lt hvalue
  dsimp only at hbound
  rw [stackWord, Nat.mod_eq_of_lt (by omega), ← hmod, ← hframe]
  exact readLE_congr fun x hlow _ ↦ hmem x (by omega)

theorem interruptTop_aligned (s : Statics) (c : Cpu Register) : interruptTop s c % 16 = 0 := by
  have hstack := s.stack_aligned
  have hsize : kernelStackSize % 16 = 0 := rfl
  rw [interruptTop]
  split <;> omega

/-- Every page fault is reported with the address that faulted and with the
program's own instruction and stack pointers; the handler is called on an
aligned stack. -/
theorem pageFault_reports (h : TablesReady s m) (hc : Interruptible s c) {e : ℕ}
    (he : e < 2 ^ 64) (cr2 : UInt64) :
    ∃ rsp, rsp % 16 = 0 ∧ pageFault s m c e cr2 =
      some (rsp, pageFaultHandler e c.rip.toNat c.rsp cr2.toNat) := by
  have hlt := interruptTop_lt hc
  have hroom := hc.room
  have hsize : frameSize (some e) = 48 := rfl
  have haligned := interruptTop_aligned s c
  have hhandler : (entryCpu s c 14 (some e)).rip = s.isrPageFault := by
    change initialHandlers s 14 = s.isrPageFault
    exact Function.update_self ..
  set rsp := interruptTop s c - frameSize (some e) with hrsp
  set start : Core Register := ⟨c.regs, rsp, storeFields m rsp (interruptFrame c (some e)), cr2, []⟩
    with hstart
  set pushed := run (savedRegisters.map Instr.push) (step start (.movRsp .rbx)) with hpushed
  have hpush : Pushed (step start (.movRsp .rbx)) 15 pushed :=
    pushed_run (step start (.movRsp .rbx)) savedRegisters
      (by change 8 * 15 ≤ rsp; omega) (by change rsp < 2 ^ 64; omega)
  have hrun : run isrPageFault start = run loadArguments pushed := by
    rw [isrPageFault_eq, run_cons, run_append]
  have hbase : (pushed.regs .rbx).toNat = rsp := by
    rw [hpush.regs]
    exact UInt64.toNat_ofNat_of_lt' (by change rsp < 2 ^ 64; omega)
  have hmem : ∀ x, rsp ≤ x → pushed.mem x = storeFields m rsp (interruptFrame c (some e)) x :=
    hpush.mem
  obtain ⟨hrdi, hrsi, hrdx, hrcx⟩ := loadArguments_regs pushed
  rw [hbase, pageFault_word hc hmem (by simp [interruptFrame]) he] at hrdi
  rw [hbase, pageFault_word hc hmem (by simp [interruptFrame]) c.rip.toNat_lt] at hrsi
  rw [hbase, pageFault_word hc hmem (by simp [interruptFrame]) hc.rsp_lt] at hrdx
  have hcr2 : pushed.cr2 = cr2 := hpush.cr2
  have hfinal : (run loadArguments pushed).rsp = rsp - 128 := by
    change below pushed.rsp 8 = rsp - 128
    have hbelow : pushed.rsp = rsp - 8 * 15 := hpush.rsp
    rw [below_eq (by omega) (by omega)]
    omega
  refine ⟨rsp - 128, by omega, ?_⟩
  rw [pageFault, interrupt_eq h hc (by decide)]
  refine (if_pos hhandler).trans ?_
  change some ((run isrPageFault start).rsp,
    pageFaultHandler ((run isrPageFault start).regs .rdi).toNat
      ((run isrPageFault start).regs .rsi).toNat ((run isrPageFault start).regs .rdx).toNat
      ((run isrPageFault start).regs .rcx).toNat) = _
  rw [hrun, hfinal, hrdi, hrsi, hrdx, hrcx, hcr2, UInt64.toNat_ofNat_of_lt' he, UInt64.ofNat_toNat,
    UInt64.toNat_ofNat_of_lt' hc.rsp_lt]

end ImplusKernel.Cpu
