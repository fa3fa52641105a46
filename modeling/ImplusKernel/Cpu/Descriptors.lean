import ImplusKernel.Lib.Processor
import ImplusKernel.Lib.Words

/-!
# Descriptor tables

`init_gdt` and `init_idt` fill the two tables that the processor consults at
every interrupt, and `syscall_init` the registers that it consults at every
system call.  The handlers in the interrupt table can be exchanged later; the
calls that do so check the vector or the number of the interrupt line, but
`set_interrupt_handler` itself takes any index.
-/

namespace ImplusKernel.Cpu

open ByteMemory Fields Processor Words

/-- `sizeof(struct TSS)`. -/
def tssSize : ℕ := 104

/-- `sizeof(gdt)`. -/
def gdtSize : ℕ := 64

def idtEntries : ℕ := 256

/-- `sizeof(kernel_stack)`. -/
def kernelStackSize : ℕ := 4096 * 4

/-- Where the linker put the static objects, apart from each other, and the
routines. -/
structure Statics where
  gdt : ℕ
  idt : ℕ
  tss : ℕ
  kernelStack : ℕ
  cpuState : ℕ
  isrDefault : UInt64
  isrPageFault : UInt64
  syscallEntry : UInt64
  gdt_idt : gdt + gdtSize ≤ idt ∨ idt + 16 * idtEntries ≤ gdt
  gdt_tss : gdt + gdtSize ≤ tss ∨ tss + tssSize ≤ gdt
  idt_tss : idt + 16 * idtEntries ≤ tss ∨ tss + tssSize ≤ idt
  stack_gdt : kernelStack + kernelStackSize ≤ gdt ∨ gdt + gdtSize ≤ kernelStack
  stack_idt : kernelStack + kernelStackSize ≤ idt ∨ idt + 16 * idtEntries ≤ kernelStack
  stack_tss : kernelStack + kernelStackSize ≤ tss ∨ tss + tssSize ≤ kernelStack
  tss_lt : tss < 2 ^ 64
  stack_lt : kernelStack + kernelStackSize < 2 ^ 64
  stack_aligned : kernelStack % 16 = 0

def gdtKernelCode : ℕ := 0x08

def gdtKernelData : ℕ := 0x10

def gdtUserCompatCode : ℕ := 0x18

def gdtUserData : ℕ := 0x20

def gdtUserCode : ℕ := 0x28

def gdtTss : ℕ := 0x30

/-! ## The global descriptor table -/

def makeGdtEntry (limit access flags : ℕ) : List Field :=
  [(0, 2, limit &&& 0xFFFF), (2, 2, 0), (4, 1, 0), (5, 1, access),
    (6, 1, (limit >>> 16 &&& 0x0F) ||| (flags &&& 0xF0)), (7, 1, 0)]

/-- `gdt.tss`, a descriptor of sixteen bytes. -/
def tssEntry (tssBase tssLimit : ℕ) : List Field :=
  [(0, 2, tssLimit &&& 0xFFFF), (2, 2, tssBase &&& 0xFFFF), (4, 1, tssBase >>> 16 &&& 0xFF),
    (5, 1, 0x89), (6, 1, tssLimit >>> 16 &&& 0x0F), (7, 1, tssBase >>> 24 &&& 0xFF),
    (8, 4, tssBase >>> 32), (12, 4, 0)]

/-- The fields of `tss` that `init_gdt` sets: `ist`, `rsp0`, `io_map_base`. -/
def tssFields (kernelStack : ℕ) : List Field :=
  [(36, 8, 0), (44, 8, 0), (52, 8, 0), (60, 8, 0), (68, 8, 0), (76, 8, 0), (84, 8, 0),
    (4, 8, kernelStack + kernelStackSize), (102, 2, tssSize)]

/-- An entry of `gdt` with the arguments of `make_gdt_entry`. -/
structure GdtArgs where
  selector : ℕ
  limit : ℕ
  access : ℕ
  flags : ℕ

def gdtEntries : List GdtArgs :=
  [⟨0, 0, 0, 0⟩,
    ⟨gdtKernelCode, 0xFFFFF, 0x9A, 0xA0⟩,
    ⟨gdtKernelData, 0xFFFFF, 0x92, 0x80⟩,
    ⟨gdtUserCompatCode, 0xFFFFF, 0xFA, 0xC0⟩,
    ⟨gdtUserData, 0xFFFFF, 0xF2, 0x80⟩,
    ⟨gdtUserCode, 0xFFFFF, 0xFA, 0xA0⟩]

def storeEntries (gdt : ℕ) (m : Mem) (entries : List GdtArgs) : Mem :=
  entries.foldl
    (fun m e ↦ storeFields m (gdt + e.selector) (makeGdtEntry e.limit e.access e.flags)) m

/-- Memory after `init_gdt`, up to the call of `gdt_flush`. -/
def initGdt (s : Statics) (m : Mem) : Mem :=
  let m := storeEntries s.gdt m gdtEntries
  let m := storeFields m (s.gdt + gdtTss) (tssEntry s.tss (tssSize - 1))
  storeFields m s.tss (tssFields s.kernelStack)

def gdtr (s : Statics) : TableRegister := ⟨s.gdt, gdtSize - 1⟩

/-- `gdt_flush` and `tss_flush`: the second one loads the task register. -/
def flushGdt (s : Statics) (m : Mem) : Option Mem := ltr (gdtr s) m gdtTss

/-! ## The interrupt descriptor table -/

def idtEntry (handler : UInt64) : List Field :=
  [(0, 2, handler.toNat &&& 0xFFFF), (2, 2, 0x08), (4, 1, 0), (5, 1, 0x8E),
    (6, 2, handler.toNat >>> 16 &&& 0xFFFF), (8, 4, handler.toNat >>> 32 &&& 0xFFFFFFFF),
    (12, 4, 0)]

def setInterruptHandler (s : Statics) (m : Mem) (n : ℕ) (handler : UInt64) : Mem :=
  storeFields m (s.idt + 16 * n) (idtEntry handler)

def setExceptionHandler (s : Statics) (m : Mem) (exceptionNum : UInt16) (handler : UInt64) : Mem :=
  if exceptionNum < 32 then setInterruptHandler s m exceptionNum.toNat handler else m

def setIrqHandler (s : Statics) (m : Mem) (irq : UInt16) (handler : UInt64) : Mem :=
  if irq < 16 then setInterruptHandler s m (32 + irq.toNat) handler else m

/-- Memory after `init_idt`. -/
def initIdt (s : Statics) (m : Mem) : Mem :=
  let m := (List.range idtEntries).foldl (fun m i ↦ setInterruptHandler s m i s.isrDefault) m
  setInterruptHandler s m 14 s.isrPageFault

def idtr (s : Statics) : TableRegister := ⟨s.idt, 16 * idtEntries - 1⟩

/-! ## The registers for system calls -/

def rflagsIf : UInt64 := (1 : UInt64) <<< 9

/-- What `syscall_init` writes to IA32_STAR. -/
def star : UInt64 := UInt64.ofNat gdtKernelCode <<< 32 ||| UInt64.ofNat gdtUserCompatCode <<< 48

/-- The registers once the kernel has set up the processor. -/
def systemRegisters (s : Statics) : SystemRegisters where
  gdtr := gdtr s
  idtr := idtr s
  tr := gdtTss
  star := star
  lstar := s.syscallEntry
  fmask := rflagsIf

/-! ## Entries read back -/

variable {s : Statics} {m m' : Mem} {a : ℕ}

theorem makeGdtEntry_size (limit access flags : ℕ) :
    ∀ f ∈ makeGdtEntry limit access flags, f.1 + f.2.1 ≤ 8 := by
  simp [makeGdtEntry]

theorem tssEntry_size (tssBase tssLimit : ℕ) :
    ∀ f ∈ tssEntry tssBase tssLimit, f.1 + f.2.1 ≤ 16 := by
  simp [tssEntry]

theorem tssFields_size (kernelStack : ℕ) :
    ∀ f ∈ tssFields kernelStack, f.1 + f.2.1 ≤ tssSize := by
  simp [tssFields, tssSize]

theorem idtEntry_size (handler : UInt64) : ∀ f ∈ idtEntry handler, f.1 + f.2.1 ≤ 16 := by
  simp [idtEntry]

theorem land_low (v k : ℕ) : v &&& (2 ^ k - 1) = v % 2 ^ k := Nat.and_two_pow_sub_one_eq_mod v k

/-- The two nibbles of the last byte but one. -/
theorem gran_eq (limit flags : ℕ) :
    (limit >>> 16 &&& 0x0F) ||| (flags &&& 0xF0) = flags / 2 ^ 4 % 2 ^ 4 * 2 ^ 4 +
      limit / 2 ^ 16 % 2 ^ 4 := by
  have hlow : limit >>> 16 &&& 0x0F = limit / 2 ^ 16 % 2 ^ 4 := by
    rw [Nat.shiftRight_eq_div_pow]
    exact land_low _ 4
  have hhigh : flags &&& 0xF0 = flags / 2 ^ 4 % 2 ^ 4 * 2 ^ 4 := by
    have hmask : 0xF0 = highMask 8 4 := rfl
    have hbyte : flags &&& highMask 8 4 = flags % 2 ^ 8 &&& highMask 8 4 := by
      rw [← land_low, Nat.land_assoc]
      rfl
    rw [hmask, hbyte, land_highMask (by norm_num) (Nat.mod_lt _ (by norm_num))]
    omega
  rw [hlow, hhigh, Nat.lor_comm, lor_eq_add (Dvd.intro_left _ rfl) (Nat.mod_lt _ (by norm_num))]

/-- The processor reads what `make_gdt_entry` was given. -/
theorem segmentAt_makeGdtEntry (m : Mem) (a limit : ℕ) {access flags : ℕ}
    (haccess : access < 2 ^ 8) :
    segmentAt (storeFields m a (makeGdtEntry limit access flags)) a =
      ⟨0, limit % 2 ^ 20, access, flags / 2 ^ 4 % 2 ^ 4⟩ := by
  have hsep : Separate (makeGdtEntry limit access flags) := by
    simp [makeGdtEntry, Separate, Apart]
  have hlow : limit &&& 0xFFFF = limit % 2 ^ 16 := land_low limit 16
  have h₀ : (0, 2, limit % 2 ^ 16) ∈ makeGdtEntry limit access flags := by
    simp [makeGdtEntry, hlow]
  have h₂ : (2, 2, 0) ∈ makeGdtEntry limit access flags := by simp [makeGdtEntry]
  have h₄ : (4, 1, 0) ∈ makeGdtEntry limit access flags := by simp [makeGdtEntry]
  have h₅ : (5, 1, access) ∈ makeGdtEntry limit access flags := by simp [makeGdtEntry]
  have h₆ : (6, 1, flags / 2 ^ 4 % 2 ^ 4 * 2 ^ 4 + limit / 2 ^ 16 % 2 ^ 4) ∈
      makeGdtEntry limit access flags := by
    rw [← gran_eq]
    simp [makeGdtEntry]
  have h₇ : (7, 1, 0) ∈ makeGdtEntry limit access flags := by simp [makeGdtEntry]
  rw [segmentAt_storeFields hsep h₀ h₂ h₄ h₅ h₆ h₇, Segment.mk.injEq]
  omega

/-- The descriptor of the task state segment, with the upper half of its base. -/
theorem segmentAt_tssEntry (m : Mem) (a limit : ℕ) {base : ℕ} (hbase : base < 2 ^ 64) :
    segmentAt (storeFields m a (tssEntry base limit)) a =
        ⟨base % 2 ^ 32, limit % 2 ^ 20, 0x89, 0⟩ ∧
      readLE (storeFields m a (tssEntry base limit)) (a + 8) 4 = base / 2 ^ 32 := by
  have hsep : Separate (tssEntry base limit) := by
    simp [tssEntry, Separate, Apart]
  have hlow : limit &&& 0xFFFF = limit % 2 ^ 16 := land_low limit 16
  have hgran : limit >>> 16 &&& 0x0F = limit / 2 ^ 16 % 2 ^ 4 := by
    rw [Nat.shiftRight_eq_div_pow]
    exact land_low _ 4
  have hbyte : ∀ k, base >>> k &&& 0xFF = base / 2 ^ k % 2 ^ 8 := fun k ↦ by
    rw [Nat.shiftRight_eq_div_pow]
    exact land_low _ 8
  have hbase₀ : base &&& 0xFFFF = base % 2 ^ 16 := land_low base 16
  have h₀ : (0, 2, limit % 2 ^ 16) ∈ tssEntry base limit := by simp [tssEntry, hlow]
  have h₂ : (2, 2, base % 2 ^ 16) ∈ tssEntry base limit := by simp [tssEntry, hbase₀]
  have h₄ : (4, 1, base / 2 ^ 16 % 2 ^ 8) ∈ tssEntry base limit := by simp [tssEntry, hbyte]
  have h₅ : (5, 1, 0x89) ∈ tssEntry base limit := by simp [tssEntry]
  have h₆ : (6, 1, limit / 2 ^ 16 % 2 ^ 4) ∈ tssEntry base limit := by simp [tssEntry, hgran]
  have h₇ : (7, 1, base / 2 ^ 24 % 2 ^ 8) ∈ tssEntry base limit := by simp [tssEntry, hbyte]
  have h₈ : (8, 4, base / 2 ^ 32) ∈ tssEntry base limit := by
    simp [tssEntry, Nat.shiftRight_eq_div_pow]
  rw [segmentAt_storeFields hsep h₀ h₂ h₄ h₅ h₆ h₇, hsep.readLE h₈, Segment.mk.injEq]
  omega

/-- The gate of an interrupt handler in the kernel. -/
def handlerGate (handler : UInt64) : Gate := ⟨handler.toNat, 0x08, 0, 14, 0, true⟩

theorem gateAt_idtEntry (m : Mem) (a : ℕ) (handler : UInt64) :
    gateAt (storeFields m a (idtEntry handler)) a = handlerGate handler := by
  have hlt := handler.toNat_lt
  have hsep : Separate (idtEntry handler) := by simp [idtEntry, Separate, Apart]
  have hlow : handler.toNat &&& 0xFFFF = handler.toNat % 2 ^ 16 := land_low _ 16
  have hmid : handler.toNat >>> 16 &&& 0xFFFF = handler.toNat / 2 ^ 16 % 2 ^ 16 := by
    rw [Nat.shiftRight_eq_div_pow]
    exact land_low _ 16
  have hhigh : handler.toNat >>> 32 &&& 0xFFFFFFFF = handler.toNat / 2 ^ 32 % 2 ^ 32 := by
    rw [Nat.shiftRight_eq_div_pow]
    exact land_low _ 32
  have h₀ : (0, 2, handler.toNat % 2 ^ 16) ∈ idtEntry handler := by simp [idtEntry, hlow]
  have h₂ : (2, 2, 0x08) ∈ idtEntry handler := by simp [idtEntry]
  have h₄ : (4, 1, 0) ∈ idtEntry handler := by simp [idtEntry]
  have h₅ : (5, 1, 0x8E) ∈ idtEntry handler := by simp [idtEntry]
  have h₆ : (6, 2, handler.toNat / 2 ^ 16 % 2 ^ 16) ∈ idtEntry handler := by simp [idtEntry, hmid]
  have h₈ : (8, 4, handler.toNat / 2 ^ 32 % 2 ^ 32) ∈ idtEntry handler := by simp [idtEntry, hhigh]
  rw [gateAt_storeFields hsep h₀ h₂ h₄ h₅ h₆ h₈, handlerGate, Gate.mk.injEq]
  refine ⟨by omega, by decide, by decide, by decide, by decide, by decide⟩

/-! ## Handlers that are exchanged -/

theorem gateAt_setInterruptHandler (m : Mem) (n v : ℕ) (handler : UInt64) :
    gateAt (setInterruptHandler s m n handler) (s.idt + 16 * v) =
      if v = n then handlerGate handler else gateAt m (s.idt + 16 * v) := by
  split
  · next heq =>
      rw [heq]
      exact gateAt_idtEntry m _ handler
  · next hne =>
      exact gateAt_congr (agreeOn_storeFields (idtEntry_size handler) (by omega))

theorem setInterruptHandler_outside (m : Mem) (n : ℕ) (handler : UInt64) {x : ℕ}
    (hx : x < s.idt + 16 * n ∨ s.idt + 16 * n + 16 ≤ x) :
    setInterruptHandler s m n handler x = m x :=
  storeFields_outside (idtEntry_size handler) hx

/-- The three calls that change the table. -/
inductive HandlerCall
  | interrupt (n : UInt16) (handler : UInt64)
  | exception (exceptionNum : UInt16) (handler : UInt64)
  | irq (line : UInt16) (handler : UInt64)
deriving DecidableEq, Repr

def HandlerCall.perform (s : Statics) (m : Mem) : HandlerCall → Mem
  | .interrupt n handler => setInterruptHandler s m n.toNat handler
  | .exception exceptionNum handler => setExceptionHandler s m exceptionNum handler
  | .irq line handler => setIrqHandler s m line handler

/-- The vector that a call is about, if it does anything. -/
def HandlerCall.vector : HandlerCall → Option ℕ
  | .interrupt n _ => some n.toNat
  | .exception exceptionNum _ => if exceptionNum < 32 then some exceptionNum.toNat else none
  | .irq line _ => if line < 16 then some (32 + line.toNat) else none

def HandlerCall.handler : HandlerCall → UInt64
  | .interrupt _ handler => handler
  | .exception _ handler => handler
  | .irq _ handler => handler

theorem HandlerCall.perform_eq (m : Mem) (call : HandlerCall) :
    call.perform s m =
      match call.vector with
      | some n => setInterruptHandler s m n call.handler
      | none => m := by
  cases call with
  | interrupt n handler => rfl
  | exception exceptionNum handler =>
      simp only [perform, setExceptionHandler, vector, HandlerCall.handler]
      split <;> rfl
  | irq line handler =>
      simp only [perform, setIrqHandler, vector, HandlerCall.handler]
      split <;> rfl

/-- Which handler each vector has: the table as a function. -/
abbrev Handlers := ℕ → UInt64

/-- Each call replaces one handler, or none. -/
def HandlerCall.update (handlers : Handlers) (call : HandlerCall) : Handlers :=
  match call.vector with
  | some n => Function.update handlers n call.handler
  | none => handlers

def initialHandlers (s : Statics) : Handlers :=
  Function.update (fun _ ↦ s.isrDefault) 14 s.isrPageFault

/-- The table in memory holds these handlers. -/
def HoldsHandlers (s : Statics) (m : Mem) (handlers : Handlers) : Prop :=
  ∀ v < idtEntries, gateAt m (s.idt + 16 * v) = handlerGate (handlers v)

theorem HoldsHandlers.set {handlers : Handlers} (h : HoldsHandlers s m handlers) (n : ℕ)
    (handler : UInt64) :
    HoldsHandlers s (setInterruptHandler s m n handler) (Function.update handlers n handler) := by
  intro v hv
  rw [gateAt_setInterruptHandler, Function.update_apply]
  split
  · rfl
  · exact h v hv

theorem HoldsHandlers.perform {handlers : Handlers} (h : HoldsHandlers s m handlers)
    (call : HandlerCall) : HoldsHandlers s (call.perform s m) (call.update handlers) := by
  rw [HandlerCall.perform_eq, HandlerCall.update]
  cases call.vector with
  | none => exact h
  | some n => exact h.set n call.handler

/-- The loop of `init_idt`. -/
theorem gateAt_fillLoop (m : Mem) (handler : UInt64) (n v : ℕ) :
    gateAt ((List.range n).foldl (fun m i ↦ setInterruptHandler s m i handler) m)
        (s.idt + 16 * v) =
      if v < n then handlerGate handler else gateAt m (s.idt + 16 * v) := by
  induction n with
  | zero => rfl
  | succ n ih =>
      rw [List.range_succ, List.foldl_append]
      simp only [List.foldl_cons, List.foldl_nil]
      rw [gateAt_setInterruptHandler, ih]
      by_cases hv : v = n
      · rw [if_pos hv, if_pos (by omega)]
      · rw [if_neg hv]
        by_cases hlt : v < n
        · rw [if_pos hlt, if_pos (by omega)]
        · rw [if_neg hlt, if_neg (by omega)]

theorem holdsHandlers_initIdt (s : Statics) (m : Mem) :
    HoldsHandlers s (initIdt s m) (initialHandlers s) := by
  apply HoldsHandlers.set
  intro v hv
  rw [gateAt_fillLoop, if_pos hv]

/-- The attributes of an entry that a call has written. -/
theorem attr_setInterruptHandler (m : Mem) (n v : ℕ) (handler : UInt64) :
    readLE (setInterruptHandler s m n handler) (s.idt + 16 * v + 5) 1 =
      if v = n then 0x8E else readLE m (s.idt + 16 * v + 5) 1 := by
  split
  · next heq =>
      have hsep : Separate (idtEntry handler) := by simp [idtEntry, Separate, Apart]
      have h₅ : (5, 1, 0x8E) ∈ idtEntry handler := by simp [idtEntry]
      rw [heq]
      exact hsep.readLE h₅
  · next hne =>
      exact readLE_congr (agreeOn_storeFields (idtEntry_size handler) (by omega))

/-- Once an entry has been written, it keeps its attributes. -/
theorem attr_calls (calls : List HandlerCall) {n : ℕ}
    (h : readLE m (s.idt + 16 * n + 5) 1 = 0x8E ∨ ∃ call ∈ calls, call.vector = some n) :
    readLE (calls.foldl (HandlerCall.perform s) m) (s.idt + 16 * n + 5) 1 = 0x8E := by
  induction calls generalizing m with
  | nil => simpa using h
  | cons call calls ih =>
      apply ih
      rcases h with h | ⟨call', hmem, hvector⟩
      · left
        rw [HandlerCall.perform_eq]
        split
        · rw [attr_setInterruptHandler, h, ite_self]
        · exact h
      · rcases List.mem_cons.mp hmem with rfl | hmem
        · left
          rw [HandlerCall.perform_eq, hvector]
          exact (attr_setInterruptHandler m n n _).trans (if_pos rfl)
        · exact Or.inr ⟨call', hmem, hvector⟩

theorem calls_outside {calls : List HandlerCall} {x : ℕ}
    (h : ∀ call ∈ calls, ∀ n, call.vector = some n → n < idtEntries)
    (hx : x < s.idt ∨ s.idt + 16 * idtEntries ≤ x) :
    calls.foldl (HandlerCall.perform s) m x = m x := by
  induction calls generalizing m with
  | nil => rfl
  | cons call calls ih =>
      rw [List.foldl_cons, ih fun call' hmem ↦ h call' (List.mem_cons_of_mem call hmem),
        HandlerCall.perform_eq]
      cases hn : call.vector with
      | none => rfl
      | some n =>
          have hlt := h call (List.mem_cons_self ..) n hn
          exact setInterruptHandler_outside m n _ (by omega)

theorem HoldsHandlers.calls {handlers : Handlers} (h : HoldsHandlers s m handlers)
    (calls : List HandlerCall) :
    HoldsHandlers s (calls.foldl (HandlerCall.perform s) m)
      (calls.foldl HandlerCall.update handlers) := by
  induction calls generalizing m handlers with
  | nil => exact h
  | cons call calls ih => exact ih (h.perform call)

/-- After any calls each vector has the handler that was set last, and the
calls store to nothing but the table exactly when none of them is given an
index beyond it. -/
theorem handlers_after_calls (s : Statics) (calls : List HandlerCall) :
    (∀ m, HoldsHandlers s (calls.foldl (HandlerCall.perform s) (initIdt s m))
      (calls.foldl HandlerCall.update (initialHandlers s))) ∧
    ((∀ m x, x < s.idt ∨ s.idt + 16 * idtEntries ≤ x →
        calls.foldl (HandlerCall.perform s) m x = m x) ↔
      ∀ call ∈ calls, ∀ n, call.vector = some n → n < idtEntries) := by
  refine ⟨fun m ↦ (holdsHandlers_initIdt s m).calls calls, ?_, ?_⟩
  · intro h call hmem n hn
    by_contra hge
    -- In a memory of zeros the entry that was written shows.
    have hattr := attr_calls (s := s) (m := fun _ ↦ 0) calls (Or.inr ⟨call, hmem, hn⟩)
    have hsame : readLE (calls.foldl (HandlerCall.perform s) fun _ ↦ 0) (s.idt + 16 * n + 5) 1 =
        readLE (fun _ ↦ 0) (s.idt + 16 * n + 5) 1 :=
      readLE_congr fun x hlow hhigh ↦ h _ x (by omega)
    rw [hsame] at hattr
    exact absurd hattr (by simp [readLE])
  · exact fun h m x hx ↦ calls_outside h hx

/-! ## The tables once the kernel has started -/

/-- A byte of the two tables or of the task state segment. -/
def TableByte (s : Statics) (x : ℕ) : Prop :=
  (s.gdt ≤ x ∧ x < s.gdt + gdtSize) ∨ (s.idt ≤ x ∧ x < s.idt + 16 * idtEntries) ∨
    (s.tss ≤ x ∧ x < s.tss + tssSize)

/-- What the processor finds: code and data segments of both privilege levels,
the busy task state segment with the stack of the kernel, and the handlers. -/
structure TablesReady (s : Statics) (m : Mem) : Prop where
  kernelCode : segmentAt m (s.gdt + gdtKernelCode) = ⟨0, 0xFFFFF, 0x9A, 0xA⟩
  kernelData : segmentAt m (s.gdt + gdtKernelData) = ⟨0, 0xFFFFF, 0x92, 0x8⟩
  userCompatCode : segmentAt m (s.gdt + gdtUserCompatCode) = ⟨0, 0xFFFFF, 0xFA, 0xC⟩
  userData : segmentAt m (s.gdt + gdtUserData) = ⟨0, 0xFFFFF, 0xF2, 0x8⟩
  userCode : segmentAt m (s.gdt + gdtUserCode) = ⟨0, 0xFFFFF, 0xFA, 0xA⟩
  tss : segmentAt m (s.gdt + gdtTss) = ⟨s.tss % 2 ^ 32, tssSize - 1, 0x8B, 0⟩
  tss_upper : readLE m (s.gdt + gdtTss + 8) 4 = s.tss / 2 ^ 32
  rsp0 : readLE m (s.tss + 4) 8 = s.kernelStack + kernelStackSize
  handlers : HoldsHandlers s m (initialHandlers s)

theorem TablesReady.congr (h : TablesReady s m) (hsame : ∀ x, TableByte s x → m' x = m x) :
    TablesReady s m' := by
  have hgdt : ∀ o, o + 8 ≤ gdtSize → segmentAt m' (s.gdt + o) = segmentAt m (s.gdt + o) :=
    fun o ho ↦ segmentAt_congr fun x hlow hhigh ↦ hsame x (Or.inl ⟨by omega, by omega⟩)
  refine ⟨?_, ?_, ?_, ?_, ?_, ?_, ?_, ?_, fun v hv ↦ ?_⟩
  · exact (hgdt gdtKernelCode (by decide)).trans h.kernelCode
  · exact (hgdt gdtKernelData (by decide)).trans h.kernelData
  · exact (hgdt gdtUserCompatCode (by decide)).trans h.userCompatCode
  · exact (hgdt gdtUserData (by decide)).trans h.userData
  · exact (hgdt gdtUserCode (by decide)).trans h.userCode
  · exact (hgdt gdtTss (by decide)).trans h.tss
  · refine (readLE_congr fun x hlow hhigh ↦ hsame x (Or.inl ?_)).trans h.tss_upper
    simp only [gdtTss, gdtSize] at *
    omega
  · refine (readLE_congr fun x hlow hhigh ↦ hsame x (Or.inr (Or.inr ?_))).trans h.rsp0
    simp only [tssSize]
    omega
  · refine (gateAt_congr fun x hlow hhigh ↦ hsame x (Or.inr (Or.inl ?_))).trans (h.handlers v hv)
    omega

theorem segmentAt_other {b n : ℕ} {fields : List Field} (hsize : ∀ f ∈ fields, f.1 + f.2.1 ≤ n)
    (h : a + 8 ≤ b ∨ b + n ≤ a) : segmentAt (storeFields m b fields) a = segmentAt m a :=
  segmentAt_congr (agreeOn_storeFields hsize h)

theorem storeEntries_cons (gdt : ℕ) (m : Mem) (e : GdtArgs) (entries : List GdtArgs) :
    storeEntries gdt m (e :: entries) = storeEntries gdt
      (storeFields m (gdt + e.selector) (makeGdtEntry e.limit e.access e.flags)) entries := rfl

theorem segmentAt_storeEntries_other {gdt : ℕ} {entries : List GdtArgs}
    (h : ∀ e ∈ entries, a + 8 ≤ gdt + e.selector ∨ gdt + e.selector + 8 ≤ a) :
    segmentAt (storeEntries gdt m entries) a = segmentAt m a := by
  induction entries generalizing m with
  | nil => rfl
  | cons e entries ih =>
      refine (ih fun e' he' ↦ h e' (List.mem_cons_of_mem e he')).trans ?_
      exact segmentAt_other (makeGdtEntry_size e.limit e.access e.flags)
        (h e (List.mem_cons_self ..))

/-- Entries that lie apart are all read back. -/
theorem segmentAt_storeEntries {gdt : ℕ} {entries : List GdtArgs}
    (hapart : entries.Pairwise fun e e' ↦ e.selector + 8 ≤ e'.selector) {e : GdtArgs}
    (he : e ∈ entries) (haccess : e.access < 2 ^ 8) :
    segmentAt (storeEntries gdt m entries) (gdt + e.selector) =
      ⟨0, e.limit % 2 ^ 20, e.access, e.flags / 2 ^ 4 % 2 ^ 4⟩ := by
  induction entries generalizing m with
  | nil => cases he
  | cons e' entries ih =>
      obtain ⟨hfirst, hrest⟩ := List.pairwise_cons.mp hapart
      rcases List.mem_cons.mp he with rfl | he
      · refine Eq.trans ?_ (segmentAt_makeGdtEntry m (gdt + e.selector) e.limit haccess)
        rw [storeEntries_cons]
        apply segmentAt_storeEntries_other
        intro e' he'
        have hlater := hfirst e' he'
        omega
      · exact ih hrest he

theorem gdtEntries_apart : gdtEntries.Pairwise fun e e' ↦ e.selector + 8 ≤ e'.selector := by
  simp [gdtEntries, gdtKernelCode, gdtKernelData, gdtUserCompatCode, gdtUserData, gdtUserCode]

theorem gdtEntries_bounds : ∀ e ∈ gdtEntries, e.selector + 8 ≤ gdtTss ∧ e.access < 2 ^ 8 := by
  simp [gdtEntries, gdtKernelCode, gdtKernelData, gdtUserCompatCode, gdtUserData, gdtUserCode,
    gdtTss]

/-- The entries of the table before the task register is loaded. -/
theorem segmentAt_initGdt (s : Statics) (m : Mem) {e : GdtArgs} (he : e ∈ gdtEntries) :
    segmentAt (initGdt s m) (s.gdt + e.selector) =
      ⟨0, e.limit % 2 ^ 20, e.access, e.flags / 2 ^ 4 % 2 ^ 4⟩ := by
  obtain ⟨hbelow, haccess⟩ := gdtEntries_bounds e he
  have hgdt := s.gdt_tss
  have hsize : gdtTss + 16 = gdtSize := rfl
  rw [initGdt, segmentAt_other (tssFields_size _) (by omega),
    segmentAt_other (tssEntry_size _ _) (by omega)]
  exact segmentAt_storeEntries gdtEntries_apart he haccess

theorem tssEntry_initGdt (s : Statics) (m : Mem) :
    segmentAt (initGdt s m) (s.gdt + gdtTss) = ⟨s.tss % 2 ^ 32, tssSize - 1, 0x89, 0⟩ ∧
      readLE (initGdt s m) (s.gdt + gdtTss + 8) 4 = s.tss / 2 ^ 32 := by
  have hgdt := s.gdt_tss
  have hsize : gdtTss + 16 = gdtSize := rfl
  have hsame : AgreeOn (storeFields (storeEntries s.gdt m gdtEntries) (s.gdt + gdtTss)
      (tssEntry s.tss (tssSize - 1))) (initGdt s m) (s.gdt + gdtTss) (s.gdt + gdtTss + 16) :=
    agreeOn_storeFields (tssFields_size _) (by omega)
  obtain ⟨hsegment, hupper⟩ := segmentAt_tssEntry (storeEntries s.gdt m gdtEntries)
    (s.gdt + gdtTss) (tssSize - 1) s.tss_lt
  constructor
  · exact (segmentAt_congr (hsame.mono le_rfl (by omega))).trans hsegment
  · exact (readLE_congr (hsame.mono (by omega) (by omega))).trans hupper

theorem initGdt_outside (s : Statics) (m : Mem) {x : ℕ}
    (hgdt : x < s.gdt ∨ s.gdt + gdtSize ≤ x) (htss : x < s.tss ∨ s.tss + tssSize ≤ x) :
    initGdt s m x = m x := by
  have hsize : gdtTss + 16 = gdtSize := rfl
  have hentries : storeEntries s.gdt m gdtEntries x = m x := by
    have hbounds := gdtEntries_bounds
    rw [storeEntries]
    generalize gdtEntries = entries at hbounds
    induction entries generalizing m with
    | nil => rfl
    | cons e entries ih =>
        have he := (hbounds e (List.mem_cons_self ..)).1
        refine (ih _ fun e' he' ↦ hbounds e' (List.mem_cons_of_mem e he')).trans ?_
        exact storeFields_outside (makeGdtEntry_size e.limit e.access e.flags) (by omega)
  rw [initGdt, storeFields_outside (tssFields_size _) htss,
    storeFields_outside (tssEntry_size _ _) (by omega), hentries]

theorem initIdt_outside (s : Statics) (m : Mem) {x : ℕ}
    (hx : x < s.idt ∨ s.idt + 16 * idtEntries ≤ x) : initIdt s m x = m x := by
  have hfill : ∀ n ≤ idtEntries,
      (List.range n).foldl (fun m i ↦ setInterruptHandler s m i s.isrDefault) m x = m x := by
    intro n hn
    induction n with
    | zero => rfl
    | succ n ih =>
        rw [List.range_succ, List.foldl_append]
        refine (setInterruptHandler_outside _ n _ ?_).trans (ih (by omega))
        omega
  have hfault : 14 < idtEntries := by decide
  rw [initIdt, setInterruptHandler_outside _ _ _ (by omega), hfill idtEntries le_rfl]

theorem descriptorAddr_gdtr (s : Statics) (selector : ℕ) (hpos : selector / 8 ≠ 0)
    (hglobal : selector.testBit 2 = false) (hlt : selector / 8 * 8 + 8 ≤ gdtSize) :
    descriptorAddr (gdtr s) selector = some (s.gdt + selector / 8 * 8) := by
  have hlimit : (gdtr s).limit = gdtSize - 1 := rfl
  rw [descriptorAddr, if_neg]
  · rfl
  · simp only [hglobal, Bool.false_eq_true, false_or, hlimit]
    omega

theorem isTss_available (base limit flags : ℕ) :
    Segment.isTss ⟨base, limit, 0x89, flags⟩ 9 = true := by
  have hpresent : Nat.testBit 0x89 7 = true := by decide
  simp [Segment.isTss, Segment.present, hpresent]

/-- Both tables are in place after `init_idt` and `init_gdt`, whatever memory
held before, and nothing else has changed. -/
theorem tablesReady_init (s : Statics) (m : Mem) :
    ∃ m', flushGdt s (initGdt s (initIdt s m)) = some m' ∧ TablesReady s m' ∧
      ∀ x, ¬TableByte s x → m' x = m x := by
  obtain ⟨htss, hupper⟩ := tssEntry_initGdt s (initIdt s m)
  have hsize : gdtTss + 16 = gdtSize := rfl
  have haddr : descriptorAddr (gdtr s) gdtTss = some (s.gdt + gdtTss) :=
    descriptorAddr_gdtr s gdtTss (by decide) (by decide) (by decide)
  have hflush : flushGdt s (initGdt s (initIdt s m)) =
      some (writeLE (initGdt s (initIdt s m)) (s.gdt + gdtTss + 5) 1 (0x89 ||| 2)) := by
    simp only [flushGdt, ltr, haddr, htss, isTss_available, if_true]
  have hentry : ∀ e ∈ gdtEntries,
      segmentAt (writeLE (initGdt s (initIdt s m)) (s.gdt + gdtTss + 5) 1 (0x89 ||| 2))
        (s.gdt + e.selector) = ⟨0, e.limit % 2 ^ 20, e.access, e.flags / 2 ^ 4 % 2 ^ 4⟩ := by
    intro e he
    have hbelow := (gdtEntries_bounds e he).1
    rw [segmentAt_congr (agreeOn_writeLE _ (by omega)), segmentAt_initGdt s _ he]
  have hgdt := s.gdt_tss
  have hidt := s.gdt_idt
  have hboth := s.idt_tss
  refine ⟨_, hflush, ⟨?_, ?_, ?_, ?_, ?_, ?_, ?_, ?_, fun v hv ↦ ?_⟩, fun x hx ↦ ?_⟩
  · exact hentry ⟨gdtKernelCode, 0xFFFFF, 0x9A, 0xA0⟩ (by simp [gdtEntries])
  · exact hentry ⟨gdtKernelData, 0xFFFFF, 0x92, 0x80⟩ (by simp [gdtEntries])
  · exact hentry ⟨gdtUserCompatCode, 0xFFFFF, 0xFA, 0xC0⟩ (by simp [gdtEntries])
  · exact hentry ⟨gdtUserData, 0xFFFFF, 0xF2, 0x80⟩ (by simp [gdtEntries])
  · exact hentry ⟨gdtUserCode, 0xFFFFF, 0xFA, 0xA0⟩ (by simp [gdtEntries])
  · rw [segmentAt_writeAccess, htss]
    rfl
  · rw [readLE_writeLE_disjoint _ (by omega), hupper]
  · have hsep : Separate (tssFields s.kernelStack) := by simp [tssFields, Separate, Apart]
    have hrsp0 : (4, 8, s.kernelStack + kernelStackSize) ∈ tssFields s.kernelStack := by
      simp [tssFields]
    have hlt := s.stack_lt
    rw [readLE_writeLE_disjoint _ (by simp only [tssSize] at hgdt; omega), initGdt,
      hsep.readLE hrsp0]
    exact Nat.mod_eq_of_lt hlt
  · have hsame : AgreeOn (initIdt s m) (writeLE (initGdt s (initIdt s m)) (s.gdt + gdtTss + 5) 1
        (0x89 ||| 2)) (s.idt + 16 * v) (s.idt + 16 * v + 16) := by
      intro x hlow hhigh
      rw [writeLE_outside _ (by omega), initGdt_outside s _ (by omega) (by omega)]
    exact (gateAt_congr hsame).trans (holdsHandlers_initIdt s m v hv)
  · simp only [TableByte, not_or, not_and_or, not_le, not_lt] at hx
    rw [writeLE_outside _ (by omega), initGdt_outside s _ hx.1 hx.2.2, initIdt_outside s m hx.2.1]

end ImplusKernel.Cpu
