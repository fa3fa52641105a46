import ImplusKernel.Lib.Fields
import Mathlib.Data.Nat.Bitwise
import Mathlib.Logic.Function.Basic

/-!
# Segments, gates and privilege levels

How an x86-64 processor in long mode reads its descriptor tables, takes an
interrupt, and leaves for user code with `iretq` and `sysret`.  `R` names the
general registers other than the stack pointer.  A step that ends in a fault
of its own has no result.  The data segment registers are left out, with the
exception of the two bases that `swapgs` exchanges.
-/

namespace ImplusKernel.Processor

open ByteMemory Fields

/-! ## Descriptors -/

/-- A segment descriptor of eight bytes. -/
structure Segment where
  base : ℕ
  limit : ℕ
  access : ℕ
  flags : ℕ
deriving DecidableEq, Repr

def segmentAt (m : Mem) (a : ℕ) : Segment where
  base := readLE m (a + 2) 2 + 2 ^ 16 * readLE m (a + 4) 1 + 2 ^ 24 * readLE m (a + 7) 1
  limit := readLE m (a + 0) 2 + 2 ^ 16 * (readLE m (a + 6) 1 % 2 ^ 4)
  access := readLE m (a + 5) 1
  flags := readLE m (a + 6) 1 / 2 ^ 4

namespace Segment

def present (s : Segment) : Bool := s.access.testBit 7

def dpl (s : Segment) : ℕ := s.access / 2 ^ 5 % 2 ^ 2

/-- Code that runs at the privilege level of its descriptor. -/
def isCode (s : Segment) : Bool :=
  s.present && s.access.testBit 4 && s.access.testBit 3 && !s.access.testBit 2

/-- The bit L is set and the bit D is clear. -/
def isLong (s : Segment) : Bool := s.flags.testBit 1 && !s.flags.testBit 2

def isWritableData (s : Segment) : Bool :=
  s.present && s.access.testBit 4 && !s.access.testBit 3 && s.access.testBit 1

/-- An available task state segment has type 9, a busy one type 11. -/
def isTss (s : Segment) (type : ℕ) : Bool := s.present && decide (s.access % 2 ^ 5 = type)

end Segment

/-- What `lgdt` and `lidt` load. -/
structure TableRegister where
  base : ℕ
  limit : ℕ
deriving DecidableEq, Repr

/-- The address of a descriptor that a selector names, unless the selector is
null, names the local table, or leaves the global one. -/
def descriptorAddr (gdtr : TableRegister) (selector : ℕ) : Option ℕ :=
  if selector / 8 = 0 ∨ selector.testBit 2 = true ∨ gdtr.limit < selector / 8 * 8 + 7 then none
  else some (gdtr.base + selector / 8 * 8)

def descriptor (gdtr : TableRegister) (m : Mem) (selector : ℕ) : Option Segment :=
  (descriptorAddr gdtr selector).map (segmentAt m)

/-- A gate of sixteen bytes. -/
structure Gate where
  offset : ℕ
  selector : ℕ
  ist : ℕ
  type : ℕ
  dpl : ℕ
  present : Bool
deriving DecidableEq, Repr

def gateAt (m : Mem) (a : ℕ) : Gate where
  offset := readLE m (a + 0) 2 + 2 ^ 16 * readLE m (a + 6) 2 + 2 ^ 32 * readLE m (a + 8) 4
  selector := readLE m (a + 2) 2
  ist := readLE m (a + 4) 1 % 2 ^ 3
  type := readLE m (a + 5) 1 % 2 ^ 4
  dpl := readLE m (a + 5) 1 / 2 ^ 5 % 2 ^ 2
  present := (readLE m (a + 5) 1).testBit 7

variable {m m' : Mem} {a b n : ℕ} {fields : List Field}

theorem segmentAt_congr (h : AgreeOn m m' a (a + 8)) : segmentAt m' a = segmentAt m a := by
  have hfield : ∀ o k, o + k ≤ 8 → readLE m' (a + o) k = readLE m (a + o) k :=
    fun o k hok ↦ readLE_congr (h.mono (by omega) (by omega))
  simp only [segmentAt, hfield 2 2 (by decide), hfield 4 1 (by decide), hfield 7 1 (by decide),
    hfield 0 2 (by decide), hfield 6 1 (by decide), hfield 5 1 (by decide)]

theorem gateAt_congr (h : AgreeOn m m' a (a + 16)) : gateAt m' a = gateAt m a := by
  have hfield : ∀ o k, o + k ≤ 16 → readLE m' (a + o) k = readLE m (a + o) k :=
    fun o k hok ↦ readLE_congr (h.mono (by omega) (by omega))
  simp only [gateAt, hfield 0 2 (by decide), hfield 6 2 (by decide), hfield 8 4 (by decide),
    hfield 2 2 (by decide), hfield 4 1 (by decide), hfield 5 1 (by decide)]

theorem segmentAt_writeAccess (m : Mem) (a v : ℕ) :
    segmentAt (writeLE m (a + 5) 1 v) a = { segmentAt m a with access := v % 2 ^ 8 } := by
  have hfield : ∀ o k, o + k ≤ 5 ∨ 6 ≤ o →
      readLE (writeLE m (a + 5) 1 v) (a + o) k = readLE m (a + o) k :=
    fun o k hok ↦ readLE_writeLE_disjoint m (by omega)
  have haccess : readLE (writeLE m (a + 5) 1 v) (a + 5) 1 = v % 2 ^ 8 :=
    readLE_writeLE m (a + 5) 1 v
  simp only [segmentAt, hfield 2 2 (by decide), hfield 4 1 (by decide), hfield 7 1 (by decide),
    hfield 0 2 (by decide), hfield 6 1 (by decide), haccess]

theorem agreeOn_storeFields (hsize : ∀ f ∈ fields, f.1 + f.2.1 ≤ n) {lo hi : ℕ}
    (h : hi ≤ b ∨ b + n ≤ lo) : AgreeOn m (storeFields m b fields) lo hi :=
  fun _ hlow hhigh ↦ storeFields_outside hsize (by omega)

/-- A descriptor that has been stored field by field. -/
theorem segmentAt_storeFields {l₀ b₀ b₁ access gran b₂ : ℕ} (h : Separate fields)
    (h₀ : (0, 2, l₀) ∈ fields) (h₂ : (2, 2, b₀) ∈ fields) (h₄ : (4, 1, b₁) ∈ fields)
    (h₅ : (5, 1, access) ∈ fields) (h₆ : (6, 1, gran) ∈ fields) (h₇ : (7, 1, b₂) ∈ fields) :
    segmentAt (storeFields m a fields) a =
      ⟨b₀ % 2 ^ 16 + 2 ^ 16 * (b₁ % 2 ^ 8) + 2 ^ 24 * (b₂ % 2 ^ 8),
        l₀ % 2 ^ 16 + 2 ^ 16 * (gran % 2 ^ 4), access % 2 ^ 8, gran % 2 ^ 8 / 2 ^ 4⟩ := by
  have hgran : gran % 256 % 2 ^ 4 = gran % 2 ^ 4 := by omega
  simp only [segmentAt, h.readLE h₀, h.readLE h₂, h.readLE h₄, h.readLE h₅, h.readLE h₆,
    h.readLE h₇, Nat.pow_one, hgran]
  rfl

theorem gateAt_storeFields {o₀ selector ist attr o₁ o₂ : ℕ} (h : Separate fields)
    (h₀ : (0, 2, o₀) ∈ fields) (h₂ : (2, 2, selector) ∈ fields) (h₄ : (4, 1, ist) ∈ fields)
    (h₅ : (5, 1, attr) ∈ fields) (h₆ : (6, 2, o₁) ∈ fields) (h₈ : (8, 4, o₂) ∈ fields) :
    gateAt (storeFields m a fields) a =
      ⟨o₀ % 2 ^ 16 + 2 ^ 16 * (o₁ % 2 ^ 16) + 2 ^ 32 * (o₂ % 2 ^ 32), selector % 2 ^ 16,
        ist % 2 ^ 8 % 2 ^ 3, attr % 2 ^ 8 % 2 ^ 4, attr % 2 ^ 8 / 2 ^ 5 % 2 ^ 2,
        (attr % 2 ^ 8).testBit 7⟩ := by
  simp only [gateAt, h.readLE h₀, h.readLE h₂, h.readLE h₄, h.readLE h₅, h.readLE h₆,
    h.readLE h₈, Nat.pow_one]
  rfl

/-! ## The processor -/

structure Cpu (R : Type*) where
  regs : R → UInt64
  rsp : ℕ
  rip : UInt64
  rflags : UInt64
  cs : ℕ
  ss : ℕ
  gsBase : ℕ
  kernelGsBase : ℕ

/-- The registers that only the kernel loads; `tr` is a selector. -/
structure SystemRegisters where
  gdtr : TableRegister
  idtr : TableRegister
  tr : ℕ
  star : UInt64
  lstar : UInt64
  fmask : UInt64
deriving DecidableEq, Repr

variable {R : Type*}

def Cpu.cpl (c : Cpu R) : ℕ := c.cs % 4

def interruptFlag : UInt64 := (1 : UInt64) <<< 9

/-- The flags that `sysret` loads; the bit below them is always set. -/
def userFlags : UInt64 := 0x3C7FD7

/-- The flags that `iretq` loads. -/
def returnFlags : UInt64 := 0x3D7FD7

def canonical (a : UInt64) : Bool := a.toNat < 2 ^ 47 ∨ 2 ^ 64 - 2 ^ 47 ≤ a.toNat

def Cpu.swapgs (c : Cpu R) : Cpu R :=
  { c with gsBase := c.kernelGsBase, kernelGsBase := c.gsBase }

/-! ## System calls -/

/-- The selector in the bits of `star` from `shift` on. -/
def starSelector (sys : SystemRegisters) (shift : ℕ) : ℕ := sys.star.toNat / 2 ^ shift % 2 ^ 16

/-- `syscall`, two bytes long; `rcx` and `r11` are the registers it uses. -/
def Cpu.syscall [DecidableEq R] (sys : SystemRegisters) (rcx r11 : R) (c : Cpu R) : Cpu R :=
  { c with
    regs := Function.update (Function.update c.regs rcx (c.rip + 2)) r11 c.rflags
    rip := sys.lstar
    rflags := c.rflags &&& ~~~sys.fmask
    cs := starSelector sys 32 / 4 * 4
    ss := starSelector sys 32 + 8 }

/-- `sysret` to 64-bit code.  The selectors are computed, and the descriptors
behind them are not read. -/
def Cpu.sysret (sys : SystemRegisters) (rcx r11 : R) (c : Cpu R) : Option (Cpu R) :=
  if c.cpl ≠ 0 ∨ canonical (c.regs rcx) = false then none
  else some { c with
    rip := c.regs rcx
    rflags := c.regs r11 &&& userFlags ||| 2
    cs := (starSelector sys 48 + 16) ||| 3
    ss := (starSelector sys 48 + 8) ||| 3 }

/-! ## Interrupts -/

/-- The base in the descriptor of sixteen bytes that the task register names. -/
def tssBase (sys : SystemRegisters) (m : Mem) : ℕ :=
  match descriptorAddr sys.gdtr sys.tr with
  | none => 0
  | some a => (segmentAt m a).base + 2 ^ 32 * readLE m (a + 8) 4

/-- `ltr` marks the task state segment it loads as busy. -/
def ltr (gdtr : TableRegister) (m : Mem) (selector : ℕ) : Option Mem :=
  match descriptorAddr gdtr selector with
  | none => none
  | some a =>
      if (segmentAt m a).isTss 9 then some (writeLE m (a + 5) 1 ((segmentAt m a).access ||| 2))
      else none

/-- The stack of a handler that runs at level `dpl`. -/
def handlerStack (sys : SystemRegisters) (m : Mem) (c : Cpu R) (ist dpl : ℕ) : ℕ :=
  let top :=
    if ist ≠ 0 then readLE m (tssBase sys m + 28 + 8 * ist) 8
    else if dpl < c.cpl then readLE m (tssBase sys m + 4 + 8 * dpl) 8
    else c.rsp
  top / 16 * 16

/-- The frame of the interrupted program, above the error code if there is
one. -/
def interruptFrame (c : Cpu R) : Option ℕ → List Field
  | none => [(32, 8, c.ss), (24, 8, c.rsp), (16, 8, c.rflags.toNat), (8, 8, c.cs),
      (0, 8, c.rip.toNat)]
  | some error => [(40, 8, c.ss), (32, 8, c.rsp), (24, 8, c.rflags.toNat), (16, 8, c.cs),
      (8, 8, c.rip.toNat), (0, 8, error)]

def frameSize : Option ℕ → ℕ
  | none => 40
  | some _ => 48

/-- The flags that an interrupt gate (type 14) or a trap gate (type 15)
clears. -/
def clearedFlags (type : ℕ) : UInt64 := if type = 14 then 0x34300 else 0x34100

def interrupt (sys : SystemRegisters) (m : Mem) (c : Cpu R) (vector : ℕ) (error : Option ℕ) :
    Option (Mem × Cpu R) :=
  let gate := gateAt m (sys.idtr.base + 16 * vector)
  if sys.idtr.limit < 16 * vector + 15 ∨ gate.present = false ∨ gate.type ∉ [14, 15] then none
  else
    match descriptor sys.gdtr m gate.selector with
    | none => none
    | some code =>
        if code.isCode = false ∨ code.isLong = false ∨ c.cpl < code.dpl then none
        else
          let rsp := (handlerStack sys m c gate.ist code.dpl + 2 ^ 64 - frameSize error) % 2 ^ 64
          some (storeFields m rsp (interruptFrame c error), { c with
            rsp := rsp
            rip := UInt64.ofNat gate.offset
            rflags := c.rflags &&& ~~~clearedFlags gate.type
            cs := gate.selector / 4 * 4 + code.dpl
            ss := if code.dpl < c.cpl then code.dpl else c.ss })

def stackWord (m : Mem) (a : ℕ) : ℕ := readLE m (a % 2 ^ 64) 8

/-- `iretq`. -/
def Cpu.iretq (sys : SystemRegisters) (m : Mem) (c : Cpu R) : Option (Cpu R) :=
  let rip := UInt64.ofNat (stackWord m c.rsp)
  let cs := stackWord m (c.rsp + 8) % 2 ^ 16
  let ss := stackWord m (c.rsp + 32) % 2 ^ 16
  let rpl := cs % 4
  match descriptor sys.gdtr m cs with
  | none => none
  | some code =>
      if code.isCode = false ∨ code.dpl ≠ rpl ∨ rpl < c.cpl ∨ canonical rip = false then none
      else
        let stackOk : Bool := match descriptor sys.gdtr m ss with
          | none => ss / 4 = 0 ∧ rpl ≠ 3 ∧ code.isLong = true
          | some data => data.isWritableData = true ∧ data.dpl = rpl ∧ ss % 4 = rpl
        if stackOk then
          some { c with
            rip := rip
            cs := cs
            rflags := UInt64.ofNat (stackWord m (c.rsp + 16)) &&& returnFlags ||| 2
            rsp := stackWord m (c.rsp + 24)
            ss := ss }
        else none

/-- A return goes to the address on top of the stack. -/
theorem Cpu.iretq_rip {sys : SystemRegisters} {m : Mem} {c c' : Cpu R}
    (h : c.iretq sys m = some c') :
    c'.rip = UInt64.ofNat (stackWord m c.rsp) ∧ canonical c'.rip = true := by
  simp only [Cpu.iretq] at h
  split at h
  · cases h
  · split_ifs at h with hcode
    cases h
    simp only [not_or, Bool.not_eq_false] at hcode
    exact ⟨rfl, hcode.2.2.2⟩

/-! ## Flags -/

theorem or_and (x a b : UInt64) : (x ||| a) &&& b = x &&& b ||| a &&& b := by
  apply UInt64.eq_of_toBitVec_eq
  simp [BitVec.and_or_distrib_right]

/-- The flags after `sysret` can be pushed and popped. -/
theorem sysret_flags (x : UInt64) :
    (x &&& userFlags ||| 2) &&& returnFlags ||| 2 = x &&& userFlags ||| 2 := by
  have hmask : userFlags &&& returnFlags = userFlags := by decide
  have htwo : (2 : UInt64) &&& returnFlags = 2 := by decide
  rw [or_and, UInt64.and_assoc, hmask, htwo, UInt64.or_assoc, UInt64.or_self]

theorem sysret_interruptFlag (x : UInt64) :
    (x &&& userFlags ||| 2) &&& interruptFlag = x &&& interruptFlag := by
  have hmask : userFlags &&& interruptFlag = interruptFlag := by decide
  have htwo : (2 : UInt64) &&& interruptFlag = 0 := by decide
  rw [or_and, UInt64.and_assoc, hmask, htwo, UInt64.or_zero]

end ImplusKernel.Processor
