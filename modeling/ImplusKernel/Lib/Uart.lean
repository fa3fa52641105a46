import Mathlib.Data.List.Basic

/-!
# A serial controller

The transmitting half of a 16550: the registers behind the first offsets of
its ports, the queue of bytes that wait, and the line on which they appear one
after the other, at the pace of the controller.
-/

namespace ImplusKernel

/-- `fifo` waits for transmission, `line` has been transmitted. -/
structure Uart where
  ier : UInt8
  lcr : UInt8
  mcr : UInt8
  dll : UInt8
  dlm : UInt8
  fifoEnabled : Bool
  fifo : List UInt8
  line : List UInt8
deriving DecidableEq, Repr

/-- The divisor latch replaces the first two registers. -/
def Uart.dlab (u : Uart) : Bool := u.lcr &&& 0x80 ≠ 0

def Uart.capacity (u : Uart) : ℕ := if u.fifoEnabled then 16 else 1

/-- A byte for a queue that is full is lost; without a queue it takes the
place of the byte that waits. -/
def Uart.transmit (u : Uart) (b : UInt8) : Uart :=
  if u.fifo.length < u.capacity then { u with fifo := u.fifo ++ [b] }
  else if u.fifoEnabled then u
  else { u with fifo := [b] }

/-- The queue is emptied when it is turned on or off, and on demand. -/
def Uart.fifoControl (u : Uart) (b : UInt8) : Uart :=
  let enabled : Bool := b &&& 0x01 ≠ 0
  { u with
    fifoEnabled := enabled
    fifo := if enabled = u.fifoEnabled ∧ (enabled = false ∨ b &&& 0x04 = 0) then u.fifo else [] }

/-- `outb` to a register. -/
def Uart.write (u : Uart) (offset : ℕ) (b : UInt8) : Uart :=
  match offset with
  | 0 => if u.dlab then { u with dll := b } else u.transmit b
  | 1 => if u.dlab then { u with dlm := b } else { u with ier := b }
  | 2 => u.fifoControl b
  | 3 => { u with lcr := b }
  | 4 => { u with mcr := b }
  | _ => u

/-- The line status register, of which only the bit for an empty queue is
modelled. -/
def Uart.lineStatus (u : Uart) : UInt8 := if u.fifo = [] then 0x20 else 0

/-- The controller puts the next byte on the line. -/
def Uart.shift (u : Uart) : Uart :=
  match u.fifo with
  | [] => u
  | b :: rest => { u with fifo := rest, line := u.line ++ [b] }

def Uart.shifts (u : Uart) : ℕ → Uart
  | 0 => u
  | n + 1 => u.shift.shifts n

theorem Uart.shifts_eq (u : Uart) (n : ℕ) :
    u.shifts n = { u with fifo := u.fifo.drop n, line := u.line ++ u.fifo.take n } := by
  induction n generalizing u with
  | zero => simp [Uart.shifts]
  | succ n ih =>
      rw [Uart.shifts, ih, Uart.shift]
      cases h : u.fifo with
      | nil => simp [h]
      | cons b rest => simp

/-- No byte gets lost or out of order on its way to the line. -/
theorem Uart.shift_sent (u : Uart) : u.shift.line ++ u.shift.fifo = u.line ++ u.fifo := by
  rw [Uart.shift]
  cases h : u.fifo with
  | nil => simp [h]
  | cons b rest => simp

theorem Uart.write_empty (u : Uart) (b : UInt8) (hdlab : u.dlab = false) (hempty : u.fifo = []) :
    u.write 0 b = { u with fifo := [b] } := by
  have hroom : u.fifo.length < u.capacity := by
    rw [hempty, Uart.capacity]
    split <;> simp
  have htransmit : u.transmit b = { u with fifo := [b] } := by
    rw [Uart.transmit, if_pos hroom, hempty]
    rfl
  rw [← htransmit]
  exact if_neg (by simp [hdlab])

end ImplusKernel
