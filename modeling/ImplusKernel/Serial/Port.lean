import ImplusKernel.Lib.Fairness
import ImplusKernel.Lib.Uart
import ImplusKernel.Memory.Heap

/-!
# The serial port

All that the kernel reports goes through `serial_write_char`, which waits for
the transmitter and hands it one byte.  The controller works at its own pace,
so that its steps and those of the driver interleave.
-/

namespace ImplusKernel.Serial

open Fairness

/-! ## Start -/

/-- The writes of `serial_init`, by offset. -/
def initWrites : List (ℕ × UInt8) :=
  [(1, 0x00), (3, 0x80), (0, 0x03), (1, 0x00), (3, 0x03), (2, 0xC7), (4, 0x0B)]

/-- `serial_init`; the controller makes `pace i` steps before write `i`. -/
def serialInit (pace : ℕ → ℕ) (u : Uart) : Uart :=
  initWrites.zipIdx.foldl (fun u w ↦ (u.shifts (pace w.2)).write w.1.1 w.1.2) u

/-- What `serial_init` leaves, whatever was in the registers and the queue
before: 8 data bits at a divisor of three, and an empty queue.  The first
write goes to the divisor latch if that was on. -/
theorem serialInit_eq (pace : ℕ → ℕ) (u : Uart) :
    serialInit pace u =
      { ier := if u.dlab then u.ier else 0
        lcr := 0x03
        mcr := 0x0B
        dll := 0x03
        dlm := 0x00
        fifoEnabled := true
        fifo := []
        line := u.line ++ u.fifo.take (pace 0 + pace 1 + pace 2 + pace 3 + pace 4 + pace 5) } := by
  have hfifo : ((0xC7 : UInt8) &&& 0x01 = 0) = False := by decide
  have hclear : ((0xC7 : UInt8) &&& 0x04 = 0) = False := by decide
  by_cases hdlab : u.lcr &&& 0x80 = 0 <;>
    simp [serialInit, initWrites, Uart.shifts_eq, Uart.write, Uart.dlab, Uart.fifoControl, hdlab,
      hfifo, hclear, List.take_add, Nat.add_assoc]

/-! ## Transmission -/

inductive Party
  | driver
  | controller
deriving DecidableEq, Repr

/-- The bytes that the driver has still to hand over, and whether it has found
the transmitter ready for the first of them. -/
structure Port where
  uart : Uart
  rest : List UInt8
  seen : Bool
deriving DecidableEq, Repr

/-- `serial_write_char`, one access to the controller at a time. -/
def serialWriteChar (p : Port) : Port :=
  match p.rest with
  | [] => p
  | c :: rest =>
      if p.seen then ⟨p.uart.write 0 c, rest, false⟩
      else if p.uart.lineStatus &&& 0x20 = 0 then p
      else { p with seen := true }

def portStep : Party → Port → Port
  | .driver, p => serialWriteChar p
  | .controller, p => { p with uart := p.uart.shift }

variable {p : Port} {text : List UInt8} {σ : ℕ → Party}

/-- Everything that was to be sent is on the line, in the queue or still with
the driver, in this order. -/
structure Delivering (text : List UInt8) (p : Port) : Prop where
  dlab : p.uart.dlab = false
  ready : p.seen = true → p.uart.fifo = []
  sent : p.uart.line ++ p.uart.fifo ++ p.rest = text

theorem lineStatus_ready (u : Uart) : u.lineStatus &&& 0x20 = 0 ↔ u.fifo ≠ [] := by
  rw [Uart.lineStatus]
  split
  · next h => simp [h]
  · next h => simp [h]

theorem shift_empty {u : Uart} (h : u.fifo = []) : u.shift = u := by
  rw [Uart.shift, h]

theorem Delivering.shift (h : Delivering text p) :
    Delivering text { p with uart := p.uart.shift } where
  dlab := by
    rw [← h.dlab, Uart.shift]
    cases p.uart.fifo <;> rfl
  ready := fun hseen ↦ by
    rw [shift_empty (h.ready hseen)]
    exact h.ready hseen
  sent := by
    rw [Uart.shift_sent]
    exact h.sent

theorem Delivering.serialWriteChar (h : Delivering text p) :
    Delivering text (serialWriteChar p) := by
  rw [Serial.serialWriteChar]
  cases hrest : p.rest with
  | nil => exact h
  | cons c rest =>
      dsimp only
      split_ifs with hseen hstatus
      · have hempty := h.ready hseen
        rw [Uart.write_empty p.uart c h.dlab hempty]
        refine ⟨h.dlab, nofun, ?_⟩
        have hsent := h.sent
        rw [hempty, hrest] at hsent
        simpa using hsent
      · exact h
      · refine ⟨h.dlab, fun _ ↦ not_not.mp (mt (lineStatus_ready _).mpr hstatus), ?_⟩
        rw [← hrest]
        exact h.sent

theorem Delivering.step (h : Delivering text p) (i : Party) : Delivering text (portStep i p) := by
  cases i with
  | driver => exact h.serialWriteChar
  | controller => exact h.shift

/-- What is left to do: three steps for a byte with the driver, one for a byte
in the queue. -/
def work (p : Port) : ℕ :=
  3 * p.rest.length + p.uart.fifo.length + if p.seen then 0 else 1

theorem length_fifo_write (u : Uart) (b : UInt8) :
    (u.write 0 b).fifo.length ≤ u.fifo.length + 1 := by
  simp only [Uart.write, Uart.transmit]
  split_ifs <;> simp

theorem portStep_work (i : Party) (p : Port) :
    portStep i p = p ∨ work (portStep i p) < work p := by
  cases i with
  | controller =>
      cases hfifo : p.uart.fifo with
      | nil =>
          left
          rw [portStep, shift_empty hfifo]
      | cons b rest =>
          right
          simp [portStep, work, Uart.shift, hfifo]
  | driver =>
      rw [portStep, serialWriteChar]
      cases hrest : p.rest with
      | nil => exact Or.inl rfl
      | cons c rest =>
          dsimp only
          split_ifs with hseen hstatus
          · right
            have hlength := length_fifo_write p.uart c
            simp only [work, hrest, hseen, List.length_cons]
            simp only [if_true, Bool.false_eq_true, if_false]
            omega
          · exact Or.inl rfl
          · right
            simp [work, hseen, hrest]

/-- The driver has handed over everything and the queue is empty. -/
def Done (p : Port) : Prop := p.rest = [] ∧ p.uart.fifo = []

theorem portStep_done (h : Done p) (i : Party) : portStep i p = p := by
  cases i with
  | driver => rw [portStep, serialWriteChar, h.1]
  | controller => rw [portStep, shift_empty h.2]

theorem portStep_progress (p : Port) (h : ¬Done p) : ∃ i, work (portStep i p) < work p := by
  by_cases hfifo : p.uart.fifo = []
  · refine ⟨.driver, (portStep_work .driver p).resolve_left fun hidle ↦ h ⟨?_, hfifo⟩⟩
    -- The driver waits only for a queue that is not empty.
    rw [portStep, serialWriteChar] at hidle
    cases hrest : p.rest with
    | nil => rfl
    | cons c rest =>
        rw [hrest] at hidle
        dsimp only at hidle
        split_ifs at hidle with hseen hstatus
        · have hlength := congrArg (fun p : Port ↦ p.rest.length) hidle
          simp [hrest] at hlength
        · exact absurd hfifo ((lineStatus_ready _).mp hstatus)
        · exact absurd (congrArg Port.seen hidle).symm hseen
  · refine ⟨.controller, (portStep_work .controller p).resolve_left fun hidle ↦ ?_⟩
    cases hqueue : p.uart.fifo with
    | nil => exact hfifo hqueue
    | cons b rest =>
        have hlength := congrArg (fun p : Port ↦ p.uart.fifo.length) hidle
        simp [portStep, Uart.shift, hqueue] at hlength

/-! ## Texts -/

/-- The bytes of a literal, which are all of one byte, without the zero at its
end. -/
def cString (t : String) : List UInt8 := t.toList.map fun c ↦ UInt8.ofNat c.toNat

/-- What `serial_write_string` hands over: a carriage return goes before each
line feed. -/
def serialWriteString (str : List UInt8) : List UInt8 :=
  (str.takeWhile (· ≠ 0)).flatMap fun c ↦ if c = 10 then [13, 10] else [c]

def hexDigit (d : ℕ) : Char := "0123456789ABCDEF".toList.getD d '0'

/-- What `serial_write_uint64` hands over; the shifts are 60, 56, …, 0. -/
def serialWriteUint64 (value : ℕ) : List UInt8 :=
  serialWriteString (cString "0x") ++ (List.range 16).map fun i ↦
    UInt8.ofNat (hexDigit (value >>> (60 - 4 * i) &&& 0xF)).toNat

/-- The bytes of a list of texts. -/
def transmitted (texts : List String) : List UInt8 :=
  texts.flatMap fun t ↦ serialWriteString (cString t)

theorem serialWriteString_cons {c : UInt8} (str : List UInt8) (hc : c ≠ 0) :
    serialWriteString (c :: str) =
      (if c = 10 then [13, 10] else [c]) ++ serialWriteString str := by
  simp [serialWriteString, hc]

theorem serialWriteString_plain {str : List UInt8} (h : ∀ c ∈ str, c ≠ 0 ∧ c ≠ 10) :
    serialWriteString str = str := by
  induction str with
  | nil => rfl
  | cons c str ih =>
      obtain ⟨hzero, hfeed⟩ := h c (List.mem_cons_self ..)
      rw [serialWriteString_cons str hzero, if_neg hfeed,
        ih fun c' hc' ↦ h c' (List.mem_cons_of_mem c hc')]
      rfl

theorem hexDigit_plain : ∀ d < 16, UInt8.ofNat (hexDigit d).toNat ≠ 0 ∧
    UInt8.ofNat (hexDigit d).toNat ≠ 10 ∧ UInt8.ofNat (hexDigit d).toNat ≠ 13 := by
  decide

theorem digit_lt (value i : ℕ) : value >>> (60 - 4 * i) &&& 0xF < 16 := by
  rw [Nat.and_two_pow_sub_one_eq_mod _ 4]
  exact Nat.mod_lt _ (by norm_num)

/-- The numbers in the kernel's texts are written by `serial_write_uint64`. -/
theorem serialWriteString_serialUint64 (value : ℕ) :
    serialWriteString (cString (Heap.serialUint64 value)) = serialWriteUint64 value := by
  have hdigits : cString (Heap.serialUint64 value) = cString "0x" ++ (List.range 16).map fun i ↦
      UInt8.ofNat (hexDigit (value >>> (60 - 4 * i) &&& 0xF)).toNat := by
    rw [cString, Heap.serialUint64, String.toList_append, List.map_append,
      String.toList_ofList (l := (List.range 16).map _), List.map_map]
    refine congrArg (cString "0x" ++ ·) (List.map_congr_left fun i hi ↦ ?_)
    have hpow : 16 ^ (15 - i) = 2 ^ (60 - 4 * i) := by
      rw [show (16 : ℕ) = 2 ^ 4 by norm_num, ← pow_mul]
      congr 1
      omega
    rw [Nat.and_two_pow_sub_one_eq_mod _ 4, Nat.shiftRight_eq_div_pow, ← hpow]
    rfl
  rw [serialWriteUint64, hdigits, serialWriteString_plain, serialWriteString_plain]
  · decide +kernel
  · intro c hc
    rcases List.mem_append.mp hc with hc | hc
    · have hprefix : ∀ c ∈ cString "0x", c ≠ 0 ∧ c ≠ 10 := by decide +kernel
      exact hprefix c hc
    · obtain ⟨i, -, rfl⟩ := List.mem_map.mp hc
      exact ⟨(hexDigit_plain _ (digit_lt value i)).1, (hexDigit_plain _ (digit_lt value i)).2.1⟩

/-- In any fair order of the accesses everything comes to be on the line. -/
theorem Delivering.delivers (h : Delivering text p) (hfair : Fair σ) :
    ∃ n, ∀ m, n ≤ m → (run portStep σ p m).uart.line = text := by
  obtain ⟨n, hdone⟩ := run_done hfair portStep_work portStep_progress p
  refine ⟨n, fun m hm ↦ ?_⟩
  obtain ⟨d, rfl⟩ := Nat.exists_eq_add_of_le hm
  rw [run_stable (portStep_done hdone)]
  have hsent := (run_invariant (σ := σ) h (fun i p hp ↦ hp.step i) n).sent
  rw [hdone.1, hdone.2, List.append_nil, List.append_nil] at hsent
  exact hsent

/-- From any state of the controller, at any pace and in any fair order of the
accesses: at each moment the line holds a part of the texts from their
beginning, and in the end all of them.  Before them stands nothing but bytes
that the firmware had left in the queue. -/
theorem serial_delivers (u : Uart) (pace : ℕ → ℕ) (texts : List String) (hfair : Fair σ) :
    ∃ left, left <+: u.fifo ∧
      (∀ n, (run portStep σ ⟨serialInit pace u, transmitted texts, false⟩ n).uart.line <+:
        u.line ++ left ++ transmitted texts) ∧
      ∃ n, ∀ m, n ≤ m →
        (run portStep σ ⟨serialInit pace u, transmitted texts, false⟩ m).uart.line =
          u.line ++ left ++ transmitted texts := by
  set left := u.fifo.take (pace 0 + pace 1 + pace 2 + pace 3 + pace 4 + pace 5) with hleft
  have hinit : Delivering (u.line ++ left ++ transmitted texts)
      ⟨serialInit pace u, transmitted texts, false⟩ := by
    have hoff : decide ((0x03 : UInt8) &&& 0x80 ≠ 0) = false := by decide
    rw [serialInit_eq]
    exact ⟨hoff, nofun, by simp [hleft]⟩
  refine ⟨left, List.take_prefix _ _, fun n ↦ ?_, hinit.delivers hfair⟩
  have hsent := (run_invariant (σ := σ) hinit (fun i p hp ↦ hp.step i) n).sent
  rw [List.append_assoc] at hsent
  exact ⟨_, hsent⟩

/-- Turns that alternate. -/
def alternate (n : ℕ) : Party := if n % 2 = 0 then .driver else .controller

theorem fair_alternate : Fair alternate := by
  intro i n
  cases i with
  | driver => exact ⟨2 * n, by omega, by simp [alternate]⟩
  | controller => exact ⟨2 * n + 1, by omega, by simp [alternate]⟩

theorem serial_delivers_greeting :
    ∃ n, (run portStep alternate ⟨serialInit (fun _ ↦ 0) ⟨0, 0, 0, 0, 0, false, [], []⟩,
      transmitted ["[OS] Initializing GDT...\n"], false⟩ n).uart.line =
        transmitted ["[OS] Initializing GDT...\n"] := by
  obtain ⟨left, hleft, -, n, hn⟩ := serial_delivers ⟨0, 0, 0, 0, 0, false, [], []⟩ (fun _ ↦ 0)
    ["[OS] Initializing GDT...\n"] fair_alternate
  obtain rfl := List.prefix_nil.mp hleft
  exact ⟨n, hn n le_rfl⟩

end ImplusKernel.Serial
