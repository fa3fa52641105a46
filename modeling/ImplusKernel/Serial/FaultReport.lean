import ImplusKernel.Cpu.Interrupts
import ImplusKernel.Serial.Port

/-!
# Page faults on the serial line

The only trace of a page fault is the report on the serial line.  Whoever
listens there can read off the address that faulted, where the program was,
and why.
-/

namespace ImplusKernel.Serial

open ByteMemory Fairness Processor Cpu Syscall

/-! ## Reading numbers -/

def digitValue (b : UInt8) : ℕ := if b.toNat < 58 then b.toNat - 48 else b.toNat - 55

def hexValue (digits : List UInt8) : ℕ := digits.foldl (fun v b ↦ 16 * v + digitValue b) 0

/-- The numbers in a text.  Each `0x` begins sixteen digits. -/
def numbers : List UInt8 → List ℕ
  | [] => []
  | 48 :: 120 :: rest => hexValue (rest.take 16) :: numbers (rest.drop 16)
  | _ :: rest => numbers rest
termination_by text => text.length

variable {value : ℕ} {text rest : List UInt8}

theorem digitValue_hexDigit : ∀ d < 16, digitValue (UInt8.ofNat (hexDigit d).toNat) = d := by
  decide

theorem hexValue_concat (digits : List UInt8) (b : UInt8) :
    hexValue (digits ++ [b]) = 16 * hexValue digits + digitValue b := by
  simp [hexValue]

/-- The digits of a number, most significant first. -/
def digits (value n : ℕ) : List UInt8 :=
  (List.range n).map fun i ↦ UInt8.ofNat (hexDigit (value / 16 ^ (n - 1 - i) % 16)).toNat

theorem digits_succ (value n : ℕ) :
    digits value (n + 1) = digits (value / 16) n ++
      [UInt8.ofNat (hexDigit (value % 16)).toNat] := by
  rw [digits, List.range_succ, List.map_append, digits]
  congr 1
  · refine List.map_congr_left fun i hi ↦ ?_
    have hi : i < n := List.mem_range.mp hi
    rw [Nat.div_div_eq_div_mul, ← pow_succ', show n + 1 - 1 - i = n - 1 - i + 1 by omega]
  · simp

theorem hexValue_digits (value n : ℕ) : hexValue (digits value n) = value % 16 ^ n := by
  induction n generalizing value with
  | zero =>
      rw [pow_zero, Nat.mod_one]
      rfl
  | succ n ih =>
      rw [digits_succ, hexValue_concat, ih, digitValue_hexDigit _ (Nat.mod_lt _ (by norm_num)),
        pow_succ', Nat.mod_mul]
      omega

theorem serialWriteUint64_eq (value : ℕ) :
    serialWriteUint64 value = 48 :: 120 :: digits value 16 := by
  have hdigits : ((List.range 16).map fun i ↦
      UInt8.ofNat (hexDigit (value >>> (60 - 4 * i) &&& 0xF)).toNat) = digits value 16 := by
    refine List.map_congr_left fun i hi ↦ ?_
    have hpow : 16 ^ (16 - 1 - i) = 2 ^ (60 - 4 * i) := by
      rw [show (16 : ℕ) = 2 ^ 4 by norm_num, ← pow_mul]
      congr 1
      omega
    rw [Nat.and_two_pow_sub_one_eq_mod _ 4, Nat.shiftRight_eq_div_pow, hpow]
  have hmark : serialWriteString (cString "0x") = [48, 120] := by decide
  rw [serialWriteUint64, hdigits, hmark]
  rfl

/-- A number that was written is read. -/
theorem numbers_uint64 (value : ℕ) (rest : List UInt8) :
    numbers (serialWriteUint64 value ++ rest) = value % 2 ^ 64 :: numbers rest := by
  have hlength : (digits value 16).length = 16 := by simp [digits]
  rw [serialWriteUint64_eq, List.cons_append, List.cons_append, numbers,
    List.take_append_of_le_length (by omega), List.take_of_length_le (by omega), hexValue_digits,
    List.drop_append_of_le_length (by omega), List.drop_of_length_le (by omega)]
  rfl

/-- Texts without the digit zero hold no number. -/
theorem numbers_text (h : ∀ b ∈ text, b ≠ 48) : numbers (text ++ rest) = numbers rest := by
  induction text with
  | nil => rfl
  | cons b text ih =>
      rw [List.cons_append, numbers]
      · exact ih fun b' hb' ↦ h b' (List.mem_cons_of_mem b hb')
      · intro rest' hb _
        exact h b (List.mem_cons_self ..) hb

/-! ## The report -/

theorem transmitted_cons (t : String) (texts : List String) :
    transmitted (t :: texts) = serialWriteString (cString t) ++ transmitted texts := rfl

theorem numbers_nil : numbers (transmitted []) = [] := by
  rw [transmitted, List.flatMap_nil, numbers]

theorem numbers_line (t : String) (texts : List String)
    (h : ∀ b ∈ serialWriteString (cString t), b ≠ 48) :
    numbers (transmitted (t :: texts)) = numbers (transmitted texts) := by
  rw [transmitted_cons, numbers_text h]

theorem numbers_number (value : ℕ) (texts : List String) :
    numbers (transmitted (Heap.serialUint64 value :: texts)) =
      value % 2 ^ 64 :: numbers (transmitted texts) := by
  rw [transmitted_cons, serialWriteString_serialUint64, numbers_uint64]

theorem numbers_report (errorCode rip rsp cr2 : ℕ) :
    numbers (transmitted (pageFaultHandler errorCode rip rsp cr2)) =
      [cr2 % 2 ^ 64, rip % 2 ^ 64, rsp % 2 ^ 64, errorCode % 2 ^ 64] := by
  -- no zero stands in the texts around the numbers
  have htexts : ∀ t ∈ ["[OS] [PF] Page fault\n", "[OS] [PF] CR2: ", "\n", "[OS] [PF] RIP: ",
      "[OS] [PF] RSP: ", "[OS] [PF] Error: "], ∀ b ∈ serialWriteString (cString t), b ≠ 48 := by
    decide +kernel
  simp only [List.forall_mem_cons] at htexts
  obtain ⟨htitle, hcr2, hbreak, hrip, hrsp, herror, -⟩ := htexts
  rw [pageFaultHandler, numbers_line _ _ htitle, numbers_line _ _ hcr2, numbers_number,
    numbers_line _ _ hbreak, numbers_line _ _ hrip, numbers_number, numbers_line _ _ hbreak,
    numbers_line _ _ hrsp, numbers_number, numbers_line _ _ hbreak, numbers_line _ _ herror,
    numbers_number, numbers_line _ _ hbreak, numbers_nil]

/-- Whenever a program or the kernel faults, the line comes to carry a text
after what was sent before, and the numbers in it are the address, the
instruction pointer, the stack pointer and the error code of the fault. -/
theorem pageFault_readable {s : Statics} {m : Mem} {c : Cpu Register} {e : ℕ} {u : Uart}
    {σ : ℕ → Party} (h : TablesReady s m) (hc : Interruptible s c) (he : e < 2 ^ 64) (cr2 : UInt64)
    (hdlab : u.dlab = false) (hfair : Fair σ) :
    ∃ rsp report, pageFault s m c e cr2 = some (rsp, report) ∧ rsp % 16 = 0 ∧
      ∃ text, numbers text = [cr2.toNat, c.rip.toNat, c.rsp, e] ∧
        ∃ n, ∀ m, n ≤ m →
          (run portStep σ ⟨u, transmitted report, false⟩ m).uart.line =
            u.line ++ u.fifo ++ text := by
  obtain ⟨rsp, haligned, hfault⟩ := pageFault_reports h hc he cr2
  refine ⟨rsp, _, hfault, haligned, _, ?_, Delivering.delivers ⟨hdlab, nofun, rfl⟩ hfair⟩
  rw [numbers_report, Nat.mod_eq_of_lt cr2.toNat_lt, Nat.mod_eq_of_lt c.rip.toNat_lt,
    Nat.mod_eq_of_lt hc.rsp_lt, Nat.mod_eq_of_lt he]

theorem sampleProgram_readable : ∃ m rsp report, TablesReady sampleStatics m ∧
    pageFault sampleStatics m sampleProgram 6 0xDEAD000 = some (rsp, report) ∧
      ∃ text, numbers text = [0xDEAD000, 0x400000, 0x500000, 6] ∧
        ∃ n, (run portStep alternate ⟨serialInit (fun _ ↦ 0) ⟨0, 0, 0, 0, 0, false, [], []⟩,
          transmitted report, false⟩ n).uart.line = text := by
  obtain ⟨m, -, h, -⟩ := tablesReady_init sampleStatics fun _ ↦ 0
  obtain ⟨rsp, report, hfault, -, text, hnumbers, n, hn⟩ := pageFault_readable
    (u := serialInit (fun _ ↦ 0) ⟨0, 0, 0, 0, 0, false, [], []⟩) h sampleProgram_interruptible
    (e := 6) (by decide) 0xDEAD000 (by decide) fair_alternate
  exact ⟨m, rsp, report, h, hfault, text, hnumbers, n, hn n le_rfl⟩

end ImplusKernel.Serial
