import ImplusKernel.Lib.Processor

/-!
# Routines that save registers

Straight-line code that works on registers and the stack.  A routine that
pushes some registers, does its work and pops them in the opposite order gives
each of them back, whatever the work does to them, as long as the work gives
the stack back.
-/

namespace ImplusKernel.SavedRegisters

open ByteMemory Processor

/-- The instructions of a routine; `R` names the registers other than the
stack pointer. -/
inductive Instr (R : Type*)
  | push (r : R)
  | pop (r : R)
  | movByte (r : R) (v : UInt8)
  | outByte (port : ℕ) (r : R)
  | movRsp (r : R)
  | movCr2 (r : R)
  | mov (r source : R)
  | load (r base : R) (offset : ℕ)
  | subRsp (n : ℕ)
deriving DecidableEq, Repr

/-- What a routine works on, with the bytes it has sent to ports. -/
structure Core (R : Type*) where
  regs : R → UInt64
  rsp : ℕ
  mem : Mem
  cr2 : UInt64
  ports : List (ℕ × UInt8)

variable {R : Type*} [DecidableEq R]

def Core.set (c : Core R) (r : R) (v : UInt64) : Core R :=
  { c with regs := Function.update c.regs r v }

/-- The stack pointer after `n` bytes have been taken. -/
@[irreducible] def below (rsp n : ℕ) : ℕ := (rsp + 2 ^ 64 - n) % 2 ^ 64

/-- The stack pointer after `n` bytes have been given back. -/
@[irreducible] def above (rsp n : ℕ) : ℕ := (rsp + n) % 2 ^ 64

theorem below_eq {rsp n : ℕ} (hroom : n ≤ rsp) (hlt : rsp < 2 ^ 64) : below rsp n = rsp - n := by
  rw [below]
  omega

theorem above_eq {rsp n : ℕ} (hlt : rsp + n < 2 ^ 64) : above rsp n = rsp + n := by
  rw [above, Nat.mod_eq_of_lt hlt]

def step (c : Core R) : Instr R → Core R
  | .push r =>
      { c with
        mem := writeLE c.mem (below c.rsp 8) 8 (c.regs r).toNat
        rsp := below c.rsp 8 }
  | .pop r => { c.set r (UInt64.ofNat (stackWord c.mem c.rsp)) with rsp := above c.rsp 8 }
  | .movByte r v => c.set r (c.regs r &&& ~~~0xFF ||| v.toUInt64)
  | .outByte port r => { c with ports := c.ports ++ [(port, (c.regs r).toUInt8)] }
  | .movRsp r => c.set r (UInt64.ofNat c.rsp)
  | .movCr2 r => c.set r c.cr2
  | .mov r source => c.set r (c.regs source)
  | .load r base offset => c.set r (UInt64.ofNat (stackWord c.mem ((c.regs base).toNat + offset)))
  | .subRsp n => { c with rsp := below c.rsp n }

def run (p : List (Instr R)) (c : Core R) : Core R := p.foldl step c

@[simp] theorem run_nil (c : Core R) : run [] c = c := rfl

theorem run_cons (i : Instr R) (p : List (Instr R)) (c : Core R) :
    run (i :: p) c = run p (step c i) := rfl

theorem run_append (p q : List (Instr R)) (c : Core R) : run (p ++ q) c = run q (run p c) :=
  List.foldl_append

/-- The routine gives the stack pointer back, stores only to the `depth` bytes
below it, keeps the registers of `keep` and sends `sent` to the ports. -/
structure StackBalanced (p : List (Instr R)) (depth : ℕ) (keep : R → Prop)
    (sent : (R → UInt64) → List (ℕ × UInt8)) : Prop where
  rsp : ∀ c : Core R, depth ≤ c.rsp → c.rsp < 2 ^ 64 → (run p c).rsp = c.rsp
  mem : ∀ c : Core R, depth ≤ c.rsp → c.rsp < 2 ^ 64 →
    ∀ x, x < c.rsp - depth ∨ c.rsp ≤ x → (run p c).mem x = c.mem x
  regs : ∀ c : Core R, depth ≤ c.rsp → c.rsp < 2 ^ 64 →
    ∀ r, keep r → (run p c).regs r = c.regs r
  ports : ∀ c : Core R, (run p c).ports = c.ports ++ sent c.regs

variable {p : List (Instr R)} {depth : ℕ} {keep : R → Prop}
  {sent : (R → UInt64) → List (ℕ × UInt8)} {r : R}

/-- The state in which the code after a push begins. -/
theorem step_push (c : Core R) (r : R) (hroom : 8 ≤ c.rsp) (hlt : c.rsp < 2 ^ 64) :
    step c (.push r) =
      { c with mem := writeLE c.mem (c.rsp - 8) 8 (c.regs r).toNat, rsp := c.rsp - 8 } := by
  simp only [step, below_eq hroom hlt]

theorem step_pop (c : Core R) (r : R) (hlt : c.rsp + 8 < 2 ^ 64) :
    step c (.pop r) = { c.set r (UInt64.ofNat (readLE c.mem c.rsp 8)) with
      rsp := c.rsp + 8 } := by
  have hword : stackWord c.mem c.rsp = readLE c.mem c.rsp 8 := by
    rw [stackWord, Nat.mod_eq_of_lt (by omega)]
  simp only [step, hword, above_eq hlt]

theorem step_push_eq (c : Core R) (r : R) : step c (.push r) = { c with
    mem := writeLE c.mem (below c.rsp 8) 8 (c.regs r).toNat
    rsp := below c.rsp 8 } := rfl

theorem ports_push (c : Core R) (r : R) : (step c (.push r)).ports = c.ports := by
  rw [step_push_eq]

theorem regs_push (c : Core R) (r : R) : (step c (.push r)).regs = c.regs := by
  rw [step_push_eq]

theorem ports_pop (c : Core R) (r : R) : (step c (.pop r)).ports = c.ports := by
  simp only [step, Core.set]

/-- One more register is saved around a routine. -/
theorem StackBalanced.save (h : StackBalanced p depth keep sent) (r : R) :
    StackBalanced (.push r :: p ++ [.pop r]) (depth + 8) (fun r' ↦ r' = r ∨ keep r') sent := by
  have hrun : ∀ c : Core R, depth + 8 ≤ c.rsp → c.rsp < 2 ^ 64 →
      ∃ c', c' = run p { c with
          mem := writeLE c.mem (c.rsp - 8) 8 (c.regs r).toNat, rsp := c.rsp - 8 } ∧
        run (.push r :: p ++ [.pop r]) c = { c'.set r (c.regs r) with rsp := c.rsp } := by
    intro c hroom hlt
    refine ⟨_, rfl, ?_⟩
    rw [List.cons_append, run_cons, run_append, step_push c r (by omega) hlt, run_cons, run_nil]
    -- The word below the old stack pointer is the register that was pushed.
    set c₁ : Core R := { c with
      mem := writeLE c.mem (c.rsp - 8) 8 (c.regs r).toNat, rsp := c.rsp - 8 } with hc₁
    have hrsp : (run p c₁).rsp = c.rsp - 8 := h.rsp c₁ (by simp only [hc₁]; omega)
      (by simp only [hc₁]; omega)
    have hword : readLE (run p c₁).mem (c.rsp - 8) 8 = (c.regs r).toNat := by
      rw [readLE_congr (m := c₁.mem)]
      · exact readLE_writeLE_of_lt c.mem (c.regs r).toNat_lt
      · intro x hlow _
        exact h.mem c₁ (by simp only [hc₁]; omega) (by simp only [hc₁]; omega) x (Or.inr hlow)
    rw [step_pop _ _ (by omega), hrsp, hword, UInt64.ofNat_toNat]
    have hback : c.rsp - 8 + 8 = c.rsp := by omega
    rw [hback]
  constructor
  · intro c hroom hlt
    obtain ⟨c', -, heq⟩ := hrun c hroom hlt
    rw [heq]
  · intro c hroom hlt x hx
    obtain ⟨c', rfl, heq⟩ := hrun c hroom hlt
    rw [heq]
    have hbody := h.mem { c with
      mem := writeLE c.mem (c.rsp - 8) 8 (c.regs r).toNat, rsp := c.rsp - 8 } (by dsimp only; omega)
      (by dsimp only; omega) x (by dsimp only; omega)
    exact hbody.trans (writeLE_outside c.mem (by omega))
  · intro c hroom hlt r' hr'
    obtain ⟨c', rfl, heq⟩ := hrun c hroom hlt
    rw [heq]
    by_cases heq' : r' = r
    · rw [heq']
      exact Function.update_self ..
    · have hbody := h.regs { c with
        mem := writeLE c.mem (c.rsp - 8) 8 (c.regs r).toNat, rsp := c.rsp - 8 }
        (by dsimp only; omega) (by dsimp only; omega) r' (hr'.resolve_left heq')
      exact (Function.update_of_ne heq' ..).trans hbody
  · intro c
    rw [List.cons_append, run_cons, run_append, run_cons, run_nil]
    calc (step (run p (step c (.push r))) (.pop r)).ports
        = (run p (step c (.push r))).ports := ports_pop _ r
      _ = (step c (.push r)).ports ++ sent (step c (.push r)).regs := h.ports _
      _ = c.ports ++ sent c.regs := congrArg₂ (· ++ sent ·) (ports_push c r) (regs_push c r)

/-- A routine around which registers are saved, the first one outermost. -/
def saved : List R → List (Instr R) → List (Instr R)
  | [], body => body
  | r :: rs, body => .push r :: saved rs body ++ [.pop r]

theorem StackBalanced.saved (h : StackBalanced p depth keep sent) (rs : List R) :
    StackBalanced (saved rs p) (depth + 8 * rs.length) (fun r ↦ r ∈ rs ∨ keep r) sent := by
  induction rs with
  | nil => simpa [SavedRegisters.saved] using h
  | cons r rs ih =>
      have hsave := ih.save r
      rw [show depth + 8 * (r :: rs).length = depth + 8 * rs.length + 8 by
        rw [List.length_cons]; omega]
      refine ⟨hsave.rsp, hsave.mem, fun c hroom hlt r' hr' ↦ ?_, hsave.ports⟩
      refine hsave.regs c hroom hlt r' ?_
      rcases hr' with hr' | hr'
      · rcases List.mem_cons.mp hr' with hr' | hr'
        · exact Or.inl hr'
        · exact Or.inr (Or.inl hr')
      · exact Or.inr (Or.inr hr')

/-! ## Registers that stay on the stack -/

/-- The state in which the code after pushes begins. -/
structure Pushed (c : Core R) (n : ℕ) (c' : Core R) : Prop where
  regs : c'.regs = c.regs
  cr2 : c'.cr2 = c.cr2
  rsp : c'.rsp = c.rsp - 8 * n
  mem : ∀ x, c.rsp ≤ x → c'.mem x = c.mem x

theorem pushed_run (c : Core R) (rs : List R) (hroom : 8 * rs.length ≤ c.rsp)
    (hlt : c.rsp < 2 ^ 64) : Pushed c rs.length (run (rs.map Instr.push) c) := by
  induction rs generalizing c with
  | nil => exact ⟨rfl, rfl, rfl, fun _ _ ↦ rfl⟩
  | cons r rs ih =>
      rw [List.length_cons] at hroom ⊢
      rw [List.map_cons, run_cons, step_push c r (by omega) hlt]
      obtain ⟨hregs, hcr2, hrsp, hmem⟩ := ih { c with
        mem := writeLE c.mem (c.rsp - 8) 8 (c.regs r).toNat, rsp := c.rsp - 8 }
        (by dsimp only; omega) (by dsimp only; omega)
      refine ⟨hregs, hcr2, ?_, fun x hx ↦ ?_⟩
      · rw [hrsp]
        dsimp only
        omega
      · exact (hmem x (by dsimp only; omega)).trans (writeLE_outside c.mem (by omega))

end ImplusKernel.SavedRegisters
