import ImplusKernel.Syscall.Dispatch

/-!
# The entry stub

`syscall_entry` pushes the caller's registers at the top of the one kernel
stack, calls the dispatcher, and pops registers from the address it returns.
What compiled code keeps on the stack below the frame is not modelled.
-/

namespace ImplusKernel.Syscall

open ByteMemory Words Heap ProcessManager

inductive Register
  | rax
  | rdx
  | rsi
  | rdi
  | r8
  | r9
  | r10
  | r12
  | r13
  | r14
  | r15
  | rbx
  | rbp
  | rcx
  | r11
deriving DecidableEq, Repr

/-- The position of a register in a frame, from the lowest address. -/
def Register.index : Register → ℕ
  | .rax => 0
  | .rdx => 1
  | .rsi => 2
  | .rdi => 3
  | .r8 => 4
  | .r9 => 5
  | .r10 => 6
  | .r12 => 7
  | .r13 => 8
  | .r14 => 9
  | .r15 => 10
  | .rbx => 11
  | .rbp => 12
  | .rcx => 13
  | .r11 => 14

abbrev Registers := Register → UInt64

/-! ## Pushing and popping -/

/-- The `push` instructions of the stub. -/
def pushOrder : List Register :=
  [.r11, .rcx, .rbp, .rbx, .r15, .r14, .r13, .r12, .r10, .r9, .r8, .rdi, .rsi, .rdx, .rax]

def push (stack : Mem × ℕ) (v : UInt64) : Mem × ℕ :=
  let rsp := (stack.2 + 2 ^ 64 - 8) % 2 ^ 64
  (writeLE stack.1 rsp 8 v.toNat, rsp)

/-- Memory and stack pointer after the pushes. -/
def pushFrame (m : Mem) (rsp : ℕ) (regs : Registers) : Mem × ℕ :=
  (pushOrder.map regs).foldl push (m, rsp)

def word (m : Mem) (a : ℕ) : UInt64 := UInt64.ofNat (readLE m (a % 2 ^ 64) 8)

/-- What the `pop` instructions load. -/
def popFrame (m : Mem) (rsp : ℕ) : Registers := fun r ↦ word m (rsp + 8 * r.index)

/-! ## The stub -/

/-- `and rsp, ~0xF` and `sub rsp, 8`. -/
def entryRsp (kernelRsp : ℕ) : ℕ := ((kernelRsp &&& highMask 64 4) + 2 ^ 64 - 8) % 2 ^ 64

/-- The arguments for the dispatcher, four of them taken from the frame. -/
def requestAt (m : Mem) (frame : ℕ) (rax : UInt64) : Request :=
  ⟨rax, word m (frame + 24), word m (frame + 16), word m (frame + 8), word m (frame + 48)⟩

/-- The registers and the stack pointer with which user code goes on. -/
inductive EntryResult
  | resumed (k : Kernel) (regs : Registers) (rsp : ℕ)
  | halted (k : Kernel)

def syscallEntry (hw : Hardware) (k : Kernel) (regs : Registers) (rsp : ℕ) :
    Option EntryResult :=
  let pushed := pushFrame k.mem (entryRsp k.kernelRsp) regs
  match syscallDispatch hw { k.setMem pushed.1 with userRsp := rsp } pushed.2
    (requestAt pushed.1 pushed.2 (regs .rax)) with
  | none => none
  | some (.halted k) => some (.halted k)
  | some (.returned r) =>
      some (.resumed r.kernel (popFrame r.kernel.mem r.rsp) r.kernel.userRsp)

/-! ## Frames in memory -/

variable {m m' : Mem} {a rsp : ℕ} {regs : Registers} {r : Register}

/-- The bytes of a frame. -/
def OnFrame (frame x : ℕ) : Prop := frame ≤ x ∧ x < frame + 120

/-- A frame holds a value for a register. -/
def Saves (m : Mem) (frame : ℕ) (r : Register) (v : UInt64) : Prop :=
  readLE m (frame + 8 * r.index) 8 = v.toNat

theorem Register.index_lt (r : Register) : r.index < 15 := by
  cases r <;> decide

theorem Register.index_pos (hr : r ≠ .rax) : 0 < r.index := by
  cases r <;> first | exact absurd rfl hr | decide

theorem Saves.popFrame_eq {v : UInt64} (h : Saves m a r v) (hfit : a + 120 ≤ 2 ^ 64) :
    popFrame m a r = v := by
  have hindex := r.index_lt
  rw [popFrame, word, Nat.mod_eq_of_lt (by omega), h]
  exact UInt64.ofNat_toNat

theorem Saves.congr {v : UInt64} (h : Saves m a r v)
    (hsame : ∀ x, a + 8 * r.index ≤ x → x < a + 8 * r.index + 8 → m' x = m x) :
    Saves m' a r v := by
  rw [Saves, ← h]
  exact readLE_congr fun x hlow hhigh ↦ hsame x hlow hhigh

theorem saves_onFrame {x : ℕ} (r : Register) (hlow : a + 8 * r.index ≤ x)
    (hhigh : x < a + 8 * r.index + 8) : OnFrame a x := by
  have hindex := r.index_lt
  exact ⟨by omega, by omega⟩

/-- Pushing a list of words, from the top down. -/
theorem foldl_push (vs : List UInt64) (m : Mem) {top : ℕ} (htop : top < 2 ^ 64)
    (hroom : 8 * vs.length ≤ top) :
    (vs.foldl push (m, top)).2 = top - 8 * vs.length ∧
      (∀ x, x < top - 8 * vs.length ∨ top ≤ x → (vs.foldl push (m, top)).1 x = m x) ∧
      ∀ j (hj : j < vs.length),
        readLE (vs.foldl push (m, top)).1 (top - 8 * (j + 1)) 8 = vs[j].toNat := by
  induction vs generalizing m top with
  | nil => exact ⟨rfl, fun _ _ ↦ rfl, fun j hj ↦ absurd hj (Nat.not_lt_zero j)⟩
  | cons v vs ih =>
      rw [List.length_cons] at hroom
      have hrsp : (top + 2 ^ 64 - 8) % 2 ^ 64 = top - 8 := by omega
      have hpush : push (m, top) v = (writeLE m (top - 8) 8 v.toNat, top - 8) := by
        simp only [push, hrsp]
      obtain ⟨hlast, hkept, hread⟩ :=
        ih (writeLE m (top - 8) 8 v.toNat) (show top - 8 < 2 ^ 64 by omega) (by omega)
      rw [List.foldl_cons, hpush]
      refine ⟨by rw [hlast, List.length_cons]; omega, ?_, ?_⟩
      · intro x hx
        rw [List.length_cons] at hx
        rw [hkept x (by omega)]
        exact writeLE_outside m (by omega)
      · intro j hj
        cases j with
        | zero =>
            have hword : readLE (writeLE m (top - 8) 8 v.toNat) (top - 8) 8 = v.toNat :=
              readLE_writeLE_of_lt m v.toNat_lt
            refine (readLE_congr fun x hlow _ ↦ hkept x ?_).trans hword
            omega
        | succ j =>
            have hslot := hread j (Nat.lt_of_succ_lt_succ hj)
            rw [show top - 8 - 8 * (j + 1) = top - 8 * (j + 1 + 1) by omega] at hslot
            exact hslot

theorem pushOrder_index (r : Register) : pushOrder[14 - r.index]? = some r := by
  cases r <;> rfl

/-- The frame that the pushes leave, `120` bytes below where they start. -/
theorem pushFrame_spec (m : Mem) (regs : Registers) {top : ℕ} (htop : top < 2 ^ 64)
    (hroom : 120 ≤ top) :
    (pushFrame m top regs).2 = top - 120 ∧
      (∀ x, ¬OnFrame (top - 120) x → (pushFrame m top regs).1 x = m x) ∧
      ∀ r, Saves (pushFrame m top regs).1 (top - 120) r (regs r) := by
  have hlength : (pushOrder.map regs).length = 15 := rfl
  obtain ⟨hlast, hkept, hread⟩ := foldl_push (pushOrder.map regs) m htop (by omega)
  rw [hlength] at hlast hkept
  refine ⟨hlast, fun x hx ↦ hkept x ?_, fun r ↦ ?_⟩
  · rw [OnFrame] at hx
    omega
  · have hindex := r.index_lt
    have hslot := hread (14 - r.index) (by omega)
    have hvalue : (pushOrder.map regs)[14 - r.index]? = some (regs r) := by
      rw [List.getElem?_map, pushOrder_index]
      rfl
    rw [List.getElem?_eq_getElem (by omega)] at hvalue
    rw [Option.some.inj hvalue,
      show top - 8 * (14 - r.index + 1) = top - 120 + 8 * r.index by omega] at hslot
    exact hslot

/-- The request of a caller with these registers. -/
def requestOf (regs : Registers) : Request :=
  ⟨regs .rax, regs .rdi, regs .rsi, regs .rdx, regs .r10⟩

theorem requestAt_eq (h : ∀ r, Saves m a r (regs r)) (hfit : a + 120 ≤ 2 ^ 64) :
    requestAt m a (regs .rax) = requestOf regs := by
  have hpop : ∀ r, popFrame m a r = regs r := fun r ↦ (h r).popFrame_eq hfit
  have hrdi : word m (a + 24) = regs .rdi := hpop .rdi
  have hrsi : word m (a + 16) = regs .rsi := hpop .rsi
  have hrdx : word m (a + 8) = regs .rdx := hpop .rdx
  have hr10 : word m (a + 48) = regs .r10 := hpop .r10
  rw [requestAt, hrdi, hrsi, hrdx, hr10, requestOf]

/-! ## The first frame of a process -/

def initialRegisters (entry : UInt64) : Registers
  | .rcx => entry
  | .r11 => 0x202
  | _ => 0

theorem clearFrame_outside (m : Mem) (frame n : ℕ) {x : ℕ} (hx : x < frame ∨ frame + 8 * n ≤ x) :
    clearFrame m frame n x = m x := by
  induction n with
  | zero => rfl
  | succ n ih =>
      rw [clearFrame, writeLE_outside _ (by omega), ih (by omega)]

theorem readLE_clearFrame (m : Mem) (frame : ℕ) {n j : ℕ} (hj : j < n) :
    readLE (clearFrame m frame n) (frame + 8 * j) 8 = 0 := by
  induction n with
  | zero => exact absurd hj (Nat.not_lt_zero j)
  | succ n ih =>
      rw [clearFrame]
      rcases Nat.lt_succ_iff_lt_or_eq.mp hj with hlt | rfl
      · rw [readLE_writeLE_disjoint _ (by omega), ih hlt]
      · exact readLE_writeLE_of_lt _ (by norm_num)

theorem initialFrame_outside (m : Mem) (frame entry : ℕ) {x : ℕ} (hx : ¬OnFrame frame x) :
    initialFrame m frame entry x = m x := by
  rw [OnFrame] at hx
  simp only [initialFrame, syscallFrameQwords, syscallFrameRcx, syscallFrameR11]
  rw [writeLE_outside _ (by omega), writeLE_outside _ (by omega),
    clearFrame_outside _ _ _ (by omega)]

theorem initialFrame_saves (m : Mem) (frame : ℕ) (entry : UInt64) (r : Register) :
    Saves (initialFrame m frame entry.toNat) frame r (initialRegisters entry r) := by
  have hindex := r.index_lt
  simp only [Saves, initialFrame, syscallFrameQwords, syscallFrameRcx, syscallFrameR11]
  by_cases hr11 : r = .r11
  · subst hr11
    exact readLE_writeLE_of_lt _ (by decide)
  have hbelow : r.index < 14 := by
    cases r <;> first | exact absurd rfl hr11 | decide
  rw [readLE_writeLE_disjoint _ (by omega)]
  by_cases hrcx : r = .rcx
  · subst hrcx
    exact readLE_writeLE_of_lt _ entry.toNat_lt
  have hbelow' : r.index < 13 := by
    cases r <;> first | exact absurd rfl hr11 | exact absurd rfl hrcx | decide
  rw [readLE_writeLE_disjoint _ (by omega), readLE_clearFrame _ _ hindex]
  cases r <;> first | exact absurd rfl hr11 | exact absurd rfl hrcx | rfl

/-- The first frame lies in the stack of the process. -/
theorem frameOf_bounds {stack : ℕ} (hfit : stack + processStackSize ≤ 2 ^ 64) :
    stack ≤ frameOf stack ∧ frameOf stack + 120 ≤ stack + processStackSize := by
  have htop : stackTop stack = (stack + processStackSize) % 2 ^ 64 / 2 ^ 4 * 2 ^ 4 :=
    land_highMask (by norm_num) (Nat.mod_lt _ (by norm_num))
  rw [frameOf, htop]
  simp only [processStackSize, syscallFrameQwords] at *
  omega

end ImplusKernel.Syscall
