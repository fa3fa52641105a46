import Mathlib.Data.Nat.Find
import Mathlib.Tactic.Set

/-!
# Fair interleavings

Several parties make steps on one state, in an order that a schedule gives.
Where a step either changes nothing or decreases a measure, and somebody can
always decrease it, every schedule in which each party has its turn again and
again comes to an end.
-/

namespace ImplusKernel.Fairness

variable {ι S : Type*} {step : ι → S → S} {σ : ℕ → ι} {s : S}

/-- The state after `n` steps, of which step `i` is made by `σ i`. -/
def run (step : ι → S → S) (σ : ℕ → ι) (s : S) : ℕ → S
  | 0 => s
  | n + 1 => step (σ n) (run step σ s n)

/-- Every party has infinitely many turns. -/
def Fair (σ : ℕ → ι) : Prop := ∀ i n, ∃ m, n ≤ m ∧ σ m = i

theorem run_invariant {I : S → Prop} (hI : I s) (hstep : ∀ i s, I s → I (step i s)) (n : ℕ) :
    I (run step σ s n) := by
  induction n with
  | zero => exact hI
  | succ n ih => exact hstep (σ n) _ ih

theorem run_stable {n : ℕ} (h : ∀ i, step i (run step σ s n) = run step σ s n) (d : ℕ) :
    run step σ s (n + d) = run step σ s n := by
  induction d with
  | zero => rfl
  | succ d ih =>
      have hturn : run step σ s (n + (d + 1)) = step (σ (n + d)) (run step σ s (n + d)) := rfl
      rw [hturn, ih, h]

/-- As long as nothing has decreased, the state is the one of before. -/
theorem run_stutter {measure : S → ℕ}
    (hstep : ∀ i s, step i s = s ∨ measure (step i s) < measure s) (n d : ℕ) :
    run step σ s (n + d) = run step σ s n ∨
      ∃ m, n ≤ m ∧ measure (run step σ s m) < measure (run step σ s n) := by
  induction d with
  | zero => exact Or.inl rfl
  | succ d ih =>
      rcases ih with hsame | hless
      · have hturn : run step σ s (n + (d + 1)) = step (σ (n + d)) (run step σ s n) := by
          rw [← hsame]
          rfl
        rcases hstep (σ (n + d)) (run step σ s n) with hidle | hless
        · exact Or.inl (hturn.trans hidle)
        · exact Or.inr ⟨n + (d + 1), by omega, by rwa [hturn]⟩
      · exact Or.inr hless

/-- A fair run comes to an end. -/
theorem run_done {measure : S → ℕ} {done : S → Prop} (hfair : Fair σ)
    (hstep : ∀ i s, step i s = s ∨ measure (step i s) < measure s)
    (hprogress : ∀ s, ¬done s → ∃ i, measure (step i s) < measure s) (s : S) :
    ∃ n, done (run step σ s n) := by
  -- By induction on the measure of the state reached so far.
  suffices h : ∀ w n, measure (run step σ s n) = w → ∃ m, done (run step σ s m) from h _ 0 rfl
  intro w
  induction w using Nat.strong_induction_on with
  | _ w ih =>
      intro n hw
      by_cases hdone : done (run step σ s n)
      · exact ⟨n, hdone⟩
      · obtain ⟨i, hi⟩ := hprogress _ hdone
        obtain ⟨m, hnm, hturn⟩ := hfair i n
        obtain ⟨d, rfl⟩ := Nat.exists_eq_add_of_le hnm
        rcases run_stutter (σ := σ) (s := s) hstep n d with hsame | ⟨m, -, hless⟩
        · have hnext : run step σ s (n + d + 1) = step i (run step σ s n) := by
            rw [← hturn, ← hsame]
            rfl
          exact ih (measure (run step σ s (n + d + 1))) (by rw [hnext, ← hw]; exact hi) _ rfl
        · exact ih (measure (run step σ s m)) (by rw [← hw]; exact hless) m rfl

end ImplusKernel.Fairness
