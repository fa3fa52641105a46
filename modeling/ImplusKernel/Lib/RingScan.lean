import Mathlib.Data.Nat.Init

/-!
# Scanning a ring

A search that starts anywhere in a ring of `n` places and goes round once:
it finds a place exactly when there is one, whatever the start.
-/

namespace ImplusKernel.RingScan

variable {p : ℕ → Bool} {n fuel start i : ℕ}

/-- The first place that satisfies `p` among the `fuel` places from `start`
on, counted modulo `n`. -/
def firstFrom (p : ℕ → Bool) (n : ℕ) : ℕ → ℕ → Option ℕ
  | 0, _ => none
  | fuel + 1, start => if p (start % n) then some (start % n) else firstFrom p n fuel (start + 1)

theorem firstFrom_some (h : firstFrom p n fuel start = some i) :
    p i = true ∧ ∃ place, i = place % n := by
  induction fuel generalizing start with
  | zero => simp [firstFrom] at h
  | succ fuel ih =>
      rw [firstFrom] at h
      by_cases hp : p (start % n) = true
      · rw [if_pos hp] at h
        obtain rfl := Option.some.inj h
        exact ⟨hp, start, rfl⟩
      · rw [if_neg hp] at h
        exact ih h

theorem firstFrom_none_iff :
    firstFrom p n fuel start = none ↔ ∀ k < fuel, p ((start + k) % n) = false := by
  induction fuel generalizing start with
  | zero => simp [firstFrom]
  | succ fuel ih =>
      rw [firstFrom]
      by_cases hp : p (start % n) = true
      · rw [if_pos hp]
        refine ⟨fun h ↦ by simp at h, fun h ↦ ?_⟩
        have hfirst : p (start % n) = false := h 0 (Nat.succ_pos fuel)
        rw [hfirst] at hp
        simp at hp
      · rw [if_neg hp, ih]
        constructor
        · intro h k hk
          cases k with
          | zero => simpa using hp
          | succ k =>
              have hstep := h k (by omega)
              rwa [Nat.add_right_comm, Nat.add_assoc] at hstep
        · intro h k hk
          have hstep := h (k + 1) (by omega)
          rwa [← Nat.add_assoc, Nat.add_right_comm] at hstep

/-- Once round the ring meets every place. -/
theorem exists_step (hi : i < n) (start : ℕ) : ∃ k < n, (start + k) % n = i := by
  have hr : start % n < n := Nat.mod_lt start (by omega)
  by_cases hle : start % n ≤ i
  · refine ⟨i - start % n, by omega, ?_⟩
    rw [← Nat.mod_add_mod, Nat.add_sub_cancel' hle, Nat.mod_eq_of_lt hi]
  · refine ⟨i + n - start % n, by omega, ?_⟩
    rw [← Nat.mod_add_mod, Nat.add_sub_cancel' (by omega), Nat.add_mod_right,
      Nat.mod_eq_of_lt hi]

theorem firstFrom_round_none_iff (hn : 0 < n) :
    firstFrom p n n start = none ↔ ∀ i < n, p i = false := by
  rw [firstFrom_none_iff]
  constructor
  · intro h i hi
    obtain ⟨k, hk, rfl⟩ := exists_step hi start
    exact h k hk
  · intro h k _
    exact h _ (Nat.mod_lt _ hn)

end ImplusKernel.RingScan
