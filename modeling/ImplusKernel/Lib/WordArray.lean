import ImplusKernel.Lib.ByteMemory

/-!
# Arrays of words in memory

One 32-bit word is stored at several indices of an array.  The memory after
the stores depends on the set of indices only, not on their order.
-/

namespace ImplusKernel.WordArray

open ByteMemory

def fill (m : Mem) (base v : ℕ) (indices : List ℕ) : Mem :=
  indices.foldl (fun m i ↦ writeLE m ((base + 4 * i) % 2 ^ 64) 4 v) m

variable {m : Mem} {base v size i x : ℕ} {indices indices' : List ℕ}

theorem writeLE_inside (m m' : Mem) {a n x : ℕ} (v : ℕ) (hlo : a ≤ x) (hhi : x < a + n) :
    writeLE m a n v x = writeLE m' a n v x := by
  induction n generalizing a v with
  | zero => omega
  | succ n ih =>
      rw [writeLE, writeLE]
      by_cases hx : x = a
      · rw [hx, Function.update_self, Function.update_self]
      · rw [Function.update_of_ne hx, Function.update_of_ne hx]
        exact ih _ (by omega) (by omega)

section Fit

variable (hfit : base + 4 * size ≤ 2 ^ 64) (hindices : ∀ j ∈ indices, j < size)

include hfit hindices

theorem fill_outside (m : Mem) (v : ℕ)
    (h : ∀ j ∈ indices, x < base + 4 * j ∨ base + 4 * j + 4 ≤ x) :
    fill m base v indices x = m x := by
  induction indices generalizing m with
  | nil => rfl
  | cons j rest ih =>
      have hj := hindices j (List.mem_cons_self ..)
      have hmod : (base + 4 * j) % 2 ^ 64 = base + 4 * j := Nat.mod_eq_of_lt (by omega)
      rw [fill, List.foldl_cons, hmod]
      refine (ih (fun k hk ↦ hindices k (List.mem_cons_of_mem j hk)) _
        fun k hk ↦ h k (List.mem_cons_of_mem j hk)).trans ?_
      exact writeLE_outside m (h j (List.mem_cons_self ..))

/-- A byte of a word that is stored, whether later stores repeat it or not. -/
theorem fill_inside (m : Mem) (v : ℕ) (hi : i ∈ indices) (hlo : base + 4 * i ≤ x)
    (hhi : x < base + 4 * i + 4) :
    fill m base v indices x = writeLE m (base + 4 * i) 4 v x := by
  induction indices generalizing m with
  | nil => cases hi
  | cons j rest ih =>
      have hrest : ∀ k ∈ rest, k < size := fun k hk ↦ hindices k (List.mem_cons_of_mem j hk)
      have hj := hindices j (List.mem_cons_self ..)
      have hmod : (base + 4 * j) % 2 ^ 64 = base + 4 * j := Nat.mod_eq_of_lt (by omega)
      rw [fill, List.foldl_cons, hmod]
      by_cases hmem : i ∈ rest
      · exact (ih hrest _ hmem).trans (writeLE_inside _ _ v hlo hhi)
      · obtain rfl : i = j := by simpa [hmem] using hi
        apply fill_outside hfit hrest
        intro k hk
        have hne : k ≠ i := fun heq ↦ hmem (heq ▸ hk)
        omega

theorem fill_congr (h : ∀ j, j ∈ indices ↔ j ∈ indices') (m : Mem) (v : ℕ) :
    fill m base v indices = fill m base v indices' := by
  have hindices' : ∀ j ∈ indices', j < size := fun j hj ↦ hindices j ((h j).mpr hj)
  funext x
  by_cases hx : ∃ j ∈ indices, base + 4 * j ≤ x ∧ x < base + 4 * j + 4
  · obtain ⟨j, hj, hlo, hhi⟩ := hx
    rw [fill_inside hfit hindices m v hj hlo hhi,
      fill_inside hfit hindices' m v ((h j).mp hj) hlo hhi]
  · have hnone : ∀ j ∈ indices, x < base + 4 * j ∨ base + 4 * j + 4 ≤ x := by
      intro j hj
      by_contra hin
      exact hx ⟨j, hj, by omega, by omega⟩
    rw [fill_outside hfit hindices m v hnone,
      fill_outside hfit hindices' m v fun j hj ↦ hnone j ((h j).mpr hj)]

theorem readLE_fill (m : Mem) (v i : ℕ) :
    readLE (fill m base v indices) (base + 4 * i) 4 =
      if i ∈ indices then v % 2 ^ 32 else readLE m (base + 4 * i) 4 := by
  split
  next hi =>
    have hbytes : AgreeOn (writeLE m (base + 4 * i) 4 v) (fill m base v indices)
        (base + 4 * i) (base + 4 * i + 4) :=
      fun x hlo hhi ↦ fill_inside hfit hindices m v hi hlo hhi
    rw [readLE_congr hbytes, readLE_writeLE]
    rfl
  next hi =>
    apply readLE_congr
    intro x hlo hhi
    apply fill_outside hfit hindices
    intro j hj
    have hne : j ≠ i := fun heq ↦ hi (heq ▸ hj)
    omega

end Fit

end ImplusKernel.WordArray
