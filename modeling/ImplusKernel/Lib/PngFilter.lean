import Mathlib.Algebra.Order.Group.Unbundled.Abs
import Mathlib.Algebra.Order.Ring.Int

/-!
# Scanline filters

The filters of the PNG format for pixels of four bytes.  A filter predicts a
byte from the ones to its left, above and above to its left, which lie one
pixel apart, and stores the difference.  An image is a function of the row and
of the byte in the row; rows are reconstructed from the first one on.
-/

namespace ImplusKernel.PngFilter

inductive FilterType
  | none
  | sub
  | up
  | average
  | paeth
deriving DecidableEq, Repr

def FilterType.code : FilterType → UInt8
  | none => 0
  | sub => 1
  | up => 2
  | average => 3
  | paeth => 4

/-- Bytes that are no filter type stand for `none`. -/
def FilterType.ofByte (b : UInt8) : FilterType :=
  match b.toNat with
  | 1 => sub
  | 2 => up
  | 3 => average
  | 4 => paeth
  | _ => none

@[simp]
theorem FilterType.ofByte_code (f : FilterType) : ofByte f.code = f := by
  cases f <;> rfl

/-- The neighbour that is nearest to `a + b - c`, the first of them in a tie. -/
def paethPredictor (a b c : UInt8) : UInt8 :=
  let p : ℤ := a.toNat + b.toNat - c.toNat
  if |p - a.toNat| ≤ |p - b.toNat| ∧ |p - a.toNat| ≤ |p - c.toNat| then a
  else if |p - b.toNat| ≤ |p - c.toNat| then b
  else c

def FilterType.predict (f : FilterType) (a b c : UInt8) : UInt8 :=
  match f with
  | none => 0
  | sub => a
  | up => b
  | average => UInt8.ofNat ((a.toNat + b.toNat) / 2)
  | paeth => paethPredictor a b c

/-! ## One row -/

def left (row : ℕ → UInt8) (x : ℕ) : UInt8 := if 4 ≤ x then row (x - 4) else 0

def filterRow (f : FilterType) (raw prior : ℕ → UInt8) (x : ℕ) : UInt8 :=
  raw x - f.predict (left raw x) (prior x) (left prior x)

def reconRow (f : FilterType) (bytes prior : ℕ → UInt8) : ℕ → UInt8
  | 0 => bytes 0 + f.predict 0 (prior 0) 0
  | 1 => bytes 1 + f.predict 0 (prior 1) 0
  | 2 => bytes 2 + f.predict 0 (prior 2) 0
  | 3 => bytes 3 + f.predict 0 (prior 3) 0
  | x + 4 => bytes (x + 4) + f.predict (reconRow f bytes prior x) (prior (x + 4)) (prior x)

variable {f : FilterType} {bytes bytes' prior prior' : ℕ → UInt8} {x : ℕ}

theorem left_of_lt {row : ℕ → UInt8} (h : x < 4) : left row x = 0 := if_neg (not_le.mpr h)

theorem left_congr {row row' : ℕ → UInt8} (h : ∀ i < x, row i = row' i) :
    left row x = left row' x := by
  unfold left
  split
  · exact h _ (by omega)
  · rfl

theorem reconRow_eq (f : FilterType) (bytes prior : ℕ → UInt8) (x : ℕ) :
    reconRow f bytes prior x =
      bytes x + f.predict (left (reconRow f bytes prior) x) (prior x) (left prior x) := by
  match x with
  | 0 => rfl
  | 1 => rfl
  | 2 => rfl
  | 3 => rfl
  | x + 4 => simp [reconRow, left]

/-- A row depends on what comes before it in the two rows. -/
theorem reconRow_congr (hbytes : ∀ i ≤ x, bytes i = bytes' i)
    (hprior : ∀ i ≤ x, prior i = prior' i) :
    reconRow f bytes prior x = reconRow f bytes' prior' x := by
  induction x using Nat.strong_induction_on with
  | _ x ih =>
      rw [reconRow_eq, reconRow_eq, hbytes x le_rfl, hprior x le_rfl,
        left_congr fun i hi ↦ hprior i hi.le,
        left_congr fun i hi ↦ ih i hi (fun k hk ↦ hbytes k (hk.trans hi.le))
          fun k hk ↦ hprior k (hk.trans hi.le)]

theorem reconRow_filterRow (f : FilterType) (raw prior : ℕ → UInt8) (x : ℕ) :
    reconRow f (filterRow f raw prior) prior x = raw x := by
  induction x using Nat.strong_induction_on with
  | _ x ih =>
      rw [reconRow_eq, left_congr fun i hi ↦ ih i hi, filterRow, UInt8.sub_add_cancel]

/-! ## All rows -/

/-- The row above, of zeros for the first row. -/
def above (rows : ℕ → ℕ → UInt8) : ℕ → ℕ → UInt8
  | 0 => fun _ ↦ 0
  | y + 1 => rows y

def filtered (filters : ℕ → FilterType) (raw : ℕ → ℕ → UInt8) (y : ℕ) : ℕ → UInt8 :=
  filterRow (filters y) (raw y) (above raw y)

def recon (filters : ℕ → FilterType) (bytes : ℕ → ℕ → UInt8) : ℕ → ℕ → UInt8
  | 0 => reconRow (filters 0) (bytes 0) fun _ ↦ 0
  | y + 1 => reconRow (filters (y + 1)) (bytes (y + 1)) (recon filters bytes y)

theorem recon_row (filters : ℕ → FilterType) (bytes : ℕ → ℕ → UInt8) (y : ℕ) :
    recon filters bytes y =
      reconRow (filters y) (bytes y) (above (recon filters bytes) y) := by
  cases y <;> rfl

theorem recon_congr {filters filters' : ℕ → FilterType} {bytes bytes' : ℕ → ℕ → UInt8} {y x : ℕ}
    (hfilters : ∀ j ≤ y, filters j = filters' j)
    (hbytes : ∀ j ≤ y, ∀ i ≤ x, bytes j i = bytes' j i) :
    recon filters bytes y x = recon filters' bytes' y x := by
  induction y generalizing x with
  | zero =>
      rw [recon, recon, hfilters 0 le_rfl]
      exact reconRow_congr (hbytes 0 le_rfl) fun _ _ ↦ rfl
  | succ y ih =>
      rw [recon, recon, hfilters (y + 1) le_rfl]
      refine reconRow_congr (hbytes (y + 1) le_rfl) fun i hi ↦ ih (fun j hj ↦ ?_) fun j hj k hk ↦ ?_
      · exact hfilters j (by omega)
      · exact hbytes j (by omega) k (hk.trans hi)

/-- Reconstruction undoes filtering, whatever the filters of the rows. -/
theorem recon_filtered (filters : ℕ → FilterType) (raw : ℕ → ℕ → UInt8) (y : ℕ) :
    recon filters (filtered filters raw) y = raw y := by
  induction y with
  | zero => exact funext (reconRow_filterRow _ _ _)
  | succ y ih =>
      rw [recon, ih]
      exact funext (reconRow_filterRow _ _ _)

/-- A change of one byte shows at its own place. -/
theorem recon_ne {filters : ℕ → FilterType} {bytes bytes' : ℕ → ℕ → UInt8} {y x : ℕ}
    (hother : ∀ j ≤ y, ∀ i ≤ x, (j, i) ≠ (y, x) → bytes j i = bytes' j i)
    (hne : bytes y x ≠ bytes' y x) :
    recon filters bytes y x ≠ recon filters bytes' y x := by
  have hleft : left (recon filters bytes y) x = left (recon filters bytes' y) x := by
    refine left_congr fun i hi ↦ recon_congr (fun _ _ ↦ rfl) fun j hj k hk ↦ ?_
    exact hother j hj k (by omega) (by simp; omega)
  have habove : ∀ i ≤ x, above (recon filters bytes) y i = above (recon filters bytes') y i := by
    cases y with
    | zero => exact fun _ _ ↦ rfl
    | succ y =>
        refine fun i hi ↦ recon_congr (fun _ _ ↦ rfl) fun j hj k hk ↦ ?_
        exact hother j (by omega) k (hk.trans hi) (by simp; omega)
  rw [recon_row, recon_row] at hleft
  rw [recon_row, recon_row, reconRow_eq, reconRow_eq, hleft, habove x le_rfl,
    left_congr fun i hi ↦ habove i hi.le]
  exact fun h ↦ hne (UInt8.add_left_inj _ |>.mp h)

end ImplusKernel.PngFilter
