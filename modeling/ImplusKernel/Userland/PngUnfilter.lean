import ImplusKernel.Lib.PngFilter
import ImplusKernel.Userland.PngBounds

/-!
# Unfiltering in place

`png_unfilter` replaces each row by its pixels, reading the row itself to the
left of where it is and the row above, which holds pixels already.  Byte by byte
this is the reconstruction of the format, on any data: a filter type that does
not exist leaves its row alone, and the loops that skip bytes skip those whose
prediction is zero.
-/

namespace ImplusKernel.Png

open ByteMemory PngFilter

variable {filter : UInt8} {stride row x n : ℕ} {prev : Option ℕ} {data : Mem} {prior : ℕ → UInt8}

/-! ## Predictions -/

theorem absDiff_eq (p q : ℤ) : absDiff p q = |p - q| := by
  unfold absDiff
  split
  · rw [abs_of_pos (by omega)]
  · rw [abs_of_nonpos (by omega)]
    omega

theorem paeth_eq (a b c : UInt8) : paeth a b c = paethPredictor a b c := by
  simp only [paeth, paethPredictor, absDiff_eq]

theorem prediction_eq (filter : UInt8) (data : Mem) (row : ℕ) (prev : Option ℕ) (x : ℕ) :
    prediction filter data row prev x =
      (FilterType.ofByte filter).predict (left (fun i ↦ data (row + i)) x)
        (prev.elim 0 fun q ↦ data (q + x))
        (left (fun i ↦ prev.elim 0 fun q ↦ data (q + i)) x) := by
  unfold prediction FilterType.ofByte
  match filter.toNat with
  | 0 => rfl
  | 1 => rfl
  | 2 => rfl
  | 3 => rfl
  | 4 => exact paeth_eq _ _ _
  | n + 5 => rfl

/-! ## One row -/

def addPrediction (filter : UInt8) (row : ℕ) (prev : Option ℕ) (d : Mem) (x : ℕ) : Mem :=
  Function.update d (row + x) (d (row + x) + prediction filter d row prev x)

/-- The row above is `prior` and ends before this one. -/
structure PriorRow (data : Mem) (stride row : ℕ) (prev : Option ℕ) (prior : ℕ → UInt8) : Prop where
  bytes : ∀ x < stride, prev.elim 0 (fun q ↦ data (q + x)) = prior x
  before : ∀ q ∈ prev, q + stride ≤ row

theorem PriorRow.congr {d : Mem} (h : PriorRow data stride row prev prior)
    (heq : ∀ i < row, d i = data i) : PriorRow d stride row prev prior := by
  refine ⟨fun x hx ↦ ?_, h.before⟩
  rw [← h.bytes x hx]
  cases prev with
  | none => rfl
  | some q =>
      have hq := h.before q rfl
      exact heq (q + x) (by omega)

/-- A round at `x` gives pixel byte `x` when all before it are there. -/
theorem addPrediction_self {d : Mem} (h : PriorRow d stride row prev prior) (hx : x < stride)
    (hdone : ∀ i < x, d (row + i) =
      reconRow (FilterType.ofByte filter) (fun i ↦ data (row + i)) prior i)
    (hself : d (row + x) = data (row + x)) :
    addPrediction filter row prev d x (row + x) =
      reconRow (FilterType.ofByte filter) (fun i ↦ data (row + i)) prior x := by
  rw [addPrediction, Function.update_self, prediction_eq, reconRow_eq, hself, h.bytes x hx,
    left_congr hdone, left_congr fun i hi ↦ h.bytes i (hi.trans hx)]

/-- The loop over consecutive bytes, after those whose prediction is zero. -/
theorem foldl_addPrediction (h : PriorRow data stride row prev prior) {a : ℕ}
    (hstart : ∀ i < a, data (row + i) =
      reconRow (FilterType.ofByte filter) (fun i ↦ data (row + i)) prior i)
    (hn : a + n ≤ stride) :
    (∀ i < a + n, (List.range' a n).foldl (addPrediction filter row prev) data (row + i) =
        reconRow (FilterType.ofByte filter) (fun i ↦ data (row + i)) prior i) ∧
      ∀ i, i < row + a ∨ row + (a + n) ≤ i →
        (List.range' a n).foldl (addPrediction filter row prev) data i = data i := by
  induction n with
  | zero => exact ⟨hstart, fun _ _ ↦ rfl⟩
  | succ n ih =>
      obtain ⟨hdone, hrest⟩ := ih (by omega)
      rw [List.range'_concat, Nat.one_mul, List.foldl_append]
      generalize (List.range' a n).foldl (addPrediction filter row prev) data = d at hdone hrest
      have hprior : PriorRow d stride row prev prior :=
        h.congr fun i hi ↦ hrest i (by omega)
      have hother : ∀ i, i ≠ row + (a + n) → addPrediction filter row prev d (a + n) i = d i :=
        fun i hi ↦ Function.update_of_ne hi _ _
      refine ⟨fun i hi ↦ ?_, fun i hi ↦ ?_⟩
      · rcases Nat.lt_succ_iff_lt_or_eq.mp (show i < a + n + 1 from hi) with hlt | rfl
        · exact (hother _ (by omega)).trans (hdone i hlt)
        · exact addPrediction_self hprior (by omega) hdone (hrest _ (by omega))
      · exact (hother i (by omega)).trans (hrest i (by omega))

theorem reconRow_of_predict_zero {f : FilterType} {bytes : ℕ → UInt8}
    (h : ∀ a, f.predict a (prior x) (left prior x) = 0) : reconRow f bytes prior x = bytes x := by
  rw [reconRow_eq, h, UInt8.add_zero]

theorem unfilterRow_recon (h : PriorRow data stride row prev prior) (hx : x < stride) :
    unfilterRow filter stride row prev data (row + x) =
      reconRow (FilterType.ofByte filter) (fun i ↦ data (row + i)) prior x := by
  have hloop : columns filter stride prev.isSome = List.range' 0 stride →
      unfilterRow filter stride row prev data (row + x) =
        reconRow (FilterType.ofByte filter) (fun i ↦ data (row + i)) prior x := by
    intro hcolumns
    rw [unfilterRow, hcolumns]
    exact (foldl_addPrediction h (fun i hi ↦ absurd hi (Nat.not_lt_zero i))
      (Nat.zero_add stride).le).1 x (by omega)
  have hnone : columns filter stride prev.isSome = [] →
      (∀ a, (FilterType.ofByte filter).predict a (prior x) (left prior x) = 0) →
      unfilterRow filter stride row prev data (row + x) =
        reconRow (FilterType.ofByte filter) (fun i ↦ data (row + i)) prior x := by
    intro hcolumns hzero
    rw [unfilterRow, hcolumns, reconRow_of_predict_zero hzero]
    rfl
  match hbyte : filter.toNat with
  | 0 =>
      refine hnone (by simp only [columns, hbyte]) fun a ↦ ?_
      simp only [FilterType.ofByte, hbyte, FilterType.predict]
  | 1 =>
      have hsub : FilterType.ofByte filter = .sub := by simp only [FilterType.ofByte, hbyte]
      have hcolumns : columns filter stride prev.isSome = List.range' 4 (stride - 4) := by
        simp only [columns, hbyte]
      -- The first pixel has nothing to its left.
      have hstart : ∀ i < 4, data (row + i) =
          reconRow (FilterType.ofByte filter) (fun i ↦ data (row + i)) prior i := by
        intro i hi
        rw [reconRow_eq, hsub, left_of_lt hi]
        exact (UInt8.add_zero _).symm
      rw [unfilterRow, hcolumns]
      by_cases hshort : stride ≤ 4
      · rw [Nat.sub_eq_zero_of_le hshort]
        exact hstart x (by omega)
      · exact (foldl_addPrediction h hstart (by omega)).1 x (by omega)
  | 2 =>
      have hup : FilterType.ofByte filter = .up := by simp only [FilterType.ofByte, hbyte]
      cases prev with
      | none =>
          refine hnone (by simp [columns, hbyte]) fun a ↦ ?_
          rw [hup]
          exact (h.bytes x hx).symm
      | some q => exact hloop (by simp [columns, hbyte, List.range_eq_range'])
  | 3 => exact hloop (by simp only [columns, hbyte, List.range_eq_range'])
  | 4 => exact hloop (by simp only [columns, hbyte, List.range_eq_range'])
  | n + 5 =>
      refine hnone (by simp only [columns, hbyte]) fun a ↦ ?_
      simp only [FilterType.ofByte, hbyte, FilterType.predict]

/-! ## All rows -/

/-- The filter types and the bytes of rows of `stride` bytes, each after its
filter type. -/
def scanFilters (stride : ℕ) (data : Mem) (y : ℕ) : FilterType :=
  FilterType.ofByte (data (y * (stride + 1)))

def scanBytes (stride : ℕ) (data : Mem) (y x : ℕ) : UInt8 := data (y * (stride + 1) + 1 + x)

/-- The pixels that the data stand for. -/
def scanPixels (stride : ℕ) (data : Mem) : ℕ → ℕ → UInt8 :=
  recon (scanFilters stride data) (scanBytes stride data)

theorem scanIndex_lt {j y i : ℕ} (hj : j ≤ y) (hi : i < stride) :
    j * (stride + 1) + 1 + i < (y + 1) * (stride + 1) := by
  have hle := row_add_le (show j < y + 1 by omega) (stride + 1)
  omega

theorem scanPixels_congr {d : Mem} {y : ℕ} (hx : x < stride)
    (h : ∀ i < (y + 1) * (stride + 1), data i = d i) :
    scanPixels stride data y x = scanPixels stride d y x := by
  refine recon_congr (fun j hj ↦ ?_) fun j hj i hi ↦ h _ (scanIndex_lt hj (hi.trans_lt hx))
  have hlt := scanIndex_lt hj (Nat.zero_lt_of_lt hx)
  rw [scanFilters, scanFilters, h _ (by omega)]

/-- The last byte of a row shows in its pixel. -/
theorem scanPixels_ne {d : Mem} {y : ℕ} (hx : x + 1 = stride)
    (h : ∀ i < y * (stride + 1) + 1 + x, data i = d i)
    (hne : data (y * (stride + 1) + 1 + x) ≠ d (y * (stride + 1) + 1 + x)) :
    scanPixels stride data y x ≠ scanPixels stride d y x := by
  have hfilters : ∀ j ≤ y, scanFilters stride data j = scanFilters stride d j := by
    intro j hj
    have hle : j * (stride + 1) ≤ y * (stride + 1) := Nat.mul_le_mul_right _ hj
    rw [scanFilters, scanFilters, h _ (by omega)]
  have hsame : scanPixels stride data y x =
      recon (scanFilters stride d) (scanBytes stride data) y x :=
    recon_congr hfilters fun _ _ _ _ ↦ rfl
  rw [hsame]
  refine recon_ne (fun j hj i hi hplace ↦ h _ ?_) hne
  rcases hj.lt_or_eq with hlt | rfl
  · have hle := row_add_le hlt (stride + 1)
    omega
  · have hother : i ≠ x := fun heq ↦ hplace (by rw [heq])
    omega

def rowAbove (stride : ℕ) : ℕ → Option ℕ
  | 0 => none
  | y + 1 => some (y * (stride + 1) + 1)

/-- The rows before row `y` are pixels, the others are as they came. -/
structure UnfilteredTo (stride : ℕ) (data : Mem) (y : ℕ) (d : Mem) : Prop where
  done : ∀ j < y, ∀ x < stride, d (j * (stride + 1) + 1 + x) = scanPixels stride data j x
  rest : ∀ i, y * (stride + 1) ≤ i → d i = data i

theorem UnfilteredTo.priorRow {d : Mem} {y : ℕ} (h : UnfilteredTo stride data y d) :
    PriorRow d stride (y * (stride + 1) + 1) (rowAbove stride y)
      (above (scanPixels stride data) y) := by
  cases y with
  | zero => exact ⟨fun _ _ ↦ rfl, nofun⟩
  | succ y =>
      refine ⟨fun x hx ↦ h.done y (Nat.lt_succ_self y) x hx, ?_⟩
      rintro q ⟨⟩
      have hle := row_add_le (show y < y + 1 by omega) (stride + 1)
      omega

theorem UnfilteredTo.step {d : Mem} {y : ℕ} (h : UnfilteredTo stride data y d) :
    UnfilteredTo stride data (y + 1) (unfilterRow (d (y * (stride + 1))) stride
      (y * (stride + 1) + 1) (rowAbove stride y) d) := by
  have hnext : (y + 1) * (stride + 1) = y * (stride + 1) + (stride + 1) := by ring
  have hfilter : d (y * (stride + 1)) = data (y * (stride + 1)) := h.rest _ le_rfl
  constructor
  · intro j hj x hx
    rcases Nat.lt_succ_iff_lt_or_eq.mp hj with hlt | rfl
    · have hle := row_add_le hlt (stride + 1)
      rw [unfilterRow_of_not_visited _ fun i _ ↦ by omega]
      exact h.done j hlt x hx
    · rw [unfilterRow_recon h.priorRow hx, scanPixels, recon_row, hfilter]
      refine reconRow_congr (fun i hi ↦ ?_) fun _ _ ↦ rfl
      exact h.rest _ (by omega)
  · intro i hi
    rw [hnext] at hi
    rw [unfilterRow_outside _ _ _ (by omega)]
    exact h.rest i (by omega)

theorem UnfilteredTo.run {d : Mem} {y : ℕ} (h : UnfilteredTo stride data y d) (rows : ℕ) :
    UnfilteredTo stride data (y + rows)
      (unfilterRows stride rows (y * (stride + 1)) (rowAbove stride y) d) := by
  induction rows generalizing y d with
  | zero => exact h
  | succ rows ih =>
      have hrest := ih h.step
      have hnext : (y + 1) * (stride + 1) = y * (stride + 1) + (stride + 1) := by ring
      rw [hnext, Nat.add_assoc, Nat.add_comm 1] at hrest
      exact hrest

theorem pngUnfilter_pixels (data : Mem) {width height y : ℕ} (hy : y < height)
    (hx : x < width * 4 % 2 ^ 32) :
    pngUnfilter data width height (y * (width * 4 % 2 ^ 32 + 1) + 1 + x) =
      scanPixels (width * 4 % 2 ^ 32) data y x := by
  have hstart : UnfilteredTo (width * 4 % 2 ^ 32) data 0 data :=
    ⟨fun j hj ↦ absurd hj (Nat.not_lt_zero j), fun _ _ ↦ rfl⟩
  have hrun := hstart.run height
  rw [Nat.zero_add, Nat.zero_mul] at hrun
  exact hrun.done y hy x hx

/-! ## Copying the rows -/

/-- A loop of copies, at an index that copy `y` writes and no later one. -/
theorem foldl_copy_of_last {P : ℕ → ℕ → Prop} [∀ y i, Decidable (P y i)] {v : ℕ → ℕ → UInt8}
    {n y i : ℕ} (hy : y < n) (hin : P y i) (hlast : ∀ j < n, y < j → ¬P j i) (out : Mem) :
    (List.range n).foldl (fun o y i ↦ if P y i then v y i else o i) out i = v y i := by
  induction n with
  | zero => omega
  | succ n ih =>
      rw [List.range_succ, List.foldl_append]
      rcases Nat.lt_succ_iff_lt_or_eq.mp hy with hlt | rfl
      · exact (if_neg (hlast n (Nat.lt_succ_self n) hlt)).trans
          (ih hlt fun j hj ↦ hlast j (hj.trans (Nat.lt_succ_self n)))
      · exact if_pos hin

theorem foldl_copy_of_none {P : ℕ → ℕ → Prop} [∀ y i, Decidable (P y i)] {v : ℕ → ℕ → UInt8}
    {n i : ℕ} (hnone : ∀ j < n, ¬P j i) (out : Mem) :
    (List.range n).foldl (fun o y i ↦ if P y i then v y i else o i) out i = out i := by
  induction n with
  | zero => rfl
  | succ n ih =>
      rw [List.range_succ, List.foldl_append]
      exact (if_neg (hnone n (Nat.lt_succ_self n))).trans
        (ih fun j hj ↦ hnone j (hj.trans (Nat.lt_succ_self n)))

namespace Job

variable {j : Job} {y : ℕ}

/-- No product wraps in a small image, and every row has its own place. -/
theorem copyRows_pixel (hsmall : j.height * (4 * j.width + 1) < 2 ^ 16) (hy : y < j.height)
    (hx : x < 4 * j.width) (decomp out : Mem) :
    j.copyRows decomp out (y * (4 * j.width) + x) = decomp (y * (4 * j.width + 1) + 1 + x) := by
  have hrow : 4 * j.width + 1 ≤ j.height * (4 * j.width + 1) :=
    Nat.le_mul_of_pos_left _ (by omega)
  have hstride : j.stride = 4 * j.width := by
    rw [stride, Nat.mul_comm, Nat.mod_eq_of_lt (by omega)]
  have hstart : ∀ k < j.height, (j.target k).start = k * (4 * j.width) := by
    intro k hk
    have hle : (k + 1) * (4 * j.width + 1) ≤ j.height * (4 * j.width + 1) :=
      Nat.mul_le_mul_right _ hk
    have hmul : (k + 1) * (4 * j.width + 1) = 4 * (k * j.width) + k + 4 * j.width + 1 := by ring
    rw [target, Nat.mod_eq_of_lt (by omega)]
    ring
  have hin : (j.target y).start ≤ y * (4 * j.width) + x ∧
      y * (4 * j.width) + x < (j.target y).start + (j.target y).count := by
    rw [hstart y hy, show (j.target y).count = 4 * j.width from hstride]
    omega
  rw [copyRows, foldl_copy_of_last hy hin, hstart y hy, source, hstride, Nat.add_sub_cancel_left]
  intro k hk hlt
  have hle := row_add_le hlt (4 * j.width)
  rw [hstart k hk]
  omega

/-- The last byte of the image comes from the last byte of the data, or, when a
product has wrapped, from no row at all. -/
theorem copyRows_last (hwidth : 0 < j.width) (hheight : j.height = y + 1) :
    (j.stride = 4 * j.width ∧ ∀ decomp out,
      j.copyRows decomp out (y * (4 * j.width) + (4 * j.width - 1)) =
        decomp (y * (4 * j.width + 1) + 1 + (4 * j.width - 1))) ∨
    ∀ decomp out, j.copyRows decomp out (y * (4 * j.width) + (4 * j.width - 1)) =
      out (y * (4 * j.width) + (4 * j.width - 1)) := by
  have hstride : j.stride ≤ 4 * j.width := (Nat.mod_le _ _).trans (Nat.mul_comm _ _).le
  have hstart : ∀ k, (j.target k).start ≤ k * (4 * j.width) := by
    intro k
    have hle := Nat.mul_le_mul_left 4 (Nat.mod_le (k * j.width) (2 ^ 32))
    exact hle.trans (Nat.mul_left_comm 4 k j.width).le
  have hcount : ∀ k, (j.target k).count = j.stride := fun _ ↦ rfl
  have hbefore : ∀ k < y, ¬((j.target k).start ≤ y * (4 * j.width) + (4 * j.width - 1) ∧
      y * (4 * j.width) + (4 * j.width - 1) < (j.target k).start + (j.target k).count) := by
    intro k hk
    have hle := row_add_le hk (4 * j.width)
    have hk := hstart k
    rw [hcount]
    omega
  by_cases hlast : (j.target y).start ≤ y * (4 * j.width) + (4 * j.width - 1) ∧
      y * (4 * j.width) + (4 * j.width - 1) < (j.target y).start + (j.target y).count
  · have hy := hstart y
    rw [hcount] at hlast
    have hfull : j.stride = 4 * j.width := by omega
    have hplace : (j.target y).start = y * (4 * j.width) := by omega
    refine Or.inl ⟨hfull, fun decomp out ↦ ?_⟩
    rw [copyRows, foldl_copy_of_last (y := y) (by omega) hlast fun k hk hlt ↦ by omega, hplace,
      source, hfull, Nat.add_sub_cancel_left]
  · refine Or.inr fun decomp out ↦ foldl_copy_of_none (fun k hk ↦ ?_) out
    rcases Nat.lt_or_ge k y with hlt | hge
    · exact hbefore k hlt
    · obtain rfl : k = y := by omega
      exact hlast

end Job

end ImplusKernel.Png
