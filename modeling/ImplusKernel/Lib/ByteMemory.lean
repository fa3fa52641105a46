import Mathlib.Data.List.GetD
import Mathlib.Logic.Function.Basic
import Mathlib.Tactic.Linarith
import Mathlib.Tactic.Ring

/-!
# Byte-addressed memory

A memory is a function from addresses to bytes.  Words are read and written
in little-endian order.  The two library loops `memset` and `memcpy` are
written by recursion on the number of bytes already moved, so an overlapping
copy reads what the earlier iterations have stored.
-/

namespace ImplusKernel.ByteMemory

abbrev Mem := ℕ → UInt8

/-- Little-endian read of `n` bytes. -/
def readLE (m : Mem) : ℕ → ℕ → ℕ
  | _, 0 => 0
  | a, n + 1 => (m a).toNat + 256 * readLE m (a + 1) n

/-- Little-endian write of the low `n` bytes of `v`. -/
def writeLE (m : Mem) : ℕ → ℕ → ℕ → Mem
  | _, 0, _ => m
  | a, n + 1, v => Function.update (writeLE m (a + 1) n (v / 256)) a (UInt8.ofNat v)

/-- Two memories agree on the addresses `lo ≤ x < hi`. -/
def AgreeOn (m m' : Mem) (lo hi : ℕ) : Prop :=
  ∀ x, lo ≤ x → x < hi → m' x = m x

theorem AgreeOn.mono {m m' : Mem} {lo hi lo' hi' : ℕ} (h : AgreeOn m m' lo hi)
    (hlo : lo ≤ lo') (hhi : hi' ≤ hi) : AgreeOn m m' lo' hi' :=
  fun x hx hx' ↦ h x (hlo.trans hx) (hx'.trans_le hhi)

theorem readLE_lt (m : Mem) (a n : ℕ) : readLE m a n < 256 ^ n := by
  induction n generalizing a with
  | zero => simp [readLE]
  | succ n ih =>
      have hbyte : (m a).toNat < 256 := (m a).toNat_lt
      have hrest := ih (a + 1)
      rw [readLE, pow_succ]
      omega

theorem readLE_congr {m m' : Mem} {a n : ℕ} (h : AgreeOn m m' a (a + n)) :
    readLE m' a n = readLE m a n := by
  induction n generalizing a with
  | zero => rfl
  | succ n ih =>
      have hhead : m' a = m a := h a le_rfl (by omega)
      have htail : readLE m' (a + 1) n = readLE m (a + 1) n :=
        ih (h.mono (by omega) (by omega))
      rw [readLE, readLE, hhead, htail]

theorem readLE_shift {m m' : Mem} {a b n : ℕ} (h : ∀ j < n, m (a + j) = m' (b + j)) :
    readLE m a n = readLE m' b n := by
  induction n generalizing a b with
  | zero => rfl
  | succ n ih =>
      have htail : readLE m (a + 1) n = readLE m' (b + 1) n := by
        apply ih
        intro j hj
        rw [Nat.add_assoc, Nat.add_assoc, Nat.add_comm 1]
        exact h (j + 1) (by omega)
      have hhead : m a = m' b := h 0 (by omega)
      rw [readLE, readLE, hhead, htail]

theorem writeLE_outside (m : Mem) {a n v x : ℕ} (h : x < a ∨ a + n ≤ x) :
    writeLE m a n v x = m x := by
  induction n generalizing a v with
  | zero => rfl
  | succ n ih =>
      have hne : x ≠ a := by omega
      rw [writeLE, Function.update_of_ne hne]
      exact ih (by omega)

theorem agreeOn_writeLE (m : Mem) {a n v lo hi : ℕ} (h : hi ≤ a ∨ a + n ≤ lo) :
    AgreeOn m (writeLE m a n v) lo hi :=
  fun _ hlo hhi ↦ writeLE_outside m (by omega)

theorem readLE_writeLE (m : Mem) (a n v : ℕ) :
    readLE (writeLE m a n v) a n = v % 256 ^ n := by
  induction n generalizing a v with
  | zero => simp [readLE, Nat.mod_one]
  | succ n ih =>
      have htail : readLE (writeLE m a (n + 1) v) (a + 1) n =
          readLE (writeLE m (a + 1) n (v / 256)) (a + 1) n := by
        apply readLE_congr
        intro x hx _
        have hne : x ≠ a := by omega
        rw [writeLE, Function.update_of_ne hne]
      have hhead : writeLE m a (n + 1) v a = UInt8.ofNat v := by
        rw [writeLE, Function.update_self]
      have hpow : 256 ^ (n + 1) = 256 * 256 ^ n := pow_succ' 256 n
      rw [readLE, htail, ih, hhead, UInt8.toNat_ofNat', hpow, Nat.mod_mul]

theorem readLE_writeLE_of_lt (m : Mem) {a n v : ℕ} (h : v < 256 ^ n) :
    readLE (writeLE m a n v) a n = v := by
  rw [readLE_writeLE, Nat.mod_eq_of_lt h]

theorem readLE_writeLE_disjoint (m : Mem) {a n v b k : ℕ}
    (h : b + k ≤ a ∨ a + n ≤ b) : readLE (writeLE m a n v) b k = readLE m b k :=
  readLE_congr (agreeOn_writeLE m h)

/-- Rows of equal length do not overlap in an array. -/
theorem row_inj {n q q' r r' : ℕ} (hr : r < n) (hr' : r' < n)
    (h : q * n + r = q' * n + r') : q = q' ∧ r = r' := by
  have hpos : 0 < n := Nat.zero_lt_of_lt hr
  have hparts : (q * n + r) / n = q ∧ (q * n + r) % n = r :=
    (Nat.div_mod_unique hpos).mpr ⟨by rw [Nat.mul_comm, Nat.add_comm], hr⟩
  have hparts' : (q * n + r) / n = q' ∧ (q * n + r) % n = r' :=
    (Nat.div_mod_unique hpos).mpr ⟨by rw [h, Nat.mul_comm, Nat.add_comm], hr'⟩
  exact ⟨hparts.1.symm.trans hparts'.1, hparts.2.symm.trans hparts'.2⟩

theorem row_add_le {q r : ℕ} (h : q < r) (n : ℕ) : q * n + n ≤ r * n := by
  rw [← Nat.succ_mul]
  exact Nat.mul_le_mul_right n h

/-! ## The copy and fill loops -/

/-- `for (i = 0; i < num; i++) ptr[i] = value`, on 64-bit addresses. -/
def memset (m : Mem) (ptr : ℕ) (value : UInt8) : ℕ → Mem
  | 0 => m
  | i + 1 => Function.update (memset m ptr value i) ((ptr + i) % 2 ^ 64) value

/-- `for (i = 0; i < n; i++) dst[i] = src[i]`, on 64-bit addresses. -/
def memcpy (m : Mem) (dst src : ℕ) : ℕ → Mem
  | 0 => m
  | i + 1 =>
      Function.update (memcpy m dst src i) ((dst + i) % 2 ^ 64)
        (memcpy m dst src i ((src + i) % 2 ^ 64))

theorem memset_outside (m : Mem) {ptr n x : ℕ} (v : UInt8) (hfit : ptr + n ≤ 2 ^ 64)
    (h : x < ptr ∨ ptr + n ≤ x) : memset m ptr v n x = m x := by
  induction n with
  | zero => rfl
  | succ n ih =>
      have hmod : (ptr + n) % 2 ^ 64 = ptr + n := Nat.mod_eq_of_lt (by omega)
      have hne : x ≠ ptr + n := by omega
      rw [memset, hmod, Function.update_of_ne hne]
      exact ih (by omega) (by omega)

/-- A range that wraps round the address space stops short of the byte
before it unless it is `2 ^ 64` bytes long. -/
theorem memset_below (m : Mem) {ptr n x : ℕ} (v : UInt8) (hx : x < ptr)
    (hn : ptr + n ≤ x + 2 ^ 64) : memset m ptr v n x = m x := by
  induction n with
  | zero => rfl
  | succ n ih =>
      have hne : x ≠ (ptr + n) % 2 ^ 64 := by omega
      rw [memset, Function.update_of_ne hne]
      exact ih (by omega)

theorem memset_inside (m : Mem) {ptr n x : ℕ} (v : UInt8) (hfit : ptr + n ≤ 2 ^ 64)
    (hlo : ptr ≤ x) (hhi : x < ptr + n) : memset m ptr v n x = v := by
  induction n with
  | zero => omega
  | succ n ih =>
      have hmod : (ptr + n) % 2 ^ 64 = ptr + n := Nat.mod_eq_of_lt (by omega)
      rw [memset, hmod]
      by_cases hx : x = ptr + n
      · rw [hx, Function.update_self]
      · rw [Function.update_of_ne hx]
        exact ih (by omega) (by omega)

theorem memcpy_outside (m : Mem) {dst n x : ℕ} (src : ℕ) (hfit : dst + n ≤ 2 ^ 64)
    (h : x < dst ∨ dst + n ≤ x) : memcpy m dst src n x = m x := by
  induction n with
  | zero => rfl
  | succ n ih =>
      have hmod : (dst + n) % 2 ^ 64 = dst + n := Nat.mod_eq_of_lt (by omega)
      have hne : x ≠ dst + n := by omega
      rw [memcpy, hmod, Function.update_of_ne hne]
      exact ih (by omega) (by omega)

/-- A copy between disjoint ranges stores the original source bytes. -/
theorem memcpy_inside (m : Mem) {dst src n i : ℕ} (hdst : dst + n ≤ 2 ^ 64)
    (hsrc : src + n ≤ 2 ^ 64) (hdisj : dst + n ≤ src ∨ src + n ≤ dst) (hi : i < n) :
    memcpy m dst src n (dst + i) = m (src + i) := by
  induction n with
  | zero => omega
  | succ n ih =>
      have hmod : (dst + n) % 2 ^ 64 = dst + n := Nat.mod_eq_of_lt (by omega)
      have hmod' : (src + n) % 2 ^ 64 = src + n := Nat.mod_eq_of_lt (by omega)
      rw [memcpy, hmod, hmod']
      by_cases hin : i = n
      · rw [hin, Function.update_self]
        exact memcpy_outside m src (by omega) (by omega)
      · have hne : dst + i ≠ dst + n := by omega
        rw [Function.update_of_ne hne]
        exact ih (by omega) (by omega) (by omega) (by omega)

theorem memset_of_ne (m : Mem) {ptr n x : ℕ} (v : UInt8)
    (h : ∀ j < n, x ≠ (ptr + j) % 2 ^ 64) : memset m ptr v n x = m x := by
  induction n with
  | zero => rfl
  | succ n ih =>
      rw [memset, Function.update_of_ne (h n (Nat.lt_succ_self n))]
      exact ih fun j hj ↦ h j (hj.trans (Nat.lt_succ_self n))

theorem memcpy_of_ne (m : Mem) {dst n x : ℕ} (src : ℕ)
    (h : ∀ j < n, x ≠ (dst + j) % 2 ^ 64) : memcpy m dst src n x = m x := by
  induction n with
  | zero => rfl
  | succ n ih =>
      rw [memcpy, Function.update_of_ne (h n (Nat.lt_succ_self n))]
      exact ih fun j hj ↦ h j (hj.trans (Nat.lt_succ_self n))

theorem memset_at (m : Mem) (ptr : ℕ) (v : UInt8) {n j : ℕ} (hj : j < n) :
    memset m ptr v n ((ptr + j) % 2 ^ 64) = v := by
  induction n with
  | zero => omega
  | succ n ih =>
      rw [memset, Function.update_apply]
      split
      · rfl
      next hne =>
        refine ih (Nat.lt_of_le_of_ne (Nat.le_of_lt_succ hj) fun heq ↦ hne ?_)
        rw [heq]

/-- A copy from bytes that it does not write. -/
theorem memcpy_at (m : Mem) {dst src n j : ℕ} (hn : n ≤ 2 ^ 64)
    (hapart : ∀ k < n, ∀ l < n, (src + k) % 2 ^ 64 ≠ (dst + l) % 2 ^ 64) (hj : j < n) :
    memcpy m dst src n ((dst + j) % 2 ^ 64) = m ((src + j) % 2 ^ 64) := by
  induction n with
  | zero => omega
  | succ n ih =>
      have hprev : ∀ k < n, ∀ l < n, (src + k) % 2 ^ 64 ≠ (dst + l) % 2 ^ 64 :=
        fun k hk l hl ↦ hapart k (by omega) l (by omega)
      rw [memcpy]
      rcases (Nat.le_of_lt_succ hj).eq_or_lt with rfl | hlt
      · rw [Function.update_self]
        exact memcpy_of_ne m src fun l hl ↦ hapart j (by omega) l (by omega)
      · rw [Function.update_of_ne (by omega)]
        exact ih (by omega) hprev hlt

/-- Two memories that agree at `x` still do so after the same fill. -/
theorem memset_agree {m m' : Mem} {x : ℕ} (ptr n : ℕ) (v : UInt8) (hx : m x = m' x) :
    memset m ptr v n x = memset m' ptr v n x := by
  induction n with
  | zero => exact hx
  | succ n ih => simp only [memset, Function.update_apply, ih]

/-- The same for copies from a source on which they agree, even when it meets
the destination. -/
theorem memcpy_agree {m m' : Mem} {dst src n x : ℕ}
    (hsrc : ∀ j < n, m ((src + j) % 2 ^ 64) = m' ((src + j) % 2 ^ 64)) (hx : m x = m' x) :
    memcpy m dst src n x = memcpy m' dst src n x := by
  induction n generalizing x with
  | zero => exact hx
  | succ n ih =>
      have hprev : ∀ j < n, m ((src + j) % 2 ^ 64) = m' ((src + j) % 2 ^ 64) :=
        fun j hj ↦ hsrc j (hj.trans (Nat.lt_succ_self n))
      simp only [memcpy, Function.update_apply, ih hprev hx,
        ih hprev (hsrc n (Nat.lt_succ_self n))]

/-! ## Byte strings -/

/-- The bytes of a list, one after the other from `ptr` on. -/
def storeBytes (m : Mem) (ptr : ℕ) : List UInt8 → Mem
  | [] => m
  | b :: bs => storeBytes (Function.update m (ptr % 2 ^ 64) b) (ptr + 1) bs

theorem storeBytes_outside {bs : List UInt8} (m : Mem) {ptr x : ℕ}
    (hfit : ptr + bs.length ≤ 2 ^ 64) (h : x < ptr ∨ ptr + bs.length ≤ x) :
    storeBytes m ptr bs x = m x := by
  induction bs generalizing m ptr with
  | nil => rfl
  | cons b bs ih =>
      rw [List.length_cons] at hfit h
      have hmod : ptr % 2 ^ 64 = ptr := Nat.mod_eq_of_lt (by omega)
      have hne : x ≠ ptr := by omega
      rw [storeBytes, hmod, ih _ (by omega) (by omega), Function.update_of_ne hne]

theorem storeBytes_inside {bs : List UInt8} (m : Mem) {ptr i : ℕ}
    (hfit : ptr + bs.length ≤ 2 ^ 64) (hi : i < bs.length) :
    storeBytes m ptr bs (ptr + i) = bs[i] := by
  induction bs generalizing m ptr i with
  | nil => simp at hi
  | cons b bs ih =>
      rw [List.length_cons] at hfit hi
      have hmod : ptr % 2 ^ 64 = ptr := Nat.mod_eq_of_lt (by omega)
      rw [storeBytes, hmod]
      cases i with
      | zero =>
          have hkept : storeBytes (Function.update m ptr b) (ptr + 1) bs ptr =
              Function.update m ptr b ptr :=
            storeBytes_outside _ (by omega) (Or.inl (by omega))
          exact hkept.trans (Function.update_self ..)
      | succ i =>
          have hshift : ptr + (i + 1) = ptr + 1 + i := by omega
          rw [hshift, ih _ (by omega) (by omega)]
          rfl

/-- The bytes of a list stand in the memory from `p` on. -/
def Holds (m : Mem) (p : ℕ) (bs : List UInt8) : Prop := ∀ j < bs.length, m (p + j) = bs.getD j 0

theorem holds_append {m : Mem} {p : ℕ} {a b : List UInt8} :
    Holds m p (a ++ b) ↔ Holds m p a ∧ Holds m (p + a.length) b := by
  constructor
  · intro h
    constructor
    · intro j hj
      rw [h j (by rw [List.length_append]; omega), List.getD_append _ _ _ _ hj]
    · intro j hj
      rw [Nat.add_assoc, h (a.length + j) (by rw [List.length_append]; omega),
        List.getD_append_right _ _ _ _ (Nat.le_add_right _ j), Nat.add_sub_cancel_left]
  · rintro ⟨ha, hb⟩ j hj
    rw [List.length_append] at hj
    by_cases hlt : j < a.length
    · rw [ha j hlt, List.getD_append _ _ _ _ hlt]
    · obtain ⟨k, rfl⟩ := Nat.exists_eq_add_of_le (not_lt.mp hlt)
      rw [← Nat.add_assoc, hb k (by omega), List.getD_append_right _ _ _ _ (by omega),
        Nat.add_sub_cancel_left]

end ImplusKernel.ByteMemory
