import Mathlib.Algebra.Order.Floor.Semifield
import Mathlib.Analysis.Complex.ExponentialBounds
import Mathlib.Analysis.Convex.SpecificFunctions.Basic
import Mathlib.Analysis.SpecialFunctions.Log.Base

/-!
# A piecewise linear logarithm

`linLog scale n` is the logarithm of `n` to base 2, scaled and rounded down, where the logarithm is
interpolated linearly between the powers of two. It is monotone, exact under doubling, and below the
real logarithm by less than nine hundredths (`linLog_le_logb`, `logb_lt_linLog`).
-/

namespace LinLog

/-- The integer part of the logarithm, and the interpolated rest. -/
def linLog (scale n : ℕ) : ℕ :=
  Nat.log2 n * scale + (n - 2 ^ Nat.log2 n) * scale / 2 ^ Nat.log2 n

/-! ## Monotonicity and doubling -/

section Nat

variable (scale : ℕ)

theorem log2_mono {n m : ℕ} (h : n ≤ m) : Nat.log2 n ≤ Nat.log2 m := by
  rcases Nat.eq_zero_or_pos n with rfl | hn
  · rw [Nat.log2_zero]
    exact Nat.zero_le _
  · exact (Nat.le_log2 (by omega)).2 ((Nat.log2_self_le hn.ne').trans h)

/-- The interpolated rest is at most one unit. -/
theorem linLog_le_succ (n : ℕ) : linLog scale n ≤ (Nat.log2 n + 1) * scale := by
  have hlt := Nat.lt_log2_self (n := n)
  have hrest : (n - 2 ^ Nat.log2 n) * scale / 2 ^ Nat.log2 n ≤ scale := by
    apply Nat.div_le_of_le_mul
    apply Nat.mul_le_mul_right
    rw [Nat.pow_succ] at hlt
    omega
  rw [linLog, Nat.succ_mul]
  exact Nat.add_le_add_left hrest _

theorem linLog_le_mul {k n : ℕ} (h : n < 2 ^ k) : linLog scale n ≤ k * scale := by
  rcases eq_or_ne n 0 with rfl | hn
  · simp [linLog, Nat.log2_zero]
  · exact (linLog_le_succ scale n).trans (Nat.mul_le_mul_right _ ((Nat.log2_lt hn).2 h))

theorem linLog_mono {n m : ℕ} (h : n ≤ m) : linLog scale n ≤ linLog scale m := by
  rcases Nat.lt_or_eq_of_le (log2_mono h) with hlt | heq
  · -- a power of two lies between them
    calc linLog scale n ≤ (Nat.log2 n + 1) * scale := linLog_le_succ scale n
      _ ≤ Nat.log2 m * scale := Nat.mul_le_mul_right _ hlt
      _ ≤ linLog scale m := Nat.le_add_right _ _
  · unfold linLog
    rw [heq]
    apply Nat.add_le_add_left
    apply Nat.div_le_div_right
    exact Nat.mul_le_mul_right _ (Nat.sub_le_sub_right h _)

theorem linLog_two_mul {n : ℕ} (hn : n ≠ 0) : linLog scale (2 * n) = linLog scale n + scale := by
  have hrest : (2 * n - 2 ^ (Nat.log2 n + 1)) * scale / 2 ^ (Nat.log2 n + 1) =
      (n - 2 ^ Nat.log2 n) * scale / 2 ^ Nat.log2 n := by
    rw [Nat.pow_succ', ← Nat.mul_sub, Nat.mul_assoc, Nat.mul_div_mul_left _ _ (by decide)]
  rw [linLog, Nat.log2_two_mul hn, hrest, linLog]
  ring

theorem linLog_two_pow_mul (k : ℕ) {n : ℕ} (hn : n ≠ 0) :
    linLog scale (2 ^ k * n) = linLog scale n + k * scale := by
  induction k with
  | zero => simp
  | succ k ih =>
    have hne : 2 ^ k * n ≠ 0 := Nat.mul_ne_zero (by positivity) hn
    rw [Nat.pow_succ', Nat.mul_assoc, linLog_two_mul scale hne, ih]
    ring

/-- Every doubling on the way to a larger number adds a unit. -/
theorem linLog_add_le {k n m : ℕ} (hn : n ≠ 0) (h : 2 ^ k * n ≤ m) :
    linLog scale n + k * scale ≤ linLog scale m := by
  rw [← linLog_two_pow_mul scale k hn]
  exact linLog_mono scale h

end Nat

/-! ## Between one and two -/

/-- The logarithm is concave, so that it lies above its chord. -/
theorem sub_one_le_logb {y : ℝ} (h1 : 1 ≤ y) (h2 : y ≤ 2) : y - 1 ≤ Real.logb 2 y := by
  rw [Real.le_logb_iff_rpow_le one_lt_two (by linarith)]
  have h : (1 + (1 : ℝ)) ^ (y - 1) ≤ 1 + (y - 1) * 1 :=
    rpow_one_add_le_one_add_mul_self (by norm_num) (by linarith) (by linarith)
  calc (2 : ℝ) ^ (y - 1) = (1 + (1 : ℝ)) ^ (y - 1) := by norm_num
    _ ≤ 1 + (y - 1) * 1 := h
    _ = y := by ring

/-- The tangent at `1.445`, where the logarithm is farthest from its chord. -/
theorem logb_le_sub_one {y : ℝ} (h1 : 1 ≤ y) : Real.logb 2 y ≤ y - 1 + 0.088 := by
  have hlow := Real.log_two_gt_d9
  have hhigh := Real.log_two_lt_d9
  have hpow : Real.log ((1.445 : ℝ) ^ 32) ≤ Real.log ((2 : ℝ) ^ 17) :=
    Real.log_le_log (by positivity) (by norm_num)
  rw [Real.log_pow, Real.log_pow] at hpow
  have htangent : Real.log y - Real.log 1.445 ≤ y / 1.445 - 1 := by
    rw [← Real.log_div (by linarith) (by norm_num)]
    exact Real.log_le_sub_one_of_pos (by positivity)
  have hslope : 0 ≤ (y - 1) * (Real.log 2 - 1 / 1.445) :=
    mul_nonneg (by linarith) (by norm_num at hlow ⊢; linarith)
  rw [Real.logb, div_le_iff₀ (by linarith)]
  norm_num at hpow htangent hslope hlow hhigh ⊢
  linarith

/-! ## Against the logarithm -/

/-- The interpolated logarithm, neither scaled nor rounded. -/
noncomputable def interp (n : ℕ) : ℝ := Nat.log2 n + ((n : ℝ) / (2 ^ Nat.log2 n : ℕ) - 1)

theorem one_le_div {n : ℕ} (hn : n ≠ 0) : 1 ≤ (n : ℝ) / 2 ^ Nat.log2 n := by
  rw [le_div_iff₀ (by positivity), one_mul]
  exact_mod_cast Nat.log2_self_le hn

theorem div_lt_two (n : ℕ) : (n : ℝ) / 2 ^ Nat.log2 n < 2 := by
  rw [div_lt_iff₀ (by positivity), ← pow_succ']
  exact_mod_cast Nat.lt_log2_self

theorem logb_eq {n : ℕ} (hn : n ≠ 0) :
    Real.logb 2 n = Nat.log2 n + Real.logb 2 ((n : ℝ) / 2 ^ Nat.log2 n) := by
  rw [Real.logb_div (by exact_mod_cast hn) (by positivity), Real.logb_pow,
    Real.logb_self_eq_one one_lt_two]
  ring

theorem interp_le_logb {n : ℕ} (hn : n ≠ 0) : interp n ≤ Real.logb 2 n := by
  rw [interp, Nat.cast_pow, Nat.cast_ofNat, logb_eq hn]
  have := sub_one_le_logb (one_le_div hn) (div_lt_two n).le
  linarith

theorem logb_le_interp {n : ℕ} (hn : n ≠ 0) : Real.logb 2 n ≤ interp n + 0.088 := by
  rw [interp, Nat.cast_pow, Nat.cast_ofNat, logb_eq hn]
  have := logb_le_sub_one (one_le_div hn)
  linarith

theorem div_lt_cast_div_add_one (m n : ℕ) : (m : ℝ) / n < (m / n : ℕ) + 1 := by
  have h := Nat.lt_floor_add_one ((m : ℝ) / n)
  rwa [Nat.floor_div_eq_div] at h

/-- What rounding leaves of the interpolated logarithm. -/
theorem linLog_bounds (scale : ℕ) {n : ℕ} (hn : n ≠ 0) :
    (linLog scale n : ℝ) ≤ scale * interp n ∧ scale * interp n < linLog scale n + 1 := by
  have hle := Nat.log2_self_le hn
  have hexact : (scale : ℝ) * interp n = Nat.log2 n * scale +
      (((n - 2 ^ Nat.log2 n) * scale : ℕ) : ℝ) / ((2 ^ Nat.log2 n : ℕ) : ℝ) := by
    rw [interp]
    push_cast [hle]
    field_simp
  have hcast : (linLog scale n : ℝ) = Nat.log2 n * scale +
      ((n - 2 ^ Nat.log2 n) * scale / 2 ^ Nat.log2 n : ℕ) := by
    rw [linLog]
    push_cast
    rfl
  rw [hexact, hcast]
  have hle : (((n - 2 ^ Nat.log2 n) * scale / 2 ^ Nat.log2 n : ℕ) : ℝ) ≤ _ := Nat.cast_div_le
  have hlt := div_lt_cast_div_add_one ((n - 2 ^ Nat.log2 n) * scale) (2 ^ Nat.log2 n)
  constructor
  · linarith
  · linarith

theorem linLog_le_logb (scale : ℕ) {n : ℕ} (hn : n ≠ 0) :
    (linLog scale n : ℝ) ≤ scale * Real.logb 2 n :=
  (linLog_bounds scale hn).1.trans
    (mul_le_mul_of_nonneg_left (interp_le_logb hn) (Nat.cast_nonneg scale))

theorem logb_lt_linLog (scale : ℕ) {n : ℕ} (hn : n ≠ 0) :
    scale * Real.logb 2 n < linLog scale n + (0.088 * scale + 1) := by
  have hlogb := mul_le_mul_of_nonneg_left (logb_le_interp hn) (Nat.cast_nonneg (α := ℝ) scale)
  have := (linLog_bounds scale hn).2
  linarith

/-! ## Growth -/

/-- Across a power of two the interpolated logarithm grows at least as fast as its last slope. -/
theorem one_sub_le_of_crossing {u v : ℝ} (hu : 1 ≤ u) (hv : v ≤ 2) : 1 - v / (2 * u) ≤ 1 + u - v := by
  have hprod : 0 ≤ (2 - v) * (2 * u - 1) := mul_nonneg (by linarith) (by linarith)
  have hsquare := sq_nonneg (u - 1)
  have hkey : v - u ≤ v / (2 * u) := by
    rw [le_div_iff₀ (by linarith)]
    nlinarith
  linarith

/-- The slope of the interpolated logarithm up to `m` is at least the reciprocal of `m`. -/
theorem one_sub_div_le_interp {n m : ℕ} (hn : n ≠ 0) (h : n ≤ m) :
    1 - (n : ℝ) / m ≤ interp m - interp n := by
  have hm : m ≠ 0 := by omega
  have hu := one_le_div hm
  have hv := div_lt_two n
  have hratio : (n : ℝ) / m = (n : ℝ) / 2 ^ Nat.log2 n / ((m : ℝ) / 2 ^ Nat.log2 m) *
      (2 ^ Nat.log2 n / 2 ^ Nat.log2 m) := by
    field_simp
  unfold interp
  obtain ⟨d, hd⟩ := Nat.exists_eq_add_of_le (log2_mono h)
  rw [hd] at hu hratio ⊢
  push_cast
  match d, hd with
  | 0, hd =>
    -- no power of two is crossed
    simp only [Nat.add_zero] at hu hratio ⊢
    have hle : (n : ℝ) / 2 ^ Nat.log2 n ≤ (m : ℝ) / 2 ^ Nat.log2 n := by
      gcongr
    rw [div_self (by positivity), mul_one] at hratio
    rw [hratio, one_sub_div (by linarith), div_le_iff₀ (by linarith)]
    nlinarith
  | 1, hd =>
    have hhalf : (2 : ℝ) ^ Nat.log2 n / 2 ^ (Nat.log2 n + 1) = 1 / 2 := by
      rw [pow_succ]
      field_simp
    rw [hhalf, div_mul_div_comm, mul_one, mul_comm _ (2 : ℝ)] at hratio
    have := one_sub_le_of_crossing hu hv.le
    rw [hratio]
    push_cast
    linarith
  | d + 2, hd =>
    have hpos : 0 ≤ (n : ℝ) / m := by positivity
    push_cast
    have : (0 : ℝ) ≤ d := Nat.cast_nonneg d
    linarith

theorem linLog_growth (scale : ℕ) {n m : ℕ} (hn : n ≠ 0) (h : n ≤ m) :
    scale * (1 - (n : ℝ) / m) < linLog scale m - linLog scale n + 1 := by
  have hslope := mul_le_mul_of_nonneg_left (one_sub_div_le_interp hn h)
    (Nat.cast_nonneg (α := ℝ) scale)
  have hm := (linLog_bounds scale (show m ≠ 0 by omega)).2
  have hn := (linLog_bounds scale hn).1
  linarith

end LinLog
