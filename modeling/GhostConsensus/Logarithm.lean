import GhostConsensus.Mock
import GhostConsensus.Lib.LinLog

/-!
# The integer logarithm

`integer_log2_scaled` splits off the highest bit and interpolates the rest linearly. Below `2 ^ 45`
nothing overflows, so that it is `linLog` in millionths; monotonicity, doubling and the distance from
the real logarithm follow (`integerLog2Scaled_accurate`).
-/

namespace GhostConsensus

open MachineInt LinLog

/-! ## The highest bit -/

/-- A number that is not zero has a bit to split off, within the width. -/
theorem leadingZeros_le {x : U64} (hx : x ≠ 0) : leadingZeros x ≤ 63 := by
  rw [leadingZeros, if_neg hx]
  exact Nat.sub_le _ _

theorem sub_leadingZeros {x : U64} (hx : x ≠ 0) : 63 - leadingZeros x = Nat.log2 x.toNat := by
  have hpos : 0 < x.toNat := BitVec.toNat_pos_of_ne_zero hx
  have hlog : Nat.log2 x.toNat < 64 := (Nat.log2_lt hpos.ne').2 x.isLt
  rw [leadingZeros, if_neg hx]
  omega

theorem toNat_one_shiftLeft {i : ℕ} (hi : i < 64) : ((1 : U64) <<< i).toNat = 2 ^ i := by
  rw [BitVec.toNat_shiftLeft, show (1 : U64).toNat = 1 from rfl, Nat.one_shiftLeft,
    Nat.mod_eq_of_lt (Nat.pow_lt_pow_right (by decide) hi)]

theorem one_shiftLeft_ne_zero {i : ℕ} (hi : i < 64) : (1 : U64) <<< i ≠ 0 := by
  intro h
  have hvalue := toNat_one_shiftLeft hi
  rw [h] at hvalue
  exact absurd hvalue (Nat.two_pow_pos i).ne

/-- Clearing the highest bit subtracts it. -/
theorem xor_two_pow_log2 {n : ℕ} (hn : n ≠ 0) : n ^^^ 2 ^ Nat.log2 n = n - 2 ^ Nat.log2 n := by
  have hpos := Nat.two_pow_pos (Nat.log2 n)
  have hle := Nat.log2_self_le hn
  have hlt := Nat.lt_log2_self (n := n)
  have hquot : n / 2 ^ Nat.log2 n = 1 := by
    rw [Nat.pow_succ] at hlt
    exact Nat.div_eq_of_lt_le (by omega) (by omega)
  have hhigh : (n ^^^ 2 ^ Nat.log2 n) / 2 ^ Nat.log2 n = 0 := by
    rw [Nat.xor_div_two_pow, hquot, Nat.div_self hpos, Nat.xor_self]
  have hlow : (n ^^^ 2 ^ Nat.log2 n) % 2 ^ Nat.log2 n = n % 2 ^ Nat.log2 n := by
    rw [Nat.xor_mod_two_pow, Nat.mod_self, Nat.xor_zero]
  have hxor := Nat.div_add_mod (n ^^^ 2 ^ Nat.log2 n) (2 ^ Nat.log2 n)
  have hself := Nat.div_add_mod n (2 ^ Nat.log2 n)
  rw [hhigh, hlow] at hxor
  rw [hquot] at hself
  omega

/-- What is left below the highest bit is at most half of the range. -/
theorem sub_two_pow_log2_lt {n k : ℕ} (hn : n ≠ 0) (h : n < 2 ^ (k + 1)) :
    n - 2 ^ Nat.log2 n < 2 ^ k := by
  have hnext := Nat.lt_log2_self (n := n)
  have hlog : Nat.log2 n < k + 1 := (Nat.log2_lt hn).2 h
  have hbit : 2 ^ Nat.log2 n ≤ 2 ^ k := Nat.pow_le_pow_right (by decide) (by omega)
  rw [Nat.pow_succ] at hnext
  omega

/-! ## The value -/

variable {α H B : Type} (T : Config α H B)

theorem integerLog2Scaled_eq {x : U64} (hpos : 0 < x.toNat) (hlt : x.toNat < 2 ^ 45) :
    integerLog2Scaled T x = .ok (BitVec.ofNat 64 (linLog 1000000 x.toNat)) := by
  have hx : x ≠ 0 := (BitVec.pos_iff_ne_zero x).1 ((BitVec.toNat_pos x).1 hpos)
  have hlog : Nat.log2 x.toNat < 45 := (Nat.log2_lt hpos.ne').2 hlt
  have hlinLog : linLog 1000000 x.toNat ≤ 45 * 1000000 := linLog_le_mul 1000000 hlt
  have hrest := sub_two_pow_log2_lt (k := 44) hpos.ne' hlt
  have hmillion : (1000000 : U64).toNat = 1000000 := rfl
  have hpart : (BitVec.ofNat 64 (Nat.log2 x.toNat)).toNat = Nat.log2 x.toNat :=
    toNat_ofNat_of_lt (by omega)
  have hshift := toNat_one_shiftLeft (i := Nat.log2 x.toNat) (by omega)
  have hbit := one_shiftLeft_ne_zero (i := Nat.log2 x.toNat) (by omega)
  rw [integerLog2Scaled, if_neg hx]
  simp only [sub_leadingZeros hx]
  generalize (1 : U64) <<< Nat.log2 x.toNat = bit at hshift hbit ⊢
  have hrem : (x ^^^ bit).toNat = x.toNat - 2 ^ Nat.log2 x.toNat := by
    rw [BitVec.toNat_xor, hshift, xor_two_pow_log2 hpos.ne']
  have hproduct : (x ^^^ bit).toNat * (1000000 : U64).toNat < 2 ^ 64 := by
    rw [hrem, hmillion]
    omega
  have hscaled : (BitVec.ofNat 64 (Nat.log2 x.toNat)).toNat * (1000000 : U64).toNat < 2 ^ 64 := by
    rw [hpart, hmillion]
    omega
  have hvalue : (BitVec.ofNat 64 (Nat.log2 x.toNat) * 1000000).toNat +
      ((x ^^^ bit) * 1000000 / bit).toNat = linLog 1000000 x.toNat := by
    rw [toNat_mul_of_lt hscaled, BitVec.toNat_udiv, toNat_mul_of_lt hproduct, hshift, hrem, hpart]
    rfl
  have hsum : (BitVec.ofNat 64 (Nat.log2 x.toNat) * 1000000).toNat +
      ((x ^^^ bit) * 1000000 / bit).toNat < 2 ^ 64 := by omega
  refine bind_eq_ok.2 ⟨_, orPanic_eq_ok.2 (mulChecked_of_lt _ hproduct), ?_⟩
  refine bind_eq_ok.2 ⟨_, orPanic_eq_ok.2 (divChecked_of_ne _ hbit), ?_⟩
  refine bind_eq_ok.2 ⟨_, orPanic_eq_ok.2 (mulChecked_of_lt _ hscaled), orPanic_eq_ok.2 ?_⟩
  rw [addChecked_of_lt _ hsum]
  refine congrArg some (BitVec.eq_of_toNat_eq ?_)
  rw [toNat_add_of_lt hsum, hvalue, toNat_ofNat_of_lt (by omega)]

/-- Where overflow checks let the logarithm through, they do not change it. -/
theorem integerLog2Scaled_of_checked {x r : U64} (h : integerLog2Scaled T.checked x = .ok r) :
    integerLog2Scaled T x = .ok r := by
  unfold integerLog2Scaled at h ⊢
  split_ifs at h ⊢
  · exact h
  · obtain ⟨product, hproduct, h⟩ := bind_eq_ok.1 h
    obtain ⟨fraction, hfraction, h⟩ := bind_eq_ok.1 h
    obtain ⟨scaled, hscaled, h⟩ := bind_eq_ok.1 h
    refine bind_eq_ok.2 ⟨product, ?_, bind_eq_ok.2 ⟨fraction, hfraction,
      bind_eq_ok.2 ⟨scaled, ?_, ?_⟩⟩⟩
    · exact orPanic_eq_ok.2 (mulChecked_of_true _ (orPanic_eq_ok.1 hproduct))
    · exact orPanic_eq_ok.2 (mulChecked_of_true _ (orPanic_eq_ok.1 hscaled))
    · exact orPanic_eq_ok.2 (addChecked_of_true _ (orPanic_eq_ok.1 h))

theorem integerLog2Scaled_ofNat {n : ℕ} (hpos : 0 < n) (hlt : n < 2 ^ 45) :
    integerLog2Scaled T (BitVec.ofNat 64 n) = .ok (BitVec.ofNat 64 (linLog 1000000 n)) := by
  have hvalue : (BitVec.ofNat 64 n).toNat = n := toNat_ofNat_of_lt (by omega)
  rw [integerLog2Scaled_eq T (hvalue.symm ▸ hpos) (hvalue.symm ▸ hlt), hvalue]

theorem toNat_ofNat_linLog {n : ℕ} (hlt : n < 2 ^ 45) :
    (BitVec.ofNat 64 (linLog 1000000 n)).toNat = linLog 1000000 n := by
  have := linLog_le_mul 1000000 hlt
  exact toNat_ofNat_of_lt (by omega)

/-! ## Accuracy -/

/-- Below `2 ^ 45` the logarithm is computed without overflow: the leading zeros leave a bit to shift
by, and the products and the sum fit. It is below the real one by less than nine hundredths of a
bit, monotone, and grows by one bit under doubling. -/
theorem integerLog2Scaled_accurate {x : U64} (hpos : 1 ≤ x.toNat) (hlt : x.toNat < 2 ^ 45) :
    ∃ r, leadingZeros x ≤ 63 ∧ integerLog2Scaled T.checked x = .ok r ∧
      integerLog2Scaled T x = .ok r ∧
      0 ≤ 1000000 * Real.logb 2 x.toNat - r.toNat ∧
      1000000 * Real.logb 2 x.toNat - r.toNat < 90000 ∧
      (∀ y : U64, x ≤ y → y.toNat < 2 ^ 45 →
        ∃ r', integerLog2Scaled T y = .ok r' ∧ r.toNat ≤ r'.toNat) ∧
      (2 * x.toNat < 2 ^ 45 →
        ∃ r', integerLog2Scaled T (2 * x) = .ok r' ∧ r'.toNat = r.toNat + 1000000) := by
  have hx : x ≠ 0 := (BitVec.pos_iff_ne_zero x).1 ((BitVec.toNat_pos x).1 hpos)
  have hvalue := toNat_ofNat_linLog hlt
  refine ⟨_, leadingZeros_le hx, integerLog2Scaled_eq T.checked hpos hlt,
    integerLog2Scaled_eq T hpos hlt, ?_, ?_, fun y hle hy => ?_, fun hdouble => ?_⟩
  · have := linLog_le_logb 1000000 (Nat.ne_of_gt hpos)
    rw [hvalue]
    push_cast at this
    linarith
  · have := logb_lt_linLog 1000000 (Nat.ne_of_gt hpos)
    rw [hvalue]
    push_cast at this
    linarith
  · rw [BitVec.le_def] at hle
    refine ⟨_, integerLog2Scaled_eq T (hpos.trans hle) hy, ?_⟩
    rw [hvalue, toNat_ofNat_linLog hy]
    exact linLog_mono 1000000 hle
  · have htwo : (2 * x : U64).toNat = 2 * x.toNat :=
      toNat_mul_of_lt (show 2 * x.toNat < 2 ^ 64 by omega)
    refine ⟨_, integerLog2Scaled_eq T (htwo ▸ by omega) (htwo ▸ hdouble), ?_⟩
    rw [htwo, toNat_ofNat_linLog hdouble, hvalue, linLog_two_mul 1000000 (by omega)]

/-- The logarithms of 3, 6 and 100. -/
theorem integerLog2Scaled_accurate_mock :
    ∃ r r' r'', integerLog2Scaled mockTest.checked 3 = .ok r ∧ integerLog2Scaled mockTest 3 = .ok r ∧
      0 ≤ 1000000 * Real.logb 2 (3 : U64).toNat - r.toNat ∧
      1000000 * Real.logb 2 (3 : U64).toNat - r.toNat < 90000 ∧
      integerLog2Scaled mockTest 100 = .ok r' ∧ r.toNat ≤ r'.toNat ∧
      integerLog2Scaled mockTest 6 = .ok r'' ∧ r''.toNat = r.toNat + 1000000 := by
  obtain ⟨r, -, hchecked, hr, hlow, hhigh, hmono, hdouble⟩ :=
    integerLog2Scaled_accurate mockTest (x := 3) (by decide) (by decide)
  obtain ⟨r', hr', hle⟩ := hmono 100 (by decide) (by decide)
  obtain ⟨r'', hr'', htwice⟩ := hdouble (by decide)
  exact ⟨r, r', r'', hchecked, hr, hlow, hhigh, hr', hle, hr'', htwice⟩

end GhostConsensus
