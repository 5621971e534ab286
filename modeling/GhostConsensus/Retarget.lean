import GhostConsensus.Difficulty

/-!
# The retarget against its formula

The retarget saturates its products before it divides. It agrees with the formula over unbounded
integers exactly when the division hides what the saturation has cut off (`retargetExact_iff`), and
it is monotone in each argument but for the early return for a block time of `0`
(`retarget_monotone`).
-/

namespace GhostConsensus

open MachineInt

/-! ## The formula -/

/-- The target for the block time alone, over unbounded integers. -/
def exactBase (current actual target : ℕ) : ℕ := max 1 (min (2 ^ 64 - 1) (current * actual / target))

/-- The target after the steering by the entropy, over unbounded integers. -/
def exactRetarget (current actual target entropy : ℕ) : ℕ :=
  if 4000000 ≤ entropy then exactBase current actual target
  else max 1 (exactBase current actual target * (4000000 + entropy) / 8000000)

/-- The retarget follows the formula, and has the properties that follow from it: an on-target block
time leaves the difficulty, a slower block does not lower the target, a faster one does not raise it,
and the entropy takes away half of the target at most. -/
structure RetargetExact (current actual target entropy : U64) : Prop where
  formula : (calculateDifficultyAdjustment current actual target entropy).toNat =
    exactRetarget current.toNat actual.toNat target.toNat entropy.toNat
  onTarget : actual = target → 4000000 ≤ entropy.toNat → 1 ≤ current.toNat →
    calculateDifficultyAdjustment current actual target entropy = current
  slower : target ≤ actual → 4000000 ≤ entropy.toNat →
    current ≤ calculateDifficultyAdjustment current actual target entropy
  faster : actual ≤ target → 1 ≤ current.toNat →
    calculateDifficultyAdjustment current actual target entropy ≤ current
  penalty : entropy.toNat < 4000000 → exactBase current.toNat actual.toNat target.toNat / 2 ≤
    (calculateDifficultyAdjustment current actual target entropy).toNat

/-- The divisions hide what the saturation of the products cuts off. -/
def SaturationHidden (current actual target entropy : ℕ) : Prop :=
  if 4000000 ≤ entropy then
    target = 1 ∨ current * actual / target ≤ (2 ^ 64 - 1) / target
  else
    exactBase current actual target * (4000000 + entropy) / 8000000 ≤ (2 ^ 64 - 1) / 8000000 ∧
      (target = 1 ∨ current * actual / target ≤ (2 ^ 64 - 1) / target ∨
        exactBase current actual target * (4000000 + entropy) / 8000000 ≤
          max 1 ((2 ^ 64 - 1) / target * (4000000 + entropy) / 8000000))

instance (current actual target entropy : ℕ) :
    Decidable (SaturationHidden current actual target entropy) :=
  inferInstanceAs (Decidable (ite _ _ _))

/-- Saturating before a division saturates the quotient at a smaller bound. -/
theorem min_div (x m t : ℕ) : min x m / t = min (x / t) (m / t) :=
  Monotone.map_min (f := (· / t)) fun _ _ h => Nat.div_le_div_right h

theorem baseTarget_eq (current actual target : ℕ) :
    baseTarget current actual target =
      max (min (current * actual / target) ((2 ^ 64 - 1) / target)) 1 := by
  rw [baseTarget, min_div]

/-- The base is exact, or cut off at the largest quotient. -/
theorem baseTarget_cases (current actual : ℕ) {target : ℕ} (hpos : 0 < target) (hlt : target < 2 ^ 64) :
    (target = 1 ∨ current * actual / target ≤ (2 ^ 64 - 1) / target) ∧
        baseTarget current actual target = exactBase current actual target ∨
      ¬(target = 1 ∨ current * actual / target ≤ (2 ^ 64 - 1) / target) ∧
        baseTarget current actual target = (2 ^ 64 - 1) / target ∧
        (2 ^ 64 - 1) / target < exactBase current actual target := by
  have hone : 1 ≤ (2 ^ 64 - 1) / target := (Nat.le_div_iff_mul_le hpos).2 (by omega)
  have hle := Nat.div_le_self (2 ^ 64 - 1) target
  rw [baseTarget_eq, exactBase]
  by_cases h : target = 1 ∨ current * actual / target ≤ (2 ^ 64 - 1) / target
  · refine Or.inl ⟨h, ?_⟩
    rcases h with rfl | h
    · simp only [Nat.div_one]
      omega
    · omega
  · refine Or.inr ⟨h, ?_⟩
    rw [not_or, not_le] at h
    have hhalf : (2 ^ 64 - 1) / target ≤ (2 ^ 64 - 1) / 2 :=
      Nat.div_le_div_left (by omega) (by decide)
    omega

theorem steeredTarget_eq_iff {current actual target entropy : ℕ} (hpos : 0 < target)
    (hlt : target < 2 ^ 64) :
    steeredTarget (baseTarget current actual target) entropy =
        exactRetarget current actual target entropy ↔
      SaturationHidden current actual target entropy := by
  unfold steeredTarget exactRetarget SaturationHidden
  by_cases hhigh : 4000000 ≤ entropy
  · rw [if_neg (not_lt.2 hhigh), if_pos hhigh, if_pos hhigh]
    rcases baseTarget_cases current actual hpos hlt with
      ⟨h, hbase⟩ | ⟨h, hbase, hless⟩
    · exact ⟨fun _ => h, fun _ => hbase⟩
    · exact ⟨fun heq => absurd heq (by omega), fun hnot => absurd hnot h⟩
  · rw [if_pos (not_le.1 hhigh), if_neg hhigh, if_neg hhigh, min_div]
    rcases baseTarget_cases current actual hpos hlt with
      ⟨h, hbase⟩ | ⟨h, hbase, hless⟩
    · rw [hbase]
      constructor
      · intro heq
        refine ⟨by omega, ?_⟩
        exact h.imp_right Or.inl
      · rintro ⟨hle, -⟩
        omega
    · have hcut : (2 ^ 64 - 1) / target * (4000000 + entropy) / 8000000 ≤
          exactBase current actual target * (4000000 + entropy) / 8000000 :=
        Nat.div_le_div_right (Nat.mul_le_mul_right _ hless.le)
      rw [hbase]
      constructor
      · intro heq
        exact ⟨by omega, Or.inr (Or.inr (by omega))⟩
      · rintro ⟨hle, hsmall⟩
        have hrounded := (or_assoc.2 hsmall).resolve_left h
        omega

/-! ## What follows from the formula -/

theorem exactBase_onTarget {current target : ℕ} (hpos : 0 < target) (hcurrent : 1 ≤ current)
    (hlt : current < 2 ^ 64) : exactBase current target target = current := by
  rw [exactBase, Nat.mul_div_cancel _ hpos]
  omega

theorem le_exactBase {current actual target : ℕ} (hpos : 0 < target) (hle : target ≤ actual)
    (hlt : current < 2 ^ 64) : current ≤ exactBase current actual target := by
  have hquotient : current ≤ current * actual / target :=
    (Nat.le_div_iff_mul_le hpos).2 (Nat.mul_le_mul_left current hle)
  rw [exactBase]
  omega

theorem exactBase_le {current actual target : ℕ} (hle : actual ≤ target) (hcurrent : 1 ≤ current) :
    exactBase current actual target ≤ current := by
  have hquotient : current * actual / target ≤ current :=
    Nat.div_le_of_le_mul (Nat.mul_comm current target ▸ Nat.mul_le_mul_left current hle)
  rw [exactBase]
  omega

theorem exactRetarget_le (current actual target entropy : ℕ) :
    exactRetarget current actual target entropy ≤ exactBase current actual target := by
  have hone : 1 ≤ exactBase current actual target := le_max_left _ _
  unfold exactRetarget
  split
  · exact le_rfl
  · have hle := Nat.mul_le_mul_left (exactBase current actual target)
      (show 4000000 + entropy ≤ 8000000 by omega)
    omega

theorem half_le_exactRetarget {current actual target entropy : ℕ} (hlow : entropy < 4000000) :
    exactBase current actual target / 2 ≤ exactRetarget current actual target entropy := by
  have hle := Nat.mul_le_mul_left (exactBase current actual target)
    (show 4000000 ≤ 4000000 + entropy by omega)
  rw [exactRetarget, if_neg (not_le.2 hlow)]
  omega

/-- The retarget follows its formula if and only if the divisions hide the saturation. -/
theorem retargetExact_iff {current actual target : U64} (hactual : actual ≠ 0) (htarget : target ≠ 0)
    (entropy : U64) :
    RetargetExact current actual target entropy ↔
      SaturationHidden current.toNat actual.toNat target.toNat entropy.toNat := by
  have hvalue : (calculateDifficultyAdjustment current actual target entropy).toNat = _ :=
    toNat_calculateDifficultyAdjustment hactual htarget
  have hpos : 0 < target.toNat := BitVec.toNat_pos_of_ne_zero htarget
  rw [← steeredTarget_eq_iff hpos target.isLt, ← hvalue]
  constructor
  · exact RetargetExact.formula
  · intro hformula
    refine ⟨hformula, ?_, ?_, ?_, ?_⟩
    · rintro rfl hhigh hcurrent
      apply BitVec.eq_of_toNat_eq
      rw [hformula, exactRetarget, if_pos hhigh, exactBase_onTarget hpos hcurrent current.isLt]
    · intro hslow hhigh
      rw [BitVec.le_def, hformula, exactRetarget, if_pos hhigh]
      exact le_exactBase hpos (BitVec.le_def.1 hslow) current.isLt
    · intro hfast hcurrent
      rw [BitVec.le_def, hformula]
      exact (exactRetarget_le _ _ _ _).trans (exactBase_le (BitVec.le_def.1 hfast) hcurrent)
    · intro hlow
      rw [hformula]
      exact half_le_exactRetarget hlow

theorem retargetExact_iff_fast : RetargetExact 1000000 3 5 3000000 :=
  (retargetExact_iff (by decide) (by decide) 3000000).2 (by decide)

/-- The largest difficulty is cut to a fifth although the block time is on target. -/
theorem not_retargetExact : ¬ RetargetExact 18446744073709551615 5 5 4000000 := fun h =>
  absurd (h.onTarget rfl (by decide) (by decide)) (by decide)

/-! ## Monotonicity -/

theorem baseTarget_mono {current current' actual actual' : ℕ} (target : ℕ)
    (hcurrent : current ≤ current') (hactual : actual ≤ actual') :
    baseTarget current actual target ≤ baseTarget current' actual' target := by
  have hproduct := Nat.mul_le_mul hcurrent hactual
  have hquotient : min (current * actual) (2 ^ 64 - 1) / target ≤
      min (current' * actual') (2 ^ 64 - 1) / target := Nat.div_le_div_right (by omega)
  unfold baseTarget
  omega

theorem baseTarget_pos (current actual target : ℕ) : 1 ≤ baseTarget current actual target :=
  le_max_right _ _

theorem steeredTarget_mono {base base' : ℕ} (entropy : ℕ) (h : base ≤ base') :
    steeredTarget base entropy ≤ steeredTarget base' entropy := by
  unfold steeredTarget
  split
  · have hproduct := Nat.mul_le_mul_right (4000000 + entropy) h
    omega
  · exact h

/-- A lower entropy never raises the target, across the threshold too. -/
theorem steeredTarget_mono_entropy {base entropy entropy' : ℕ} (hpos : 1 ≤ base)
    (h : entropy ≤ entropy') : steeredTarget base entropy ≤ steeredTarget base entropy' := by
  by_cases hlow : entropy' < 4000000
  · unfold steeredTarget
    rw [if_pos hlow, if_pos (lt_of_le_of_lt h hlow)]
    have hproduct := Nat.mul_le_mul_left base (Nat.add_le_add_left h 4000000)
    omega
  · have hle := (steeredTarget_le entropy hpos).1
    rw [show steeredTarget base entropy' = base from if_neg hlow]
    exact hle

theorem toNat_calculateDifficultyAdjustment_zero (current target entropy : U64) :
    (calculateDifficultyAdjustment current 0 target entropy).toNat = max (current.toNat / 2) 1 := by
  rw [calculateDifficultyAdjustment, dif_pos (Or.inl rfl), toNat_maximum, BitVec.toNat_udiv]
  rfl

/-- The retarget reaches half of the current target, which a block time of `0` gives, or that half is
not above the least target. -/
def HalfReached (current actual target entropy : ℕ) : Prop :=
  current ≤ 3 ∨
    if 4000000 ≤ entropy then current / 2 * target ≤ min (current * actual) (2 ^ 64 - 1)
    else current / 2 * 8000000 ≤
      min (baseTarget current actual target * (4000000 + entropy)) (2 ^ 64 - 1)

theorem half_le_steeredTarget_iff {current actual target : ℕ} (entropy : ℕ) (hpos : 0 < target) :
    max (current / 2) 1 ≤ steeredTarget (baseTarget current actual target) entropy ↔
      HalfReached current actual target entropy := by
  unfold HalfReached
  by_cases hhigh : 4000000 ≤ entropy
  · rw [if_pos hhigh, ← Nat.le_div_iff_mul_le hpos, steeredTarget, if_neg (not_lt.2 hhigh),
      baseTarget]
    omega
  · rw [if_neg hhigh, ← Nat.le_div_iff_mul_le (by decide : 0 < 8000000), steeredTarget,
      if_pos (not_le.1 hhigh)]
    omega

section Monotone

variable {current actual target entropy : U64}

theorem calculateDifficultyAdjustment_mono_current {current' : U64} (htarget : target ≠ 0)
    (h : current ≤ current') :
    calculateDifficultyAdjustment current actual target entropy ≤
      calculateDifficultyAdjustment current' actual target entropy := by
  rw [BitVec.le_def] at h ⊢
  by_cases hactual : actual = 0
  · rw [hactual, toNat_calculateDifficultyAdjustment_zero, toNat_calculateDifficultyAdjustment_zero]
    omega
  · rw [toNat_calculateDifficultyAdjustment hactual htarget,
      toNat_calculateDifficultyAdjustment hactual htarget]
    exact steeredTarget_mono _ (baseTarget_mono _ h le_rfl)

theorem calculateDifficultyAdjustment_mono_entropy {entropy' : U64} (htarget : target ≠ 0)
    (h : entropy ≤ entropy') :
    calculateDifficultyAdjustment current actual target entropy ≤
      calculateDifficultyAdjustment current actual target entropy' := by
  rw [BitVec.le_def] at h ⊢
  by_cases hactual : actual = 0
  · rw [hactual, toNat_calculateDifficultyAdjustment_zero, toNat_calculateDifficultyAdjustment_zero]
  · rw [toNat_calculateDifficultyAdjustment hactual htarget,
      toNat_calculateDifficultyAdjustment hactual htarget]
    exact steeredTarget_mono_entropy (baseTarget_pos _ _ _) h

/-- From a block time that is not `0`, or to one that is. -/
theorem calculateDifficultyAdjustment_mono_actual {actual' : U64} (htarget : target ≠ 0)
    (hactual : actual ≠ 0 ∨ actual' = 0) (h : actual ≤ actual') :
    calculateDifficultyAdjustment current actual target entropy ≤
      calculateDifficultyAdjustment current actual' target entropy := by
  rw [BitVec.le_def] at h
  by_cases hzero : actual = 0
  · rw [hzero, hactual.resolve_left fun hne => hne hzero]
    exact BitVec.le_refl _
  · have hzero' : actual' ≠ 0 := by
      rintro rfl
      exact hzero (BitVec.eq_of_toNat_eq (Nat.le_zero.1 h))
    rw [BitVec.le_def, toNat_calculateDifficultyAdjustment hzero htarget,
      toNat_calculateDifficultyAdjustment hzero' htarget]
    exact steeredTarget_mono _ (baseTarget_mono _ le_rfl h)

theorem calculateDifficultyAdjustment_zero_le_iff (hactual : actual ≠ 0) (htarget : target ≠ 0) :
    calculateDifficultyAdjustment current 0 target entropy ≤
        calculateDifficultyAdjustment current actual target entropy ↔
      HalfReached current.toNat actual.toNat target.toNat entropy.toNat := by
  have hpos : 0 < target.toNat := BitVec.toNat_pos_of_ne_zero htarget
  rw [BitVec.le_def, toNat_calculateDifficultyAdjustment_zero,
    toNat_calculateDifficultyAdjustment hactual htarget, half_le_steeredTarget_iff _ hpos]

end Monotone

/-- The retarget is monotone in the current target and in the entropy, and in the block time but from
`0` to a block time for which it stays below half of the current target. -/
theorem retarget_monotone {target : U64} (htarget : target ≠ 0) :
    (∀ current current' actual entropy, current ≤ current' →
        calculateDifficultyAdjustment current actual target entropy ≤
          calculateDifficultyAdjustment current' actual target entropy) ∧
      (∀ current actual entropy entropy', entropy ≤ entropy' →
        calculateDifficultyAdjustment current actual target entropy ≤
          calculateDifficultyAdjustment current actual target entropy') ∧
      ∀ current actual actual' entropy, actual ≤ actual' →
        (calculateDifficultyAdjustment current actual target entropy ≤
            calculateDifficultyAdjustment current actual' target entropy ↔
          actual ≠ 0 ∨ actual' = 0 ∨
            HalfReached current.toNat actual'.toNat target.toNat entropy.toNat) := by
  refine ⟨fun _ _ _ _ h => calculateDifficultyAdjustment_mono_current htarget h,
    fun _ _ _ _ h => calculateDifficultyAdjustment_mono_entropy htarget h,
    fun current actual actual' entropy h => ?_⟩
  by_cases hregular : actual ≠ 0 ∨ actual' = 0
  · have hor := or_assoc.1 (Or.inl (b := HalfReached current.toNat actual'.toNat target.toNat
      entropy.toNat) hregular)
    exact iff_of_true (calculateDifficultyAdjustment_mono_actual htarget hregular h) hor
  · rw [not_or, ne_eq, not_not] at hregular
    obtain ⟨rfl, hactual'⟩ := hregular
    rw [calculateDifficultyAdjustment_zero_le_iff hactual' htarget]
    constructor
    · exact fun hhalf => Or.inr (Or.inr hhalf)
    · intro hor
      exact (hor.resolve_left fun hne => hne rfl).resolve_left hactual'

theorem retarget_monotone_five : calculateDifficultyAdjustment 100 1 5 4000000 ≤
    calculateDifficultyAdjustment 100 3 5 4000000 :=
  ((retarget_monotone (by decide)).2.2 100 1 3 4000000 (by decide)).2 (Or.inl (by decide))

/-- A block that takes no time halves the target, one that takes a second cuts it to a fifth. -/
theorem not_retarget_monotone :
    ¬ ∀ target current actual actual' entropy : U64, target ≠ 0 → actual ≤ actual' →
      calculateDifficultyAdjustment current actual target entropy ≤
        calculateDifficultyAdjustment current actual' target entropy := fun h =>
  absurd (h 5 100 0 1 4000000 (by decide) (by decide)) (by decide)

end GhostConsensus
