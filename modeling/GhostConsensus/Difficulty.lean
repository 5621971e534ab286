import GhostConsensus.Runtime

/-!
# The difficulty over runs

The value of the retarget in `ℕ`, and what it does to the difficulty in a run. The block time is
always on target, so that a retarget leaves the difficulty as it is or lowers it: mining never gets
easier.
-/

namespace GhostConsensus

open Transition MachineInt

/-! ## The retarget in natural numbers -/

/-- The target for the block time alone. -/
def baseTarget (current actual target : ℕ) : ℕ := max (min (current * actual) (2 ^ 64 - 1) / target) 1

/-- The target after the steering by the entropy. -/
def steeredTarget (base entropy : ℕ) : ℕ :=
  if entropy < 4000000 then max (min (base * (4000000 + entropy)) (2 ^ 64 - 1) / 8000000) 1 else base

theorem toNat_calculateDifficultyAdjustment {current actual target entropy : U64}
    (hactual : actual ≠ 0) (htarget : target ≠ 0) :
    (calculateDifficultyAdjustment current actual target entropy).toNat =
      steeredTarget (baseTarget current.toNat actual.toNat target.toNat) entropy.toNat := by
  have hbase : (maximum (saturatingMul current actual / target) 1).toNat =
      baseTarget current.toNat actual.toNat target.toNat := by
    rw [toNat_maximum, BitVec.toNat_udiv, toNat_saturatingMul, baseTarget]
    rfl
  have hsteered : entropy.toNat < 4000000 →
      (saturatingAdd (4000000 : U64) entropy).toNat = 4000000 + entropy.toNat := by
    intro hlow
    rw [toNat_saturatingAdd, show (4000000 : U64).toNat = 4000000 from rfl]
    omega
  rw [calculateDifficultyAdjustment, dif_neg (not_or.2 ⟨hactual, htarget⟩), steeredTarget]
  simp only [divNonzero_eq]
  by_cases hlow : entropy.toNat < 4000000
  · rw [if_pos hlow, if_pos (BitVec.lt_def.2 hlow), toNat_maximum, BitVec.toNat_udiv,
      toNat_saturatingMul, hbase, hsteered hlow]
    rfl
  · rw [if_neg hlow, if_neg (fun h => hlow (BitVec.lt_def.1 h)), hbase]

/-! ## On-target block times -/

/-- With the block time on target the base is the current target, up to saturation. -/
theorem baseTarget_onTarget {current : ℕ} (hpos : 1 ≤ current) :
    baseTarget current 5 5 = min current ((2 ^ 64 - 1) / 5) := by
  unfold baseTarget
  omega

theorem steeredTarget_pos {base entropy : ℕ} (hpos : 1 ≤ base) : 1 ≤ steeredTarget base entropy := by
  unfold steeredTarget
  split
  · exact le_max_right _ _
  · exact hpos

/-- The steering by a low entropy lowers every target above `1`. -/
theorem steeredTarget_le (entropy : ℕ) {base : ℕ} (hpos : 1 ≤ base) :
    steeredTarget base entropy ≤ base ∧
      (entropy < 4000000 → 1 < base → steeredTarget base entropy < base) := by
  unfold steeredTarget
  split
  · rename_i hlow
    have hle : base * (4000000 + entropy) ≤ base * 7999999 := Nat.mul_le_mul_left _ (by omega)
    omega
  · rename_i hhigh
    exact ⟨le_rfl, fun hlow => absurd hlow hhigh⟩

/-- What a retarget with the block time on target does to a positive difficulty. -/
structure RetargetsTo (entropy : U64) (before after : U64) : Prop where
  pos : 1 ≤ after.toNat
  le : after.toNat ≤ before.toNat
  lower : entropy.toNat < 4000000 → 1 < before.toNat → after.toNat < before.toNat
  same : 4000000 ≤ entropy.toNat → before.toNat ≤ (2 ^ 64 - 1) / 5 → after = before

theorem retargetsTo {current entropy : U64} (hpos : 1 ≤ current.toNat) :
    RetargetsTo entropy current (calculateDifficultyAdjustment current 5 5 entropy) := by
  have hvalue : (calculateDifficultyAdjustment current 5 5 entropy).toNat =
      steeredTarget (min current.toNat ((2 ^ 64 - 1) / 5)) entropy.toNat := by
    rw [toNat_calculateDifficultyAdjustment (by decide) (by decide)]
    exact congrArg (steeredTarget · _) (baseTarget_onTarget hpos)
  have hbase : 1 ≤ min current.toNat ((2 ^ 64 - 1) / 5) := by omega
  obtain ⟨hle, hlt⟩ := steeredTarget_le entropy.toNat hbase
  refine ⟨hvalue ▸ steeredTarget_pos hbase, ?_, fun hlow hone => ?_, fun hhigh hsmall => ?_⟩
  · rw [hvalue]
    omega
  · have := hlt hlow (by omega)
    rw [hvalue]
    omega
  · apply BitVec.eq_of_toNat_eq
    rw [hvalue, steeredTarget, if_neg (not_lt.2 hhigh)]
    omega

/-! ## Runs -/

variable {α H B : Type} [AccountId α] {T : Config α H B}

/-- The start of a runtime block retargets in every hundredth block, and else leaves the difficulty. -/
theorem onInitialize_difficulty {s s' : State α H B} {n : ℕ} (h : onInitialize T s n = .ok s') :
    (n % 100 ≠ 0 → s'.difficulty = s.difficulty) ∧ (n % 100 = 0 → ∃ entropy,
      calculateEntropy T s.recentBlockProducers.toList = .ok entropy ∧
      s'.difficulty = calculateDifficultyAdjustment s.difficulty 5 5 entropy) := by
  simp only [onInitialize, bind_eq_ok] at h
  obtain ⟨t, hslash, hadjust⟩ := h
  have ht : t.difficulty = s.difficulty ∧ t.recentBlockProducers = s.recentBlockProducers := by
    split at hslash
    · exact checkDowntimeSlashing_induction (P := fun t => t.difficulty = s.difficulty ∧
        t.recentBlockProducers = s.recentBlockProducers) hslash ⟨rfl, rfl⟩
        fun _ _ _ _ _ ht _ _ _ _ => ht
    · exact Except.ok.inj hslash ▸ ⟨rfl, rfl⟩
  split at hadjust
  · rename_i hn
    obtain ⟨entropy, _, hentropy, rfl, rfl⟩ := adjustDifficulty_eq_ok hadjust
    rw [ht.2] at hentropy
    exact ⟨fun hne => absurd hn hne, fun _ => ⟨entropy, hentropy, by rw [ht.1]⟩⟩
  · rename_i hn
    exact ⟨fun _ => Except.ok.inj hadjust ▸ ht.1, fun heq => absurd heq hn⟩

variable [DecidableEq H]

variable (T) in
/-- How a step from a state with a positive difficulty may change it. -/
structure Retargets (s : State α H B) (a : Action α H) (s' : State α H B) : Prop where
  le : s'.difficulty.toNat ≤ s.difficulty.toNat
  pos : 1 ≤ s'.difficulty.toNat
  retarget : ∀ n, a = .onInitialize n → n % 100 = 0 → ∃ entropy,
    calculateEntropy T s.recentBlockProducers.toList = .ok entropy ∧
      (entropy.toNat < 4000000 → 1 < s.difficulty.toNat →
        s'.difficulty.toNat < s.difficulty.toNat) ∧
      (4000000 ≤ entropy.toNat → s.difficulty.toNat ≤ (2 ^ 64 - 1) / 5 →
        s'.difficulty = s.difficulty)
  kept : (∀ n, a = .onInitialize n → n % 100 ≠ 0) → s'.difficulty = s.difficulty

omit [DecidableEq H] in
theorem Retargets.of_eq {s s' : State α H B} {a : Action α H} (hpos : 1 ≤ s.difficulty.toNat)
    (heq : s'.difficulty = s.difficulty) (ha : ∀ n, a = .onInitialize n → n % 100 ≠ 0) :
    Retargets T s a s' :=
  ⟨by rw [heq], heq ▸ hpos, fun n hn hzero => absurd hzero (ha n hn), fun _ => heq⟩

theorem step_retargets {s s' : State α H B} {a : Action α H} (hpos : 1 ≤ s.difficulty.toNat)
    (h : step T s a = some s') : Retargets T s a s' := by
  cases step_effect h with
  | rejected | submitted | staked | unstaked | validated | registered =>
    exact .of_eq hpos rfl fun _ hn => by cases hn
  | @reported _ _ reason =>
    exact .of_eq hpos (by cases reason <;> rfl) fun _ hn => by cases hn
  | finalized => exact .of_eq hpos (by rw [onFinalize_eq]) fun _ hn => by cases hn
  | @initialized n _ hinit =>
    obtain ⟨hkept, hretarget⟩ := onInitialize_difficulty hinit
    by_cases hn : n % 100 = 0
    · obtain ⟨entropy, hentropy, hafter⟩ := hretarget hn
      have hto : RetargetsTo entropy s.difficulty s'.difficulty := hafter ▸ retargetsTo hpos
      refine ⟨hto.le, hto.pos, fun _ _ _ => ⟨entropy, hentropy, hto.lower, hto.same⟩, fun hall => ?_⟩
      exact absurd hn (hall n rfl)
    · refine .of_eq hpos (hkept hn) fun m hm => ?_
      obtain rfl := Action.onInitialize.inj hm
      exact hn

/-- In every run from a positive difficulty it stays positive and never increases; every step
changes it by a retarget at most. -/
theorem run_ratchet {s₀ s : State α H B} {h : List (Record α H B)} (run : Run (step T) s₀ h s)
    (start : 1 ≤ s₀.difficulty.toNat) :
    1 ≤ s.difficulty.toNat ∧ s.difficulty.toNat ≤ s₀.difficulty.toNat ∧
      ∀ post pre t a t', h = post ++ (t, a) :: pre → step T t a = some t' → Retargets T t a t' := by
  have hbounds : ∀ {h : List (Record α H B)} {t}, Run (step T) s₀ h t →
      1 ≤ t.difficulty.toNat ∧ t.difficulty.toNat ≤ s₀.difficulty.toNat := by
    intro h t run
    refine run.invariant (I := fun t => 1 ≤ t.difficulty.toNat ∧
      t.difficulty.toNat ≤ s₀.difficulty.toNat) ⟨start, le_rfl⟩ fun t a t' ht hstep => ?_
    have hto := step_retargets ht.1 hstep
    exact ⟨hto.pos, hto.le.trans ht.2⟩
  refine ⟨(hbounds run).1, (hbounds run).2, ?_⟩
  rintro post pre t a t' rfl hstep
  obtain ⟨hpre, -⟩ := run.at_step
  exact step_retargets (hbounds hpre).1 hstep

theorem run_ratchet_dev :
    ∃ h s, Run (step devConfig) { devState with difficulty := 1000 } h s ∧
      s.difficulty = 250 ∧ s.recentBlockProducers.toList = [2] ∧ 1 ≤ s.difficulty.toNat ∧
      s.difficulty.toNat ≤ 1000 := by
  obtain ⟨h, s, run, hcheck⟩ := exists_run_of_exec (step devConfig)
    { devState with difficulty := 1000 }
    [.onInitialize 100, .dispatch (.signed 2) (.submitBlock { devBlock with difficulty := 1000 }),
      .onFinalize 100, .onInitialize 200]
    (fun r => decide (r.2.difficulty = 250 ∧ r.2.recentBlockProducers.toList = [2]))
    (by decide +kernel)
  obtain ⟨hdifficulty, hwindow⟩ := of_decide_eq_true hcheck
  obtain ⟨hpos, hle, -⟩ := run_ratchet run (by decide)
  exact ⟨h, s, run, hdifficulty, hwindow, hpos, hle⟩

end GhostConsensus
