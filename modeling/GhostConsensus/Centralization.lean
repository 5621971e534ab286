import GhostConsensus.Difficulty
import GhostConsensus.Entropy
import GhostConsensus.Mock

/-!
# Entropy as a measure of centralization

How far the computed entropy is from the Shannon entropy, that its threshold of four bits stands for
sixteen producers, and that one producer taking over from another never raises it.
-/

namespace GhostConsensus

variable {α H B : Type} [AccountId α] (T : Config α H B) {l : List α}

/-! ## Accuracy -/

/-- The entropy is computed without overflow and without saturation. It is close to the Shannon
entropy, at most the logarithm of the number of blocks, and vanishes for a single producer only. -/
theorem calculateEntropy_accurate (hne : l ≠ []) (hlen : l.length ≤ 1000000) :
    ∃ e, calculateEntropyStrict T l = .ok e ∧ calculateEntropy T l = .ok e ∧
      |(e.toNat : ℝ) - 1000000 * Entropy.shannon l| < 90000 + l.toFinset.card ∧
      (∃ m, integerLog2Scaled T (BitVec.ofNat 64 l.length) = .ok m ∧ e.toNat ≤ m.toNat) ∧
      (e = 0 ↔ l.toFinset.card = 1) := by
  have hpos := List.length_pos_of_ne_nil hne
  have hvalue := toNat_ofNat_approx hlen
  refine ⟨_, calculateEntropyStrict_eq T hlen, calculateEntropy_eq T hlen, ?_,
    ⟨_, integerLog2Scaled_ofNat T hpos (by omega), ?_⟩, ?_⟩
  · have hclose := Entropy.abs_approx_sub_shannon_lt 1000000 l hne
    rw [hvalue]
    push_cast at hclose
    linarith
  · rw [hvalue, toNat_ofNat_of_le (linLog_le hlen)]
    exact Entropy.approx_le 1000000 l
  · rw [← Entropy.approx_eq_zero_iff 1000000 l hne hlen]
    constructor
    · intro hzero
      rw [hzero] at hvalue
      exact hvalue.symm
    · intro hzero
      rw [hzero]
      rfl

/-- Three blocks by two producers. -/
theorem calculateEntropy_accurate_two :
    ∃ e, calculateEntropyStrict mockTest [1, 2, 2] = .ok e ∧
      calculateEntropy mockTest [1, 2, 2] = .ok e ∧
      |(e.toNat : ℝ) - 1000000 * Entropy.shannon [1, 2, 2]| <
        90000 + ([1, 2, 2] : List ℕ).toFinset.card ∧
      (∃ m, integerLog2Scaled mockTest (BitVec.ofNat 64 3) = .ok m ∧ e.toNat ≤ m.toNat) ∧
      (e = 0 ↔ ([1, 2, 2] : List ℕ).toFinset.card = 1) :=
  calculateEntropy_accurate mockTest (by decide) (by decide)

/-! ## The threshold -/

theorem logb_fifteen_le : Real.logb 2 15 ≤ 43 / 11 := by
  have hpow : Real.log ((15 : ℝ) ^ 11) ≤ Real.log ((2 : ℝ) ^ 43) :=
    Real.log_le_log (by positivity) (by norm_num)
  rw [Real.log_pow, Real.log_pow] at hpow
  rw [Real.logb, div_le_iff₀ (Real.log_pos one_lt_two)]
  push_cast at hpow
  linarith

/-- Fewer than sixteen producers stay below four bits, whatever the interpolation adds. -/
theorem approx_lt_threshold (hne : l ≠ []) (hcard : l.toFinset.card < 16) :
    Entropy.approx 1000000 l < 4000000 := by
  have hpos : 0 < l.toFinset.card := Finset.card_pos.2 ((List.toFinset_nonempty_iff l).2 hne)
  have hlog : Real.logb 2 l.toFinset.card ≤ 43 / 11 := by
    refine le_trans ?_ logb_fifteen_le
    apply Real.logb_le_logb_of_le one_lt_two
    · exact_mod_cast hpos
    · exact_mod_cast Nat.le_of_lt_succ hcard
  have hlt := Entropy.approx_lt 1000000 l hne
  have hreal : (Entropy.approx 1000000 l : ℝ) < 4000000 := by
    push_cast at hlt
    linarith
  exact_mod_cast hreal

/-- From sixteen producers on who all occur equally often the threshold is met. -/
theorem threshold_le_approx (hne : l ≠ []) (hlen : l.length ≤ 1000000)
    (hcard : 16 ≤ l.toFinset.card) (heven : ∀ x ∈ l, ∀ y ∈ l, l.count x = l.count y) :
    4000000 ≤ Entropy.approx 1000000 l := by
  obtain ⟨y, hy⟩ := List.exists_mem_of_ne_nil l hne
  exact Entropy.le_approx_of_even 1000000 l (j := 4) (by decide) (by decide) hlen hcard
    (List.count_pos_iff.2 hy) fun x hx => heven x hx y hy

/-- The retarget goes through and takes over what the adjustment computes. -/
theorem exists_adjustDifficulty {s : State α H B} {e : U64}
    (h : calculateEntropy T s.recentBlockProducers.toList = .ok e) :
    ∃ s', adjustDifficulty T s = .ok s' ∧
      s'.difficulty = calculateDifficultyAdjustment s.difficulty 5 5 e := by
  simp only [adjustDifficulty, h, bind, Except.bind]
  split_ifs with hne
  · exact ⟨_, rfl, rfl⟩
  · rw [ne_eq, not_not] at hne
    exact ⟨_, rfl, hne.symm⟩

/-- An entropy that meets the threshold leaves the target to the block time. -/
theorem toNat_calculateDifficultyAdjustment_of_le {e : U64} (h : 4000000 ≤ e.toNat)
    (current : U64) :
    (calculateDifficultyAdjustment current 5 5 e).toNat = baseTarget current.toNat 5 5 := by
  rw [toNat_calculateDifficultyAdjustment (by decide) (by decide), steeredTarget,
    if_neg (not_lt.2 h)]
  rfl

/-- With fewer than sixteen producers every retarget on target time lowers the difficulty; with
sixteen or more who occur equally often it does not steer. -/
theorem sixteen_producers (hne : l ≠ []) (hlen : l.length ≤ 1000000) :
    ∃ e, calculateEntropy T l = .ok e ∧
      (l.toFinset.card < 16 → e.toNat < 4000000 ∧
        (∀ current : U64, 2 ≤ current.toNat →
          (calculateDifficultyAdjustment current 5 5 e).toNat < current.toNat) ∧
        ∀ s : State α H B, s.recentBlockProducers.toList = l → 2 ≤ s.difficulty.toNat →
          ∃ s', adjustDifficulty T s = .ok s' ∧ s'.difficulty.toNat < s.difficulty.toNat) ∧
      (16 ≤ l.toFinset.card → (∀ x ∈ l, ∀ y ∈ l, l.count x = l.count y) → 4000000 ≤ e.toNat ∧
        (∀ current : U64, (calculateDifficultyAdjustment current 5 5 e).toNat =
          baseTarget current.toNat 5 5) ∧
        ∀ s : State α H B, s.recentBlockProducers.toList = l →
          ∃ s', adjustDifficulty T s = .ok s' ∧
            s'.difficulty.toNat = baseTarget s.difficulty.toNat 5 5) := by
  have hentropy := calculateEntropy_eq T hlen
  have hvalue := toNat_ofNat_approx hlen
  refine ⟨_, hentropy, fun hcard => ?_, fun hcard heven => ?_⟩
  · have hlow : (BitVec.ofNat 64 (Entropy.approx 1000000 l)).toNat < 4000000 := by
      rw [hvalue]
      exact approx_lt_threshold hne hcard
    have hlower : ∀ current : U64, 2 ≤ current.toNat →
        (calculateDifficultyAdjustment current 5 5
          (BitVec.ofNat 64 (Entropy.approx 1000000 l))).toNat < current.toNat :=
      fun current htwo => (retargetsTo (by omega)).lower hlow (by omega)
    refine ⟨hlow, hlower, ?_⟩
    rintro s rfl htwo
    obtain ⟨s', hs', hdifficulty⟩ := exists_adjustDifficulty T hentropy
    exact ⟨s', hs', hdifficulty ▸ hlower s.difficulty htwo⟩
  · have hhigh : 4000000 ≤ (BitVec.ofNat 64 (Entropy.approx 1000000 l)).toNat := by
      rw [hvalue]
      exact threshold_le_approx hne hlen hcard heven
    have hbase := toNat_calculateDifficultyAdjustment_of_le hhigh
    refine ⟨hhigh, hbase, ?_⟩
    rintro s rfl
    obtain ⟨s', hs', hdifficulty⟩ := exists_adjustDifficulty T hentropy
    exact ⟨s', hs', hdifficulty ▸ hbase s.difficulty⟩

/-- Two producers are below the threshold, sixteen meet it. -/
theorem sixteen_producers_mock :
    (∃ e, calculateEntropy mockTest [1, 2, 2] = .ok e ∧ e.toNat < 4000000) ∧
      ∃ e, calculateEntropy mockTest (List.range 16) = .ok e ∧ 4000000 ≤ e.toNat := by
  constructor
  · obtain ⟨e, he, hfew, -⟩ := sixteen_producers mockTest (l := [1, 2, 2]) (by decide) (by decide)
    exact ⟨e, he, (hfew (by decide)).1⟩
  · obtain ⟨e, he, -, hmany⟩ :=
      sixteen_producers mockTest (l := List.range 16) (by decide) (by decide)
    exact ⟨e, he, (hmany (by decide) (by decide)).1⟩

/-! ## One producer for two -/

/-- One producer taking over the blocks of another never raises the entropy; neither the order of
the blocks nor the names of the producers matter to it. -/
theorem calculateEntropy_merge_le (hlen : l.length ≤ 1000000) :
    (∀ a ∈ l, ∀ b ∈ l, a ≠ b → ∃ before after, calculateEntropy T l = .ok before ∧
      calculateEntropy T (l.map fun x => if x = a then b else x) = .ok after ∧
        after.toNat ≤ before.toNat) ∧
      (∀ l', l.Perm l' → calculateEntropy T l' = calculateEntropy T l) ∧
      ∀ (β H' B' : Type) [AccountId β] (T' : Config β H' B') (f : α → β), Function.Injective f →
        calculateEntropy T' (l.map f) = calculateEntropy T l := by
  refine ⟨fun a ha b hb hne => ?_, fun l' hperm => ?_, fun β H' B' _ T' f hf => ?_⟩
  · have hmerge : (Entropy.merge l a b).length ≤ 1000000 :=
      (Entropy.length_merge l a b).trans_le hlen
    have hafter := calculateEntropy_eq T hmerge
    refine ⟨_, _, calculateEntropy_eq T hlen, hafter, ?_⟩
    rw [toNat_ofNat_approx hlen, toNat_ofNat_approx hmerge]
    exact Entropy.approx_merge_le 1000000 l hne ha hb hlen
  · rw [calculateEntropy_eq T hlen, calculateEntropy_eq T (hperm.length_eq ▸ hlen),
      Entropy.approx_perm 1000000 hperm]
  · rw [calculateEntropy_eq T hlen, calculateEntropy_eq T' ((List.length_map f).trans_le hlen),
      Entropy.approx_map 1000000 l hf]

/-- The third producer takes over the block of the first; the list is reversed, and renamed. -/
theorem calculateEntropy_merge_le_mock :
    (∃ before after, calculateEntropy mockTest [1, 2, 3] = .ok before ∧
      calculateEntropy mockTest [3, 2, 3] = .ok after ∧ after.toNat ≤ before.toNat) ∧
      calculateEntropy mockTest [3, 2, 1] = calculateEntropy mockTest [1, 2, 3] ∧
      calculateEntropy mockTest [2, 3, 4] = calculateEntropy mockTest [1, 2, 3] := by
  obtain ⟨hmerge, hperm, hmap⟩ := calculateEntropy_merge_le mockTest (l := [1, 2, 3]) (by decide)
  refine ⟨hmerge 1 (by decide) 3 (by decide) (by decide), hperm [3, 2, 1] (by decide), ?_⟩
  exact hmap ℕ (List ℕ) (Accounts ℕ) mockTest Nat.succ Nat.succ_injective

end GhostConsensus
