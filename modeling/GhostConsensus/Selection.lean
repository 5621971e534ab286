import GhostConsensus.Dispatch
import GhostConsensus.Lib.Weights

/-!
# The selection of a validator

As long as the weights of the stakers sum up to less than `2 ^ 64`, `select_pos_validator` is the
choice by cumulative weight `Weights.pick`, so it selects a staker of positive weight whenever
there is one.
-/

namespace GhostConsensus

open MachineInt Weights

variable {α H B : Type} {T : Config α H B}

/-- The weight of a staker, as a number. -/
def ValidatorStake.natWeight (staker : ValidatorStake α) : ℕ := staker.weight.toNat

/-- The loop walks through the cumulative weights: what is left of the random value is the random
value less the weight passed so far. -/
theorem selectLoop_eq (round randomValue : U64) :
    ∀ (stakers : List (ValidatorStake α)) (cumulative : U64), cumulative.toNat ≤ randomValue.toNat →
      cumulative.toNat + (stakers.map ValidatorStake.natWeight).sum < 2 ^ 64 →
      selectLoop T round randomValue cumulative stakers =
        .ok ((pick ValidatorStake.natWeight (randomValue.toNat - cumulative.toNat) stakers).map
          fun staker => { validator := staker.account, weight := staker.weight, round })
  | [], _, _, _ => rfl
  | staker :: stakers, cumulative, hle, hlt => by
      rw [List.map_cons, List.sum_cons] at hlt
      have hadd : cumulative.toNat + staker.weight.toNat < 2 ^ 64 := by
        rw [ValidatorStake.natWeight] at hlt
        omega
      have hval := toNat_add_of_lt hadd
      rw [selectLoop, addChecked_of_lt _ hadd, orPanic, pick]
      simp only [bind, Except.bind, BitVec.lt_def, hval]
      by_cases hin : randomValue.toNat < cumulative.toNat + staker.weight.toNat
      · rw [if_pos hin, if_pos (by rw [ValidatorStake.natWeight]; omega)]
        rfl
      · have hrest : randomValue.toNat - (cumulative + staker.weight).toNat =
            randomValue.toNat - cumulative.toNat - staker.natWeight := by
          rw [hval, ValidatorStake.natWeight, Nat.sub_add_eq]
        rw [if_neg hin, if_neg (by rw [ValidatorStake.natWeight]; omega), ← hrest]
        apply selectLoop_eq round randomValue stakers
        · omega
        · rw [hval]
          rw [ValidatorStake.natWeight] at hlt
          omega

theorem map_toNat_weight (stakers : List (ValidatorStake α)) :
    (stakers.map ValidatorStake.weight).map BitVec.toNat =
      stakers.map ValidatorStake.natWeight := by
  rw [List.map_map]
  rfl

/-- With a positive total weight below `2 ^ 64`, the selection is the choice by cumulative weight. -/
theorem selectPosValidator_eq {stakers : List (ValidatorStake α)} (runtimeBlock : ℕ) (seed : H)
    (hpos : 0 < (stakers.map ValidatorStake.natWeight).sum)
    (hlt : (stakers.map ValidatorStake.natWeight).sum < 2 ^ 64) :
    selectPosValidator T runtimeBlock stakers seed =
      .ok ((pick ValidatorStake.natWeight
          ((T.leadingU64 seed).toNat % (stakers.map ValidatorStake.natWeight).sum) stakers).map
        fun staker => { validator := staker.account, weight := staker.weight
                        round := saturatedInto 64 runtimeBlock }) := by
  obtain ⟨total, htotal, hval⟩ :=
    sumChecked_of_lt T.overflowChecks (map_toNat_weight stakers ▸ hlt)
  rw [map_toNat_weight] at hval
  have hne : stakers.isEmpty = false := by
    cases stakers with
    | nil => exact absurd hpos (Nat.lt_irrefl 0)
    | cons _ _ => rfl
  have hzero : total ≠ 0 := by
    rintro rfl
    rw [← hval] at hpos
    exact absurd hpos (Nat.lt_irrefl 0)
  rw [selectPosValidator, hne, htotal]
  simp only [Bool.false_eq_true, if_false, orPanic, bind, Except.bind, if_neg hzero,
    remChecked_of_ne _ hzero]
  rw [selectLoop_eq _ _ _ _ (Nat.zero_le _) (by simpa using hlt), show (0 : U64).toNat = 0 from rfl,
    Nat.sub_zero, BitVec.toNat_umod, hval]

/-- With a positive total weight below `2 ^ 64`, some staker of positive weight is selected. -/
theorem exists_selectPosValidator {stakers : List (ValidatorStake α)} (runtimeBlock : ℕ) (seed : H)
    (hpos : 0 < (stakers.map ValidatorStake.natWeight).sum)
    (hlt : (stakers.map ValidatorStake.natWeight).sum < 2 ^ 64) :
    ∃ staker ∈ stakers, 0 < staker.weight.toNat ∧
      selectPosValidator T runtimeBlock stakers seed = .ok (some
        { validator := staker.account, weight := staker.weight
          round := saturatedInto 64 runtimeBlock }) := by
  obtain ⟨staker, hmem, hweight, hpick⟩ := exists_pick (Nat.mod_lt (T.leadingU64 seed).toNat hpos)
  refine ⟨staker, hmem, hweight, ?_⟩
  rw [selectPosValidator_eq runtimeBlock seed hpos hlt, hpick]
  rfl

/-- Overflow checks stop the selection when the weights sum up to `2 ^ 64` or more. -/
theorem selectPosValidator_panic {stakers : List (ValidatorStake α)}
    (hchecks : T.overflowChecks = true)
    (hle : 2 ^ 64 ≤ (stakers.map ValidatorStake.natWeight).sum) (runtimeBlock : ℕ) (seed : H) :
    selectPosValidator T runtimeBlock stakers seed = .error .panic := by
  have hne : stakers.isEmpty = false := by
    cases stakers with
    | nil => exact absurd hle (by simp)
    | cons _ _ => rfl
  have hnone : sumChecked T.overflowChecks (stakers.map ValidatorStake.weight) = none := by
    cases htotal : sumChecked T.overflowChecks (stakers.map ValidatorStake.weight) with
    | none => rfl
    | some total =>
      have hval := toNat_of_sumChecked_eq_some (Or.inl hchecks) htotal
      rw [map_toNat_weight] at hval
      have := total.isLt
      omega
  rw [selectPosValidator, hne, hnone]
  rfl

/-- The validator selected for block `n` in the current runtime block. -/
def selectedValidator [AccountId α] (T : Config α H B) (s : State α H B) (n : U32) : Option α :=
  match selectPosValidator T s.blockNumber s.stakers (selectionSeed T s n) with
  | .ok (some selection) => some selection.validator
  | _ => none

theorem exists_selection [AccountId α] {s : State α H B} {n : U32} {v : α}
    (h : selectedValidator T s n = some v) : ∃ selection,
      selectPosValidator T s.blockNumber s.stakers (selectionSeed T s n) = .ok (some selection) ∧
        selection.validator = v := by
  rw [selectedValidator] at h
  split at h
  · rename_i selection hselect
    exact ⟨selection, hselect, Option.some.inj h⟩
  · cases h

theorem Closes.selectedValidator_eq [AccountId α] {s : State α H B} {validator miner : α} {n : U32}
    {sig : PqcSignature} {header : GhostBlockHeader H} {selection : PosSelection α}
    {reward : BlockReward} {balances : B}
    (h : Closes T s validator n sig header selection reward miner balances) :
    selectedValidator T s n = some validator := by
  rw [selectedValidator, h.select]
  exact congrArg some h.selected

end GhostConsensus
