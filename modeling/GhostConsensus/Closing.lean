import GhostConsensus.Rewards
import GhostConsensus.Runtime

/-!
# Who can close a round

Every stored block above number `0` has a producer, so that with weights that sum up to a positive
number below `2 ^ 64` exactly the selected validator can close a round.
-/

namespace GhostConsensus

open Transition MachineInt

variable {α H B : Type} [AccountId α]

/-- The sum of the stakes, each saturated to 64 bits. -/
def State.totalWeight (s : State α H B) : ℕ := (s.stakers.map ValidatorStake.natWeight).sum

/-- Every stored block above number `0` has a producer. -/
def HasProducers (s : State α H B) : Prop :=
  ∀ n, n ≠ 0 → (s.blockHeaders n).isSome = true → (s.blockProducers n).isSome = true

section Producers

variable [DecidableEq H] {T : Config α H B}

theorem HasProducers.step {s s' : State α H B} {a : Action α H} (hs : HasProducers s)
    (h : step T s a = some s') : HasProducers s' := by
  intro n hn hstored
  cases step_chain h with
  | accepted =>
    rw [acceptBlock_blockHeaders, StorageMap.isSome_insert] at hstored
    rw [acceptBlock_blockProducers, StorageMap.isSome_insert]
    exact hstored.imp_right (hs n hn)
  | closed _ _ _ hcloses =>
    rw [hcloses.isSome_blockHeaders] at hstored
    exact hs n hn hstored
  | reopened => exact hs n hn hstored
  | unchanged _ _ _ hsame =>
    rw [hsame.blockProducers]
    rw [hsame.blockHeaders] at hstored
    exact hs n hn hstored

theorem run_hasProducers {s₀ s : State α H B} {h : List (Record α H B)}
    {header₀ : GhostBlockHeader H} (run : Run (step T) s₀ h s)
    (stored : s₀.blockHeaders = StorageMap.empty.insert 0 header₀) : HasProducers s := by
  refine run.invariant (I := HasProducers) (fun n hn hsome => ?_) fun _ _ _ ht hstep => ht.step hstep
  rw [stored, StorageMap.insert_of_ne _ hn] at hsome
  cases hsome

end Producers

/-! ## The stakers -/

theorem mem_stakers {s : State α H B} {staker : ValidatorStake α} (h : staker ∈ s.stakers) :
    s.validatorStakes.get staker.account = some staker.stake ∧
      staker.weight = saturatedInto 64 staker.stake.toNat := by
  obtain ⟨⟨account, stake⟩, hmem, rfl⟩ := List.mem_map.1 h
  exact ⟨s.validatorStakes.mem_iter.1 hmem, rfl⟩

/-- A weight is a stake truncated to 64 bits. -/
theorem totalWeight_eq (s : State α H B) :
    s.totalWeight =
      (((s.stakers.map ValidatorStake.stake).map BitVec.toNat).map (min · (2 ^ 64 - 1))).sum := by
  rw [State.totalWeight, List.map_map, List.map_map]
  apply congrArg List.sum
  refine List.map_congr_left fun staker hstaker => ?_
  rw [ValidatorStake.natWeight, (mem_stakers hstaker).2, toNat_saturatedInto]
  rfl

/-- Stakes whose saturated weights sum up to less than `2 ^ 64` sum up to less than `2 ^ 128`. -/
theorem totalStake_lt {s : State α H B} (h : s.totalWeight < 2 ^ 64) : s.totalStake < 2 ^ 128 := by
  rw [← sum_stakers_stake]
  refine Weights.sum_lt_of_sum_min_le (m := 2 ^ 64 - 1) (by decide) (by decide) ?_ ?_
  · intro x hx
    obtain ⟨stake, -, rfl⟩ := List.mem_map.1 hx
    exact stake.isLt
  · rw [← totalWeight_eq]
    exact Nat.le_sub_one_of_lt h

/-- Where there is a stake, there is a weight. -/
theorem totalWeight_pos {s : State α H B} (h : 0 < s.totalStake) : 0 < s.totalWeight := by
  rw [Nat.pos_iff_ne_zero] at h ⊢
  intro hzero
  rw [totalWeight_eq] at hzero
  have hsum := Weights.sum_eq_zero_of_sum_min (by decide) hzero
  rw [sum_stakers_stake] at hsum
  exact h hsum

/-- A staker of positive weight has a stake. -/
theorem stakeOf_pos {s : State α H B} {staker : ValidatorStake α} (hstaker : staker ∈ s.stakers)
    (hweight : 0 < staker.weight.toNat) : 0 < (s.stakeOf staker.account).toNat := by
  obtain ⟨hget, hsaturated⟩ := mem_stakers hstaker
  rw [State.stakeOf, hget]
  rw [hsaturated, toNat_saturatedInto] at hweight
  exact lt_of_lt_of_le hweight (min_le_left _ _)

/-! ## Closing a round -/

variable [DecidableEq H] {T : Config α H B}

/-- In an open round with a positive total weight below `2 ^ 64` and rewards that fit, every stored
block has exactly one validator who can close the round with it, and that validator has a stake. -/
theorem exists_closer (pqc : T.pqcRequired = false) {s₀ s : State α H B} {h : List (Record α H B)}
    {header₀ header : GhostBlockHeader H} (run : Run (step T) s₀ h s)
    (stored : s₀.blockHeaders = StorageMap.empty.insert 0 header₀)
    (phase : s.currentPhase = .posValidation) (positive : 0 < s.totalWeight)
    (bounded : s.totalWeight < 2 ^ 64) (fits : RewardFits T s.stakers) {n : U32} (hn : n ≠ 0)
    (hheader : s.blockHeaders n = some header) (runtimeBlock : ℕ) :
    ∃ v, 0 < (s.stakeOf v).toNat ∧ ∀ w sig,
      (∃ s', validateBlock T { s with blockNumber := runtimeBlock } (.signed w) n sig = .ok s') ↔
        w = v := by
  obtain ⟨staker, hstaker, hweight, hselect⟩ := exists_selectPosValidator (T := T) runtimeBlock
    (T.hashOf (.seed n runtimeBlock)) positive bounded
  obtain ⟨hget, -⟩ := mem_stakers hstaker
  refine ⟨staker.account, stakeOf_pos hstaker hweight, fun w sig => ⟨?_, ?_⟩⟩
  · rintro ⟨s', hok⟩
    obtain ⟨validator, _, selection, _, _, _, ho, hcloses, -⟩ := validateBlock_eq_ok.1 hok
    obtain rfl := Origin.signed.inj ho
    have := hcloses.select.symm.trans hselect
    obtain rfl := Option.some.inj (Except.ok.inj this)
    exact hcloses.selected.symm
  · rintro rfl
    obtain ⟨miner, hminer⟩ := Option.isSome_iff_exists.1
      (run_hasProducers run stored n hn (hheader ▸ rfl))
    obtain ⟨reward, hreward, -, hshare⟩ := exists_calculateBlockReward (T := T) fits.reward
    obtain ⟨balances, hpaid⟩ : ∃ b, distributeRewards T miner s.stakers reward s.balances = .ok b :=
      exists_distributeRewards ((sum_stakers_stake s).symm ▸ totalStake_lt bounded)
        (hshare ▸ fits.shares)
    refine ⟨_, validateBlock_eq_ok.2 ⟨_, header, _, reward, miner, balances, rfl, ⟨?_, hheader, phase,
      hselect, rfl, ?_, hreward, hminer, hpaid⟩, rfl⟩⟩
    · exact s.validatorStakes.containsKey_eq_true.2 ⟨_, hget⟩
    · refine checkPqcSignature_eq_ok.2 fun hreq => ?_
      rw [pqc] at hreq
      cases hreq

/-- The runtime in which every seed has the value `r`, and every proof of work passes. -/
def devDrawing (r : U64) : Config ℕ (List ℕ) (Accounts ℕ) :=
  { devConfig with leadingU64 := fun hash => if hash.head? = some 4 then r else 0 }

/-- Where `1` and `2` have 1 and 3 tokens at stake and the seed falls on the second of them, only `2`
can close the round. -/
theorem exists_closer_devBlock :
    ∃ h s, Run (step (devDrawing 2500000000000)) devState h s ∧ s.stakers.length = 2 ∧
      0 < (s.stakeOf 2).toNat ∧ ∀ w sig,
        (∃ s', validateBlock (devDrawing 2500000000000) { s with blockNumber := 7 } (.signed w) 1 sig =
          .ok s') ↔ w = 2 := by
  obtain ⟨h, s, run, hcheck⟩ := exists_run_of_exec (step (devDrawing 2500000000000)) devState
    [.dispatch (.signed 1) (.stake 1000000000000), .dispatch (.signed 2) (.stake 3000000000000),
      .dispatch (.signed 2) (.submitBlock devBlock)]
    (fun r => decide (r.2.stakers.length = 2 ∧ r.2.currentPhase = .posValidation ∧
      0 < r.2.totalWeight ∧ r.2.totalWeight < 2 ^ 64 ∧
      RewardFits (devDrawing 2500000000000) r.2.stakers ∧ r.2.blockHeaders 1 = some devBlock ∧
      (validateBlock (devDrawing 2500000000000) { r.2 with blockNumber := 7 } (.signed 2) 1 ⟨0⟩).isOk =
        true)) (by decide +kernel)
  obtain ⟨htwo, hphase, hpos, hlt, hfits, hheader, hok⟩ := of_decide_eq_true hcheck
  obtain ⟨v, hstake, hcloser⟩ := exists_closer rfl run rfl hphase hpos hlt hfits (by decide) hheader 7
  obtain rfl : 2 = v := (hcloser 2 ⟨0⟩).1 (isOk_eq_true.1 hok)
  exact ⟨h, s, run, htwo, hstake, hcloser⟩

end GhostConsensus
