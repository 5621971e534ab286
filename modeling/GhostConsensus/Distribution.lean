import GhostConsensus.Dispatch

/-!
# The helper that distributes a block reward

`Pallet::distribute_block_rewards` repeats what `validate_block` does about the rewards: it computes
the reward of a block, pays the miner and the stakers, and announces it. Nothing calls it. It fails
where the payment of `validate_block` fails and pays the same, so that `validate_block` is its guards,
this helper and the closing of the round (`validateBlock_distributes`).
-/

namespace GhostConsensus

variable {α H B : Type} [AccountId α] (T : Config α H B)

/-- Distribute block rewards to miner and stakers. -/
def distributeBlockRewards (s : State α H B) (miner : α) (_blockNumber : U32) :
    Except Failure (State α H B) := do
  let totalReward := T.blockReward
  let reward ← calculateBlockReward T totalReward
  let balances := T.currency.depositCreating s.balances miner reward.minerReward
  let stakers := s.stakers
  let balances ← (if !stakers.isEmpty then do
      let totalStake ←
        orPanic (MachineInt.sumChecked T.overflowChecks (stakers.map ValidatorStake.stake))
      if totalStake = 0 then return balances
      else stakers.foldlM (payStaker T reward.stakersReward totalStake) balances
    else .ok balances)
  return State.depositEvent { s with balances }
    (.rewardsDistributed miner reward.minerReward reward.stakersReward)

/-- The guards of `validate_block` let `validator` close the round of block `n`, which `miner` has
mined. -/
structure Elects (s : State α H B) (validator : α) (n : U32) (sig : PqcSignature)
    (header : GhostBlockHeader H) (selection : PosSelection α) (miner : α) : Prop where
  staker : s.validatorStakes.containsKey validator = true
  header_stored : s.blockHeaders n = some header
  phase : s.currentPhase = .posValidation
  select : selectPosValidator T s.blockNumber s.stakers (selectionSeed T s n) = .ok (some selection)
  selected : selection.validator = validator
  pqc : checkPqcSignature T s validator n sig = .ok ()
  miner_stored : s.blockProducers n = some miner

variable {T}

/-- Without stakers there is nothing to sum up, so the test for them makes no difference. -/
theorem distributeBlockRewards_eq (s : State α H B) (miner : α) (n : U32) :
    distributeBlockRewards T s miner n = (do
      let reward ← calculateBlockReward T T.blockReward
      let balances ← distributeRewards T miner s.stakers reward s.balances
      return State.depositEvent { s with balances }
        (.rewardsDistributed miner reward.minerReward reward.stakersReward)) := by
  unfold distributeBlockRewards distributeRewards
  cases s.stakers with
  | nil => rfl
  | cons staker stakers => rfl

theorem distributeBlockRewards_eq_ok {s paid : State α H B} {miner : α} {n : U32} :
    distributeBlockRewards T s miner n = .ok paid ↔
      ∃ reward balances, calculateBlockReward T T.blockReward = .ok reward ∧
        distributeRewards T miner s.stakers reward s.balances = .ok balances ∧
        paid = State.depositEvent { s with balances }
          (.rewardsDistributed miner reward.minerReward reward.stakersReward) := by
  simp only [distributeBlockRewards_eq, bind_eq_ok, pure_eq_ok]
  constructor
  · rintro ⟨reward, hreward, balances, hbalances, rfl⟩
    exact ⟨reward, balances, hreward, hbalances, rfl⟩
  · rintro ⟨reward, balances, hreward, hbalances, rfl⟩
    exact ⟨reward, hreward, balances, hbalances, rfl⟩

/-- `validate_block` goes through exactly if its guards and the helper do. It ends with the balances
the helper leaves, and announces the rewards as the helper does, after the selected validator. -/
theorem validateBlock_distributes {s s' : State α H B} {o : Origin α} {n : U32}
    {sig : PqcSignature} :
    validateBlock T s o n sig = .ok s' ↔
      ∃ validator header selection miner paid, o = .signed validator ∧
        Elects T s validator n sig header selection miner ∧
        distributeBlockRewards T s miner n = .ok paid ∧
        s' = { paid with
          blockHeaders := s.blockHeaders.insert n (signHeader T header validator n sig)
          lastActiveBlock := s.lastActiveBlock.insert validator n
          currentPhase := .finalization
          events := s.events ++ .validatorSelected validator selection.weight ::
            paid.events.drop s.events.length } := by
  rw [validateBlock_eq_ok]
  constructor
  · rintro ⟨validator, header, selection, reward, miner, balances, ho, hcloses, rfl⟩
    refine ⟨validator, header, selection, miner, _, ho, ?_, distributeBlockRewards_eq_ok.2
      ⟨reward, balances, hcloses.reward_eq, hcloses.paid, rfl⟩, ?_⟩
    · exact ⟨hcloses.staker, hcloses.header_stored, hcloses.phase, hcloses.select,
        hcloses.selected, hcloses.pqc, hcloses.miner_stored⟩
    · unfold closedState closeRound State.depositEvent
      simp
  · rintro ⟨validator, header, selection, miner, paid, ho, helects, hpaid, rfl⟩
    obtain ⟨reward, balances, hreward, hbalances, rfl⟩ := distributeBlockRewards_eq_ok.1 hpaid
    refine ⟨validator, header, selection, reward, miner, balances, ho, ?_, ?_⟩
    · exact ⟨helects.staker, helects.header_stored, helects.phase, helects.select,
        helects.selected, helects.pqc, hreward, helects.miner_stored, hbalances⟩
    · unfold closedState closeRound State.depositEvent
      simp

end GhostConsensus
