import GhostConsensus.Dispatch
import GhostConsensus.Lib.Weights

/-!
# The rewards of a block

The split of a block reward is exact, and each staker gets its share of the stakers' part, rounded
down, so what is minted for a block is at most the block reward.
-/

namespace GhostConsensus

open MachineInt Weights

variable {α H B : Type} {T : Config α H B}

/-- The part of a reward that goes to the stakers. -/
def stakersPart (totalReward : ℕ) : ℕ := totalReward - totalReward * 40 / 100

/-- The multiplications of the reward computation fit the width of a balance. -/
structure RewardFits (T : Config α H B) (stakers : List (ValidatorStake α)) : Prop where
  reward : T.blockReward.toNat * 40 < 2 ^ 128
  shares : ∀ staker ∈ stakers, stakersPart T.blockReward.toNat * staker.stake.toNat < 2 ^ 128

instance (T : Config α H B) (stakers : List (ValidatorStake α)) : Decidable (RewardFits T stakers) :=
  decidable_of_iff (T.blockReward.toNat * 40 < 2 ^ 128 ∧ ∀ staker ∈ stakers,
    stakersPart T.blockReward.toNat * staker.stake.toNat < 2 ^ 128)
    ⟨fun h => ⟨h.1, h.2⟩, fun h => ⟨h.1, h.2⟩⟩

theorem exists_calculateBlockReward {totalReward : U128} (h : totalReward.toNat * 40 < 2 ^ 128) :
    ∃ reward, calculateBlockReward T totalReward = .ok reward ∧
      reward.minerReward.toNat = totalReward.toNat * 40 / 100 ∧
      reward.stakersReward.toNat = stakersPart totalReward.toNat := by
  have hmul : totalReward.toNat * (40 : U128).toNat < 2 ^ 128 := h
  have hminer : (totalReward * 40 / 100).toNat = totalReward.toNat * 40 / 100 := by
    rw [BitVec.toNat_udiv, toNat_mul_of_lt hmul]
    rfl
  have hle : (totalReward * 40 / 100).toNat ≤ totalReward.toNat := by
    rw [hminer]
    omega
  refine ⟨{ total := totalReward, minerReward := totalReward * 40 / 100
            stakersReward := totalReward - totalReward * 40 / 100 }, ?_, hminer, ?_⟩
  · simp only [calculateBlockReward, mulChecked_of_lt _ hmul, subChecked_of_le _ hle, orPanic, bind,
      Except.bind, pure, Except.pure]
  · rw [BitVec.toNat_sub_of_le hle, hminer]
    rfl

/-! ## Paying the stakers -/

theorem payStaker_eq_ok {stakersReward totalStake : U128} {b b' : B} {staker : ValidatorStake α} :
    payStaker T stakersReward totalStake b staker = .ok b' ↔
      mulChecked T.overflowChecks stakersReward staker.stake =
          some (stakersReward * staker.stake) ∧
        totalStake ≠ 0 ∧
        b' = T.currency.depositCreating b staker.account
          (stakersReward * staker.stake / totalStake) := by
  simp only [payStaker, bind_eq_ok, orPanic_eq_ok, pure_eq_ok, divChecked_eq_some]
  constructor
  · rintro ⟨product, hproduct, share, ⟨hne, rfl⟩, rfl⟩
    obtain rfl := mulChecked_eq_some hproduct
    exact ⟨hproduct, hne, rfl⟩
  · rintro ⟨hproduct, hne, rfl⟩
    exact ⟨_, hproduct, _, ⟨hne, rfl⟩, rfl⟩

theorem toNat_share {stakersReward stake : U128} (totalStake : U128)
    (h : stakersReward.toNat * stake.toNat < 2 ^ 128) :
    (stakersReward * stake / totalStake).toNat =
      share stakersReward.toNat totalStake.toNat stake.toNat := by
  rw [BitVec.toNat_udiv, toNat_mul_of_lt h, share]

/-- What is kept by every deposit is kept by paying the stakers. -/
theorem payStakers_induction {P : B → Prop} {stakersReward totalStake : U128}
    (deposit : ∀ b who amount, P b → P (T.currency.depositCreating b who amount)) :
    ∀ {stakers : List (ValidatorStake α)} {b b' : B}, P b →
      stakers.foldlM (payStaker T stakersReward totalStake) b = .ok b' → P b'
  | [], b, b', hb, hfold => pure_eq_ok.1 hfold ▸ hb
  | staker :: stakers, b, b', hb, hfold => by
      rw [List.foldlM_cons, bind_eq_ok] at hfold
      obtain ⟨c, hpay, hfold⟩ := hfold
      obtain ⟨-, -, rfl⟩ := payStaker_eq_ok.1 hpay
      exact payStakers_induction deposit (deposit b _ _ hb) hfold

/-- Products that fit let every staker be paid. -/
theorem exists_payStakers {stakersReward totalStake : U128} {stakers : List (ValidatorStake α)}
    {b : B} (hne : totalStake ≠ 0)
    (hfits : ∀ staker ∈ stakers, stakersReward.toNat * staker.stake.toNat < 2 ^ 128) :
    ∃ b', stakers.foldlM (payStaker T stakersReward totalStake) b = .ok b' := by
  have hpay : ∀ c, ∀ staker ∈ stakers, True →
      ∃ c', payStaker T stakersReward totalStake c staker = .ok c' ∧ True := by
    intro c staker hstaker _
    exact ⟨_, payStaker_eq_ok.2
      ⟨mulChecked_of_lt T.overflowChecks (hfits staker hstaker), hne, rfl⟩, trivial⟩
  obtain ⟨b', hb', -⟩ := exists_foldlM_eq_ok trivial hpay
  exact ⟨b', hb'⟩

/-- Paying the stakers mints at most the sum of their shares. -/
theorem totalIssuance_payStakers_le {ed : U128} (lawful : T.currency.Lawful ed)
    {stakersReward totalStake : U128} :
    ∀ {stakers : List (ValidatorStake α)} {b b' : B},
      (∀ staker ∈ stakers, stakersReward.toNat * staker.stake.toNat < 2 ^ 128) →
      stakers.foldlM (payStaker T stakersReward totalStake) b = .ok b' →
      T.currency.totalIssuance b' ≤ T.currency.totalIssuance b +
        ((stakers.map fun staker => staker.stake.toNat).map
          (share stakersReward.toNat totalStake.toNat)).sum
  | [], b, b', _, hfold => by
      obtain rfl := pure_eq_ok.1 hfold
      exact Nat.le_add_right _ _
  | staker :: stakers, b, b', hfits, hfold => by
      rw [List.foldlM_cons, bind_eq_ok] at hfold
      obtain ⟨c, hpay, hfold⟩ := hfold
      obtain ⟨-, -, rfl⟩ := payStaker_eq_ok.1 hpay
      have hrest := totalIssuance_payStakers_le lawful
        (fun st hst => hfits st (List.mem_cons_of_mem _ hst)) hfold
      have hfirst := lawful.totalIssuance_deposit_le b staker.account
        (stakersReward * staker.stake / totalStake)
      rw [toNat_share totalStake (hfits staker List.mem_cons_self)] at hfirst
      simp only [List.map_cons, List.sum_cons]
      omega

/-! ## Distributing the reward -/

theorem distributeRewards_eq_ok {miner : α} {stakers : List (ValidatorStake α)} {reward : BlockReward}
    {b b' : B} :
    distributeRewards T miner stakers reward b = .ok b' ↔
      ∃ totalStake, sumChecked T.overflowChecks (stakers.map ValidatorStake.stake) = some totalStake ∧
        if totalStake = 0 then b' = T.currency.depositCreating b miner reward.minerReward
        else stakers.foldlM (payStaker T reward.stakersReward totalStake)
          (T.currency.depositCreating b miner reward.minerReward) = .ok b' := by
  simp only [distributeRewards, bind_eq_ok, orPanic_eq_ok]
  refine exists_congr fun totalStake => and_congr_right fun _ => ?_
  by_cases h : totalStake = 0
  · rw [if_pos h, if_pos h, pure_eq_ok, eq_comm]
  · rw [if_neg h, if_neg h]

/-- What is kept by every deposit is kept by the distribution of a reward. -/
theorem distributeRewards_induction {P : B → Prop} {miner : α} {stakers : List (ValidatorStake α)}
    {reward : BlockReward} {b b' : B} (h : distributeRewards T miner stakers reward b = .ok b')
    (init : P b) (deposit : ∀ b who amount, P b → P (T.currency.depositCreating b who amount)) :
    P b' := by
  obtain ⟨totalStake, -, h⟩ := distributeRewards_eq_ok.1 h
  split at h
  · exact h ▸ deposit _ _ _ init
  · exact payStakers_induction deposit (deposit _ _ _ init) h

/-- The distribution of a reward mints at most the reward. -/
theorem totalIssuance_distributeRewards_le {ed : U128} (lawful : T.currency.Lawful ed) {miner : α}
    {stakers : List (ValidatorStake α)} {reward : BlockReward} {b b' : B}
    (hsum : T.overflowChecks = true ∨
      ((stakers.map ValidatorStake.stake).map BitVec.toNat).sum < 2 ^ 128)
    (hfits : ∀ staker ∈ stakers, reward.stakersReward.toNat * staker.stake.toNat < 2 ^ 128)
    (h : distributeRewards T miner stakers reward b = .ok b') :
    T.currency.totalIssuance b' ≤
      T.currency.totalIssuance b + (reward.minerReward.toNat + reward.stakersReward.toNat) := by
  have hminer := lawful.totalIssuance_deposit_le b miner reward.minerReward
  obtain ⟨totalStake, htotal, h⟩ := distributeRewards_eq_ok.1 h
  split at h
  · rw [h]
    omega
  · have hval := toNat_of_sumChecked_eq_some hsum htotal
    rw [List.map_map] at hval
    have hstakers := totalIssuance_payStakers_le lawful hfits h
    have hshares := sum_share_le reward.stakersReward.toNat
      (stakers.map fun staker => staker.stake.toNat)
    rw [hval] at hstakers
    exact hstakers.trans (by
      have := hshares
      simp only [Function.comp_def]
      omega)

/-- The sum of all stakes. -/
def State.totalStake [AccountId α] (s : State α H B) : ℕ := s.validatorStakes.total BitVec.toNat

theorem sum_stakers_stake [AccountId α] (s : State α H B) :
    ((s.stakers.map ValidatorStake.stake).map BitVec.toNat).sum = s.totalStake := by
  rw [State.stakers, List.map_map, List.map_map]
  rfl

/-- What `validate_block` mints is at most the block reward. -/
theorem totalIssuance_closes_le [AccountId α] {ed : U128} (lawful : T.currency.Lawful ed)
    {s : State α H B} {validator miner : α} {n : U32} {sig : PqcSignature}
    {header : GhostBlockHeader H} {selection : PosSelection α} {reward : BlockReward} {balances : B}
    (hcloses : Closes T s validator n sig header selection reward miner balances)
    (hsum : T.overflowChecks = true ∨ s.totalStake < 2 ^ 128) (hfits : RewardFits T s.stakers) :
    T.currency.totalIssuance balances ≤
      T.currency.totalIssuance s.balances + T.blockReward.toNat := by
  obtain ⟨reward', hreward, hminer, hstakers⟩ :=
    exists_calculateBlockReward (T := T) hfits.reward
  obtain rfl := Except.ok.inj (hcloses.reward_eq.symm.trans hreward)
  have hshares : ∀ staker ∈ s.stakers, reward.stakersReward.toNat * staker.stake.toNat < 2 ^ 128 :=
    hstakers ▸ hfits.shares
  have hpaid := totalIssuance_distributeRewards_le lawful ((sum_stakers_stake s).symm ▸ hsum) hshares
    hcloses.paid
  rw [hminer, hstakers, stakersPart] at hpaid
  omega

/-- A sum of stakes and products that fit let the reward be distributed. -/
theorem exists_distributeRewards {miner : α} {stakers : List (ValidatorStake α)}
    {reward : BlockReward} {b : B}
    (hsum : ((stakers.map ValidatorStake.stake).map BitVec.toNat).sum < 2 ^ 128)
    (hfits : ∀ staker ∈ stakers, reward.stakersReward.toNat * staker.stake.toNat < 2 ^ 128) :
    ∃ b', distributeRewards T miner stakers reward b = .ok b' := by
  obtain ⟨totalStake, htotal, -⟩ := sumChecked_of_lt T.overflowChecks hsum
  by_cases h : totalStake = 0
  · exact ⟨_, distributeRewards_eq_ok.2 ⟨totalStake, htotal, by rw [if_pos h]⟩⟩
  · obtain ⟨b', hb'⟩ : ∃ b', stakers.foldlM (payStaker T reward.stakersReward totalStake)
        (T.currency.depositCreating b miner reward.minerReward) = .ok b' :=
      exists_payStakers h hfits
    exact ⟨b', distributeRewards_eq_ok.2 ⟨totalStake, htotal, by rw [if_neg h]; exact hb'⟩⟩

end GhostConsensus
