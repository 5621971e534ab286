import Mathlib.Algebra.BigOperators.Group.Finset.Piecewise
import GhostConsensus.Rewards
import GhostConsensus.Mock

/-!
# The payout of a block reward

Every account is paid the miner's part if it is the miner, and the share of its stake, rounded down
(`payout`). The order in which the stakers are paid does not matter, and the rounding keeps less than
one unit for each staker.
-/

namespace GhostConsensus

open MachineInt Weights

variable {α H B : Type} {T : Config α H B} {ed : U128} {Alive : B → α → Prop}

/-! ## Payments that are credited -/

/-- A payment of `amount` to the account is credited. -/
def Payable (ed : U128) (Alive : B → α → Prop) (b : B) (who : α) (amount : ℕ) : Prop :=
  Alive b who ∨ ed.toNat ≤ amount ∨ amount = 0

theorem Payable.deposit (exact : T.currency.DepositsExactly ed Alive) {b : B} {who payee : α}
    {amount : ℕ} (h : Payable ed Alive b who amount) (a : U128) :
    Payable ed Alive (T.currency.depositCreating b payee a) who amount :=
  h.imp_left fun halive => exact.alive b payee a halive

/-! ## What an account is due -/

/-- The stake of a staker, as a number. -/
def ValidatorStake.natStake (staker : ValidatorStake α) : ℕ := staker.stake.toNat

/-- The sum of the stakes of a list of stakers. -/
def sumStakes (stakers : List (ValidatorStake α)) : ℕ :=
  (stakers.map ValidatorStake.natStake).sum

theorem sumStakes_perm {stakers order : List (ValidatorStake α)} (h : order.Perm stakers) :
    sumStakes order = sumStakes stakers :=
  (h.map _).sum_eq

theorem map_toNat_stake (stakers : List (ValidatorStake α)) :
    (stakers.map ValidatorStake.stake).map BitVec.toNat =
      stakers.map ValidatorStake.natStake := by
  rw [List.map_map]
  rfl

variable [AccountId α]

/-- The stake an account has in a list of stakers. -/
def stakeIn (stakers : List (ValidatorStake α)) (who : α) : ℕ :=
  sumStakes (stakers.filter fun staker => staker.account = who)

/-- What an account is paid; without any stake all shares are `0`. -/
def payout (totalReward : ℕ) (miner : α) (stakers : List (ValidatorStake α)) (who : α) : ℕ :=
  (if who = miner then totalReward * 40 / 100 else 0) +
    share (stakersPart totalReward) (sumStakes stakers) (stakeIn stakers who)

theorem stakeIn_cons (staker : ValidatorStake α) (stakers : List (ValidatorStake α)) (who : α) :
    stakeIn (staker :: stakers) who =
      (if staker.account = who then staker.natStake else 0) + stakeIn stakers who := by
  unfold stakeIn sumStakes
  by_cases h : staker.account = who
  · rw [List.filter_cons_of_pos (by simpa using h), List.map_cons, List.sum_cons, if_pos h]
  · rw [List.filter_cons_of_neg (by simpa using h), if_neg h, Nat.zero_add]

theorem stakeIn_of_not_mem {stakers : List (ValidatorStake α)} {who : α}
    (h : who ∉ stakers.map ValidatorStake.account) : stakeIn stakers who = 0 := by
  induction stakers with
  | nil => rfl
  | cons staker stakers ih =>
    rw [List.map_cons, List.mem_cons, not_or] at h
    rw [stakeIn_cons, if_neg (Ne.symm h.1), ih h.2]

theorem stakeIn_of_mem {stakers : List (ValidatorStake α)} {staker : ValidatorStake α}
    (hnodup : (stakers.map ValidatorStake.account).Nodup) (h : staker ∈ stakers) :
    stakeIn stakers staker.account = staker.natStake := by
  induction stakers with
  | nil => cases h
  | cons head stakers ih =>
    obtain ⟨hhead, hnodup⟩ := List.nodup_cons.1 hnodup
    rw [stakeIn_cons]
    rcases List.mem_cons.1 h with rfl | h
    · rw [if_pos rfl, stakeIn_of_not_mem hhead, Nat.add_zero]
    · have hne : head.account ≠ staker.account := fun heq => hhead (heq ▸ List.mem_map_of_mem h)
      rw [if_neg hne, ih hnodup h, Nat.zero_add]

theorem stakeIn_perm {stakers order : List (ValidatorStake α)} (h : order.Perm stakers) (who : α) :
    stakeIn order who = stakeIn stakers who :=
  sumStakes_perm (h.filter _)

theorem payout_perm {stakers order : List (ValidatorStake α)} (h : order.Perm stakers)
    (totalReward : ℕ) (miner who : α) :
    payout totalReward miner order who = payout totalReward miner stakers who := by
  rw [payout, payout, sumStakes_perm h, stakeIn_perm h]

/-! ## Paying it out -/

/-- A deposit that is credited raises the balance of its payee by its amount, and no other. -/
theorem toNat_freeBalance_deposit (exact : T.currency.DepositsExactly ed Alive) {b : B} {who : α}
    {amount : U128} (payable : Payable ed Alive b who amount.toNat)
    (hlt : (T.currency.freeBalance b who).toNat + amount.toNat < 2 ^ 128) (x : α) :
    (T.currency.freeBalance (T.currency.depositCreating b who amount) x).toNat =
      (T.currency.freeBalance b x).toNat + if x = who then amount.toNat else 0 := by
  by_cases h : x = who
  · rw [if_pos h, h]
    apply exact.payee _ hlt
    exact payable.imp_right fun hp => hp.imp_right fun hzero => BitVec.eq_of_toNat_eq hzero
  · rw [if_neg h, exact.others b who amount h, Nat.add_zero]

/-- The loop over the stakers pays every account the share of its stake. -/
theorem exists_payStakers_exact (exact : T.currency.DepositsExactly ed Alive)
    {stakersReward totalStake : U128} (hne : totalStake ≠ 0) :
    ∀ {stakers : List (ValidatorStake α)} {b : B},
      (stakers.map ValidatorStake.account).Nodup →
      (∀ staker ∈ stakers, stakersReward.toNat * staker.natStake < 2 ^ 128 ∧
        Payable ed Alive b staker.account
          (share stakersReward.toNat totalStake.toNat staker.natStake) ∧
        (T.currency.freeBalance b staker.account).toNat +
          share stakersReward.toNat totalStake.toNat staker.natStake < 2 ^ 128) →
      ∃ b', stakers.foldlM (payStaker T stakersReward totalStake) b = .ok b' ∧
        ∀ who, (T.currency.freeBalance b' who).toNat = (T.currency.freeBalance b who).toNat +
          share stakersReward.toNat totalStake.toNat (stakeIn stakers who)
  | [], b, _, _ => ⟨b, rfl, fun who => by simp [stakeIn, sumStakes, share]⟩
  | staker :: stakers, b, hnodup, hpays => by
      obtain ⟨hhead, hnodup⟩ := List.nodup_cons.1 hnodup
      obtain ⟨hfits, hpayable, hlt⟩ := hpays staker List.mem_cons_self
      have hshare := toNat_share totalStake hfits
      rw [← ValidatorStake.natStake] at hshare
      have hcredit := toNat_freeBalance_deposit exact (hshare ▸ hpayable) (hshare ▸ hlt)
      rw [hshare] at hcredit
      obtain ⟨b', hb', hvalue⟩ : ∃ b', stakers.foldlM (payStaker T stakersReward totalStake)
          (T.currency.depositCreating b staker.account
            (stakersReward * staker.stake / totalStake)) = .ok b' ∧ _ :=
        exists_payStakers_exact exact hne hnodup fun other hother => by
          obtain ⟨hfits, hpayable, hlt⟩ := hpays other (List.mem_cons_of_mem _ hother)
          have hne : other.account ≠ staker.account := fun h =>
            hhead (h ▸ List.mem_map_of_mem hother)
          refine ⟨hfits, hpayable.deposit exact _, ?_⟩
          rw [hcredit, if_neg hne]
          exact hlt
      have hpay : payStaker T stakersReward totalStake b staker = .ok _ :=
        payStaker_eq_ok.2 ⟨mulChecked_of_lt T.overflowChecks hfits, hne, rfl⟩
      refine ⟨b', by rw [List.foldlM_cons]; exact bind_eq_ok.2 ⟨_, hpay, hb'⟩, fun who => ?_⟩
      rw [hvalue, hcredit, stakeIn_cons]
      by_cases h : who = staker.account
      · subst h
        rw [if_pos rfl, if_pos rfl, stakeIn_of_not_mem hhead]
        simp [share]
      · rw [if_neg h, if_neg (Ne.symm h), Nat.add_zero, Nat.zero_add]

/-- The assumptions under which a block reward is paid in full: the accounts are distinct, sums and
products fit, and every payment is credited. -/
structure PaysInFull (T : Config α H B) (ed : U128) (Alive : B → α → Prop) (totalReward : U128)
    (miner : α) (stakers : List (ValidatorStake α)) (b : B) : Prop where
  distinct : (stakers.map ValidatorStake.account).Nodup
  total : sumStakes stakers < 2 ^ 128
  reward : totalReward.toNat * 40 < 2 ^ 128
  shares : ∀ staker ∈ stakers, stakersPart totalReward.toNat * staker.natStake < 2 ^ 128
  balances : ∀ who,
    (T.currency.freeBalance b who).toNat + payout totalReward.toNat miner stakers who < 2 ^ 128
  payableMiner : Payable ed Alive b miner (totalReward.toNat * 40 / 100)
  payableStakers : ∀ staker ∈ stakers, Payable ed Alive b staker.account
    (share (stakersPart totalReward.toNat) (sumStakes stakers) staker.natStake)

theorem PaysInFull.perm {totalReward : U128} {miner : α} {stakers order : List (ValidatorStake α)}
    {b : B} (h : PaysInFull T ed Alive totalReward miner stakers b) (hperm : order.Perm stakers) :
    PaysInFull T ed Alive totalReward miner order b where
  distinct := (hperm.map _).nodup_iff.2 h.distinct
  total := by
    rw [sumStakes_perm hperm]
    exact h.total
  reward := h.reward
  shares staker hstaker := h.shares staker (hperm.mem_iff.1 hstaker)
  balances who := by
    rw [payout_perm hperm]
    exact h.balances who
  payableMiner := h.payableMiner
  payableStakers staker hstaker := by
    rw [sumStakes_perm hperm]
    exact h.payableStakers staker (hperm.mem_iff.1 hstaker)

/-- The reward is split and distributed, and every account is paid what it is due. -/
theorem PaysInFull.exists_distributeRewards (exact : T.currency.DepositsExactly ed Alive)
    {totalReward : U128} {miner : α} {stakers : List (ValidatorStake α)} {b : B}
    (h : PaysInFull T ed Alive totalReward miner stakers b) :
    ∃ reward b', calculateBlockReward T totalReward = .ok reward ∧
      distributeRewards T miner stakers reward b = .ok b' ∧
      ∀ who, (T.currency.freeBalance b' who).toNat =
        (T.currency.freeBalance b who).toNat + payout totalReward.toNat miner stakers who := by
  obtain ⟨reward, hreward, hminer, hstakers⟩ := exists_calculateBlockReward (T := T) h.reward
  have hsum : ((stakers.map ValidatorStake.stake).map BitVec.toNat).sum < 2 ^ 128 := by
    rw [map_toNat_stake]
    exact h.total
  obtain ⟨total, htotal, hval⟩ := sumChecked_of_lt T.overflowChecks hsum
  rw [map_toNat_stake] at hval
  change total.toNat = sumStakes stakers at hval
  have hminerLt : (T.currency.freeBalance b miner).toNat + reward.minerReward.toNat < 2 ^ 128 := by
    have := h.balances miner
    rw [payout, if_pos rfl] at this
    omega
  have hcredit := toNat_freeBalance_deposit exact (hminer ▸ h.payableMiner) hminerLt
  rw [hminer] at hcredit
  refine ⟨reward, ?_⟩
  by_cases hzero : total = 0
  · refine ⟨_, hreward, distributeRewards_eq_ok.2 ⟨total, htotal, by rw [if_pos hzero]⟩, ?_⟩
    intro who
    rw [hzero] at hval
    rw [hcredit, payout, ← hval]
    simp [share]
  · obtain ⟨b', hb', hvalue⟩ : ∃ b', stakers.foldlM (payStaker T reward.stakersReward total)
        (T.currency.depositCreating b miner reward.minerReward) = .ok b' ∧ _ :=
      exists_payStakers_exact exact hzero h.distinct fun staker hstaker => by
        have hbalance := h.balances staker.account
        rw [payout, stakeIn_of_mem h.distinct hstaker] at hbalance
        rw [hstakers, hval, hcredit]
        exact ⟨h.shares staker hstaker, (h.payableStakers staker hstaker).deposit exact _, by omega⟩
    refine ⟨b', hreward, distributeRewards_eq_ok.2 ⟨total, htotal, by rw [if_neg hzero]; exact hb'⟩,
      fun who => ?_⟩
    rw [hvalue, hcredit, hstakers, hval, payout, Nat.add_assoc]

/-! ## What is minted -/

/-- By how much the balances of the miner and the stakers have risen together. -/
def totalPaid (T : Config α H B) (miner : α) (stakers : List (ValidatorStake α)) (b b' : B) : ℕ :=
  ∑ who ∈ insert miner (stakers.map ValidatorStake.account).toFinset,
    ((T.currency.freeBalance b' who).toNat - (T.currency.freeBalance b who).toNat)

/-- All payouts together. -/
theorem sum_payout (totalReward : ℕ) (miner : α) {stakers : List (ValidatorStake α)}
    (hnodup : (stakers.map ValidatorStake.account).Nodup) :
    ∑ who ∈ insert miner (stakers.map ValidatorStake.account).toFinset,
        payout totalReward miner stakers who =
      totalReward * 40 / 100 +
        ((stakers.map ValidatorStake.natStake).map
          (share (stakersPart totalReward) (sumStakes stakers))).sum := by
  have hminer : ∑ who ∈ insert miner (stakers.map ValidatorStake.account).toFinset,
      (if who = miner then totalReward * 40 / 100 else 0) = totalReward * 40 / 100 := by
    rw [Finset.sum_ite_eq', if_pos (Finset.mem_insert_self _ _)]
  have hstakers : ∑ who ∈ insert miner (stakers.map ValidatorStake.account).toFinset,
      share (stakersPart totalReward) (sumStakes stakers) (stakeIn stakers who) =
      ∑ who ∈ (stakers.map ValidatorStake.account).toFinset,
        share (stakersPart totalReward) (sumStakes stakers) (stakeIn stakers who) := by
    refine (Finset.sum_subset (Finset.subset_insert _ _) fun who _ hnot => ?_).symm
    rw [stakeIn_of_not_mem (by simpa using hnot)]
    simp [share]
  unfold payout
  rw [Finset.sum_add_distrib, hminer, hstakers, List.sum_toFinset _ hnodup, List.map_map,
    List.map_map]
  apply congrArg (totalReward * 40 / 100 + List.sum ·)
  refine List.map_congr_left fun staker hstaker => ?_
  show share _ _ (stakeIn stakers staker.account) = share _ _ staker.natStake
  rw [stakeIn_of_mem hnodup hstaker]

/-- Whatever the order in which the stakers are paid, every account gets exactly what it is due. With
a stake the reward is minted but for less than one unit for each staker with a stake; without one,
only the miner's part is. -/
theorem reward_exact (exact : T.currency.DepositsExactly ed Alive) {totalReward : U128} {miner : α}
    {stakers order : List (ValidatorStake α)} {b : B}
    (h : PaysInFull T ed Alive totalReward miner stakers b) (hperm : order.Perm stakers) :
    ∃ reward b', calculateBlockReward T totalReward = .ok reward ∧
      distributeRewards T miner order reward b = .ok b' ∧
      (∀ who, (T.currency.freeBalance b' who).toNat =
        (T.currency.freeBalance b who).toNat + payout totalReward.toNat miner stakers who) ∧
      (0 < sumStakes stakers → totalPaid T miner stakers b b' ≤ totalReward.toNat ∧
        totalReward.toNat ≤ totalPaid T miner stakers b b' +
          ((stakers.map ValidatorStake.natStake).countP (0 < ·) - 1)) ∧
      (sumStakes stakers = 0 → totalPaid T miner stakers b b' = totalReward.toNat * 40 / 100) := by
  obtain ⟨reward, b', hreward, hpaid, hvalue⟩ := (h.perm hperm).exists_distributeRewards exact
  simp only [payout_perm hperm] at hvalue
  have htotalPaid : totalPaid T miner stakers b b' = totalReward.toNat * 40 / 100 +
      ((stakers.map ValidatorStake.natStake).map
        (share (stakersPart totalReward.toNat) (sumStakes stakers))).sum := by
    rw [← sum_payout totalReward.toNat miner h.distinct, totalPaid]
    refine Finset.sum_congr rfl fun who _ => ?_
    rw [hvalue, Nat.add_sub_cancel_left]
  have hpart : totalReward.toNat * 40 / 100 + stakersPart totalReward.toNat = totalReward.toNat := by
    unfold stakersPart
    omega
  refine ⟨reward, b', hreward, hpaid, hvalue, fun hpos => ?_, fun hzero => ?_⟩
  · have hle := sum_share_le (stakersPart totalReward.toNat) (stakers.map ValidatorStake.natStake)
    have hge := le_sum_share_add (stakersPart totalReward.toNat) hpos
    rw [← sumStakes] at hle hge
    omega
  · rw [htotalPaid, hzero]
    simp [share, Function.comp_def]

/-- Bob mines and is a staker too; of a reward of 10, one unit is lost to the rounding. -/
theorem reward_exact_mock :
    ∃ reward b', calculateBlockReward mockTest 10 = .ok reward ∧
      distributeRewards mockTest 2 [⟨2, 2, 2⟩, ⟨1, 3, 3⟩] reward mockState.balances = .ok b' ∧
      (mockTest.currency.freeBalance b' 2).toNat = 100000000000000000006 ∧
      10 ≤ totalPaid mockTest 2 [⟨1, 3, 3⟩, ⟨2, 2, 2⟩] mockState.balances b' + 1 := by
  have hfull : PaysInFull mockTest 1 (fun b w => b.free w ≠ 0) 10 2 [⟨1, 3, 3⟩, ⟨2, 2, 2⟩]
      mockState.balances :=
    { distinct := by decide
      total := by decide
      reward := by decide
      shares := by decide
      balances := fun who => by
        match who with
        | 0 | 1 | 2 | 3 | 4 | 5 => decide
        | who + 6 =>
          have hbalance : mockTest.currency.freeBalance mockState.balances (who + 6) = 0 := rfl
          simp [hbalance, payout, stakeIn, sumStakes, share]
      payableMiner := Or.inl (by decide)
      payableStakers := by
        intro staker hstaker
        left
        revert staker
        decide }
  obtain ⟨reward, b', hreward, hpaid, hvalue, htotalPaid, -⟩ :=
    reward_exact (Accounts.currency_depositsExactly 1) hfull (List.Perm.swap _ _ [])
  exact ⟨reward, b', hreward, hpaid, hvalue 2, (htotalPaid (by decide)).2⟩

end GhostConsensus
