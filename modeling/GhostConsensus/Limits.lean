import GhostConsensus.Closing
import GhostConsensus.Mock
import GhostConsensus.Stakes

/-!
# How large rewards and stakes may be

The reward and the slashes multiply before they divide. The products fit a balance exactly when the
block reward is at most `rewardLimit` and no stake is above `stakeLimit` (`noOverflow_iff`).
-/

namespace GhostConsensus

open MachineInt Transition

variable {α H B : Type}

/-! ## The limits -/

/-- The largest block reward whose product with the miner's 40 percent fits. -/
def rewardLimit : ℕ := (2 ^ 128 - 1) / 40

/-- The largest factor a stake is multiplied with: the stakers' part of the block reward, or one of
the percentages of `report_misbehavior`. -/
def stakeFactor (T : Config α H B) : ℕ :=
  max (stakersPart T.blockReward.toNat)
    (max (max T.doubleSignSlashPercentage.toNat T.invalidBlockSlashPercentage.toNat)
      (max T.downtimeSlashPercentage.toNat 10))

/-- The largest stake whose products fit. -/
def stakeLimit (T : Config α H B) : ℕ := (2 ^ 128 - 1) / stakeFactor T

theorem le_stakeLimit_iff {T : Config α H B} {stake : ℕ} :
    stake ≤ stakeLimit T ↔ stake * stakersPart T.blockReward.toNat < 2 ^ 128 ∧
      ∀ reason, stake * (slashPercentage T reason).toNat < 2 ^ 128 := by
  have hpos : 0 < stakeFactor T := by
    unfold stakeFactor
    omega
  unfold stakeLimit
  rw [Nat.le_div_iff_mul_le hpos, Nat.le_sub_one_iff_lt (Nat.two_pow_pos 128)]
  unfold stakeFactor
  simp only [← Nat.mul_max_mul_left, max_lt_iff]
  constructor
  · rintro ⟨hpart, ⟨hdouble, hinvalid⟩, hdowntime, hother⟩
    refine ⟨hpart, fun reason => ?_⟩
    cases reason with
    | doubleSigning => exact hdouble
    | invalidBlock => exact hinvalid
    | downtime => exact hdowntime
    | other => exact hother
  · rintro ⟨hpart, hslash⟩
    exact ⟨hpart, ⟨hslash .doubleSigning, hslash .invalidBlock⟩, hslash .downtime, hslash .other⟩

/-! ## Products that were let through -/

section Products

variable {T : Config α H B}

/-- Rewards that are paid where overflow panics have fitting products. -/
theorem lt_of_payStakers (hchecks : T.overflowChecks = true) {stakersReward totalStake : U128} :
    ∀ {stakers : List (ValidatorStake α)} {b b' : B},
      stakers.foldlM (payStaker T stakersReward totalStake) b = .ok b' →
      ∀ staker ∈ stakers, stakersReward.toNat * staker.stake.toNat < 2 ^ 128
  | head :: stakers, b, b', hfold, staker, hstaker => by
      rw [List.foldlM_cons, bind_eq_ok] at hfold
      obtain ⟨c, hpay, hfold⟩ := hfold
      rcases List.mem_cons.1 hstaker with rfl | hstaker
      · have hproduct := (payStaker_eq_ok.1 hpay).1
        rw [hchecks] at hproduct
        exact lt_of_mulChecked_true hproduct
      · exact lt_of_payStakers hchecks hfold staker hstaker

/-- A reward that is distributed where overflow panics has fitting products. -/
theorem lt_of_distributeRewards (hchecks : T.overflowChecks = true) {miner : α}
    {stakers : List (ValidatorStake α)} {reward : BlockReward} {b b' : B}
    (h : distributeRewards T miner stakers reward b = .ok b') {staker : ValidatorStake α}
    (hstaker : staker ∈ stakers) :
    reward.stakersReward.toNat * staker.stake.toNat < 2 ^ 128 := by
  obtain ⟨totalStake, htotal, h⟩ := distributeRewards_eq_ok.1 h
  split at h
  · rename_i hzero
    have hval := toNat_of_sumChecked_eq_some (Or.inl hchecks) htotal
    have hle := List.le_sum_of_mem (List.mem_map_of_mem (f := BitVec.toNat)
      (List.mem_map_of_mem (f := ValidatorStake.stake) hstaker))
    rw [← hval, hzero] at hle
    rw [Nat.le_zero.1 hle, Nat.mul_zero]
    decide
  · exact lt_of_payStakers hchecks h staker hstaker

theorem lt_of_slashAmount (hchecks : T.overflowChecks = true) {stake amount : U128}
    {percentage : U8} (h : slashAmount T stake percentage = .ok amount) :
    stake.toNat * percentage.toNat < 2 ^ 128 := by
  have hproduct := (slashAmount_eq_ok.1 h).1
  rw [hchecks] at hproduct
  have hlt := lt_of_mulChecked_true hproduct
  rwa [toNat_setWidth_percentage] at hlt

theorem lt_of_calculateBlockReward (hchecks : T.overflowChecks = true)
    {totalReward : U128} {reward : BlockReward} (h : calculateBlockReward T totalReward = .ok reward) :
    totalReward.toNat * 40 < 2 ^ 128 := by
  simp only [calculateBlockReward, bind_eq_ok, orPanic_eq_ok] at h
  obtain ⟨product, hproduct, -⟩ := h
  rw [hchecks] at hproduct
  exact lt_of_mulChecked_true hproduct

/-- A reward that is split where overflow panics gives the stakers their part. -/
theorem toNat_stakersReward (hchecks : T.overflowChecks = true) {totalReward : U128}
    {reward : BlockReward} (h : calculateBlockReward T totalReward = .ok reward) :
    reward.stakersReward.toNat = stakersPart totalReward.toNat := by
  obtain ⟨reward', h', -, hpart⟩ :=
    exists_calculateBlockReward (T := T) (lt_of_calculateBlockReward hchecks h)
  obtain rfl := Except.ok.inj (h.symm.trans h')
  exact hpart

end Products

/-! ## Overflow -/

variable [AccountId α]

/-- The block reward and all stakes are within the limits. -/
structure WithinLimits (T : Config α H B) (s : State α H B) : Prop where
  reward : T.blockReward.toNat ≤ rewardLimit
  stakes : ∀ v, (s.stakeOf v).toNat ≤ stakeLimit T

/-- None of the computations of rewards and slashes on this state overflows: each goes through where
overflow panics. -/
structure NoOverflow (T : Config α H B) (s : State α H B) : Prop where
  rewards : ∃ reward, calculateBlockReward T.checked T.blockReward = .ok reward ∧
    ∀ miner, ∃ balances, distributeRewards T.checked miner s.stakers reward s.balances = .ok balances
  report : ∀ reporter validator reason, ∃ s',
    reportMisbehavior T.checked s (.signed reporter) validator reason = .ok s'
  downtime : ∃ s', checkDowntimeSlashing T.checked s = .ok s'

/-- A check for downtime goes through when the products of all stakes fit: the loop only lowers
stakes. -/
theorem exists_checkDowntimeSlashing {T : Config α H B} {s : State α H B}
    (hfits : ∀ v, (s.stakeOf v).toNat * T.downtimeSlashPercentage.toNat < 2 ^ 128) :
    ∃ s', checkDowntimeSlashing T s = .ok s' := by
  obtain ⟨s', hs', -⟩ := exists_foldlM_eq_ok (f := slashIfDown T)
    (I := fun t : State α H B =>
      ∀ v, (t.stakeOf v).toNat * T.downtimeSlashPercentage.toNat < 2 ^ 128)
    (l := s.lastActiveBlock.iter) hfits fun t e _ ht => by
      unfold slashIfDown
      split
      · split
        · rename_i stake hstake
          have hstakeOf := stakeOf_of_get hstake
          obtain ⟨amount, hamount⟩ := exists_slashAmount (T := T) (hstakeOf ▸ ht e.1)
          refine ⟨_, bind_eq_ok.2 ⟨amount, hamount, rfl⟩, fun v => ?_⟩
          rw [applySlash_stakeOf]
          split
          · refine lt_of_le_of_lt (Nat.mul_le_mul_right _ ?_) (hstakeOf ▸ ht e.1)
            exact toNat_saturatingSub_le stake amount
          · exact ht v
        · exact ⟨t, rfl, ht⟩
      · exact ⟨t, rfl, ht⟩
  exact ⟨s', hs'⟩

theorem NoOverflow.withinLimits {T : Config α H B} {s : State α H B} (h : NoOverflow T s) :
    WithinLimits T s := by
  obtain ⟨⟨reward, hreward, hpaid⟩, hreport, -⟩ := h
  have hreward40 := lt_of_calculateBlockReward rfl hreward
  have hpart := toNat_stakersReward rfl hreward
  have hslash : ∀ v reason, (s.stakeOf v).toNat * (slashPercentage T reason).toNat < 2 ^ 128 := by
    intro v reason
    obtain ⟨s', hs'⟩ := hreport v v reason
    obtain ⟨_, amount, -, hamount, -⟩ := reportMisbehavior_eq_ok.1 hs'
    exact lt_of_slashAmount rfl hamount
  refine ⟨?_, fun v => le_stakeLimit_iff.2 ⟨?_, hslash v⟩⟩
  · unfold rewardLimit
    omega
  · cases hstake : s.validatorStakes.get v with
    | none => simp [State.stakeOf, hstake]
    | some stake =>
      obtain ⟨balances, hbalances⟩ := hpaid v
      have hmem : ({ account := v, stake, weight := saturatedInto 64 stake.toNat } :
          ValidatorStake α) ∈ s.stakers :=
        List.mem_map.2 ⟨(v, stake), s.validatorStakes.mem_iter.2 hstake, rfl⟩
      have hlt := lt_of_distributeRewards rfl hbalances hmem
      rw [hpart, Nat.mul_comm] at hlt
      rw [stakeOf_of_get hstake]
      exact hlt

theorem WithinLimits.noOverflow {T : Config α H B} {s : State α H B} (h : WithinLimits T s)
    (total : s.totalStake < 2 ^ 128) : NoOverflow T s := by
  have hfactor : rewardLimit * 40 < 2 ^ 128 := by decide
  have hreward40 : T.checked.blockReward.toNat * 40 < 2 ^ 128 :=
    lt_of_le_of_lt (Nat.mul_le_mul_right 40 h.reward) hfactor
  obtain ⟨reward, hcalculated, -, hpart⟩ := exists_calculateBlockReward hreward40
  refine ⟨⟨reward, hcalculated, fun miner => ?_⟩, fun reporter validator reason => ?_, ?_⟩
  · apply exists_distributeRewards
    · rw [sum_stakers_stake]
      exact total
    · intro staker hstaker
      rw [hpart, Nat.mul_comm, ← stakeOf_of_get (mem_stakers hstaker).1]
      exact (le_stakeLimit_iff.1 (h.stakes staker.account)).1
  · obtain ⟨amount, hamount⟩ := exists_slashAmount (T := T.checked)
      ((le_stakeLimit_iff.1 (h.stakes validator)).2 reason)
    exact ⟨_, reportMisbehavior_eq_ok.2 ⟨reporter, amount, rfl, hamount, rfl⟩⟩
  · apply exists_checkDowntimeSlashing
    intro v
    exact (le_stakeLimit_iff.1 (h.stakes v)).2 .downtime

/-- For stakes whose sum is a balance, the computations of rewards and slashes do not overflow if and
only if the block reward and all stakes are within the limits. -/
theorem noOverflow_iff (T : Config α H B) {s : State α H B} (total : s.totalStake < 2 ^ 128) :
    NoOverflow T s ↔ WithinLimits T s :=
  ⟨NoOverflow.withinLimits, fun h => h.noOverflow total⟩

theorem noOverflow_iff_mock : ∃ h s, Run (step mockTest) mockState h s ∧ s.stakers.length = 3 ∧
    NoOverflow mockTest s := by
  obtain ⟨h, s, run, hcheck⟩ := exists_run_of_exec (step mockTest) mockState mockStakes
    (fun r => decide (r.2.stakers.length = 3 ∧ r.2.totalStake ≤ stakeLimit mockTest))
    (by decide +kernel)
  obtain ⟨hthree, hle⟩ := of_decide_eq_true hcheck
  refine ⟨h, s, run, hthree, (noOverflow_iff mockTest ?_).2 ⟨by decide, fun v => ?_⟩⟩
  · exact lt_of_le_of_lt hle (by decide)
  · exact (stakeOf_le_totalStake s v).trans hle

/-- Alice stakes 60 of her 100 tokens. -/
def mockStake : List (Action ℕ (List ℕ)) := [.dispatch (.signed 1) (.stake 60000000000000000000)]

theorem not_noOverflow_mockStake : ∃ h s, Run (step mockTest) mockState h s ∧
    s.totalStake ≤ mockTest.currency.totalIssuance s.balances ∧ ¬ NoOverflow mockTest s := by
  obtain ⟨h, s, run, hcheck⟩ := exists_run_of_exec (step mockTest) mockState mockStake
    (fun r => decide (r.2.totalStake ≤ mockTest.currency.totalIssuance r.2.balances ∧
      ∃ staker ∈ r.2.stakers,
        2 ^ 128 ≤ stakersPart mockTest.blockReward.toNat * staker.stake.toNat)) (by decide +kernel)
  obtain ⟨hissuance, staker, hstaker, hlarge⟩ := of_decide_eq_true hcheck
  refine ⟨h, s, run, hissuance, ?_⟩
  rintro ⟨⟨reward, hreward, hpaid⟩, -, -⟩
  have hpart := toNat_stakersReward rfl hreward
  obtain ⟨balances, hbalances⟩ := hpaid 2
  have hlt := lt_of_distributeRewards rfl hbalances hstaker
  rw [hpart] at hlt
  exact absurd hlt (not_lt.2 hlarge)

end GhostConsensus
