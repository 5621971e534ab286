import GhostConsensus.Closing
import GhostConsensus.Stakes

/-!
# What the escrow holds

A slash lowers a stake, but moves no tokens: they stay with the escrow account. At any time the
escrow holds, besides what it had at the start, the stakes and all that was ever slashed
(`run_escrow`). Staking cannot wrap, since the tokens behind the stakes are there.
-/

namespace GhostConsensus

open Transition MachineInt

variable {α H B : Type}

/-! ## Deposits to others -/

section Deposits

variable {T : Config α H B} {ed : U128} (lawful : T.currency.Lawful ed)
include lawful

/-- A deposit to another account, or of nothing, leaves a balance. -/
theorem freeBalance_deposit {b : B} {w who : α} {amount : U128} (h : w ≠ who ∨ amount = 0) :
    T.currency.freeBalance (T.currency.depositCreating b w amount) who =
      T.currency.freeBalance b who := by
  rcases lawful.deposit b w amount with hsame | ⟨hpayee, hothers, -⟩
  · rw [hsame]
  · rcases h with hne | rfl
    · exact hothers who hne.symm
    · by_cases hwho : who = w
      · apply BitVec.eq_of_toNat_eq
        rw [hwho, hpayee]
        rfl
      · exact hothers who hwho

theorem freeBalance_payStakers {stakersReward totalStake : U128} {who : α} :
    ∀ {stakers : List (ValidatorStake α)} {b b' : B},
      (∀ staker ∈ stakers, staker.account ≠ who ∨ staker.stake = 0) →
      stakers.foldlM (payStaker T stakersReward totalStake) b = .ok b' →
      T.currency.freeBalance b' who = T.currency.freeBalance b who
  | [], b, b', _, hfold => by rw [pure_eq_ok.1 hfold]
  | staker :: stakers, b, b', hothers, hfold => by
      rw [List.foldlM_cons, bind_eq_ok] at hfold
      obtain ⟨c, hpay, hfold⟩ := hfold
      obtain ⟨-, -, rfl⟩ := payStaker_eq_ok.1 hpay
      rw [freeBalance_payStakers (fun st hst => hothers st (List.mem_cons_of_mem _ hst)) hfold]
      apply freeBalance_deposit lawful
      refine (hothers staker List.mem_cons_self).imp_right fun hzero => ?_
      rw [hzero]
      simp

/-- The reward of a block leaves the balance of who is neither its miner nor has a stake. -/
theorem freeBalance_distributeRewards {miner who : α} {stakers : List (ValidatorStake α)}
    {reward : BlockReward} {b b' : B} (hminer : miner ≠ who)
    (hstakers : ∀ staker ∈ stakers, staker.account ≠ who ∨ staker.stake = 0)
    (h : distributeRewards T miner stakers reward b = .ok b') :
    T.currency.freeBalance b' who = T.currency.freeBalance b who := by
  have hpaid : T.currency.freeBalance (T.currency.depositCreating b miner reward.minerReward) who =
      T.currency.freeBalance b who := freeBalance_deposit lawful (.inl hminer)
  obtain ⟨totalStake, -, h⟩ := distributeRewards_eq_ok.1 h
  split at h
  · rw [h, hpaid]
  · rw [freeBalance_payStakers lawful hstakers h, hpaid]

end Deposits

variable [AccountId α]

/-! ## The books of the escrow -/

/-- What an event says was slashed of anyone. -/
def Event.slashedAmount : Event α → ℕ
  | .validatorSlashed _ _ amount => amount.toNat
  | _ => 0

/-- What was slashed in all, according to the events. -/
def slashedTotal (events : List (Event α)) : ℕ := (events.map Event.slashedAmount).sum

omit [AccountId α] in
theorem slashedTotal_append (events new : List (Event α)) :
    slashedTotal (events ++ new) = slashedTotal events + slashedTotal new := by
  rw [slashedTotal, slashedTotal, slashedTotal, List.map_append, List.sum_append]

def State.escrow (T : Config α H B) (s : State α H B) : ℕ :=
  (T.currency.freeBalance s.balances T.accountId).toNat

/-- The escrow has no stake itself and has mined no block. -/
structure EscrowApart (T : Config α H B) (s : State α H B) : Prop where
  stake : s.stakeOf T.accountId = 0
  producer : ∀ n, s.blockProducers n ≠ some T.accountId

/-- From `s` to `s'` the escrow has gained what the stakes have, and what `new` says was slashed. -/
structure EscrowStep (T : Config α H B) (s s' : State α H B) (new : List (Event α)) : Prop where
  events : s'.events = s.events ++ new
  books : s'.escrow T + s.totalStake = s.escrow T + s'.totalStake + slashedTotal new

/-- An unstaking of `amount` leaves nothing in the escrow, or enough to keep the account alive. -/
def LeavesNoDust (T : Config α H B) (ed : U128) (s : State α H B) (amount : U128) : Prop :=
  amount = 0 ∨ ed.toNat ≤ T.currency.rest s.balances T.accountId amount ∨
    T.currency.rest s.balances T.accountId amount = 0

instance (T : Config α H B) (ed : U128) (s : State α H B) (amount : U128) :
    Decidable (LeavesNoDust T ed s amount) :=
  inferInstanceAs (Decidable (_ ∨ _))

variable {T : Config α H B} {ed : U128}

theorem EscrowStep.of_eq {s s' : State α H B} {new : List (Event α)}
    (events : s'.events = s.events ++ new) (escrow : s'.escrow T = s.escrow T)
    (stakes : s'.totalStake = s.totalStake) (slashed : slashedTotal new = 0) :
    EscrowStep T s s' new := by
  refine ⟨events, ?_⟩
  rw [escrow, stakes, slashed, Nat.add_zero]

theorem applySlash_totalStake {s : State α H B} {who : α} {reason : SlashingReason} {amount : U128}
    (hle : amount.toNat ≤ (s.stakeOf who).toNat) :
    (applySlash s who reason (s.stakeOf who) amount).totalStake + amount.toNat = s.totalStake := by
  have htotal : (applySlash s who reason (s.stakeOf who) amount).totalStake +
      (s.stakeOf who).toNat = s.totalStake + _ :=
    withStake_totalStake s s.balances who (saturatingSub (s.stakeOf who) amount)
  rw [toNat_saturatingSub] at htotal
  omega

/-- The start of a runtime block takes from the stakes what it announces, and pays nothing. -/
theorem onInitialize_escrowStep (percentage : T.downtimeSlashPercentage.toNat ≤ 100)
    {s s' : State α H B} {n : ℕ} (h : onInitialize T s n = .ok s') :
    ∃ new, EscrowStep T s s' new := by
  have hslashes : ∃ new, s'.events = s.events ++ new ∧
      s'.totalStake + slashedTotal new = s.totalStake := by
    refine onInitialize_events_induction (P := fun t new => t.totalStake + slashedTotal new =
      s.totalStake) h rfl ?_ ?_
    · intro t new validator _ stake amount hbooks _ _ _ hstake hamount
      have hle := slashAmount_le percentage hamount
      rw [← stakeOf_of_get hstake] at hle
      have htotal : (slashForDowntime t validator stake amount).totalStake + amount.toNat =
          t.totalStake := by
        rw [slashForDowntime, ← stakeOf_of_get hstake]
        exact applySlash_totalStake hle
      rw [slashedTotal_append]
      show _ + (slashedTotal new + (amount.toNat + 0)) = _
      omega
    · intro t t' new hbooks _ hadjust
      obtain ⟨_, _, -, -, rfl⟩ := adjustDifficulty_eq_ok hadjust
      rw [slashedTotal_append]
      show t.totalStake + (slashedTotal new + _) = s.totalStake
      split
      · exact hbooks
      · exact hbooks
  obtain ⟨new, hevents, hbooks⟩ := hslashes
  refine ⟨new, hevents, ?_⟩
  rw [State.escrow, State.escrow, onInitialize_balances h]
  omega

/-- An unstaking that leaves no dust takes its amount from the escrow, and no more. -/
theorem escrow_of_unstaking (lawful : T.currency.Lawful ed) {s : State α H B} {staker : α}
    {amount : U128} {balances : B} (hne : staker ≠ T.accountId)
    (hdust : LeavesNoDust T ed s amount)
    (htransfer : T.currency.transfer s.balances T.accountId staker amount .allowDeath =
      .ok balances) :
    (T.currency.freeBalance balances T.accountId).toNat + amount.toNat = s.escrow T := by
  have hcovered : amount.toNat ≤ s.escrow T := lawful.covered htransfer hne.symm
  have hrest : T.currency.rest s.balances T.accountId amount = s.escrow T - amount.toNat := rfl
  have hpaid : (T.currency.freeBalance balances T.accountId).toNat = s.escrow T - amount.toNat := by
    rcases lawful.payer htransfer hne.symm with hkept | ⟨hne', -, hsmall⟩
    · exact hkept
    · rcases hdust with hzero | halive | hempty
      · exact absurd hzero hne'
      · exact absurd hsmall (not_lt.2 halive)
      · rw [lawful.reaped htransfer hne.symm hne' hsmall, ← hrest, hempty]
        rfl
  omega

/-- The reward of a block leaves an escrow that has no stake and has mined nothing. -/
theorem Closes.escrow_kept (lawful : T.currency.Lawful ed) {s : State α H B}
    (happart : EscrowApart T s) {validator miner : α} {n : U32} {sig : PqcSignature}
    {header : GhostBlockHeader H} {selection : PosSelection α} {reward : BlockReward} {balances : B}
    (h : Closes T s validator n sig header selection reward miner balances) :
    T.currency.freeBalance balances T.accountId =
      T.currency.freeBalance s.balances T.accountId := by
  have hminer : miner ≠ T.accountId := by
    rintro rfl
    exact happart.producer n h.miner_stored
  refine freeBalance_distributeRewards lawful hminer (fun staker hstaker => ?_) h.paid
  by_cases hescrow : staker.account = T.accountId
  · right
    rw [← stakeOf_of_get (mem_stakers hstaker).1, hescrow]
    exact happart.stake
  · exact .inl hescrow

variable [DecidableEq H]

/-- An unstaking that the stake of its signer covers leaves no dust. -/
def LeavesNoDusts (T : Config α H B) (ed : U128) (s : State α H B) (a : Action α H) : Prop :=
  ∀ c ∈ a.call.bind Call.unstaking, c.2 ≤ s.stakeOf c.1 → LeavesNoDust T ed s c.2

instance (T : Config α H B) (ed : U128) (s : State α H B) (a : Action α H) :
    Decidable (LeavesNoDusts T ed s a) :=
  inferInstanceAs (Decidable (∀ _ ∈ _, _ → _))

theorem EscrowApart.step {s s' : State α H B} {a : Action α H} (hs : EscrowApart T s)
    (hsigner : ∀ c ∈ a.call, c.1 ≠ T.accountId) (h : step T s a = some s') : EscrowApart T s' := by
  cases step_effect h with
  | rejected | registered | validated => exact ⟨hs.stake, hs.producer⟩
  | @submitted miner header =>
    refine ⟨hs.stake, fun n hn => ?_⟩
    rw [acceptBlock_blockProducers, StorageMap.insert_eq_some] at hn
    rcases hn with ⟨-, hminer⟩ | ⟨-, hn⟩
    · exact hsigner (miner, .submitBlock header) rfl hminer
    · exact hs.producer n hn
  | @staked staker amount =>
    refine ⟨?_, hs.producer⟩
    rw [withStake_stakeOf, if_neg (hsigner (staker, .stake amount) rfl).symm]
    exact hs.stake
  | @unstaked staker amount =>
    refine ⟨?_, hs.producer⟩
    rw [withStake_stakeOf, if_neg (hsigner (staker, .unstake amount) rfl).symm]
    exact hs.stake
  | @reported _ validator reason amount =>
    refine ⟨?_, by cases reason <;> exact hs.producer⟩
    rw [applySlash_stakeOf, recordReport_stakeOf]
    split
    · rename_i hescrow
      rw [← hescrow, hs.stake]
      apply BitVec.eq_of_toNat_eq
      rw [toNat_saturatingSub]
      exact Nat.zero_sub _
    · exact hs.stake
  | initialized hinit =>
    refine onInitialize_induction (P := EscrowApart T) hinit ⟨hs.stake, hs.producer⟩ ?_ ?_
    · intro t validator _ stake amount ht _ _ _ hstake _
      refine ⟨?_, ht.producer⟩
      rw [slashForDowntime, applySlash_stakeOf]
      split
      · rename_i hescrow
        rw [← stakeOf_of_get hstake, ← hescrow, ht.stake]
        apply BitVec.eq_of_toNat_eq
        rw [toNat_saturatingSub]
        exact Nat.zero_sub _
      · exact ht.stake
    · intro t t' ht _ hadjust
      obtain ⟨_, _, -, -, rfl⟩ := adjustDifficulty_eq_ok hadjust
      exact ⟨ht.stake, ht.producer⟩
  | finalized =>
    rw [onFinalize_eq]
    exact ⟨hs.stake, hs.producer⟩

/-- What a step does to the books of an escrow that covers the stakes. -/
theorem step_escrow (lawful : T.currency.Lawful ed)
    (percentages : ∀ reason, (slashPercentage T reason).toNat ≤ 100) {s s' : State α H B}
    {a : Action α H} (hs : Solvent T s) (happart : EscrowApart T s)
    (hsigner : ∀ c ∈ a.call, c.1 ≠ T.accountId) (hdust : LeavesNoDusts T ed s a)
    (h : step T s a = some s') : ∃ new, EscrowStep T s s' new := by
  cases step_effect h with
  | rejected | registered => exact ⟨[], .of_eq (List.append_nil _).symm rfl rfl rfl⟩
  | submitted => exact ⟨_, .of_eq rfl rfl rfl rfl⟩
  | @staked staker amount balances _ _ htransfer =>
    have hne : staker ≠ T.accountId := hsigner (staker, .stake amount) rfl
    have hpayee := lawful.payee htransfer hne
    have htotal := withStake_totalStake s balances staker (s.stakeOf staker + amount)
    -- the sum fits, since the escrow holds it after the transfer
    have hfits : (s.stakeOf staker).toNat + amount.toNat < 2 ^ 128 := by
      have hle := (stakeOf_le_totalStake s staker).trans hs
      have hlt := (T.currency.freeBalance balances T.accountId).isLt
      omega
    rw [toNat_add_of_lt hfits] at htotal
    refine ⟨[], (List.append_nil _).symm, ?_⟩
    show (T.currency.freeBalance balances T.accountId).toNat + s.totalStake =
      (T.currency.freeBalance s.balances T.accountId).toNat + _ + 0
    omega
  | @unstaked staker amount currentStake balances _ hget hle htransfer =>
    have hne : staker ≠ T.accountId := hsigner (staker, .unstake amount) rfl
    have hstake := stakeOf_of_get hget
    have hnoDust : LeavesNoDust T ed s amount := hdust (staker, amount) rfl (hstake ▸ hle)
    have hpaid := escrow_of_unstaking lawful hne hnoDust htransfer
    rw [State.escrow] at hpaid
    have htotal := withStake_totalStake s balances staker (currentStake - amount)
    have hamount : amount.toNat ≤ currentStake.toNat := BitVec.le_def.1 hle
    rw [hstake, BitVec.toNat_sub_of_le hle] at htotal
    refine ⟨[], (List.append_nil _).symm, ?_⟩
    show (T.currency.freeBalance balances T.accountId).toNat + s.totalStake =
      (T.currency.freeBalance s.balances T.accountId).toNat + _ + 0
    omega
  | validated _ hcloses =>
    refine ⟨[.validatorSelected _ _, .rewardsDistributed _ _ _],
      .of_eq (List.append_assoc _ _ _) ?_ rfl rfl⟩
    exact congrArg BitVec.toNat (hcloses.escrow_kept lawful happart)
  | @reported _ validator reason amount _ hamount =>
    have hle := slashAmount_le (percentages reason) hamount
    have htotal : (applySlash (recordReport s validator reason) validator reason
        ((recordReport s validator reason).stakeOf validator) amount).totalStake + amount.toNat =
          (recordReport s validator reason).totalStake :=
      applySlash_totalStake (recordReport_stakeOf s validator validator reason ▸ hle)
    rw [recordReport_stakeOf] at htotal
    have hbefore : (recordReport s validator reason).totalStake = s.totalStake := by
      rw [State.totalStake, recordReport_validatorStakes, State.totalStake]
    refine ⟨[.validatorSlashed validator reason amount], ?_, ?_⟩
    · rw [← recordReport_events s validator reason]
      rfl
    · show (T.currency.freeBalance (recordReport s validator reason).balances _).toNat + _ =
        (T.currency.freeBalance s.balances _).toNat + _ + (amount.toNat + 0)
      rw [recordReport_balances]
      omega
  | @initialized n _ hinit =>
    obtain ⟨new, hevents, hbooks⟩ := onInitialize_escrowStep (percentages .downtime) hinit
    exact ⟨new, hevents, hbooks⟩
  | finalized =>
    refine ⟨[], ?_⟩
    rw [onFinalize_eq]
    exact .of_eq (List.append_nil _).symm rfl rfl rfl

/-- In every run in which nobody signs for the escrow and no unstaking leaves dust there, the escrow
holds what it had at the start, all stakes, and all that was slashed. -/
theorem run_escrow (lawful : T.currency.Lawful ed)
    (percentages : ∀ reason, (slashPercentage T reason).toNat ≤ 100) {s₀ s : State α H B}
    {h : List (Record α H B)} (run : Run (step T) s₀ h s) (start : s₀.validatorStakes = ∅)
    (producers : ∀ n, s₀.blockProducers n ≠ some T.accountId)
    (signers : ∀ e ∈ h, ∀ c ∈ e.2.call, c.1 ≠ T.accountId)
    (noDust : ∀ e ∈ h, LeavesNoDusts T ed e.1 e.2) :
    s.escrow T =
      s₀.escrow T + s.totalStake + slashedTotal (s.events.drop s₀.events.length) := by
  have hnothing : s₀.totalStake = 0 := by
    rw [State.totalStake, start]
    rfl
  have hbooks : EscrowApart T s ∧ ∃ new, s.events = s₀.events ++ new ∧
      s.escrow T = s₀.escrow T + s.totalStake + slashedTotal new := by
    induction run with
    | nil =>
      refine ⟨⟨?_, producers⟩, [], (List.append_nil _).symm, ?_⟩
      · rw [State.stakeOf, start]
        rfl
      · rw [hnothing]
        rfl
    | @cons h t s a run hstep ih =>
      obtain ⟨happart, new, hevents, hbooks⟩ := ih (fun e he => signers e (List.mem_cons_of_mem _ he))
        fun e he => noDust e (List.mem_cons_of_mem _ he)
      have hsigner := signers _ List.mem_cons_self
      have hsolvent : Solvent T t := by
        rw [State.escrow] at hbooks
        rw [Solvent]
        omega
      obtain ⟨new', hevents', hbooks'⟩ := step_escrow lawful percentages hsolvent happart hsigner
        (noDust _ List.mem_cons_self) hstep
      refine ⟨happart.step hsigner hstep, new ++ new', ?_, ?_⟩
      · rw [hevents', hevents, List.append_assoc]
      · rw [slashedTotal_append]
        omega
  obtain ⟨-, new, hevents, hbooks⟩ := hbooks
  rw [hevents, List.drop_left]
  exact hbooks

theorem run_escrow_dev :
    ∃ h s, Run (step devConfig) devState h s ∧ s.totalStake = 250000000000 ∧
      s.escrow devConfig = 500000000000 ∧ s.escrow devConfig = devState.escrow devConfig +
        s.totalStake + slashedTotal (s.events.drop devState.events.length) := by
  obtain ⟨h, s, run, hcheck⟩ := exists_run_of_exec (step devConfig) devState
    (devRound ++ [.dispatch (.signed 1) (.unstake 500000000000),
      .dispatch (.signed 2) (.reportMisbehavior 1 .invalidBlock)])
    (fun r => decide (r.2.totalStake = 250000000000 ∧ r.2.escrow devConfig = 500000000000 ∧
      (∀ e ∈ r.1, ∀ c ∈ e.2.call, c.1 ≠ devConfig.accountId) ∧
      ∀ e ∈ r.1, LeavesNoDusts devConfig existentialDeposit e.1 e.2)) (by decide +kernel)
  obtain ⟨htotal, hescrow, hsigners, hdust⟩ := of_decide_eq_true hcheck
  refine ⟨h, s, run, htotal, hescrow, run_escrow (Accounts.currency_lawful existentialDeposit)
    (fun reason => ?_) run rfl (fun n hn => ?_) hsigners hdust⟩
  · cases reason <;> decide
  · cases hn

end GhostConsensus
