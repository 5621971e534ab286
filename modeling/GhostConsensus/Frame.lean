import GhostConsensus.Stakes

/-!
# The accounts of others

A call leaves the key, the activity and the reports of every account other than its signer and the
escrow, takes nothing from its balance, and touches its stake only if it reports that account.
-/

namespace GhostConsensus

open Transition MachineInt

variable {α H B : Type} [AccountId α] [DecidableEq H] {T : Config α H B} {ed : U128}

/-- What a call leaves of the account `b`. -/
structure OthersKept (T : Config α H B) (s s' : State α H B) (call : Call α H) (b : α) : Prop where
  key : s'.validatorPqcPublicKeys b = s.validatorPqcPublicKeys b
  activity : s'.lastActiveBlock.get b = s.lastActiveBlock.get b
  balance : (T.currency.freeBalance s.balances b).toNat ≤
    (T.currency.freeBalance s'.balances b).toNat
  stake : (∀ reason, call ≠ .reportMisbehavior b reason) → s'.stakeOf b = s.stakeOf b
  slash : ∀ reason, call = .reportMisbehavior b reason → (s'.stakeOf b).toNat +
    (s.stakeOf b).toNat * (slashPercentage T reason).toNat / 100 = (s.stakeOf b).toNat
  reports : ∀ reason, onFile s' b reason ≠ onFile s b reason →
    call = .reportMisbehavior b reason ∧ onFile s b reason = false ∧ onFile s' b reason = true

omit [DecidableEq H] in
/-- A call that is no report, and leaves the key, the activity, the stake and the reports of `b`. -/
theorem OthersKept.of_eq {s s' : State α H B} {call : Call α H} {b : α}
    (hcall : ∀ reason, call ≠ .reportMisbehavior b reason)
    (hkey : s'.validatorPqcPublicKeys b = s.validatorPqcPublicKeys b)
    (hactivity : s'.lastActiveBlock.get b = s.lastActiveBlock.get b)
    (hbalance : (T.currency.freeBalance s.balances b).toNat ≤
      (T.currency.freeBalance s'.balances b).toNat)
    (hstake : s'.stakeOf b = s.stakeOf b) (hreports : onFile s' b = onFile s b) :
    OthersKept T s s' call b where
  key := hkey
  activity := hactivity
  balance := hbalance
  stake := fun _ => hstake
  slash := fun reason h => absurd h (hcall reason)
  reports := fun reason h => absurd (congrFun hreports reason) h

omit [DecidableEq H] in
/-- A report of another account than `b` leaves it, and a report of `b` takes the percentage and
puts it on file. -/
theorem OthersKept.of_reported (percentages : ∀ reason, (slashPercentage T reason).toNat ≤ 100)
    {s : State α H B} {validator b : α} {reason : SlashingReason} {amount : U128}
    (fits : ∀ r, (.reportMisbehavior validator reason : Call α H) = .reportMisbehavior b r →
      (s.stakeOf b).toNat * (slashPercentage T r).toNat < 2 ^ 128)
    (hamount : slashAmount T (s.stakeOf validator) (slashPercentage T reason) = .ok amount) :
    OthersKept T s (applySlash (recordReport s validator reason) validator reason
      (s.stakeOf validator) amount) (.reportMisbehavior validator reason) b := by
  have hreports : ∀ r, onFile (applySlash (recordReport s validator reason) validator reason
      (s.stakeOf validator) amount) b r = onFile (recordReport s validator reason) b r := by
    intro r
    cases r <;> rfl
  refine ⟨?_, ?_, ?_, fun hcall => ?_, fun r hcall => ?_, fun r hne => ?_⟩
  · cases reason <;> rfl
  · cases reason <;> rfl
  · cases reason <;> exact le_rfl
  · have hne : b ≠ validator := fun heq => hcall reason (heq ▸ rfl)
    rw [applySlash_stakeOf, if_neg hne, recordReport_stakeOf]
  · cases hcall
    have hvalue := toNat_slashAmount (fits _ rfl) hamount
    have hle := slashAmount_le (percentages _) hamount
    rw [applySlash_stakeOf, if_pos rfl, toNat_saturatingSub, ← hvalue]
    exact Nat.sub_add_cancel hle
  · rw [hreports] at hne ⊢
    have hsame : b = validator ∧ r = reason := by
      by_contra hnot
      exact hne (onFile_recordReport_of_ne s hnot)
    obtain ⟨rfl, rfl⟩ := hsame
    have hbefore : onFile s b r = false := by
      rw [← Bool.not_eq_true]
      intro htrue
      exact hne ((onFile_recordReport s htrue).trans htrue.symm)
    refine ⟨rfl, hbefore, ?_⟩
    rw [hbefore] at hne
    exact Bool.eq_true_of_not_eq_false hne

/-- Every call signed by another account than `b`, successful or not, leaves the account `b`. -/
theorem dispatch_othersKept (lawful : T.currency.Lawful ed)
    (percentages : ∀ reason, (slashPercentage T reason).toNat ≤ 100) {s s' : State α H B} {a b : α}
    {call : Call α H} (other : b ≠ a) (notEscrow : b ≠ T.accountId)
    (fits : ∀ reason, call = .reportMisbehavior b reason →
      (s.stakeOf b).toNat * (slashPercentage T reason).toNat < 2 ^ 128)
    (h : step T s (.dispatch (.signed a) call) = some s') : OthersKept T s s' call b := by
  cases step_effect h with
  | rejected hsucc =>
    refine .of_eq (fun reason hcall => ?_) rfl rfl le_rfl rfl rfl
    -- a report whose product fits goes through
    obtain ⟨amount, hamount⟩ := exists_slashAmount (T := T) (fits reason hcall)
    subst hcall
    have hok : dispatch T s (.signed a) (.reportMisbehavior b reason) = .ok _ :=
      reportMisbehavior_eq_ok.2 ⟨a, amount, rfl, hamount, rfl⟩
    rw [succeeded_of_eq_ok hok] at hsucc
    cases hsucc
  | @submitted _ header =>
    refine .of_eq (fun _ hcall => by cases hcall) rfl ?_ le_rfl rfl rfl
    rw [acceptBlock_lastActiveBlock, OrderedMap.get_insert_of_ne _ other]
  | @staked _ amount balances _ _ htransfer =>
    refine .of_eq (fun _ hcall => by cases hcall) rfl rfl ?_ ?_ rfl
    · exact (congrArg BitVec.toNat (lawful.others htransfer b other notEscrow)).ge
    · rw [withStake_stakeOf, if_neg other]
  | @unstaked _ amount currentStake balances _ _ _ htransfer =>
    refine .of_eq (fun _ hcall => by cases hcall) rfl rfl ?_ ?_ rfl
    · exact (congrArg BitVec.toNat (lawful.others htransfer b notEscrow other)).ge
    · rw [withStake_stakeOf, if_neg other]
  | @validated _ _ n _ _ _ _ balances _ hcloses =>
    refine .of_eq (fun _ hcall => by cases hcall) rfl ?_ ?_ rfl rfl
    · rw [closedState_lastActiveBlock, OrderedMap.get_insert_of_ne _ other]
    · refine distributeRewards_induction (P := fun balances =>
        (T.currency.freeBalance s.balances b).toNat ≤ (T.currency.freeBalance balances b).toNat)
        hcloses.paid le_rfl ?_
      exact fun balances who amount hle =>
        hle.trans (lawful.le_freeBalance_deposit balances who amount b)
  | registered =>
    refine .of_eq (fun _ hcall => by cases hcall) ?_ rfl le_rfl rfl rfl
    exact StorageMap.insert_of_ne _ other _
  | reported _ hamount => exact .of_reported percentages fits hamount

theorem dispatch_othersKept_dev :
    ∃ s s', step devConfig s (.dispatch (.signed 2) (.reportMisbehavior 1 .invalidBlock)) = some s' ∧
      s.stakeOf 1 = 1000000000000 ∧ s'.stakeOf 1 = 500000000000 ∧
      OthersKept devConfig s s' (.reportMisbehavior 1 .invalidBlock) 1 := by
  obtain ⟨h, s, -, hcheck⟩ := exists_run_of_exec (step devConfig) devState
    [.dispatch (.signed 1) (.stake 1000000000000)]
    (fun r => decide (r.2.stakeOf 1 = 1000000000000 ∧
      ∃ s' ∈ step devConfig r.2 (.dispatch (.signed 2) (.reportMisbehavior 1 .invalidBlock)),
        s'.stakeOf 1 = 500000000000)) (by decide +kernel)
  obtain ⟨hstake, s', hstep, hstake'⟩ := of_decide_eq_true hcheck
  refine ⟨s, s', hstep, hstake, hstake', ?_⟩
  refine dispatch_othersKept (Accounts.currency_lawful existentialDeposit) (fun reason => ?_)
    (by decide) (by decide) (fun reason hcall => ?_) hstep
  · cases reason <;> decide
  · cases hcall
    have hstake : s.stakeOf 1 = 1000000000000 := hstake
    rw [hstake]
    decide

end GhostConsensus
