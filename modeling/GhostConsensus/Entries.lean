import GhostConsensus.Slashing
import GhostConsensus.System

/-!
# The stake of one account

`EntryStep` says how a step changes the entry of a single account in `ValidatorStakes`: it is staked
to, unstaked from, slashed after a report, slashed by a check for downtime, or left as it is. Every
step of the pallet is such a step for every account (`step_entry`).
-/

namespace GhostConsensus

open Transition MachineInt

variable {α H B : Type} [AccountId α] [DecidableEq H] {T : Config α H B}

theorem call_of_succeeded {e : Record α H B} {c : α × Call α H} (h : succeeded T e = some c) :
    e.2.call = some c := by
  obtain ⟨s, a⟩ := e
  cases a with
  | dispatch origin call =>
    cases origin with
    | signed who =>
      simp only [succeeded] at h
      split at h
      · exact h
      · cases h
    | root | none => cases h
  | onInitialize | onFinalize => cases h

/-- What holds of the calls of an action holds of those that succeed. -/
theorem bind_call_of_succeeded {σ : Type} {f : α × Call α H → Option σ} {e : Record α H B} {c : σ}
    (h : (succeeded T e).bind f = some c) : e.2.call.bind f = some c := by
  obtain ⟨d, hd, hc⟩ := Option.bind_eq_some_iff.1 h
  rw [call_of_succeeded hd]
  exact hc

theorem dispatch_of_succeeded {s : State α H B} {who : α} {call : Call α H}
    (h : succeeded T (s, .dispatch (.signed who) call) = some (who, call)) :
    ∃ s', dispatch T s (.signed who) call = .ok s' := by
  simp only [succeeded] at h
  split at h
  · rename_i hok
    exact isOk_eq_true.1 hok
  · cases h

omit [AccountId α] [DecidableEq H] in
theorem eq_dispatch_of_report {a : Action α H} {v : α} {reason : SlashingReason}
    (h : a.call.bind Call.report = some (v, reason)) :
    ∃ reporter, a = .dispatch (.signed reporter) (.reportMisbehavior v reason) := by
  obtain ⟨⟨reporter, call⟩, hcall, hreport⟩ := Option.bind_eq_some_iff.1 h
  cases a with
  | dispatch origin call' =>
    cases origin with
    | signed who =>
      obtain ⟨rfl, rfl⟩ := Prod.mk.inj (Option.some.inj hcall)
      cases call' with
      | reportMisbehavior =>
        obtain ⟨rfl, rfl⟩ := Prod.mk.inj (Option.some.inj hreport)
        exact ⟨who, rfl⟩
      | _ => cases hreport
    | root | none => cases hcall
  | onInitialize | onFinalize => cases hcall

/-- A signed report that does not succeed panics. -/
theorem mulChecked_of_report {s : State α H B} {a : Action α H}
    (h : (succeeded T (s, a)).bind Call.report = none) :
    ∀ c ∈ a.call.bind Call.report,
      mulChecked T.overflowChecks (s.stakeOf c.1) ((slashPercentage T c.2).setWidth 128) = none := by
  rintro ⟨validator, reason⟩ hc
  obtain ⟨reporter, rfl⟩ := eq_dispatch_of_report hc
  cases hmul : mulChecked T.overflowChecks (s.stakeOf validator)
      ((slashPercentage T reason).setWidth 128) with
  | none => rfl
  | some product =>
    obtain rfl := mulChecked_eq_some hmul
    have hsucc : succeeded T (s, .dispatch (.signed reporter) (.reportMisbehavior validator reason)) =
        some (reporter, .reportMisbehavior validator reason) :=
      succeeded_of_eq_ok
        (reportMisbehavior_eq_ok.2 ⟨reporter, _, rfl, slashAmount_eq_ok.2 ⟨hmul, rfl⟩, rfl⟩)
    rw [hsucc] at h
    cases h

variable (T) in
/-- How a step from `s` changes the entry of `v`, which is `after` then. -/
inductive EntryStep (s : State α H B) (a : Action α H) (v : α) (after : Option U128) : Prop
  | staked {amount stake : U128} : (succeeded T (s, a)).bind Call.staking = some (v, amount) →
      T.minStake ≤ amount → addChecked T.overflowChecks (s.stakeOf v) amount = some stake →
      after = some stake → EntryStep s a v after
  | unstaked {amount stake : U128} : (succeeded T (s, a)).bind Call.unstaking = some (v, amount) →
      s.validatorStakes.get v = some stake → amount ≤ stake → after = some (stake - amount) →
      EntryStep s a v after
  | reported {reason : SlashingReason} {amount : U128} :
      (succeeded T (s, a)).bind Call.report = some (v, reason) →
      slashAmount T (s.stakeOf v) (slashPercentage T reason) = .ok amount →
      after = some (saturatingSub (s.stakeOf v) amount) → EntryStep s a v after
  | checked {n : ℕ} {stake amount : U128} : a = .onInitialize n → n % 10 = 0 →
      dueStake T { s with blockNumber := n } v = some stake →
      slashAmount T stake T.downtimeSlashPercentage = .ok amount →
      after = some (saturatingSub stake amount) → EntryStep s a v after
  | unchanged : (∀ amount, (succeeded T (s, a)).bind Call.staking ≠ some (v, amount)) →
      (∀ amount, (succeeded T (s, a)).bind Call.unstaking ≠ some (v, amount)) →
      (∀ reason, (succeeded T (s, a)).bind Call.report ≠ some (v, reason)) →
      (∀ n, a = .onInitialize n → n % 10 = 0 → dueStake T { s with blockNumber := n } v = none) →
      after = s.validatorStakes.get v → EntryStep s a v after

/-- A step that is neither about stakes nor the start of a runtime block leaves every entry. -/
theorem EntryStep.of_succeeded {s : State α H B} {a : Action α H} {v : α} {after : Option U128}
    {o : Option (α × Call α H)} (hsucc : succeeded T (s, a) = o)
    (hstaking : ∀ amount, o.bind Call.staking ≠ some (v, amount))
    (hunstaking : ∀ amount, o.bind Call.unstaking ≠ some (v, amount))
    (hreport : ∀ reason, o.bind Call.report ≠ some (v, reason)) (ha : a.newBlock = none)
    (hafter : after = s.validatorStakes.get v) : EntryStep T s a v after := by
  subst hsucc
  exact .unchanged hstaking hunstaking hreport (fun n hn => by rw [hn] at ha; cases ha) hafter

theorem step_entry {s s' : State α H B} {a : Action α H} (h : step T s a = some s') (v : α) :
    EntryStep T s a v (s'.validatorStakes.get v) := by
  cases step_effect h with
  | rejected hsucc | submitted hsucc | registered hsucc | validated hsucc =>
    exact .of_succeeded hsucc (fun _ hc => by cases hc) (fun _ hc => by cases hc)
      (fun _ hc => by cases hc) rfl rfl
  | finalized =>
    exact .of_succeeded (o := none) rfl (fun _ hc => by cases hc) (fun _ hc => by cases hc)
      (fun _ hc => by cases hc) rfl (by rw [onFinalize_eq])
  | @staked staker amount balances hsucc =>
    have hget : (s.withStake balances staker (s.stakeOf staker + amount)).validatorStakes.get v =
        if v = staker then some (s.stakeOf staker + amount) else s.validatorStakes.get v :=
      s.validatorStakes.get_insert staker v _
    by_cases hv : v = staker
    · subst hv
      obtain ⟨_, hok⟩ := dispatch_of_succeeded hsucc
      obtain ⟨who, _, ho, hmin, -, hadd, -⟩ := stake_eq_ok.1 hok
      obtain rfl := Origin.signed.inj ho
      exact .staked (by rw [hsucc]; rfl) hmin hadd (hget.trans (if_pos rfl))
    · refine .of_succeeded hsucc (fun x hc => ?_) (fun _ hc => by cases hc)
        (fun _ hc => by cases hc) rfl (hget.trans (if_neg hv))
      exact hv (Prod.mk.inj (Option.some.inj hc)).1.symm
  | @unstaked staker amount currentStake balances hsucc hstake hle =>
    have hget : (s.withStake balances staker (currentStake - amount)).validatorStakes.get v =
        if v = staker then some (currentStake - amount) else s.validatorStakes.get v :=
      s.validatorStakes.get_insert staker v _
    by_cases hv : v = staker
    · subst hv
      exact .unstaked (by rw [hsucc]; rfl) hstake hle (hget.trans (if_pos rfl))
    · refine .of_succeeded hsucc (fun _ hc => by cases hc) (fun x hc => ?_)
        (fun _ hc => by cases hc) rfl (hget.trans (if_neg hv))
      exact hv (Prod.mk.inj (Option.some.inj hc)).1.symm
  | @reported _ validator reason amount hsucc hamount =>
    have hget : (applySlash (recordReport s validator reason) validator reason
        (s.stakeOf validator) amount).validatorStakes.get v =
        if v = validator then some (saturatingSub (s.stakeOf validator) amount)
        else s.validatorStakes.get v := by
      rw [← recordReport_validatorStakes s validator reason]
      exact (recordReport s validator reason).validatorStakes.get_insert validator v _
    by_cases hv : v = validator
    · subst hv
      exact .reported (by rw [hsucc]; rfl) hamount (hget.trans (if_pos rfl))
    · refine .of_succeeded hsucc (fun _ hc => by cases hc) (fun _ hc => by cases hc)
        (fun r hc => ?_) rfl (hget.trans (if_neg hv))
      exact hv (Prod.mk.inj (Option.some.inj hc)).1.symm
  | @initialized n _ hinit =>
    rcases onInitialize_standing hinit v with ⟨stake, amount, hdue, hamount, hafter⟩ | ⟨hdue, hafter⟩
    · by_cases hn : n % 10 = 0
      · rw [if_pos hn] at hdue
        exact .checked rfl hn hdue hamount (congrArg Standing.stake hafter)
      · rw [if_neg hn] at hdue
        cases hdue
    · refine .unchanged (fun _ hc => by cases hc) (fun _ hc => by cases hc) (fun _ hc => by cases hc)
        (fun m hm hten => ?_) (congrArg Standing.stake hafter)
      obtain rfl := Action.onInitialize.inj hm
      rwa [if_pos hten] at hdue

end GhostConsensus
