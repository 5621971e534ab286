import GhostConsensus.Entries
import GhostConsensus.Runtime

/-!
# Wearing a stake down

Anybody may report anybody, without evidence and as often as they like, and every report slashes. A
report takes its percentage of what is left, rounded down, so that the stake of an account that does
not stake again falls exponentially with the number of the reports (`run_attrition`).
-/

namespace GhostConsensus

open Transition MachineInt

variable {α H B : Type} [AccountId α] [DecidableEq H]

/-- The step is a successful report of `v` for `reason`, by whomever. -/
def reportsFor (T : Config α H B) (v : α) (reason : SlashingReason) (e : Record α H B) : Bool :=
  decide ((succeeded T e).bind Call.report = some (v, reason))

/-- The number of successful reports of `v` for `reason`. -/
def reportCount (T : Config α H B) (v : α) (reason : SlashingReason) (h : List (Record α H B)) : ℕ :=
  h.countP (reportsFor T v reason)

variable {T : Config α H B} {v : α}

/-! ## Stakes only fall -/

/-- A step in which `v` does not stake does not raise the stake of `v`. -/
theorem step_stakeOf_le {s s' : State α H B} {a : Action α H} (h : step T s a = some s')
    (unaided : ∀ amount, (succeeded T (s, a)).bind Call.staking ≠ some (v, amount)) :
    (s'.stakeOf v).toNat ≤ (s.stakeOf v).toNat := by
  cases step_entry h v with
  | staked hstaking => exact absurd hstaking (unaided _)
  | unstaked _ hstake hle hafter =>
    rw [stakeOf_of_get hafter, stakeOf_of_get hstake, BitVec.toNat_sub_of_le hle]
    exact Nat.sub_le _ _
  | reported _ _ hafter =>
    rw [stakeOf_of_get hafter]
    exact toNat_saturatingSub_le _ _
  | checked _ _ hdue _ hafter =>
    obtain ⟨_, -, -, hstake⟩ := dueStake_eq_some.1 hdue
    have hbefore : s.stakeOf v = _ := stakeOf_of_get hstake
    rw [stakeOf_of_get hafter, hbefore]
    exact toNat_saturatingSub_le _ _
  | unchanged _ _ _ _ hafter =>
    apply le_of_eq
    rw [State.stakeOf, hafter, State.stakeOf]

theorem run_stakeOf_le {s₀ s : State α H B} {h : List (Record α H B)} (run : Run (step T) s₀ h s)
    (unaided : ∀ e ∈ h, ∀ amount, (succeeded T e).bind Call.staking ≠ some (v, amount)) :
    (s.stakeOf v).toNat ≤ (s₀.stakeOf v).toNat :=
  run.invariant_of (I := fun t => (t.stakeOf v).toNat ≤ (s₀.stakeOf v).toNat)
    (C := fun t a => ∀ amount, (succeeded T (t, a)).bind Call.staking ≠ some (v, amount)) le_rfl
    unaided fun _ _ _ ht hC hstep => (step_stakeOf_le hstep hC).trans ht

/-! ## One report -/

/-- Taking `p` percent, rounded down, leaves the other share of all but the rounding. -/
theorem sub_share_mul_le {x p : ℕ} (hp : p ≤ 100) :
    ((x - x * p / 100) * p - 99) * 100 ≤ (x * p - 99) * (100 - p) := by
  have hrest : (x - x * p / 100) * 100 ≤ x * (100 - p) + 99 := by
    rw [Nat.mul_sub x, Nat.sub_mul]
    omega
  have hshare : (x - x * p / 100) * p * 100 ≤ x * p * (100 - p) + 99 * p :=
    calc (x - x * p / 100) * p * 100 = (x - x * p / 100) * 100 * p := Nat.mul_right_comm _ _ _
      _ ≤ (x * (100 - p) + 99) * p := Nat.mul_le_mul_right _ hrest
      _ = x * p * (100 - p) + 99 * p := by rw [Nat.add_mul, Nat.mul_right_comm]
  rw [Nat.sub_mul _ 99 100, Nat.sub_mul _ 99 (100 - p)]
  omega

/-- What a report leaves of the stake. -/
theorem report_stakeOf_le {reason : SlashingReason} {s s' : State α H B} {a : Action α H}
    (percentage : (slashPercentage T reason).toNat ≤ 100)
    (fits : (s.stakeOf v).toNat * (slashPercentage T reason).toNat < 2 ^ 128)
    (h : step T s a = some s') (hreport : reportsFor T v reason (s, a) = true) :
    ((s'.stakeOf v).toNat * (slashPercentage T reason).toNat - 99) * 100 ≤
      ((s.stakeOf v).toNat * (slashPercentage T reason).toNat - 99) *
        (100 - (slashPercentage T reason).toNat) := by
  have hcall := of_decide_eq_true hreport
  obtain ⟨reporter, rfl⟩ := eq_dispatch_of_report (bind_call_of_succeeded hcall)
  cases step_entry h v with
  | reported hreported hamount hafter =>
    rw [hcall] at hreported
    obtain ⟨-, rfl⟩ := Prod.mk.inj (Option.some.inj hreported)
    rw [stakeOf_of_get hafter, toNat_saturatingSub, toNat_slashAmount fits hamount]
    exact sub_share_mul_le percentage
  | staked hother | unstaked hother => cases bind_call_of_succeeded hother
  | checked ha => cases ha
  | unchanged _ _ hnone => exact absurd hcall (hnone reason)

/-- In every run in which `v` does not stake, `k` reports of `v` leave at most the `k`-th power of the
share that one report leaves, up to the rounding. -/
theorem run_attrition {reason : SlashingReason} (percentage : (slashPercentage T reason).toNat ≤ 100)
    {s₀ s : State α H B} {h : List (Record α H B)} (run : Run (step T) s₀ h s)
    (fits : (s₀.stakeOf v).toNat * (slashPercentage T reason).toNat < 2 ^ 128)
    (unaided : ∀ e ∈ h, ∀ amount, (succeeded T e).bind Call.staking ≠ some (v, amount)) :
    (s.stakeOf v).toNat * (slashPercentage T reason).toNat * 100 ^ reportCount T v reason h ≤
      100 * 100 ^ reportCount T v reason h + (s₀.stakeOf v).toNat *
        (slashPercentage T reason).toNat *
          (100 - (slashPercentage T reason).toNat) ^ reportCount T v reason h := by
  have hlower : ∀ e ∈ h, (e.1.stakeOf v).toNat ≤ (s₀.stakeOf v).toNat := by
    intro e he
    obtain ⟨post, pre, rfl⟩ := List.append_of_mem he
    exact run_stakeOf_le run.at_step.1 fun e' he' =>
      unaided e' (List.mem_append_right _ (List.mem_cons_of_mem _ he'))
  have hdecay := run.decay (Nat.sub_le 100 (slashPercentage T reason).toNat)
    (fun t => (t.stakeOf v).toNat * (slashPercentage T reason).toNat - 99)
    (reportsFor T v reason) ?_ ?_
  · rw [reportCount]
    generalize h.countP (reportsFor T v reason) = k at hdecay ⊢
    rw [Nat.sub_mul] at hdecay
    have hstart : ((s₀.stakeOf v).toNat * (slashPercentage T reason).toNat - 99) *
        (100 - (slashPercentage T reason).toNat) ^ k ≤ (s₀.stakeOf v).toNat *
          (slashPercentage T reason).toNat * (100 - (slashPercentage T reason).toNat) ^ k :=
      Nat.mul_le_mul_right _ (Nat.sub_le _ _)
    omega
  · intro e he hhit u hstep
    refine (report_stakeOf_le percentage ?_ hstep hhit).trans (le_max_right _ _)
    exact lt_of_le_of_lt (Nat.mul_le_mul_right _ (hlower e he)) fits
  · intro e he _ u hstep
    have hle := step_stakeOf_le hstep (unaided e he)
    exact Nat.sub_le_sub_right (Nat.mul_le_mul_right _ hle) _

/-- One account reports another one three times over, for the same reason. -/
theorem run_attrition_dev :
    ∃ h s, Run (step devConfig) (devState.withStake devAccounts 1 1000000000000) h s ∧
      s.stakeOf 1 = 125000000000 ∧ reportCount devConfig 1 .invalidBlock h = 3 ∧
      (s.stakeOf 1).toNat * 50 * 100 ^ 3 ≤ 100 * 100 ^ 3 + 1000000000000 * 50 * 50 ^ 3 := by
  obtain ⟨h, s, run, hcheck⟩ := exists_run_of_exec (step devConfig)
    (devState.withStake devAccounts 1 1000000000000)
    (List.replicate 3 (.dispatch (.signed 2) (.reportMisbehavior 1 .invalidBlock)))
    (fun r => decide (r.2.stakeOf 1 = 125000000000 ∧ reportCount devConfig 1 .invalidBlock r.1 = 3 ∧
      ∀ e ∈ r.1, (succeeded devConfig e).bind Call.staking = none)) (by decide +kernel)
  obtain ⟨hstake, hcount, hunaided⟩ := of_decide_eq_true hcheck
  have hpercentage : (slashPercentage devConfig .invalidBlock).toNat ≤ 100 := by decide
  have hattrition := run_attrition (v := 1) hpercentage run (by decide) fun e he amount hc => by
    rw [hunaided e he] at hc
    cases hc
  rw [show reportCount devConfig 1 .invalidBlock h = 3 from hcount] at hattrition
  exact ⟨h, s, run, hstake, hcount, hattrition⟩

end GhostConsensus
