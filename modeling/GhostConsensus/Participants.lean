import GhostConsensus.Entries
import GhostConsensus.Runtime

/-!
# Participants

Whoever has an entry in `ValidatorStakes` takes part in the selection. The minimum stake is checked
only when an account stakes: an unstaking or a slash may leave less, and a report makes an entry even
for an account that never staked. In every run without such a step each participant has staked, and
holds the minimum.
-/

namespace GhostConsensus

open Transition MachineInt

variable {α H B : Type} [AccountId α] [DecidableEq H]

/-- Every participant has staked in the history and holds the minimum stake. -/
structure MinStakeKept (T : Config α H B) (h : List (Record α H B)) (s : State α H B) : Prop where
  minimum : ∀ v stake, s.validatorStakes.get v = some stake → T.minStake ≤ stake
  staked : ∀ v, (s.validatorStakes.get v).isSome = true →
    ∃ e ∈ h, ∃ amount, (succeeded T e).bind Call.staking = some (v, amount)

/-- What a slash of `percentage` leaves of `stake` is at least the minimum stake. -/
def SlashLeavesMin (T : Config α H B) (stake : U128) (percentage : U8) : Prop :=
  ∀ amount ∈ (slashAmount T stake percentage).toOption, T.minStake ≤ saturatingSub stake amount

instance (T : Config α H B) (stake : U128) (percentage : U8) :
    Decidable (SlashLeavesMin T stake percentage) :=
  inferInstanceAs (Decidable (∀ _ ∈ _, _))

/-- No stake that an action writes is below the minimum, and it slashes participants only. -/
structure LeavesMinStake (T : Config α H B) (s : State α H B) (a : Action α H) : Prop where
  staking : ∀ c ∈ (succeeded T (s, a)).bind Call.staking, T.minStake ≤ s.stakeOf c.1 + c.2
  unstaking : ∀ c ∈ (succeeded T (s, a)).bind Call.unstaking, ∀ stake ∈ s.validatorStakes.get c.1,
    T.minStake ≤ stake - c.2
  report : ∀ c ∈ (succeeded T (s, a)).bind Call.report, ∃ stake ∈ s.validatorStakes.get c.1,
    SlashLeavesMin T stake (slashPercentage T c.2)
  downtime : ∀ n ∈ a.newBlock, n % 10 = 0 → ∀ e ∈ s.validatorStakes.iter,
    dueStake T { s with blockNumber := n } e.1 = some e.2 →
      SlashLeavesMin T e.2 T.downtimeSlashPercentage

instance (T : Config α H B) (s : State α H B) (a : Action α H) : Decidable (LeavesMinStake T s a) :=
  decidable_of_iff
    ((∀ c ∈ (succeeded T (s, a)).bind Call.staking, T.minStake ≤ s.stakeOf c.1 + c.2) ∧
      (∀ c ∈ (succeeded T (s, a)).bind Call.unstaking, ∀ stake ∈ s.validatorStakes.get c.1,
        T.minStake ≤ stake - c.2) ∧
      (∀ c ∈ (succeeded T (s, a)).bind Call.report, ∃ stake ∈ s.validatorStakes.get c.1,
        SlashLeavesMin T stake (slashPercentage T c.2)) ∧
      ∀ n ∈ a.newBlock, n % 10 = 0 → ∀ e ∈ s.validatorStakes.iter,
        dueStake T { s with blockNumber := n } e.1 = some e.2 →
          SlashLeavesMin T e.2 T.downtimeSlashPercentage)
    ⟨fun h => ⟨h.1, h.2.1, h.2.2.1, h.2.2.2⟩, fun h => ⟨h.1, h.2, h.3, h.4⟩⟩

variable {T : Config α H B}

omit [DecidableEq H] [AccountId α] in
theorem SlashLeavesMin.le {stake amount : U128} {percentage : U8}
    (h : SlashLeavesMin T stake percentage) (hamount : slashAmount T stake percentage = .ok amount) :
    T.minStake ≤ saturatingSub stake amount :=
  h amount (by rw [hamount]; rfl)

omit [DecidableEq H] in
theorem dueStake_stored {s : State α H B} {v : α} {stake : U128} (h : dueStake T s v = some stake) :
    (v, stake) ∈ s.validatorStakes.iter := by
  obtain ⟨_, -, -, hstake⟩ := dueStake_eq_some.1 h
  exact s.validatorStakes.mem_iter.2 hstake

theorem MinStakeKept.step {h : List (Record α H B)} {s s' : State α H B} {a : Action α H}
    (inv : MinStakeKept T h s) (hleaves : LeavesMinStake T s a) (hstep : step T s a = some s') :
    MinStakeKept T ((s, a) :: h) s' := by
  have hkept : ∀ {v}, (s.validatorStakes.get v).isSome = true →
      ∃ e ∈ (s, a) :: h, ∃ amount, (succeeded T e).bind Call.staking = some (v, amount) := by
    intro v hv
    obtain ⟨e, he, hstaked⟩ := inv.staked v hv
    exact ⟨e, List.mem_cons_of_mem _ he, hstaked⟩
  refine ⟨fun v stake hstake => ?_, fun v hv => ?_⟩
  · cases step_entry hstep v with
    | staked hcall _ hadd hafter =>
      obtain rfl := Option.some.inj (hstake.symm.trans hafter)
      rw [addChecked_eq_some hadd]
      exact hleaves.staking _ hcall
    | unstaked hcall hget _ hafter =>
      obtain rfl := Option.some.inj (hstake.symm.trans hafter)
      exact hleaves.unstaking _ hcall _ hget
    | reported hcall hamount hafter =>
      obtain rfl := Option.some.inj (hstake.symm.trans hafter)
      obtain ⟨stake, hget, hmin⟩ := hleaves.report _ hcall
      rw [stakeOf_of_get hget] at hamount ⊢
      exact hmin.le hamount
    | checked ha hn hdue hamount hafter =>
      obtain rfl := Option.some.inj (hstake.symm.trans hafter)
      subst ha
      have hstored := dueStake_stored hdue
      exact (hleaves.downtime _ rfl hn _ hstored hdue).le hamount
    | unchanged _ _ _ _ hafter => exact inv.minimum v stake (hafter ▸ hstake)
  · cases step_entry hstep v with
    | staked hcall => exact ⟨(s, a), List.mem_cons_self, _, hcall⟩
    | unstaked _ hget => exact hkept (hget ▸ rfl)
    | reported hcall =>
      obtain ⟨stake, hget, -⟩ := hleaves.report _ hcall
      exact hkept (Option.mem_def.1 hget ▸ rfl)
    | checked _ _ hdue =>
      obtain ⟨_, -, -, hget⟩ := dueStake_eq_some.1 hdue
      exact hkept (Option.isSome_iff_exists.2 ⟨_, hget⟩)
    | unchanged _ _ _ _ hafter => exact hkept (hafter ▸ hv)

/-- Starting without stakes, every participant has staked and holds the minimum stake, in every run
whose unstakings and slashes leave the minimum to participants. -/
theorem run_minStakeKept {s₀ s : State α H B} {h : List (Record α H B)} (run : Run (step T) s₀ h s)
    (start : s₀.validatorStakes = ∅) (leaves : ∀ e ∈ h, LeavesMinStake T e.1 e.2) :
    MinStakeKept T h s := by
  refine run.history_invariant (I := MinStakeKept T) ?_ leaves
    fun _ _ _ _ _ inv hleaves hstep => inv.step hleaves hstep
  refine ⟨fun v stake hstake => ?_, fun v hv => ?_⟩
  · rw [start] at hstake
    cases hstake
  · rw [start] at hv
    cases hv

theorem run_minStakeKept_devRound :
    ∃ h s, Run (step devConfig) devState h s ∧ s.stakeOf 1 = 1800000000000 ∧
      MinStakeKept devConfig h s := by
  obtain ⟨h, s, run, hcheck⟩ := exists_run_of_exec (step devConfig) devState
    (devRound ++ [.dispatch (.signed 1) (.stake 2000000000000), .onInitialize 2,
      .dispatch (.signed 1) (.unstake 1000000000000),
      .dispatch (.signed 2) (.reportMisbehavior 1 .other)])
    (fun r => decide (r.2.stakeOf 1 = 1800000000000 ∧
      ∀ e ∈ r.1, LeavesMinStake devConfig e.1 e.2)) (by decide +kernel)
  obtain ⟨hstake, hleaves⟩ := of_decide_eq_true hcheck
  exact ⟨h, s, run, hstake, run_minStakeKept run rfl hleaves⟩

/-- A report makes a participant without any stake of an account that never staked. -/
theorem not_minStakeKept :
    ∃ h s, Run (step devConfig) devState h s ∧ devState.validatorStakes = ∅ ∧
      ¬MinStakeKept devConfig h s := by
  obtain ⟨h, s, run, hcheck⟩ := exists_run_of_exec (step devConfig) devState
    [.dispatch (.signed 2) (.reportMisbehavior 3 .other)]
    (fun r => decide (r.2.validatorStakes.get 3 = some 0 ∧ ¬devConfig.minStake ≤ 0)) (by decide +kernel)
  obtain ⟨hstake, hmin⟩ := of_decide_eq_true hcheck
  exact ⟨h, s, run, rfl, fun hkept => hmin (hkept.minimum 3 0 hstake)⟩

end GhostConsensus
