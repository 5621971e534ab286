import GhostConsensus.Entries
import GhostConsensus.Runtime

/-!
# Repeated reports

A report of a double signing or of an invalid block is put on file, and the file is never read: a
report that is on file already slashes what is left of the stake once more. It leaves the stake as it
is only if its slash rounds to nothing, or panics.
-/

namespace GhostConsensus

open Transition MachineInt

variable {α H B : Type} [AccountId α] [DecidableEq H]

section Definitions

variable (T : Config α H B)

/-- No report in the history changes the entry of an account for which the same is on file already. -/
def NotPunishedAgain (h : List (Record α H B)) : Prop :=
  ∀ post pre s a s', h = post ++ (s, a) :: pre → step T s a = some s' →
    ∀ v reason, a.call.bind Call.report = some (v, reason) → onFile s v reason = true →
      s'.validatorStakes.get v = s.validatorStakes.get v

/-- A slash of `percentage` of `stake` panics or takes nothing. -/
def Negligible (stake : U128) (percentage : U8) : Prop :=
  ∀ product ∈ mulChecked T.overflowChecks stake (percentage.setWidth 128), product < 100

instance (stake : U128) (percentage : U8) : Decidable (Negligible T stake percentage) :=
  inferInstanceAs (Decidable (∀ _ ∈ _, _))

/-- If an action reports what is on file already, the slash is negligible. -/
def RepeatsNegligible (s : State α H B) (a : Action α H) : Prop :=
  ∀ c ∈ a.call.bind Call.report, onFile s c.1 c.2 = true →
    Negligible T (s.stakeOf c.1) (slashPercentage T c.2)

instance (s : State α H B) (a : Action α H) : Decidable (RepeatsNegligible T s a) :=
  inferInstanceAs (Decidable (∀ _ ∈ _, _ → _))

/-- Whoever has a report on file has an entry. -/
def FiledHaveEntries (s : State α H B) : Prop :=
  ∀ v reason, onFile s v reason = true → (s.validatorStakes.get v).isSome = true

end Definitions

variable {T : Config α H B}

/-! ## What is on file -/

/-- What is on file after a step was on file before, or has been reported in the step. -/
theorem step_onFile {s s' : State α H B} {a : Action α H} {v : α} {reason : SlashingReason}
    (h : step T s a = some s') (hfile : onFile s' v reason = true) :
    onFile s v reason = true ∨ (succeeded T (s, a)).bind Call.report = some (v, reason) := by
  have hkept : s'.doubleSignReports = s.doubleSignReports →
      s'.invalidBlockReports = s.invalidBlockReports → onFile s v reason = true := by
    intro hdouble hinvalid
    cases reason with
    | doubleSigning => rwa [onFile, ← hdouble]
    | invalidBlock => rwa [onFile, ← hinvalid]
    | downtime | other => cases hfile
  cases step_effect h with
  | rejected | submitted | staked | unstaked | validated | registered => exact Or.inl (hkept rfl rfl)
  | @reported _ validator reported amount hsucc =>
    by_cases hsame : v = validator ∧ reason = reported
    · obtain ⟨rfl, rfl⟩ := hsame
      exact Or.inr (by rw [hsucc]; rfl)
    · rw [← onFile_recordReport_of_ne s hsame]
      cases reason <;> exact Or.inl hfile
  | initialized hinit =>
    obtain ⟨_, _, _, _, _, rfl⟩ := onInitialize_frame hinit
    exact Or.inl (hkept rfl rfl)
  | finalized => exact Or.inl (hkept (by rw [onFinalize_eq]) (by rw [onFinalize_eq]))

/-- A step leaves the entries that there are, and a report makes one. -/
theorem step_isSome {s s' : State α H B} {a : Action α H} (h : step T s a = some s') (v : α)
    (hentry : (s.validatorStakes.get v).isSome = true ∨
      ∃ reason, (succeeded T (s, a)).bind Call.report = some (v, reason)) :
    (s'.validatorStakes.get v).isSome = true := by
  cases step_entry h v with
  | staked _ _ _ hafter | unstaked _ _ _ hafter | reported _ _ hafter | checked _ _ _ _ hafter =>
    rw [hafter]
    rfl
  | unchanged _ _ hreport _ hafter =>
    rcases hentry with hentry | ⟨reason, hcall⟩
    · rwa [hafter]
    · exact absurd hcall (hreport reason)

theorem run_filedHaveEntries {s₀ s : State α H B} {h : List (Record α H B)}
    (run : Run (step T) s₀ h s) (start : FiledHaveEntries s₀) : FiledHaveEntries s := by
  refine run.invariant start fun t a t' ht hstep v reason hfile => step_isSome hstep v ?_
  rcases step_onFile hstep hfile with hfile | hcall
  · exact Or.inl (ht v reason hfile)
  · exact Or.inr ⟨reason, hcall⟩

/-! ## What a report leaves -/

omit [AccountId α] [DecidableEq H] in
theorem negligible_iff {stake amount : U128} {percentage : U8}
    (h : slashAmount T stake percentage = .ok amount) :
    Negligible T stake percentage ↔ saturatingSub stake amount = stake := by
  obtain ⟨hmul, rfl⟩ := slashAmount_eq_ok.1 h
  have hzero : stake.toNat = 0 → (stake * percentage.setWidth 128).toNat = 0 := fun hstake => by
    rw [BitVec.toNat_mul, hstake, Nat.zero_mul, Nat.zero_mod]
  have hdiv : (stake * percentage.setWidth 128 / 100).toNat =
      (stake * percentage.setWidth 128).toNat / 100 := BitVec.toNat_udiv
  have hsmall : Negligible T stake percentage ↔ (stake * percentage.setWidth 128).toNat < 100 := by
    rw [Negligible, hmul]
    exact ⟨fun h => BitVec.lt_def.1 (h _ rfl), fun h _ hp => Option.some.inj hp ▸ BitVec.lt_def.2 h⟩
  rw [hsmall, BitVec.toNat_inj.symm, toNat_saturatingSub, hdiv]
  omega

/-- A report leaves the entry of an account exactly if its slash is negligible. -/
theorem report_leaves_iff {s s' : State α H B} {a : Action α H} {v : α} {reason : SlashingReason}
    (h : step T s a = some s') (hcall : a.call.bind Call.report = some (v, reason))
    (hentry : (s.validatorStakes.get v).isSome = true) :
    s'.validatorStakes.get v = s.validatorStakes.get v ↔
      Negligible T (s.stakeOf v) (slashPercentage T reason) := by
  obtain ⟨stake, hget⟩ := Option.isSome_iff_exists.1 hentry
  obtain ⟨reporter, rfl⟩ := eq_dispatch_of_report hcall
  cases step_effect h with
  | rejected hsucc =>
    have hpanic := mulChecked_of_report (by rw [hsucc]; rfl) _ hcall
    rw [Negligible, hpanic]
    exact ⟨fun _ _ hproduct => (by cases hproduct), fun _ => rfl⟩
  | @reported _ _ _ amount hsucc hamount =>
    have hafter : (applySlash (recordReport s v reason) v reason (s.stakeOf v)
        amount).validatorStakes.get v = some (saturatingSub (s.stakeOf v) amount) :=
      (recordReport s v reason).validatorStakes.get_insert_self v _
    rw [hafter, hget, negligible_iff hamount, stakeOf_of_get hget, Option.some.injEq]

/-- Starting with nothing on file, a run punishes no report twice exactly if the slash of every
report that is on file already is negligible. -/
theorem run_notPunishedAgain_iff {s₀ s : State α H B} {h : List (Record α H B)}
    (run : Run (step T) s₀ h s) (doubleSign : s₀.doubleSignReports = .empty)
    (invalidBlock : s₀.invalidBlockReports = .empty) :
    NotPunishedAgain T h ↔ ∀ e ∈ h, RepeatsNegligible T e.1 e.2 := by
  have start : FiledHaveEntries s₀ := by
    intro v reason hfile
    cases reason with
    | doubleSigning =>
      rw [onFile, doubleSign] at hfile
      cases hfile
    | invalidBlock =>
      rw [onFile, invalidBlock] at hfile
      cases hfile
    | downtime | other => cases hfile
  constructor
  · rintro hnot ⟨t, a⟩ he ⟨v, reason⟩ hcall hfile
    obtain ⟨post, pre, rfl⟩ := List.append_of_mem he
    obtain ⟨hpre, t', hstep, -⟩ := run.at_step
    exact (report_leaves_iff hstep hcall (run_filedHaveEntries hpre start v reason hfile)).1
      (hnot post pre t a t' rfl hstep v reason hcall hfile)
  · rintro hneg post pre t a t' rfl hstep v reason hcall hfile
    obtain ⟨hpre, -⟩ := run.at_step
    exact (report_leaves_iff hstep hcall (run_filedHaveEntries hpre start v reason hfile)).2
      (hneg (t, a) (by simp) (v, reason) hcall hfile)

theorem run_notPunishedAgain_iff_dev :
    ∃ h s, Run (step devConfig) devState h s ∧ onFile s 1 .doubleSigning = true ∧
      NotPunishedAgain devConfig h := by
  obtain ⟨h, s, run, hcheck⟩ := exists_run_of_exec (step devConfig) devState
    [.onInitialize 1, .dispatch (.signed 1) (.stake 1000000000000),
      .dispatch (.signed 2) (.reportMisbehavior 1 .invalidBlock),
      .dispatch (.signed 2) (.reportMisbehavior 1 .doubleSigning),
      .dispatch (.signed 3) (.reportMisbehavior 1 .doubleSigning),
      .dispatch (.signed 2) (.reportMisbehavior 1 .invalidBlock)]
    (fun r => decide (onFile r.2 1 .doubleSigning = true ∧
      ∀ e ∈ r.1, RepeatsNegligible devConfig e.1 e.2)) (by decide +kernel)
  obtain ⟨hfile, hneg⟩ := of_decide_eq_true hcheck
  exact ⟨h, s, run, hfile, (run_notPunishedAgain_iff run rfl rfl).2 hneg⟩

/-- Two reports of an invalid block cost three quarters of the stake. -/
theorem not_notPunishedAgain :
    ∃ h s, Run (step devConfig) devState h s ∧ devState.invalidBlockReports = .empty ∧
      ¬NotPunishedAgain devConfig h := by
  obtain ⟨h, s, run, hcheck⟩ := exists_run_of_exec (step devConfig) devState
    [.onInitialize 1, .dispatch (.signed 1) (.stake 1000000000000),
      .dispatch (.signed 2) (.reportMisbehavior 1 .invalidBlock)]
    (fun r => decide (onFile r.2 1 .invalidBlock = true ∧ r.2.stakeOf 1 = 500000000000 ∧
      ∃ s' ∈ step devConfig r.2 (.dispatch (.signed 3) (.reportMisbehavior 1 .invalidBlock)),
        s'.stakeOf 1 = 250000000000)) (by decide +kernel)
  obtain ⟨hfile, hstake, s', hstep, hstake'⟩ := of_decide_eq_true hcheck
  refine ⟨_, s', run.cons hstep, rfl, fun hnot => ?_⟩
  have hsame := hnot [] h s _ s' rfl hstep 1 .invalidBlock rfl hfile
  rw [State.stakeOf, hsame, ← State.stakeOf, hstake] at hstake'
  cases hstake'

end GhostConsensus
