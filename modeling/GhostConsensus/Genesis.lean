import GhostConsensus.Runtime

/-!
# The chain at genesis

Every header is accepted on top of a stored one, and at genesis no header is stored, so no block is
ever accepted.
-/

namespace GhostConsensus

open Transition

variable {α H B : Type} [AccountId α] [DecidableEq H]

/-- Some continuation from `s` accepts a block. -/
def CanSubmit (T : Config α H B) (s : State α H B) : Prop :=
  ∃ h s', Run (step T) s h s' ∧ ∃ e ∈ h, (submission T e).isSome = true

variable {T : Config α H B}

/-- Without a stored header a step accepts no block and stores no header. -/
theorem step_of_empty {s s' : State α H B} {a : Action α H} (hs : s.blockHeaders = .empty)
    (h : step T s a = some s') : submission T (s, a) = none ∧ s'.blockHeaders = .empty := by
  cases step_chain h with
  | accepted _ _ _ haccepts =>
    have hparent := haccepts.parent_stored
    rw [hs] at hparent
    cases hparent
  | closed _ _ _ hcloses =>
    have hheader := hcloses.header_stored
    rw [hs] at hheader
    cases hheader
  | reopened _ _ hsub => exact ⟨hsub, hs⟩
  | unchanged hsub _ _ hsame => exact ⟨hsub, hsame.blockHeaders.trans hs⟩

theorem run_of_empty {s s' : State α H B} {h : List (Record α H B)} (run : Run (step T) s h s')
    (hs : s.blockHeaders = .empty) :
    s'.blockHeaders = .empty ∧ ∀ e ∈ h, submission T e = none := by
  induction run with
  | nil => exact ⟨hs, fun _ he => (List.not_mem_nil he).elim⟩
  | cons run hstep ih =>
    obtain ⟨hempty, hnone⟩ := ih
    obtain ⟨hsub, hempty'⟩ := step_of_empty hempty hstep
    refine ⟨hempty', fun e he => ?_⟩
    rcases List.mem_cons.1 he with rfl | he
    · exact hsub
    · exact hnone e he

theorem not_canSubmit_of_empty {s : State α H B} (hs : s.blockHeaders = .empty) :
    ¬CanSubmit T s := by
  rintro ⟨h, s', run, e, he, hsub⟩
  rw [(run_of_empty run hs).2 e he] at hsub
  cases hsub

/-- From no state that a chain reaches after genesis is there a way to a first block. -/
theorem genesis_stuck {balances : B} {s : State α H B} {h : List (Record α H B)}
    (run : Run (step T) (genesis balances) h s) : ¬CanSubmit T s :=
  not_canSubmit_of_empty (run_of_empty run rfl).1

theorem genesis_stuck_dev :
    ∃ h s, Run (step devConfig) (genesis devAccounts) h s ∧ h.length = 5 ∧
      ¬CanSubmit devConfig s := by
  obtain ⟨h, s, run, hcheck⟩ := exists_run_of_exec (step devConfig) (genesis devAccounts) devRound
    (fun r => decide (r.1.length = 5)) (by decide +kernel)
  exact ⟨h, s, run, of_decide_eq_true hcheck, genesis_stuck run⟩

/-- Not even the genesis of the runtime leads to a block. -/
theorem genesis_not_live :
    ¬∀ h s, Run (step devConfig) (genesis devAccounts) h s → CanSubmit devConfig s :=
  fun hlive => not_canSubmit_of_empty rfl (hlive [] _ Run.nil)

end GhostConsensus
