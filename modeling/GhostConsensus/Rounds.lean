import GhostConsensus.Rewards
import GhostConsensus.Runtime

/-!
# Rounds

A round is opened by an accepted block and closed by a validation. `PhaseStep` is the machine of the
three phases; every step of the pallet is one of its steps (`step_phase`). Hence blocks and
validations alternate, a runtime block sees at most one of each, and what is minted is bounded by
the block reward for every accepted block.
-/

namespace GhostConsensus

open Transition

inductive RoundCall where
  | submit
  | validate
  deriving DecidableEq

variable {α H B : Type} [AccountId α] [DecidableEq H]

section Definitions

variable (T : Config α H B)

/-- Whether a step accepted a block or closed a round. -/
def roundCall (e : Record α H B) : Option RoundCall :=
  if (submission T e).isSome then some .submit
  else if (validation T e).isSome then some .validate
  else none

/-- The blocks accepted and the rounds closed in a history, oldest first. -/
def roundCalls (h : List (Record α H B)) : List RoundCall := (h.filterMap (roundCall T)).reverse

/-- What a step has minted. -/
def mintedBy (e : Record α H B) : ℕ :=
  match step T e.1 e.2 with
  | some s' => T.currency.totalIssuance s'.balances - T.currency.totalIssuance e.1.balances
  | none => 0

/-- What a history has minted. -/
def minted (h : List (Record α H B)) : ℕ := (h.map (mintedBy T)).sum

end Definitions

variable {T : Config α H B}

/-! ## The phases -/

/-- The machine of the phases: how an action moves the phase, and the call it takes part in. -/
inductive PhaseStep (a : Action α H) (call : Option RoundCall) (phase phase' : ConsensusPhase) : Prop
  | submit : call = some .submit → phase = .powMining → phase' = .posValidation →
      PhaseStep a call phase phase'
  | validate : call = some .validate → phase = .posValidation → phase' = .finalization →
      PhaseStep a call phase phase'
  | reopen {n : ℕ} : a = .onFinalize n → call = none → phase = .finalization →
      phase' = .powMining → PhaseStep a call phase phase'
  | stay : (∀ n, a = .onFinalize n → phase ≠ .finalization) → call = none → phase' = phase →
      PhaseStep a call phase phase'

/-- Every step of the pallet is a step of the machine of the phases. -/
theorem step_phase {s s' : State α H B} {a : Action α H} (h : step T s a = some s') :
    PhaseStep a (roundCall T (s, a)) s.currentPhase s'.currentPhase := by
  cases step_chain h with
  | accepted _ hsub _ haccepts =>
    exact .submit (by rw [roundCall, hsub]; rfl) haccepts.phase rfl
  | closed _ hsub hval hcloses =>
    exact .validate (by rw [roundCall, hsub, hval]; rfl) hcloses.phase rfl
  | reopened ha hphase hsub hval =>
    exact .reopen ha (by rw [roundCall, hsub, hval]; rfl) hphase rfl
  | unchanged hsub hval ha hsame =>
    exact .stay ha (by rw [roundCall, hsub, hval]; rfl) hsame.currentPhase

omit [AccountId α] [DecidableEq H] in
theorem PhaseStep.onFinalize_ne {n : ℕ} {call : Option RoundCall} {phase phase' : ConsensusPhase}
    (h : PhaseStep (.onFinalize n : Action α H) call phase phase') (hcall : call = none) :
    phase' ≠ .finalization := by
  cases h with
  | submit hcall' => rw [hcall] at hcall'; cases hcall'
  | validate hcall' => rw [hcall] at hcall'; cases hcall'
  | reopen _ _ _ hphase' => rw [hphase']; decide
  | stay ha _ hphase' => rw [hphase']; exact ha n rfl

omit [AccountId α] [DecidableEq H] in
/-- Before the end of the runtime block, accepting a block takes the machine out of the mining phase,
and closing a round takes it to the finalization phase for good. -/
theorem PhaseStep.count_le {a : Action α H} {call : Option RoundCall} {phase phase' : ConsensusPhase}
    (h : PhaseStep a call phase phase') (hopen : ∀ n, a ≠ .onFinalize n) :
    call.toList.count .submit + (if phase' = .powMining then 1 else 0) ≤
        (if phase = .powMining then 1 else 0) ∧
      call.toList.count .validate + (if phase' = .finalization then 0 else 1) ≤
        (if phase = .finalization then 0 else 1) := by
  cases h with
  | submit hcall hphase hphase' =>
    rw [hcall, hphase, hphase']
    decide
  | validate hcall hphase hphase' =>
    rw [hcall, hphase, hphase']
    decide
  | reopen ha => exact absurd ha (hopen _)
  | stay _ hcall hphase' =>
    rw [hcall, hphase']
    simp

theorem roundCalls_cons (e : Record α H B) (h : List (Record α H B)) :
    roundCalls T (e :: h) = roundCalls T h ++ (roundCall T e).toList := by
  rw [roundCalls, roundCalls, List.filterMap_cons]
  cases roundCall T e with
  | none => simp
  | some c => simp

/-- The calls of a run alternate, and a round is open after an odd number of them. -/
theorem roundCalls_alternate {s₀ s : State α H B} {h : List (Record α H B)}
    (run : Run (step T) s₀ h s) (start : s₀.currentPhase = .powMining) :
    Alternates .submit .validate (roundCalls T h) ∧
      (s.currentPhase = .posValidation ↔ ¬Even (roundCalls T h).length) := by
  induction run with
  | nil => exact ⟨trivial, by simp [start, roundCalls]⟩
  | @cons h s s' a run hstep ih =>
    obtain ⟨halternates, heven⟩ := ih
    rw [roundCalls_cons]
    cases step_phase hstep with
    | submit hcall hphase hphase' =>
      have hlength : Even (roundCalls T h).length := by
        by_contra hodd
        have := heven.2 hodd
        rw [hphase] at this
        cases this
      rw [hcall, Option.toList_some, alternates_concat]
      refine ⟨⟨halternates, (if_pos hlength).symm⟩, ?_⟩
      simp [hphase', hlength, Nat.even_add_one]
    | validate hcall hphase hphase' =>
      have hlength := heven.1 hphase
      rw [hcall, Option.toList_some, alternates_concat]
      refine ⟨⟨halternates, (if_neg hlength).symm⟩, ?_⟩
      simp [hphase', hlength, Nat.even_add_one]
    | reopen _ hcall hphase hphase' =>
      rw [hcall, Option.toList_none, List.append_nil]
      refine ⟨halternates, ?_⟩
      rw [hphase', ← heven, hphase]
      decide
    | stay _ hcall hphase' =>
      rw [hcall, Option.toList_none, List.append_nil, hphase']
      exact ⟨halternates, heven⟩

/-- Between two ends of a runtime block at most one block is accepted and one round is closed: a
block is only accepted in the mining phase, which ends with it, and the finalization phase lasts. -/
theorem roundCalls_in_block {s₀ s : State α H B} {h : List (Record α H B)}
    (run : Run (step T) s₀ h s) (hopen : ∀ e ∈ h, ∀ n, e.2 ≠ .onFinalize n) :
    (roundCalls T h).count .submit + (if s.currentPhase = .powMining then 1 else 0) ≤ 1 ∧
      (roundCalls T h).count .validate + (if s.currentPhase = .finalization then 0 else 1) ≤ 1 := by
  induction run with
  | nil =>
    simp only [roundCalls, List.filterMap_nil, List.reverse_nil, List.count_nil]
    constructor <;> split <;> omega
  | @cons h s s' a run hstep ih =>
    obtain ⟨hsubmit, hvalidate⟩ := ih fun e he => hopen e (List.mem_cons_of_mem _ he)
    obtain ⟨hsubmit', hvalidate'⟩ := (step_phase hstep).count_le (hopen _ List.mem_cons_self)
    rw [roundCalls_cons, List.count_append, List.count_append]
    exact ⟨by omega, by omega⟩

/-! ## What is minted -/

theorem mintedBy_of_step {s s' : State α H B} {a : Action α H} (h : step T s a = some s') :
    mintedBy T (s, a) =
      T.currency.totalIssuance s'.balances - T.currency.totalIssuance s.balances := by
  rw [mintedBy, h]

/-- Only the closing of a round mints, and then at most the block reward. -/
theorem mintedBy_le {ed : U128} (lawful : T.currency.Lawful ed) {s s' : State α H B}
    {a : Action α H} (h : step T s a = some s')
    (fits : (validation T (s, a)).isSome = true →
      RewardFits T s.stakers ∧ (T.overflowChecks = true ∨ s.totalStake < 2 ^ 128)) :
    mintedBy T (s, a) ≤ T.blockReward.toNat * (roundCall T (s, a)).toList.count .validate := by
  have hnone : T.currency.totalIssuance s'.balances ≤ T.currency.totalIssuance s.balances →
      mintedBy T (s, a) ≤ T.blockReward.toNat * (roundCall T (s, a)).toList.count .validate := by
    intro hle
    rw [mintedBy_of_step h, Nat.sub_eq_zero_of_le hle]
    exact Nat.zero_le _
  cases step_effect h with
  | rejected | submitted | registered => exact hnone le_rfl
  | staked _ _ htransfer | unstaked _ _ _ htransfer => exact hnone (lawful.issuance htransfer)
  | @reported _ _ reason => cases reason <;> exact hnone le_rfl
  | initialized hinit => exact hnone (onInitialize_balances hinit ▸ le_rfl)
  | finalized => exact hnone (by rw [onFinalize_eq])
  | @validated validator _ n sig _ _ _ _ hsucc hcloses =>
    have hsub := submission_of_succeeded hsucc
    have hval := validation_of_succeeded hsucc
    obtain ⟨hfits, hsum⟩ := fits (by rw [hval]; rfl)
    have hcall : roundCall T (s, .dispatch (.signed validator) (.validateBlock n sig)) =
        some .validate := by
      rw [roundCall, hsub, hval]
      rfl
    have hle := totalIssuance_closes_le lawful hcloses hsum hfits
    rw [mintedBy_of_step h, hcall]
    simp only [Option.toList_some, List.count_singleton_self, Nat.mul_one]
    exact Nat.sub_le_iff_le_add'.2 hle

theorem minted_le {ed : U128} (lawful : T.currency.Lawful ed) {s₀ s : State α H B}
    {h : List (Record α H B)} (run : Run (step T) s₀ h s)
    (fits : ∀ e ∈ h, (validation T e).isSome = true →
      RewardFits T e.1.stakers ∧ (T.overflowChecks = true ∨ e.1.totalStake < 2 ^ 128)) :
    minted T h ≤ T.blockReward.toNat * (roundCalls T h).count .validate := by
  induction run with
  | nil => exact Nat.zero_le _
  | cons run hstep ih =>
    have hrest := ih fun e he => fits e (List.mem_cons_of_mem _ he)
    have hlast := mintedBy_le lawful hstep (fits _ List.mem_cons_self)
    rw [roundCalls_cons, List.count_append, Nat.mul_add, minted, List.map_cons, List.sum_cons,
      Nat.add_comm]
    exact Nat.add_le_add hrest hlast

/-! ## The protocol of the phases -/

/-- The protocol of the phases, of a history. -/
structure PhaseProtocol (T : Config α H B) (h : List (Record α H B)) : Prop where
  alternate : Alternates .submit .validate (roundCalls T h)
  once_per_block : ∀ block, block <:+: h → (∀ e ∈ block, ∀ n, e.2 ≠ .onFinalize n) →
    (roundCalls T block).count .submit ≤ 1 ∧ (roundCalls T block).count .validate ≤ 1
  after_finalize : ∀ e ∈ h, ∀ n, e.2 = .onFinalize n → ∀ s', step T e.1 e.2 = some s' →
    s'.currentPhase = .powMining ∨ s'.currentPhase = .posValidation
  issuance : minted T h ≤ T.blockReward.toNat * (roundCalls T h).count .submit

/-- Every run from the mining phase follows the protocol, as long as the arithmetic of the rewards
does not overflow: the multiplications fit, and so does the sum of the stakes where an overflow
would wrap. -/
theorem run_phaseProtocol {ed : U128} (lawful : T.currency.Lawful ed) {s₀ s : State α H B}
    {h : List (Record α H B)} (run : Run (step T) s₀ h s) (start : s₀.currentPhase = .powMining)
    (fits : ∀ e ∈ h, (validation T e).isSome = true →
      RewardFits T e.1.stakers ∧ (T.overflowChecks = true ∨ e.1.totalStake < 2 ^ 128)) :
    PhaseProtocol T h where
  alternate := (roundCalls_alternate run start).1
  once_per_block := by
    rintro block ⟨post, pre, rfl⟩ hopen
    rw [List.append_assoc] at run
    obtain ⟨_, hrun, -⟩ := run.split
    obtain ⟨_, -, hblock⟩ := hrun.split
    obtain ⟨hsubmit, hvalidate⟩ := roundCalls_in_block hblock hopen
    exact ⟨by omega, by omega⟩
  after_finalize := by
    rintro ⟨t, a⟩ - n rfl s' hstep
    have hne := (step_phase hstep).onFinalize_ne rfl
    cases hphase : s'.currentPhase with
    | powMining => exact Or.inl rfl
    | posValidation => exact Or.inr rfl
    | finalization => exact absurd hphase hne
  issuance := by
    have hcount := (roundCalls_alternate run start).1.count_eq (by decide)
    refine (minted_le lawful run fits).trans (Nat.mul_le_mul_left _ ?_)
    omega

theorem run_phaseProtocol_devRound :
    ∃ h s, Run (step devConfig) devState h s ∧ roundCalls devConfig h = [.submit, .validate] ∧
      PhaseProtocol devConfig h := by
  obtain ⟨h, s, run, hcheck⟩ := exists_run_of_exec (step devConfig) devState devRound
    (fun r => decide (roundCalls devConfig r.1 = [.submit, .validate] ∧
      ∀ e ∈ r.1, (validation devConfig e).isSome = true →
        RewardFits devConfig e.1.stakers ∧ e.1.totalStake < 2 ^ 128)) (by decide +kernel)
  obtain ⟨hcalls, hfits⟩ := of_decide_eq_true hcheck
  exact ⟨h, s, run, hcalls, run_phaseProtocol (Accounts.currency_lawful existentialDeposit) run rfl
    fun e he hval => ⟨(hfits e he hval).1, Or.inr (hfits e he hval).2⟩⟩

/-- The runtime with a block reward of `1`. -/
def smallRewardConfig : Config ℕ (List ℕ) (Accounts ℕ) := { devConfig with blockReward := 1 }

/-- Stakes whose sum wraps to `1`. -/
def overflowState : State ℕ (List ℕ) (Accounts ℕ) :=
  { devState with
    validatorStakes := ((devState.validatorStakes.insert 1 (1 <<< 127)).insert 2 (1 <<< 127)).insert
      3 1 }

/-- Without the bound on the sum of the stakes the issuance exceeds the rewards: the total stake
wraps, and every staker gets a share out of a total of `1`. -/
theorem not_phaseProtocol_of_overflow :
    ∃ h s, Run (step smallRewardConfig) overflowState h s ∧
      overflowState.currentPhase = .powMining ∧
      smallRewardConfig.currency.Lawful existentialDeposit ∧
      (∀ e ∈ h, (validation smallRewardConfig e).isSome = true →
        RewardFits smallRewardConfig e.1.stakers) ∧
      ¬PhaseProtocol smallRewardConfig h := by
  obtain ⟨h, s, run, hcheck⟩ := exists_run_of_exec (step smallRewardConfig) overflowState
    [.dispatch (.signed 2) (.submitBlock devBlock),
      .dispatch (.signed 1) (.validateBlock 1 ⟨0⟩)]
    (fun r => decide ((∀ e ∈ r.1, (validation smallRewardConfig e).isSome = true →
        RewardFits smallRewardConfig e.1.stakers) ∧
      1 * (roundCalls smallRewardConfig r.1).count .submit < minted smallRewardConfig r.1))
    (by decide +kernel)
  obtain ⟨hfits, hminted⟩ := of_decide_eq_true hcheck
  exact ⟨h, s, run, rfl, Accounts.currency_lawful existentialDeposit, hfits,
    fun hprotocol => absurd hprotocol.issuance (not_le.2 hminted)⟩

end GhostConsensus
