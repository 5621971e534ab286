import GhostConsensus.Lib.Abort
import GhostConsensus.Logarithm
import GhostConsensus.Runtime

/-!
# Builds with and without overflow checks

The build with overflow checks does what the build without them does, or panics. The build without
them never panics: an addition, a subtraction or a multiplication cannot stop it, and wherever the
pallet divides by a number that it has computed it has made sure before that this is not zero. The
rule for a function follows its text, with the arithmetic at the leaves.
-/

namespace GhostConsensus

open Transition MachineInt Abort

variable {α H B : Type}

/-- The same pallet in a build whose arithmetic wraps. -/
def Config.unchecked (T : Config α H B) : Config α H B := { T with overflowChecks := false }

/-! ## The failure monad -/

section Leaves

variable {σ : Type} {w : ℕ} {never : Failure → Prop}

theorem guards_of_dispatch {x : Except Failure σ} (h : ∀ f, x = .error f → ∃ d, f = .dispatch d) :
    Guards .panic (· = .panic) x x := by
  refine .refl fun f hf heq => ?_
  obtain ⟨d, rfl⟩ := h f hf
  cases heq

theorem guards_ensureSigned (o : Origin σ) :
    Guards .panic (· = .panic) (ensureSigned o) (ensureSigned o) :=
  guards_of_dispatch fun _ h => ⟨_, (ensureSigned_eq_error.1 h).2⟩

theorem guards_ensure (c : Prop) [Decidable c] (error : Error) :
    Guards .panic (· = .panic) (ensure c error) (ensure c error) :=
  guards_of_dispatch fun _ h => ⟨_, (ensure_eq_error.1 h).2⟩

theorem guards_okOr (x : Option σ) (error : Error) :
    Guards .panic (· = .panic) (okOr x error) (okOr x error) :=
  guards_of_dispatch fun _ h => ⟨_, (okOr_eq_error.1 h).2⟩

theorem guards_mapError (x : Except DispatchError σ) :
    Guards .panic (· = .panic) (x.mapError Failure.dispatch) (x.mapError Failure.dispatch) := by
  refine guards_of_dispatch fun f h => ?_
  cases x with
  | ok a => cases h
  | error d => exact ⟨d, (Except.error.inj h).symm⟩

/-- An operation that gives `y` unless the checks stop it. -/
theorem guards_orPanic {x : Option σ} {y : σ} (h : x = none ∨ x = some y) :
    Guards .panic never (orPanic x) (orPanic (some y)) := by
  refine ⟨?_, fun _ heq => by cases heq⟩
  rcases h with rfl | rfl
  · exact .inl rfl
  · exact .inr rfl

theorem guards_addChecked (a b : BitVec w) :
    Guards .panic never (orPanic (addChecked true a b)) (orPanic (addChecked false a b)) := by
  apply guards_orPanic
  unfold addChecked
  split
  · exact .inl rfl
  · exact .inr rfl

theorem guards_subChecked (a b : BitVec w) :
    Guards .panic never (orPanic (subChecked true a b)) (orPanic (subChecked false a b)) := by
  apply guards_orPanic
  unfold subChecked
  split
  · exact .inl rfl
  · exact .inr rfl

theorem guards_mulChecked (a b : BitVec w) :
    Guards .panic never (orPanic (mulChecked true a b)) (orPanic (mulChecked false a b)) := by
  apply guards_orPanic
  unfold mulChecked
  split
  · exact .inl rfl
  · exact .inr rfl

theorem guards_divChecked (a : BitVec w) {b : BitVec w} (h : b ≠ 0) :
    Guards .panic never (orPanic (divChecked a b)) (orPanic (divChecked a b)) := by
  rw [divChecked_of_ne a h]
  exact guards_ok _

theorem guards_remChecked (a : BitVec w) {b : BitVec w} (h : b ≠ 0) :
    Guards .panic never (orPanic (remChecked a b)) (orPanic (remChecked a b)) := by
  rw [remChecked_of_ne a h]
  exact guards_ok _

theorem orPanic_foldlM (checks : Bool) :
    ∀ (l : List (BitVec w)) (a : BitVec w), orPanic (l.foldlM (addChecked checks) a) =
      l.foldlM (fun a b => orPanic (addChecked checks a b)) a
  | [], _ => rfl
  | b :: l, a => by
      rw [List.foldlM_cons, List.foldlM_cons]
      cases addChecked checks a b with
      | none => rfl
      | some c => exact orPanic_foldlM checks l c

theorem guards_sumChecked (l : List (BitVec w)) :
    Guards .panic never (orPanic (sumChecked true l)) (orPanic (sumChecked false l)) := by
  unfold sumChecked
  rw [orPanic_foldlM, orPanic_foldlM]
  exact Guards.foldlM guards_addChecked l 0

end Leaves

/-! ## Core functions -/

section Functions

variable (T : Config α H B) {never : Failure → Prop}

theorem guards_validateBlockHeader [DecidableEq H] (expectedDifficulty : U64)
    (header parent : GhostBlockHeader H) :
    Guards .panic (· = .panic) (validateBlockHeader T.checked expectedDifficulty header parent)
      (validateBlockHeader T.unchecked expectedDifficulty header parent) := by
  unfold validateBlockHeader
  refine (guards_addChecked _ _).bind fun next => ?_
  refine (guards_ensure _ _).bind fun _ => ?_
  refine (guards_ensure _ _).bind fun _ => ?_
  refine (guards_ensure _ _).bind fun _ => ?_
  refine (guards_ensure _ _).bind fun _ => ?_
  exact guards_ensure _ _

theorem guards_selectLoop (round randomValue : U64) :
    ∀ (stakers : List (ValidatorStake α)) (cumulativeWeight : U64),
      Guards .panic never (selectLoop T.checked round randomValue cumulativeWeight stakers)
        (selectLoop T.unchecked round randomValue cumulativeWeight stakers)
  | [], _ => guards_ok _
  | staker :: stakers, cumulativeWeight => by
      unfold selectLoop
      refine (guards_addChecked _ _).bind fun next => ?_
      exact (guards_pure _).ite (guards_selectLoop round randomValue stakers next)

theorem guards_selectPosValidator (runtimeBlock : ℕ) (stakers : List (ValidatorStake α)) (seed : H) :
    Guards .panic never (selectPosValidator T.checked runtimeBlock stakers seed)
      (selectPosValidator T.unchecked runtimeBlock stakers seed) := by
  unfold selectPosValidator
  refine (guards_ok _).ite ((guards_sumChecked _).bind fun totalWeight => ?_)
  refine .ite_of (fun _ => guards_pure _) fun hne => ?_
  exact (guards_remChecked _ hne).bind fun randomValue => guards_selectLoop T _ randomValue stakers 0

theorem guards_calculateBlockReward (totalReward : U128) :
    Guards .panic never (calculateBlockReward T.checked totalReward)
      (calculateBlockReward T.unchecked totalReward) := by
  unfold calculateBlockReward
  refine (guards_mulChecked _ _).bind fun product => ?_
  refine (guards_subChecked _ _).bind fun stakersReward => ?_
  exact guards_pure _

theorem guards_payStaker (stakersReward : U128) {totalStake : U128} (hne : totalStake ≠ 0)
    (balances : B) (staker : ValidatorStake α) :
    Guards .panic never (payStaker T.checked stakersReward totalStake balances staker)
      (payStaker T.unchecked stakersReward totalStake balances staker) := by
  unfold payStaker
  refine (guards_mulChecked _ _).bind fun product => ?_
  exact (guards_divChecked product hne).bind fun stakerReward => guards_pure _

theorem guards_distributeRewards (miner : α) (stakers : List (ValidatorStake α))
    (reward : BlockReward) (balances : B) :
    Guards .panic never (distributeRewards T.checked miner stakers reward balances)
      (distributeRewards T.unchecked miner stakers reward balances) := by
  unfold distributeRewards
  refine (guards_sumChecked _).bind fun totalStake => ?_
  exact .ite_of (fun _ => guards_pure _) fun hne =>
    Guards.foldlM (guards_payStaker T _ hne) stakers _

theorem guards_integerLog2Scaled (x : U64) :
    Guards .panic never (integerLog2Scaled T.checked x) (integerLog2Scaled T.unchecked x) := by
  unfold integerLog2Scaled
  refine (guards_ok _).ite ?_
  have hbit : (1 : U64) <<< (63 - leadingZeros x) ≠ 0 := one_shiftLeft_ne_zero (by omega)
  refine (guards_mulChecked _ _).bind fun product => ?_
  refine (guards_divChecked product hbit).bind fun fractionalPart => ?_
  refine (guards_mulChecked _ _).bind fun scaled => ?_
  exact guards_addChecked _ _

theorem guards_addEntropyTerm (log2Total : U64) {totalCount : U64} (hne : totalCount ≠ 0)
    (totalEntropy count : U64) :
    Guards .panic never (addEntropyTerm T.checked log2Total totalCount totalEntropy count)
      (addEntropyTerm T.unchecked log2Total totalCount totalEntropy count) := by
  unfold addEntropyTerm
  refine (guards_integerLog2Scaled T count).bind fun log2Count => ?_
  refine (guards_mulChecked _ _).bind fun product => ?_
  exact (guards_divChecked product hne).bind fun term => guards_pure _

variable [AccountId α]

theorem guards_countProducer (counts : BTreeMap α U64) (producer : α) :
    Guards .panic never (countProducer T.checked counts producer)
      (countProducer T.unchecked counts producer) := by
  unfold countProducer
  exact (guards_addChecked _ _).bind fun count => guards_pure _

theorem guards_calculateEntropy (producers : List α) :
    Guards .panic never (calculateEntropy T.checked producers)
      (calculateEntropy T.unchecked producers) := by
  unfold calculateEntropy
  refine .ite_of (fun _ => guards_ok _) fun hne => ?_
  refine (Guards.foldlM (guards_countProducer T) producers ∅).bind fun counts => ?_
  refine (guards_integerLog2Scaled T _).bind fun log2Total => ?_
  exact Guards.foldlM (guards_addEntropyTerm T _ hne) _ 0

end Functions

/-! ## Calls and hooks -/

section Pallet

variable [AccountId α] (T : Config α H B) (s : State α H B) {never : Failure → Prop}

theorem guards_stake (o : Origin α) (amount : U128) :
    Guards .panic (· = .panic) (stake T.checked s o amount) (stake T.unchecked s o amount) := by
  unfold stake
  refine (guards_ensureSigned o).bind fun staker => ?_
  refine (guards_ensure _ _).bind fun _ => ?_
  refine (guards_mapError _).bind fun balances => ?_
  exact (guards_addChecked _ _).bind fun newStake => guards_pure _

theorem guards_unstake (o : Origin α) (amount : U128) :
    Guards .panic (· = .panic) (unstake T.checked s o amount) (unstake T.unchecked s o amount) := by
  unfold unstake
  refine (guards_ensureSigned o).bind fun staker => ?_
  refine (guards_okOr _ _).bind fun currentStake => ?_
  refine (guards_ensure _ _).bind fun _ => ?_
  refine (guards_subChecked _ _).bind fun newStake => ?_
  exact (guards_mapError _).bind fun balances => guards_pure _

theorem guards_checkPqcSignature (validator : α) (n : U32) (sig : PqcSignature) :
    Guards .panic (· = .panic) (checkPqcSignature T.checked s validator n sig)
      (checkPqcSignature T.unchecked s validator n sig) := by
  unfold checkPqcSignature
  exact ((guards_okOr _ _).bind fun key => guards_ensure _ _).ite (guards_ok _)

theorem guards_validateBlock (o : Origin α) (n : U32) (sig : PqcSignature) :
    Guards .panic (· = .panic) (validateBlock T.checked s o n sig)
      (validateBlock T.unchecked s o n sig) := by
  unfold validateBlock
  refine (guards_ensureSigned o).bind fun validator => ?_
  refine (guards_ensure _ _).bind fun _ => ?_
  refine (guards_okOr _ _).bind fun header => ?_
  refine (guards_ensure _ _).bind fun _ => ?_
  refine (guards_selectPosValidator T _ _ _).bind fun selected => ?_
  refine (guards_okOr _ _).bind fun selection => ?_
  refine (guards_ensure _ _).bind fun _ => ?_
  refine (guards_checkPqcSignature T s _ _ _).bind fun _ => ?_
  refine (guards_calculateBlockReward T _).bind fun reward => ?_
  refine (guards_okOr _ _).bind fun miner => ?_
  exact (guards_distributeRewards T _ _ _ _).bind fun balances => guards_pure _

theorem guards_registerPqcKey (o : Origin α) (key : PqcPublicKey) :
    Guards .panic (· = .panic) (registerPqcKey s o key) (registerPqcKey s o key) := by
  unfold registerPqcKey
  exact (guards_ensureSigned o).bind fun validator => guards_pure _

omit [AccountId α] in
theorem guards_slashAmount (amount : U128) (percentage : U8) :
    Guards .panic never (slashAmount T.checked amount percentage)
      (slashAmount T.unchecked amount percentage) := by
  unfold slashAmount
  exact (guards_mulChecked _ _).bind fun product => guards_pure _

theorem guards_reportMisbehavior (o : Origin α) (validator : α) (reason : SlashingReason) :
    Guards .panic (· = .panic) (reportMisbehavior T.checked s o validator reason)
      (reportMisbehavior T.unchecked s o validator reason) := by
  unfold reportMisbehavior
  refine (guards_ensureSigned o).bind fun reporter => ?_
  refine Guards.bind ?_ fun amount => guards_pure _
  -- the percentages are constants of the configuration
  cases reason <;> exact guards_slashAmount T _ _

theorem guards_slashIfDown (entry : α × U32) :
    Guards .panic never (slashIfDown T.checked s entry) (slashIfDown T.unchecked s entry) := by
  unfold slashIfDown
  refine Guards.ite ?_ (guards_ok s)
  cases s.validatorStakes.get entry.1 with
  | none => exact guards_ok s
  | some stake => exact (guards_slashAmount T _ _).bind fun amount => guards_pure _

theorem guards_checkDowntimeSlashing :
    Guards .panic never (checkDowntimeSlashing T.checked s) (checkDowntimeSlashing T.unchecked s) := by
  unfold checkDowntimeSlashing
  exact Guards.foldlM (fun t entry => guards_slashIfDown T t entry) _ s

theorem guards_adjustDifficulty :
    Guards .panic never (adjustDifficulty T.checked s) (adjustDifficulty T.unchecked s) := by
  unfold adjustDifficulty
  refine (guards_calculateEntropy T _).bind fun entropy => ?_
  exact (guards_pure _).ite (guards_pure _)

theorem guards_onInitialize (n : ℕ) :
    Guards .panic never (onInitialize T.checked s n) (onInitialize T.unchecked s n) := by
  unfold onInitialize
  refine Guards.bind ?_ fun t => ?_
  · exact (guards_checkDowntimeSlashing T s).ite (guards_ok s)
  · exact (guards_adjustDifficulty T t).ite (guards_ok t)

variable [DecidableEq H]

theorem guards_submitBlock (o : Origin α) (header : GhostBlockHeader H) :
    Guards .panic (· = .panic) (submitBlock T.checked s o header)
      (submitBlock T.unchecked s o header) := by
  unfold submitBlock
  refine (guards_ensureSigned o).bind fun miner => ?_
  refine (guards_ensure _ _).bind fun _ => ?_
  refine (guards_ensure _ _).bind fun _ => ?_
  refine (guards_okOr _ _).bind fun parentNumber => ?_
  refine (guards_okOr _ _).bind fun parent => ?_
  exact (guards_validateBlockHeader T _ header parent).bind fun _ => guards_pure _

theorem guards_dispatch (o : Origin α) (call : Call α H) :
    Guards .panic (· = .panic) (dispatch T.checked s o call) (dispatch T.unchecked s o call) := by
  cases call with
  | submitBlock header => exact guards_submitBlock T s o header
  | stake amount => exact guards_stake T s o amount
  | unstake amount => exact guards_unstake T s o amount
  | validateBlock n sig => exact guards_validateBlock T s o n sig
  | reportMisbehavior validator reason => exact guards_reportMisbehavior T s o validator reason
  | registerPqcKey key => exact guards_registerPqcKey s o key

end Pallet

/-! ## Runs -/

variable [AccountId α] [DecidableEq H] {T : Config α H B}

/-- The action makes the pallet panic. -/
def Panics (T : Config α H B) (s : State α H B) : Action α H → Prop
  | .dispatch origin call => dispatch T s origin call = .error .panic
  | .onInitialize n => onInitialize T { s with blockNumber := n } n = .error .panic
  | .onFinalize _ => False

instance decidableEqError {σ : Type} (x : Except Failure σ) (f : Failure) :
    Decidable (x = .error f) :=
  match x with
  | .ok _ => isFalse fun h => by cases h
  | .error g => decidable_of_iff (g = f) (Except.error.injEq g f).symm.to_iff

instance (T : Config α H B) (s : State α H B) (a : Action α H) : Decidable (Panics T s a) :=
  match a with
  | .dispatch _ _ => decidableEqError _ _
  | .onInitialize _ => decidableEqError _ _
  | .onFinalize _ => instDecidableFalse

theorem step_unchecked {s : State α H B} {a : Action α H} (h : ¬Panics T.checked s a) :
    step T.checked s a = step T.unchecked s a := by
  cases a with
  | dispatch origin call => rw [step, step, (guards_dispatch T s origin call).eq h]
  | onInitialize n =>
    have hguards : Guards Failure.panic (fun _ => True) _ _ :=
      guards_onInitialize T { s with blockNumber := n } n
    rw [step, step, hguards.eq h]
  | onFinalize n => rfl

/-- The history runs in the build with overflow checks, too, and nothing panics there. -/
def RunsChecked (T : Config α H B) (s₀ : State α H B) (h : List (Record α H B)) (s : State α H B) :
    Prop :=
  Run (step T.checked) s₀ h s ∧ ∀ e ∈ h, ¬Panics T.checked e.1 e.2

/-- Every run of the build without overflow checks is one of the build with them, step by step, up to
the first action with which that build panics. -/
theorem run_unchecked {s₀ s : State α H B} {h : List (Record α H B)}
    (run : Run (step T.unchecked) s₀ h s) :
    RunsChecked T s₀ h s ∨ ∃ post pre t a, h = post ++ (t, a) :: pre ∧ RunsChecked T s₀ pre t ∧
      Panics T.checked t a := by
  induction run with
  | nil => exact .inl ⟨.nil, fun _ he => (List.not_mem_nil he).elim⟩
  | @cons h t s a _ hstep ih =>
    rcases ih with hchecked | ⟨post, pre, u, b, rfl, hpre, hpanics⟩
    · by_cases hpanics : Panics T.checked t a
      · exact .inr ⟨[], h, t, a, rfl, hchecked, hpanics⟩
      · refine .inl ⟨hchecked.1.cons ?_, fun e he => ?_⟩
        · rw [step_unchecked hpanics]
          exact hstep
        · rcases List.mem_cons.1 he with rfl | he
          · exact hpanics
          · exact hchecked.2 e he
    · exact .inr ⟨(t, a) :: post, pre, u, b, rfl, hpre, hpanics⟩

/-- A stake of `1` whose slashes overflow. -/
def wrappingState : State ℕ (List ℕ) (Accounts ℕ) :=
  { devState with validatorStakes := devState.validatorStakes.insert 1 (1 <<< 127) }

theorem run_unchecked_wrapping :
    ∃ h s, Run (step devConfig.unchecked) wrappingState h s ∧
      (∃ e ∈ h, Panics devConfig.checked e.1 e.2) ∧
      (RunsChecked devConfig wrappingState h s ∨ ∃ post pre t a, h = post ++ (t, a) :: pre ∧
        RunsChecked devConfig wrappingState pre t ∧ Panics devConfig.checked t a) := by
  obtain ⟨h, s, run, hcheck⟩ := exists_run_of_exec (step devConfig.unchecked) wrappingState
    [.onInitialize 1, .dispatch (.signed 2) (.submitBlock devBlock),
      .dispatch (.signed 2) (.reportMisbehavior 1 .other), .onFinalize 1]
    (fun r => decide (∃ e ∈ r.1, Panics devConfig.checked e.1 e.2)) (by decide +kernel)
  exact ⟨h, s, run, of_decide_eq_true hcheck, run_unchecked run⟩

/-- Without overflow checks nothing panics, and no hook fails: in every state every action is a
step. -/
theorem unchecked_total (T : Config α H B) (s : State α H B) (a : Action α H) :
    ¬Panics T.unchecked s a ∧ ∃ s', step T.unchecked s a = some s' := by
  cases a with
  | dispatch origin call =>
    have hguards := guards_dispatch T s origin call
    refine ⟨fun hpanic => hguards.fails _ hpanic rfl, ?_⟩
    rw [step]
    cases dispatch T.unchecked s origin call with
    | ok s' => exact ⟨s', rfl⟩
    | error f => exact ⟨s, rfl⟩
  | onInitialize n =>
    have hguards : Guards Failure.panic (fun _ => True) _ _ :=
      guards_onInitialize T { s with blockNumber := n } n
    refine ⟨fun hpanic => hguards.fails _ hpanic trivial, ?_⟩
    rw [step]
    cases hinit : onInitialize T.unchecked { s with blockNumber := n } n with
    | ok s' => exact ⟨s', rfl⟩
    | error f => exact absurd trivial (hguards.fails f hinit)
  | onFinalize n => exact ⟨id, _, rfl⟩

end GhostConsensus
