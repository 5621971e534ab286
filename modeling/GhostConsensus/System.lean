import GhostConsensus.Lib.Transition
import GhostConsensus.Selection

/-!
# The pallet as a transition system

A step is a call dispatched with some origin, or a hook of a runtime block. A call that fails is
rolled back. `Effect` lists what a step can do, with what the guards of the pallet established;
every invariant is proved by cases on it, or on the coarser `ChainStep`, which only looks at the
round in progress and the stored chain.
-/

namespace GhostConsensus

open Transition

inductive Call (α H : Type) where
  | submitBlock (blockHeader : GhostBlockHeader H)
  | stake (amount : U128)
  | unstake (amount : U128)
  | validateBlock (blockNumber : U32) (pqcSignature : PqcSignature)
  | reportMisbehavior (validator : α) (reason : SlashingReason)
  | registerPqcKey (publicKey : PqcPublicKey)

inductive Action (α H : Type) where
  | dispatch (origin : Origin α) (call : Call α H)
  | onInitialize (n : ℕ)
  | onFinalize (n : ℕ)

variable {α H B : Type} [AccountId α] [DecidableEq H] (T : Config α H B)

/-- Dispatch a call of the pallet. -/
def dispatch (s : State α H B) (origin : Origin α) : Call α H → Except Failure (State α H B)
  | .submitBlock blockHeader => submitBlock T s origin blockHeader
  | .stake amount => stake T s origin amount
  | .unstake amount => unstake T s origin amount
  | .validateBlock blockNumber pqcSignature => validateBlock T s origin blockNumber pqcSignature
  | .reportMisbehavior validator reason => reportMisbehavior T s origin validator reason
  | .registerPqcKey publicKey => registerPqcKey s origin publicKey

/-- One step of the runtime. A call that fails is rolled back; a hook that panics ends the run. -/
def step (s : State α H B) : Action α H → Option (State α H B)
  | .dispatch origin call =>
    match dispatch T s origin call with
    | .ok s' => some s'
    | .error _ => some s
  | .onInitialize n => (onInitialize T { s with blockNumber := n } n).toOption
  | .onFinalize n => some (onFinalize s n)

/-! ## What a recorded step was -/

/-- A recorded step: the state before it and what was done. -/
abbrev Record (α H B : Type) [AccountId α] := State α H B × Action α H

/-- The call of a step that dispatched one successfully, with its signer. -/
def succeeded (e : Record α H B) : Option (α × Call α H) :=
  match e.2 with
  | .dispatch (.signed who) call =>
    if (dispatch T e.1 (.signed who) call).isOk then some (who, call) else none
  | _ => none

/-- The call an action dispatches, with its signer. -/
def Action.call : Action α H → Option (α × Call α H)
  | .dispatch (.signed who) call => some (who, call)
  | _ => none

/-- The number of the runtime block an action starts. -/
def Action.newBlock : Action α H → Option ℕ
  | .onInitialize n => some n
  | _ => none

def Call.submission : α × Call α H → Option (α × GhostBlockHeader H)
  | (miner, .submitBlock blockHeader) => some (miner, blockHeader)
  | _ => none

def Call.validation : α × Call α H → Option (α × U32 × PqcSignature)
  | (validator, .validateBlock blockNumber pqcSignature) =>
    some (validator, blockNumber, pqcSignature)
  | _ => none

def Call.staking : α × Call α H → Option (α × U128)
  | (staker, .stake amount) => some (staker, amount)
  | _ => none

def Call.unstaking : α × Call α H → Option (α × U128)
  | (staker, .unstake amount) => some (staker, amount)
  | _ => none

def Call.report : α × Call α H → Option (α × SlashingReason)
  | (_, .reportMisbehavior validator reason) => some (validator, reason)
  | _ => none

/-- The miner and the header of a successful `submit_block`. -/
def submission (e : Record α H B) : Option (α × GhostBlockHeader H) :=
  (succeeded T e).bind Call.submission

/-- The validator and the arguments of a successful `validate_block`. -/
def validation (e : Record α H B) : Option (α × U32 × PqcSignature) :=
  (succeeded T e).bind Call.validation

/-! ## The effect of a step -/

/-- What a step from `s` can do. -/
inductive Effect (s : State α H B) : Action α H → State α H B → Prop
  | rejected {origin : Origin α} {call : Call α H} :
      succeeded T (s, .dispatch origin call) = none → Effect s (.dispatch origin call) s
  | submitted {miner : α} {header parent : GhostBlockHeader H} :
      succeeded T (s, .dispatch (.signed miner) (.submitBlock header)) =
        some (miner, .submitBlock header) →
      Accepts T s header parent →
      Effect s (.dispatch (.signed miner) (.submitBlock header)) (acceptBlock s miner header)
  | staked {staker : α} {amount : U128} {balances : B} :
      succeeded T (s, .dispatch (.signed staker) (.stake amount)) = some (staker, .stake amount) →
      T.minStake ≤ amount →
      T.currency.transfer s.balances staker T.accountId amount .keepAlive = .ok balances →
      Effect s (.dispatch (.signed staker) (.stake amount))
        (s.withStake balances staker (s.stakeOf staker + amount))
  | unstaked {staker : α} {amount currentStake : U128} {balances : B} :
      succeeded T (s, .dispatch (.signed staker) (.unstake amount)) =
        some (staker, .unstake amount) →
      s.validatorStakes.get staker = some currentStake → amount ≤ currentStake →
      T.currency.transfer s.balances T.accountId staker amount .allowDeath = .ok balances →
      Effect s (.dispatch (.signed staker) (.unstake amount))
        (s.withStake balances staker (currentStake - amount))
  | validated {validator miner : α} {n : U32} {sig : PqcSignature} {header : GhostBlockHeader H}
      {selection : PosSelection α} {reward : BlockReward} {balances : B} :
      succeeded T (s, .dispatch (.signed validator) (.validateBlock n sig)) =
        some (validator, .validateBlock n sig) →
      Closes T s validator n sig header selection reward miner balances →
      Effect s (.dispatch (.signed validator) (.validateBlock n sig))
        (closedState T s validator n sig header selection reward miner balances)
  | reported {reporter validator : α} {reason : SlashingReason} {amount : U128} :
      succeeded T (s, .dispatch (.signed reporter) (.reportMisbehavior validator reason)) =
        some (reporter, .reportMisbehavior validator reason) →
      slashAmount T (s.stakeOf validator) (slashPercentage T reason) = .ok amount →
      Effect s (.dispatch (.signed reporter) (.reportMisbehavior validator reason))
        (applySlash (recordReport s validator reason) validator reason (s.stakeOf validator) amount)
  | registered {validator : α} {key : PqcPublicKey} :
      succeeded T (s, .dispatch (.signed validator) (.registerPqcKey key)) =
        some (validator, .registerPqcKey key) →
      Effect s (.dispatch (.signed validator) (.registerPqcKey key))
        { s with validatorPqcPublicKeys := s.validatorPqcPublicKeys.insert validator key }
  | initialized {n : ℕ} {s' : State α H B} :
      onInitialize T { s with blockNumber := n } n = .ok s' → Effect s (.onInitialize n) s'
  | finalized {n : ℕ} : Effect s (.onFinalize n) (onFinalize s n)

variable {T}

theorem isOk_eq_true {ε σ : Type} {x : Except ε σ} : x.isOk = true ↔ ∃ a, x = .ok a := by
  cases x <;> simp [Except.isOk, Except.toBool]

theorem toOption_eq_some {ε σ : Type} {x : Except ε σ} {a : σ} : x.toOption = some a ↔ x = .ok a := by
  cases x <;> simp [Except.toOption]

theorem succeeded_of_eq_ok {s s' : State α H B} {who : α} {call : Call α H}
    (h : dispatch T s (.signed who) call = .ok s') :
    succeeded T (s, .dispatch (.signed who) call) = some (who, call) :=
  if_pos (isOk_eq_true.2 ⟨s', h⟩)

theorem succeeded_of_eq_error {s : State α H B} {origin : Origin α} {call : Call α H} {f : Failure}
    (h : dispatch T s origin call = .error f) :
    succeeded T (s, .dispatch origin call) = none := by
  cases origin with
  | signed who =>
    have hnot : ¬(dispatch T s (.signed who) call).isOk = true := by
      rw [isOk_eq_true, h]
      rintro ⟨a, ha⟩
      cases ha
    exact if_neg hnot
  | root => rfl
  | none => rfl

theorem dispatch_effect {s s' : State α H B} {origin : Origin α} {call : Call α H}
    (h : dispatch T s origin call = .ok s') : Effect T s (.dispatch origin call) s' := by
  cases call with
  | submitBlock header =>
    obtain ⟨miner, parent, rfl, haccepts, rfl⟩ := submitBlock_eq_ok.1 h
    exact .submitted (succeeded_of_eq_ok h) haccepts
  | stake amount =>
    obtain ⟨staker, balances, rfl, hmin, htransfer, -, rfl⟩ := stake_eq_ok.1 h
    exact .staked (succeeded_of_eq_ok h) hmin htransfer
  | unstake amount =>
    obtain ⟨staker, currentStake, balances, rfl, hget, hle, htransfer, rfl⟩ := unstake_eq_ok.1 h
    exact .unstaked (succeeded_of_eq_ok h) hget hle htransfer
  | validateBlock n sig =>
    obtain ⟨validator, header, selection, reward, miner, balances, rfl, hcloses, rfl⟩ :=
      validateBlock_eq_ok.1 h
    exact .validated (succeeded_of_eq_ok h) hcloses
  | reportMisbehavior validator reason =>
    obtain ⟨reporter, amount, rfl, hamount, rfl⟩ := reportMisbehavior_eq_ok.1 h
    exact .reported (succeeded_of_eq_ok h) hamount
  | registerPqcKey key =>
    obtain ⟨validator, rfl, rfl⟩ := registerPqcKey_eq_ok.1 h
    exact .registered (succeeded_of_eq_ok h)

theorem step_effect {s s' : State α H B} {a : Action α H} (h : step T s a = some s') :
    Effect T s a s' := by
  cases a with
  | dispatch origin call =>
    rw [step] at h
    split at h
    · rename_i t hok
      obtain rfl := Option.some.inj h
      exact dispatch_effect hok
    · rename_i f herror
      obtain rfl := Option.some.inj h
      exact .rejected (succeeded_of_eq_error herror)
  | onInitialize n =>
    rw [step] at h
    cases hinit : onInitialize T { s with blockNumber := n } n with
    | error f =>
      rw [hinit] at h
      cases h
    | ok t =>
      rw [hinit] at h
      obtain rfl := Option.some.inj h
      exact .initialized hinit
  | onFinalize n =>
    obtain rfl := Option.some.inj h
    exact .finalized

/-! ## The effect on the chain -/

/-- The two states hold the same chain, in the same phase of the same round. -/
structure SameChain (s s' : State α H B) : Prop where
  currentPhase : s'.currentPhase = s.currentPhase
  blockHeaders : s'.blockHeaders = s.blockHeaders
  blockProducers : s'.blockProducers = s.blockProducers
  lastActiveBlock : s'.lastActiveBlock = s.lastActiveBlock
  recentBlockProducers : s'.recentBlockProducers = s.recentBlockProducers

omit [DecidableEq H] in
theorem SameChain.refl (s : State α H B) : SameChain s s := ⟨rfl, rfl, rfl, rfl, rfl⟩

omit [DecidableEq H] in
theorem onInitialize_sameChain {s s' : State α H B} {n : ℕ} (h : onInitialize T s n = .ok s') :
    SameChain s s' := by
  obtain ⟨_, _, _, _, _, rfl⟩ := onInitialize_frame h
  exact ⟨rfl, rfl, rfl, rfl, rfl⟩

variable (T) in
/-- How a step acts on the chain: it accepts a block, closes a round, opens the next one, or leaves
the chain as it is. -/
inductive ChainStep (s : State α H B) (a : Action α H) : State α H B → Prop
  | accepted {miner : α} {header parent : GhostBlockHeader H} :
      a = .dispatch (.signed miner) (.submitBlock header) →
      submission T (s, a) = some (miner, header) → validation T (s, a) = none →
      Accepts T s header parent → ChainStep s a (acceptBlock s miner header)
  | closed {validator miner : α} {n : U32} {sig : PqcSignature} {header : GhostBlockHeader H}
      {selection : PosSelection α} {reward : BlockReward} {balances : B} :
      a = .dispatch (.signed validator) (.validateBlock n sig) →
      submission T (s, a) = none → validation T (s, a) = some (validator, n, sig) →
      Closes T s validator n sig header selection reward miner balances →
      ChainStep s a (closedState T s validator n sig header selection reward miner balances)
  | reopened {n : ℕ} : a = .onFinalize n → s.currentPhase = .finalization →
      submission T (s, a) = none → validation T (s, a) = none →
      ChainStep s a { s with currentPhase := .powMining }
  | unchanged {s' : State α H B} : submission T (s, a) = none → validation T (s, a) = none →
      (∀ n, a = .onFinalize n → s.currentPhase ≠ .finalization) → SameChain s s' →
      ChainStep s a s'

theorem submission_of_succeeded {e : Record α H B} {o : Option (α × Call α H)}
    (h : succeeded T e = o) : submission T e = o.bind Call.submission := by
  rw [submission, h]

theorem validation_of_succeeded {e : Record α H B} {o : Option (α × Call α H)}
    (h : succeeded T e = o) : validation T e = o.bind Call.validation := by
  rw [validation, h]

theorem step_chain {s s' : State α H B} {a : Action α H} (h : step T s a = some s') :
    ChainStep T s a s' := by
  cases step_effect h with
  | rejected hsucc =>
    exact .unchanged (submission_of_succeeded hsucc) (validation_of_succeeded hsucc)
      (fun _ ha => by cases ha) (SameChain.refl s)
  | submitted hsucc haccepts =>
    exact .accepted rfl (submission_of_succeeded hsucc) (validation_of_succeeded hsucc) haccepts
  | validated hsucc hcloses =>
    exact .closed rfl (submission_of_succeeded hsucc) (validation_of_succeeded hsucc) hcloses
  | staked hsucc | unstaked hsucc | registered hsucc =>
    exact .unchanged (submission_of_succeeded hsucc) (validation_of_succeeded hsucc)
      (fun _ ha => by cases ha) ⟨rfl, rfl, rfl, rfl, rfl⟩
  | @reported _ _ reason _ hsucc =>
    refine .unchanged (submission_of_succeeded hsucc) (validation_of_succeeded hsucc)
      (fun _ ha => by cases ha) ?_
    cases reason <;> exact ⟨rfl, rfl, rfl, rfl, rfl⟩
  | initialized hinit =>
    have hsame := onInitialize_sameChain hinit
    exact .unchanged rfl rfl (fun _ ha => by cases ha) ⟨hsame.1, hsame.2, hsame.3, hsame.4, hsame.5⟩
  | @finalized n =>
    by_cases hphase : s.currentPhase = .finalization
    · rw [onFinalize, if_pos hphase]
      exact .reopened rfl hphase rfl rfl
    · rw [onFinalize, if_neg hphase]
      exact .unchanged rfl rfl (fun _ _ => hphase) (SameChain.refl s)

/-- What `validate_block` has checked when it went through. -/
theorem closes_of_validation {s s' : State α H B} {a : Action α H} {v : α} {n : U32}
    {sig : PqcSignature} (hstep : step T s a = some s')
    (hval : validation T (s, a) = some (v, n, sig)) :
    ∃ header selection reward miner balances,
      Closes T s v n sig header selection reward miner balances := by
  cases step_chain hstep with
  | closed _ _ hval' hcloses =>
    rw [hval, Option.some.injEq, Prod.mk.injEq, Prod.mk.injEq] at hval'
    obtain ⟨rfl, rfl, rfl⟩ := hval'
    exact ⟨_, _, _, _, _, hcloses⟩
  | accepted _ _ hval' | reopened _ _ _ hval' | unchanged _ hval' =>
    rw [hval] at hval'
    cases hval'

/-! ## Calls that reach the chain -/

section Calls

variable (T)

/-- The header an action submits that the guards of `submit_block` let pass, with its miner. -/
def offered (s : State α H B) (a : Action α H) : Option (α × GhostBlockHeader H) :=
  (a.call.bind Call.submission).filter fun c => decide (Acceptable T s c.2)

/-- The reward for block `n` can be split and paid out. -/
def Rewardable (s : State α H B) (n : U32) : Prop :=
  ∃ miner ∈ s.blockProducers n, ∃ reward ∈ (calculateBlockReward T T.blockReward).toOption,
    (distributeRewards T miner s.stakers reward s.balances).isOk = true

instance (s : State α H B) (n : U32) : Decidable (Rewardable T s n) :=
  inferInstanceAs (Decidable (∃ _ ∈ _, ∃ _ ∈ _, _))

/-- The guards of `validate_block` let `validator` sign block `n`, and its rewards can be paid. -/
def Closable (s : State α H B) (validator : α) (n : U32) (sig : PqcSignature) : Prop :=
  s.validatorStakes.containsKey validator = true ∧ (s.blockHeaders n).isSome = true ∧
    s.currentPhase = .posValidation ∧ selectedValidator T s n = some validator ∧
    (checkPqcSignature T s validator n sig).isOk = true ∧ Rewardable T s n

instance (s : State α H B) (validator : α) (n : U32) (sig : PqcSignature) :
    Decidable (Closable T s validator n sig) :=
  inferInstanceAs (Decidable (_ ∧ _))

/-- The block an action validates that the guards of `validate_block` let pass, with its validator. -/
def closing (s : State α H B) (a : Action α H) : Option (α × U32 × PqcSignature) :=
  (a.call.bind Call.validation).filter fun c => decide (Closable T s c.1 c.2.1 c.2.2)

end Calls

theorem Accepts.mem_offered {s : State α H B} {miner : α} {header parent : GhostBlockHeader H}
    (h : Accepts T s header parent) :
    (miner, header) ∈ offered T s (.dispatch (.signed miner) (.submitBlock header)) :=
  Option.mem_filter_iff.2 ⟨rfl, decide_eq_true ⟨parent, h.parent_stored, h⟩⟩

omit [DecidableEq H] in
/-- Nothing else keeps `validate_block` from closing the round. -/
theorem closable_iff {s : State α H B} {validator : α} {n : U32} {sig : PqcSignature} :
    Closable T s validator n sig ↔ ∃ header selection reward miner balances,
      Closes T s validator n sig header selection reward miner balances := by
  constructor
  · rintro ⟨hkey, hheader, hphase, hselected, hsig, miner, hminer, reward, hreward, hpaid⟩
    obtain ⟨header, hheader⟩ := Option.isSome_iff_exists.1 hheader
    obtain ⟨selection, hselect, hvalidator⟩ := exists_selection hselected
    obtain ⟨_, hsig⟩ := isOk_eq_true.1 hsig
    obtain ⟨balances, hpaid⟩ := isOk_eq_true.1 hpaid
    exact ⟨header, selection, reward, miner, balances, hkey, hheader, hphase, hselect, hvalidator,
      hsig, toOption_eq_some.1 hreward, hminer, hpaid⟩
  · rintro ⟨header, selection, reward, miner, balances, h⟩
    exact ⟨h.staker, h.header_stored ▸ rfl, h.phase, h.selectedValidator_eq,
      isOk_eq_true.2 ⟨(), h.pqc⟩, miner, h.miner_stored, reward,
      toOption_eq_some.2 h.reward_eq,
      isOk_eq_true.2 ⟨balances, h.paid⟩⟩

omit [DecidableEq H] in
theorem Closes.mem_closing {s : State α H B} {validator miner : α} {n : U32} {sig : PqcSignature}
    {header : GhostBlockHeader H} {selection : PosSelection α} {reward : BlockReward} {balances : B}
    (h : Closes T s validator n sig header selection reward miner balances) :
    (validator, n, sig) ∈ closing T s (.dispatch (.signed validator) (.validateBlock n sig)) :=
  Option.mem_filter_iff.2 ⟨rfl, decide_eq_true (closable_iff.2 ⟨_, _, _, _, _, h⟩)⟩

end GhostConsensus
