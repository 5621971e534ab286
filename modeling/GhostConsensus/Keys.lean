import GhostConsensus.Binding
import GhostConsensus.Rounds

/-!
# Registered keys

The storage holds the keys that the validators registered last. Where the check of signatures is
required, a round is closed only with a signature that verifies under such a key
(`run_authenticated`), and without a verifier no second block is ever accepted (`run_halts`). Where it
is not required the keys decide nothing: without the registrations a run leads to the same state
(`run_withoutKeys`).
-/

namespace GhostConsensus

open Transition MachineInt

variable {α H B : Type} [AccountId α] [DecidableEq H]

/-! ## The key registered last -/

def Call.registration : α × Call α H → Option (α × PqcPublicKey)
  | (validator, .registerPqcKey publicKey) => some (validator, publicKey)
  | _ => none

/-- The key that `v` registered last in a history. -/
def lastKey (T : Config α H B) (v : α) : List (Record α H B) → Option PqcPublicKey
  | [] => none
  | e :: h =>
    match (succeeded T e).bind Call.registration with
    | some (who, key) => if who = v then some key else lastKey T v h
    | none => lastKey T v h

variable {T : Config α H B}

/-- How a step changes the keys: not at all, or by its own registration. -/
theorem step_keys {s s' : State α H B} {a : Action α H} (h : step T s a = some s') :
    ((succeeded T (s, a)).bind Call.registration = none ∧
        s'.validatorPqcPublicKeys = s.validatorPqcPublicKeys) ∨
      ∃ who key, (succeeded T (s, a)).bind Call.registration = some (who, key) ∧
        s'.validatorPqcPublicKeys = s.validatorPqcPublicKeys.insert who key := by
  cases step_effect h with
  | rejected hsucc | submitted hsucc | staked hsucc | unstaked hsucc | validated hsucc =>
    refine .inl ⟨?_, rfl⟩
    rw [hsucc]
    rfl
  | @reported _ _ reason _ hsucc =>
    refine .inl ⟨?_, by cases reason <;> rfl⟩
    rw [hsucc]
    rfl
  | registered hsucc =>
    refine .inr ⟨_, _, ?_, rfl⟩
    rw [hsucc]
    rfl
  | initialized hinit =>
    obtain ⟨_, _, _, _, _, rfl⟩ := onInitialize_frame hinit
    exact .inl ⟨rfl, rfl⟩
  | finalized =>
    refine .inl ⟨rfl, ?_⟩
    rw [onFinalize_eq]

theorem run_keys {s₀ s : State α H B} {h : List (Record α H B)} (run : Run (step T) s₀ h s)
    (start : s₀.validatorPqcPublicKeys = .empty) (v : α) :
    s.validatorPqcPublicKeys v = lastKey T v h := by
  induction run with
  | nil =>
    rw [start]
    rfl
  | cons _ hstep ih =>
    rw [lastKey]
    rcases step_keys hstep with ⟨hnone, hkeys⟩ | ⟨who, key, hsome, hkeys⟩
    · rw [hnone, hkeys, ih]
    · rw [hsome, hkeys, StorageMap.insert_apply, ih]
      simp only [eq_comm]

/-! ## With the check required -/

omit [DecidableEq H] in
/-- A round that was closed under the check was signed with the key of its validator. -/
theorem Closes.verified {s : State α H B} {validator miner : α} {n : U32} {sig : PqcSignature}
    {header : GhostBlockHeader H} {selection : PosSelection α} {reward : BlockReward} {balances : B}
    (h : Closes T s validator n sig header selection reward miner balances)
    (required : T.pqcRequired = true) :
    T.std = true ∧ ∃ key, s.validatorPqcPublicKeys validator = some key ∧
      T.verifyDetachedSignature (signature T validator n) sig key = true := by
  obtain ⟨key, hkey, hverify⟩ := checkPqcSignature_eq_ok.1 h.pqc required
  rw [verifyPqcSignature, Bool.and_eq_true] at hverify
  exact ⟨hverify.1, key, hkey, hverify.2⟩

/-- Under the check every round was closed with a signature of its validator that verifies under the
key the validator had registered last. -/
theorem run_authenticated {s₀ s : State α H B} {h : List (Record α H B)}
    (required : T.pqcRequired = true) (run : Run (step T) s₀ h s)
    (start : s₀.validatorPqcPublicKeys = .empty) :
    ∀ post pre e, h = post ++ e :: pre → ∀ v n sig, validation T e = some (v, n, sig) →
      ∃ key, lastKey T v pre = some key ∧
        T.verifyDetachedSignature (signature T v n) sig key = true := by
  rintro post pre ⟨t, a⟩ rfl v n sig hval
  obtain ⟨hpre, t', hstep, -⟩ := run.at_step
  obtain ⟨header, selection, reward, miner, balances, hcloses⟩ := closes_of_validation hstep hval
  obtain ⟨-, key, hkey, hverify⟩ := hcloses.verified required
  refine ⟨key, ?_, hverify⟩
  rw [← run_keys hpre start v]
  exact hkey

theorem run_authenticated_pqc :
    ∃ pre e s, Run (step pqcConfig) devState (e :: pre) s ∧
      validation pqcConfig e = some (1, 1, ⟨12⟩) ∧ ∃ key, lastKey pqcConfig 1 pre = some key ∧
        pqcConfig.verifyDetachedSignature (signature pqcConfig 1 1) ⟨12⟩ key = true := by
  obtain ⟨h, s, run, hcheck⟩ := exists_run_of_exec (step pqcConfig) devState
    [.dispatch (.signed 1) (.stake 1000000000000), .dispatch (.signed 1) (.registerPqcKey 7),
      .dispatch (.signed 2) (.submitBlock devBlock), .dispatch (.signed 1) (.validateBlock 1 ⟨12⟩)]
    (fun r => decide (∃ e ∈ r.1.head?, validation pqcConfig e = some (1, 1, ⟨12⟩)))
    (by decide +kernel)
  obtain ⟨e, hhead, hval⟩ := of_decide_eq_true hcheck
  cases h with
  | nil => cases hhead
  | cons e' pre =>
    obtain rfl := Option.some.inj hhead
    exact ⟨pre, e', s, run, hval, run_authenticated rfl run rfl [] pre e' rfl 1 1 ⟨12⟩ hval⟩

/-- Under the check, but without a verifier, at most one block is ever accepted, and then the phase
is stuck. -/
theorem run_halts {s₀ s : State α H B} {h : List (Record α H B)} (required : T.pqcRequired = true)
    (nostd : T.std = false) (run : Run (step T) s₀ h s) (start : s₀.currentPhase = .powMining) :
    roundCalls T h = [] ∧ s.currentPhase = .powMining ∨
      roundCalls T h = [.submit] ∧ s.currentPhase = .posValidation := by
  induction run with
  | nil => exact .inl ⟨rfl, start⟩
  | @cons h t s a _ hstep ih =>
    rw [roundCalls_cons]
    cases step_chain hstep with
    | accepted _ hsub _ haccepts =>
      rcases ih with ⟨hnone, -⟩ | ⟨-, hopen⟩
      · rw [hnone, roundCall, hsub]
        exact .inr ⟨rfl, rfl⟩
      · rw [haccepts.phase] at hopen
        cases hopen
    | closed _ _ _ hcloses =>
      have hstd := (hcloses.verified required).1
      rw [nostd] at hstd
      cases hstd
    | reopened _ hphase =>
      rcases ih with ⟨-, hphase'⟩ | ⟨-, hphase'⟩
      · rw [hphase] at hphase'
        cases hphase'
      · rw [hphase] at hphase'
        cases hphase'
    | unchanged hsub hval _ hsame =>
      rw [roundCall, hsub, hval, hsame.currentPhase]
      simpa using ih

/-- The checked runtime as it is compiled to Wasm. -/
def wasmConfig : Config ℕ (List ℕ) (Accounts ℕ) := { pqcConfig with std := false }

theorem run_halts_wasm :
    ∃ h s, Run (step wasmConfig) devState h s ∧ h.length = 23 ∧
      roundCalls wasmConfig h = [.submit] ∧
      (roundCalls wasmConfig h = [] ∧ s.currentPhase = .powMining ∨
        roundCalls wasmConfig h = [.submit] ∧ s.currentPhase = .posValidation) := by
  obtain ⟨h, s, run, hcheck⟩ := exists_run_of_exec (step wasmConfig) devState
    ([.dispatch (.signed 1) (.stake 1000000000000), .dispatch (.signed 1) (.registerPqcKey 7),
      .dispatch (.signed 2) (.submitBlock devBlock), .dispatch (.signed 1) (.validateBlock 1 ⟨12⟩),
      .dispatch (.signed 2) (.submitBlock devBlock)] ++ emptyBlocks 1 9)
    (fun r => decide (r.1.length = 23 ∧ roundCalls wasmConfig r.1 = [.submit])) (by decide +kernel)
  obtain ⟨hlength, hcalls⟩ := of_decide_eq_true hcheck
  exact ⟨h, s, run, hlength, hcalls, run_halts rfl rfl run rfl⟩

/-! ## With the check not required -/

/-- The state that differs from `s` by the registered keys. -/
def State.withKeys (keys : StorageMap α PqcPublicKey) (s : State α H B) : State α H B :=
  { s with validatorPqcPublicKeys := keys }

def Action.registers : Action α H → Bool
  | .dispatch _ (.registerPqcKey _) => true
  | _ => false

/-- A loop commutes with a map of the state with which its body commutes. -/
theorem foldlM_map {σ τ : Type} {f : σ → τ → Except Failure σ} {g : σ → σ}
    (hf : ∀ s x, f (g s) x = g <$> f s x) :
    ∀ (l : List τ) (s : σ), l.foldlM f (g s) = g <$> l.foldlM f s
  | [], _ => rfl
  | x :: l, s => by
      rw [List.foldlM_cons, List.foldlM_cons, hf, map_bind, bind_map_left]
      simp only [foldlM_map hf l]

section WithKeys

variable (s : State α H B) (keys : StorageMap α PqcPublicKey)

theorem submitBlock_withKeys (o : Origin α) (header : GhostBlockHeader H) :
    submitBlock T (s.withKeys keys) o header = State.withKeys keys <$> submitBlock T s o header := by
  unfold submitBlock
  simp only [map_bind, map_pure]
  rfl

omit [DecidableEq H]

theorem stake_withKeys (o : Origin α) (amount : U128) :
    stake T (s.withKeys keys) o amount = State.withKeys keys <$> stake T s o amount := by
  unfold stake
  simp only [map_bind, map_pure]
  rfl

theorem unstake_withKeys (o : Origin α) (amount : U128) :
    unstake T (s.withKeys keys) o amount = State.withKeys keys <$> unstake T s o amount := by
  unfold unstake
  simp only [map_bind, map_pure]
  rfl

theorem checkPqcSignature_of_not_required (notRequired : T.pqcRequired = false) (validator : α)
    (n : U32) (sig : PqcSignature) : checkPqcSignature T s validator n sig = .ok () := by
  rw [checkPqcSignature, notRequired]
  rfl

theorem validateBlock_withKeys (notRequired : T.pqcRequired = false) (o : Origin α) (n : U32)
    (sig : PqcSignature) :
    validateBlock T (s.withKeys keys) o n sig =
      State.withKeys keys <$> validateBlock T s o n sig := by
  unfold validateBlock
  simp only [map_bind, map_pure, checkPqcSignature_of_not_required _ notRequired]
  rfl

theorem reportMisbehavior_withKeys (o : Origin α) (validator : α) (reason : SlashingReason) :
    reportMisbehavior T (s.withKeys keys) o validator reason =
      State.withKeys keys <$> reportMisbehavior T s o validator reason := by
  unfold reportMisbehavior
  simp only [map_bind, map_pure]
  cases reason <;> rfl

theorem slashIfDown_withKeys (entry : α × U32) :
    slashIfDown T (s.withKeys keys) entry = State.withKeys keys <$> slashIfDown T s entry := by
  unfold slashIfDown
  rw [show (s.withKeys keys).validatorStakes = s.validatorStakes from rfl]
  by_cases hdown : downtimeExceeded T s entry.2
  · rw [if_pos hdown, if_pos (show downtimeExceeded T (s.withKeys keys) entry.2 from hdown)]
    cases s.validatorStakes.get entry.1 with
    | none => rfl
    | some stake =>
      simp only [map_bind, map_pure]
      rfl
  · rw [if_neg hdown, if_neg (show ¬downtimeExceeded T (s.withKeys keys) entry.2 from hdown)]
    rfl

theorem checkDowntimeSlashing_withKeys :
    checkDowntimeSlashing T (s.withKeys keys) =
      State.withKeys keys <$> checkDowntimeSlashing T s :=
  foldlM_map (fun t entry => slashIfDown_withKeys t keys entry) _ s

theorem adjustDifficulty_withKeys :
    adjustDifficulty T (s.withKeys keys) = State.withKeys keys <$> adjustDifficulty T s := by
  unfold adjustDifficulty
  simp only [map_bind]
  refine congrArg _ (funext fun entropy => ?_)
  by_cases hne : calculateDifficultyAdjustment s.difficulty 5 5 entropy ≠ s.difficulty
  · rw [if_pos hne]
    exact if_pos hne
  · rw [if_neg hne]
    exact if_neg hne

theorem onInitialize_withKeys (n : ℕ) :
    onInitialize T (s.withKeys keys) n = State.withKeys keys <$> onInitialize T s n := by
  have hcheck : (if n % 10 = 0 then checkDowntimeSlashing T (s.withKeys keys)
      else .ok (s.withKeys keys)) =
        State.withKeys keys <$> if n % 10 = 0 then checkDowntimeSlashing T s else .ok s := by
    split
    · exact checkDowntimeSlashing_withKeys s keys
    · rfl
  unfold onInitialize
  rw [hcheck, map_bind, bind_map_left]
  refine congrArg _ (funext fun t => ?_)
  split
  · exact adjustDifficulty_withKeys t keys
  · rfl

end WithKeys

/-- An action that registers no key does the same, whatever keys are registered. -/
theorem step_withKeys (notRequired : T.pqcRequired = false) {a : Action α H}
    (ha : a.registers = false) (s : State α H B) (keys : StorageMap α PqcPublicKey) :
    step T (s.withKeys keys) a = (step T s a).map (State.withKeys keys) := by
  cases a with
  | dispatch origin call =>
    have hdispatch : dispatch T (s.withKeys keys) origin call =
        State.withKeys keys <$> dispatch T s origin call := by
      cases call with
      | submitBlock header => exact submitBlock_withKeys s keys origin header
      | stake amount => exact stake_withKeys s keys origin amount
      | unstake amount => exact unstake_withKeys s keys origin amount
      | validateBlock n sig => exact validateBlock_withKeys s keys notRequired origin n sig
      | reportMisbehavior validator reason =>
        exact reportMisbehavior_withKeys s keys origin validator reason
      | registerPqcKey key => cases ha
    rw [step, step, hdispatch]
    cases dispatch T s origin call with
    | ok s' => rfl
    | error f => rfl
  | onInitialize n =>
    rw [step, step, show ({ s.withKeys keys with blockNumber := n } : State α H B) =
      State.withKeys keys { s with blockNumber := n } from rfl, onInitialize_withKeys]
    cases onInitialize T { s with blockNumber := n } n with
    | ok s' => rfl
    | error f => rfl
  | onFinalize n =>
    rw [step, step, onFinalize_eq, onFinalize_eq]
    rfl

/-- A registration changes the keys only. -/
theorem step_registers {s s' : State α H B} {a : Action α H} (ha : a.registers = true)
    (h : step T s a = some s') (keys : StorageMap α PqcPublicKey) :
    s'.withKeys keys = s.withKeys keys := by
  cases step_effect h with
  | rejected | registered => rfl
  | submitted | staked | unstaked | validated | reported | initialized | finalized => cases ha

/-- Where the check is not required, a run leads to the same state but for the keys when all
registrations are left out. -/
theorem run_withoutKeys (notRequired : T.pqcRequired = false) {s₀ s : State α H B}
    {h : List (Record α H B)} (run : Run (step T) s₀ h s) :
    ∃ h', Run (step T) s₀ h' (s.withKeys s₀.validatorPqcPublicKeys) ∧
      h'.map Prod.snd = (h.map Prod.snd).filter fun a => !a.registers := by
  have hsim : ∀ t a u t', step T t a = some u → t' = t.withKeys s₀.validatorPqcPublicKeys →
      ∃ h' u', Run (step T) t' h' u' ∧ u' = u.withKeys s₀.validatorPqcPublicKeys ∧
        h'.map Prod.snd = if a.registers = true then [] else [a] := by
    rintro t a u t' hstep rfl
    by_cases ha : a.registers = true
    · rw [if_pos ha]
      exact ⟨[], _, .nil, (step_registers ha hstep _).symm, rfl⟩
    · rw [if_neg ha]
      rw [Bool.not_eq_true] at ha
      refine ⟨[(_, a)], _, Run.nil.cons ?_, rfl, rfl⟩
      rw [step_withKeys notRequired ha, hstep]
      rfl
  obtain ⟨h', s', run', rfl, hacts⟩ := run.simulate
    (fun t t' => t' = t.withKeys s₀.validatorPqcPublicKeys)
    (fun _ a => if a.registers = true then [] else [a]) rfl hsim
  refine ⟨h', run', hacts.trans ?_⟩
  clear run run' hacts
  induction h with
  | nil => rfl
  | cons e h ih =>
    rw [List.flatMap_cons, ih, List.map_cons, List.filter_cons]
    cases e.2.registers <;> rfl

theorem run_withoutKeys_dev :
    ∃ h h' s, Run (step devConfig) devState h s ∧ h.length = 6 ∧ h'.length = 5 ∧
      Run (step devConfig) devState h' (s.withKeys .empty) := by
  obtain ⟨h, s, run, hcheck⟩ := exists_run_of_exec (step devConfig) devState
    (.dispatch (.signed 1) (.registerPqcKey 7) :: devRound)
    (fun r => decide (r.1.length = 6 ∧
      ((r.1.map Prod.snd).filter fun a => !a.registers).length = 5)) (by decide +kernel)
  obtain ⟨hlength, hlength'⟩ := of_decide_eq_true hcheck
  obtain ⟨h', run', hacts⟩ := run_withoutKeys rfl run
  refine ⟨h, h', s, run, hlength, ?_, run'⟩
  rw [← hlength', ← hacts, List.length_map]

end GhostConsensus
