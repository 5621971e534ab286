import GhostConsensus.Lib.Diamond
import GhostConsensus.Runtime

/-!
# The order of the downtime check

`check_downtime_slashing` visits `LastActiveBlock` in the order of the hashed keys. The visits of two
accounts commute, so that any other order leads to the same state, except that the events and the
records of the slashes come in another order. No step depends on that, so whole runs whose checks
visit the entries in any orders end alike (`run_anyOrder`).
-/

namespace GhostConsensus

open Transition Diamond MachineInt

variable {α H B : Type} [AccountId α]

/-- The states differ at most in the order of the events and of the records of slashes. -/
inductive SameUpToOrder (s : State α H B) : State α H B → Prop
  | mk {events : List (Event α)} {slashingRecords : List (α × SlashingReason × U128 × ℕ)} :
      events.Perm s.events → slashingRecords.Perm s.slashingRecords →
      SameUpToOrder s { s with events, slashingRecords }

theorem SameUpToOrder.refl (s : State α H B) : SameUpToOrder s s := .mk (.refl _) (.refl _)

theorem SameUpToOrder.symm {s t : State α H B} (h : SameUpToOrder s t) : SameUpToOrder t s := by
  cases h with
  | mk hevents hrecords => exact .mk hevents.symm hrecords.symm

theorem SameUpToOrder.trans (s t u : State α H B) (hst : SameUpToOrder s t)
    (htu : SameUpToOrder t u) : SameUpToOrder s u := by
  cases hst with
  | mk hevents hrecords =>
    cases htu with
    | mk hevents' hrecords' => exact .mk (hevents'.trans hevents) (hrecords'.trans hrecords)

/-! ## Two visits of the check -/

section Visits

variable (T : Config α H B)

/-- What the visit of an entry finds due: the stake and the amount it slashes. -/
def slashDue (s : State α H B) (e : α × U32) : Except Failure (Option (U128 × U128)) :=
  if downtimeExceeded T s e.2 then
    match s.validatorStakes.get e.1 with
    | some stake => do
      let amount ← slashAmount T stake T.downtimeSlashPercentage
      return some (stake, amount)
    | none => .ok none
  else .ok none

/-- The state after the visit of an entry of the account `v`. -/
def afterVisit (s : State α H B) (v : α) : Option (U128 × U128) → State α H B
  | some (stake, amount) => slashForDowntime s v stake amount
  | none => s

end Visits

variable {T : Config α H B}

theorem slashIfDown_eq (s : State α H B) (e : α × U32) :
    slashIfDown T s e = (slashDue T s e).map (afterVisit s e.1) := by
  unfold slashIfDown slashDue
  split
  · cases s.validatorStakes.get e.1 with
    | none => rfl
    | some stake =>
      dsimp only
      cases slashAmount T stake T.downtimeSlashPercentage <;> rfl
  · rfl

theorem slashDue_eq_error {s : State α H B} {e : α × U32} {f : Failure}
    (h : slashDue T s e = .error f) : f = .panic := by
  unfold slashDue at h
  split at h
  · split at h
    · simp only [slashAmount, bind_eq_error, orPanic_eq_error, pure_ne_error, and_false, exists_false,
        or_false] at h
      exact h.2
    · cases h
  · cases h

/-- The visit of another account changes nothing about what is due. -/
theorem slashDue_afterVisit (s : State α H B) {v : α} {e : α × U32} (hne : e.1 ≠ v)
    (due : Option (U128 × U128)) : slashDue T (afterVisit s v due) e = slashDue T s e := by
  cases due with
  | none => rfl
  | some d =>
    have hget : (afterVisit s v (some d)).validatorStakes.get e.1 = s.validatorStakes.get e.1 :=
      s.validatorStakes.get_insert_of_ne hne _
    unfold slashDue
    rw [hget]
    rfl

theorem afterVisit_congr {s t : State α H B} (h : SameUpToOrder s t) (v : α)
    (due : Option (U128 × U128)) : SameUpToOrder (afterVisit s v due) (afterVisit t v due) := by
  cases due with
  | none => exact h
  | some d =>
    cases h with
    | mk hevents hrecords => exact .mk (hevents.append_right _) (hrecords.append_right _)

theorem slashIfDown_congr {s t : State α H B} (e : α × U32) (h : SameUpToOrder s t) :
    Agree SameUpToOrder (slashIfDown T s e) (slashIfDown T t e) := by
  have hdue : slashDue T t e = slashDue T s e := by
    cases h
    rfl
  rw [slashIfDown_eq, slashIfDown_eq, hdue]
  cases slashDue T s e with
  | error f => exact .error f
  | ok due => exact .ok (afterVisit_congr h e.1 due)

/-- Slashing two accounts one after the other leads to the same stakes in both orders. -/
theorem afterVisit_comm (s : State α H B) {v w : α} (hne : v ≠ w) (d d' : Option (U128 × U128)) :
    SameUpToOrder (afterVisit (afterVisit s v d) w d') (afterVisit (afterVisit s w d') v d) := by
  cases d with
  | none => exact .refl _
  | some d =>
    cases d' with
    | none => exact .refl _
    | some d' =>
      have hstakes := s.validatorStakes.insert_comm hne (saturatingSub d.1 d.2)
        (saturatingSub d'.1 d'.2)
      have hswap : ∀ {χ : Type} (l : List χ) (x y : χ), (l ++ [y] ++ [x]).Perm (l ++ [x] ++ [y]) := by
        intro χ l x y
        rw [List.append_assoc, List.append_assoc]
        exact (List.Perm.swap x y []).append_left l
      unfold afterVisit slashForDowntime applySlash State.depositEvent
      dsimp only
      rw [hstakes]
      exact .mk (hswap _ _ _) (hswap _ _ _)

theorem slashIfDown_comm (s : State α H B) {e e' : α × U32} (hne : e.1 ≠ e'.1) :
    Agree SameUpToOrder (slashIfDown T s e >>= (slashIfDown T · e'))
      (slashIfDown T s e' >>= (slashIfDown T · e)) := by
  rw [slashIfDown_eq, slashIfDown_eq]
  cases hdue : slashDue T s e with
  | error f =>
    obtain rfl := slashDue_eq_error hdue
    cases hdue' : slashDue T s e' with
    | error f' =>
      obtain rfl := slashDue_eq_error hdue'
      exact .error _
    | ok d' =>
      have hafter : slashIfDown T (afterVisit s e'.1 d') e = .error .panic := by
        rw [slashIfDown_eq, slashDue_afterVisit s hne, hdue]
        rfl
      show Agree SameUpToOrder (.error .panic) (slashIfDown T (afterVisit s e'.1 d') e)
      rw [hafter]
      exact .error _
  | ok d =>
    have hafter : slashIfDown T (afterVisit s e.1 d) e' =
        (slashDue T s e').map (afterVisit (afterVisit s e.1 d) e'.1) := by
      rw [slashIfDown_eq, slashDue_afterVisit s hne.symm]
    show Agree SameUpToOrder (slashIfDown T (afterVisit s e.1 d) e') _
    rw [hafter]
    cases hdue' : slashDue T s e' with
    | error f' => exact .error f'
    | ok d' =>
      have hafter' : slashIfDown T (afterVisit s e'.1 d') e =
          .ok (afterVisit (afterVisit s e'.1 d') e.1 d) := by
        rw [slashIfDown_eq, slashDue_afterVisit s hne, hdue]
        rfl
      show Agree SameUpToOrder _ (slashIfDown T (afterVisit s e'.1 d') e)
      rw [hafter']
      exact .ok (afterVisit_comm s hne d d')

/-- The check may visit the entries in any order. -/
theorem checkDowntimeSlashing_perm (s : State α H B) {order : List (α × U32)}
    (perm : order.Perm s.lastActiveBlock.iter) :
    Agree SameUpToOrder (order.foldlM (slashIfDown T) s) (checkDowntimeSlashing T s) := by
  refine foldlM_perm .refl .trans (fun _ _ => slashIfDown_congr) perm ?_ s
  intro e he e' he' hne t
  refine slashIfDown_comm t fun hkey => hne ?_
  -- an account has one entry
  have hget := s.lastActiveBlock.mem_iter.1 (perm.mem_iff.1 he)
  have hget' := s.lastActiveBlock.mem_iter.1 (perm.mem_iff.1 he')
  rw [hkey, hget'] at hget
  exact Prod.ext hkey (Option.some.inj hget).symm

/-! ## Steps from states that are the same up to order -/

theorem adjustDifficulty_congr {s t : State α H B} (h : SameUpToOrder s t) :
    Agree SameUpToOrder (adjustDifficulty T s) (adjustDifficulty T t) := by
  cases h with
  | mk hevents hrecords =>
    unfold adjustDifficulty
    dsimp only
    refine (Agree.refl (R := Eq) (fun _ => rfl) _).bind fun entropy _ heq => ?_
    subst heq
    split
    · exact .ok (.mk (hevents.append_right _) hrecords)
    · exact .ok (.mk hevents hrecords)

variable [DecidableEq H]

theorem dispatch_congr {s s' t : State α H B} (h : SameUpToOrder s t) {origin : Origin α}
    {call : Call α H} (hok : dispatch T s origin call = .ok s') :
    ∃ t', dispatch T t origin call = .ok t' ∧ SameUpToOrder s' t' := by
  cases h with
  | mk hevents hrecords =>
    cases call with
    | submitBlock header =>
      obtain ⟨miner, parent, ho, haccepts, rfl⟩ := submitBlock_eq_ok.1 hok
      refine ⟨_, submitBlock_eq_ok.2 ⟨miner, parent, ho, ?_, rfl⟩,
        .mk (hevents.append_right _) hrecords⟩
      exact ⟨haccepts.phase, haccepts.positive, haccepts.parent_stored, haccepts.valid⟩
    | stake amount =>
      obtain ⟨staker, balances, ho, hmin, htransfer, hadd, rfl⟩ := stake_eq_ok.1 hok
      exact ⟨_, stake_eq_ok.2 ⟨staker, balances, ho, hmin, htransfer, hadd, rfl⟩,
        .mk hevents hrecords⟩
    | unstake amount =>
      obtain ⟨staker, currentStake, balances, ho, hget, hle, htransfer, rfl⟩ :=
        unstake_eq_ok.1 hok
      exact ⟨_, unstake_eq_ok.2 ⟨staker, currentStake, balances, ho, hget, hle, htransfer, rfl⟩,
        .mk hevents hrecords⟩
    | validateBlock n sig =>
      obtain ⟨validator, header, selection, reward, miner, balances, ho, hcloses, rfl⟩ :=
        validateBlock_eq_ok.1 hok
      refine ⟨_, validateBlock_eq_ok.2 ⟨validator, header, selection, reward, miner, balances, ho,
        ?_, rfl⟩, .mk ((hevents.append_right _).append_right _) hrecords⟩
      exact ⟨hcloses.staker, hcloses.header_stored, hcloses.phase, hcloses.select, hcloses.selected,
        hcloses.pqc, hcloses.reward_eq, hcloses.miner_stored, hcloses.paid⟩
    | reportMisbehavior validator reason =>
      obtain ⟨reporter, amount, ho, hamount, rfl⟩ := reportMisbehavior_eq_ok.1 hok
      refine ⟨_, reportMisbehavior_eq_ok.2 ⟨reporter, amount, ho, hamount, rfl⟩, ?_⟩
      cases reason <;> exact .mk (hevents.append_right _) hrecords
    | registerPqcKey key =>
      obtain ⟨validator, ho, rfl⟩ := registerPqcKey_eq_ok.1 hok
      exact ⟨_, registerPqcKey_eq_ok.2 ⟨validator, ho, rfl⟩, .mk hevents hrecords⟩

/-! ## Runs whose checks visit the entries in any order -/

section Definitions

variable (T : Config α H B)

omit [DecidableEq H] in
/-- The start of a runtime block, with a check that visits the entries in the given order. -/
def onInitializeIn (order : List (α × U32)) (s : State α H B) (n : ℕ) :
    Except Failure (State α H B) := do
  let s ← (if n % 10 = 0 then order.foldlM (slashIfDown T) s else .ok s)
  if n % 100 = 0 then adjustDifficulty T s else .ok s

/-- A step together with the order in which its check, if it makes one, visits the entries. -/
def stepIn (s : State α H B) (a : Action α H × List (α × U32)) : Option (State α H B) :=
  match a.1 with
  | .onInitialize n =>
    if a.2.Perm s.lastActiveBlock.iter then
      (onInitializeIn T a.2 { s with blockNumber := n } n).toOption
    else none
  | _ => step T s a.1

end Definitions

/-- The order of the storage is one of the orders. -/
theorem stepIn_iter (s : State α H B) (a : Action α H) :
    stepIn T s (a, s.lastActiveBlock.iter) = step T s a := by
  cases a with
  | onInitialize n => exact if_pos (.refl _)
  | dispatch | onFinalize => rfl

omit [DecidableEq H] in
theorem onInitialize_congr {s t : State α H B} (h : SameUpToOrder s t) {order : List (α × U32)}
    (perm : order.Perm s.lastActiveBlock.iter) (n : ℕ) :
    Agree SameUpToOrder (onInitializeIn T order s n) (onInitialize T t n) := by
  have hcheck : Agree SameUpToOrder (order.foldlM (slashIfDown T) s) (checkDowntimeSlashing T t) := by
    refine (checkDowntimeSlashing_perm s perm).trans .trans ?_
    have hiter : t.lastActiveBlock = s.lastActiveBlock := by
      cases h
      rfl
    unfold checkDowntimeSlashing
    rw [hiter]
    exact agree_foldlM (fun _ _ => slashIfDown_congr) _ h
  unfold onInitializeIn onInitialize
  by_cases hten : n % 10 = 0
  · rw [if_pos hten, if_pos hten]
    refine hcheck.bind fun u v huv => ?_
    split
    · exact adjustDifficulty_congr huv
    · exact .ok huv
  · rw [if_neg hten, if_neg hten]
    refine (Agree.ok h).bind fun u v huv => ?_
    split
    · exact adjustDifficulty_congr huv
    · exact .ok huv

theorem stepIn_congr {s s' t : State α H B} (h : SameUpToOrder s t)
    {a : Action α H × List (α × U32)} (hstep : stepIn T s a = some s') :
    ∃ t', step T t a.1 = some t' ∧ SameUpToOrder s' t' := by
  obtain ⟨a, order⟩ := a
  cases a with
  | dispatch origin call =>
    have hs : step T s (.dispatch origin call) = some s' := hstep
    rw [step] at hs ⊢
    cases hdispatch : dispatch T s origin call with
    | ok u =>
      rw [hdispatch] at hs
      obtain rfl := Option.some.inj hs
      obtain ⟨t', hok, hsame⟩ := dispatch_congr h hdispatch
      rw [hok]
      exact ⟨t', rfl, hsame⟩
    | error f =>
      rw [hdispatch] at hs
      obtain rfl := Option.some.inj hs
      cases hdispatch' : dispatch T t origin call with
      | error f' => exact ⟨t, rfl, h⟩
      | ok t' =>
        obtain ⟨u, hok, -⟩ := dispatch_congr h.symm hdispatch'
        rw [hdispatch] at hok
        cases hok
  | onInitialize n =>
    simp only [stepIn] at hstep
    split at hstep
    · rename_i hperm
      have hsame : SameUpToOrder { s with blockNumber := n } { t with blockNumber := n } := by
        cases h with
        | mk hevents hrecords => exact .mk hevents hrecords
      have hagree := onInitialize_congr (T := T) hsame hperm n
      cases hin : onInitializeIn T order { s with blockNumber := n } n with
      | error f =>
        rw [hin] at hstep
        cases hstep
      | ok u =>
        rw [hin] at hstep
        obtain rfl := Option.some.inj hstep
        obtain ⟨t', hok, hsame'⟩ := hagree.exists_ok hin
        refine ⟨t', ?_, hsame'⟩
        rw [step, hok]
        rfl
    · cases hstep
  | onFinalize n =>
    obtain rfl := Option.some.inj hstep
    refine ⟨_, rfl, ?_⟩
    cases h with
    | mk hevents hrecords =>
      rw [onFinalize_eq, onFinalize_eq]
      exact .mk hevents hrecords

/-- In whatever orders the checks of a run visit the entries, the same actions in the order of the
storage lead to the same state, except for the order of the events and of the records. -/
theorem run_anyOrder {s₀ s : State α H B} {h : List (State α H B × Action α H × List (α × U32))}
    (run : Run (stepIn T) s₀ h s) :
    ∃ h' t, Run (step T) s₀ h' t ∧ h'.map Prod.snd = h.map (fun e => e.2.1) ∧
      SameUpToOrder s t := by
  have hsim : ∀ u a u' t, stepIn T u a = some u' → SameUpToOrder u t →
      ∃ h' t', Run (step T) t h' t' ∧ SameUpToOrder u' t' ∧ h'.map Prod.snd = [a.1] := by
    intro u a u' t hstep hsame
    obtain ⟨t', hstep', hsame'⟩ := stepIn_congr hsame hstep
    exact ⟨[(t, a.1)], t', Run.nil.cons hstep', hsame', rfl⟩
  obtain ⟨h', t, run', hsame, hacts⟩ := run.simulate SameUpToOrder (fun _ a => [a.1]) (.refl s₀) hsim
  exact ⟨h', t, run', hacts.trans List.map_eq_flatMap.symm, hsame⟩

/-- Both accounts of a round are slashed in the end, the second one first. -/
theorem run_anyOrder_reversed :
    ∃ h s, Run (stepIn devConfig) devState h s ∧
      s.events.drop 3 = [.validatorSlashed 2 .downtime 100000000000,
        .validatorSlashed 1 .downtime 100000000000] ∧
      ∃ h' t, Run (step devConfig) devState h' t ∧ h'.map Prod.snd = h.map (fun e => e.2.1) ∧
        SameUpToOrder s t := by
  obtain ⟨h, s, run, hcheck⟩ := exists_run_of_exec (stepIn devConfig) devState
    [(.onInitialize 1, []), (.dispatch (.signed 1) (.stake 1000000000000), []),
      (.dispatch (.signed 2) (.stake 1000000000000), []),
      (.dispatch (.signed 2) (.submitBlock devBlock), []),
      (.dispatch (.signed 1) (.validateBlock 1 ⟨0⟩), []), (.onFinalize 1, []),
      (.onInitialize 110, [(2, 1), (1, 1)])]
    (fun r => decide (r.2.events.drop 3 = [.validatorSlashed 2 .downtime 100000000000,
      .validatorSlashed 1 .downtime 100000000000])) (by decide +kernel)
  exact ⟨h, s, run, of_decide_eq_true hcheck, run_anyOrder run⟩

end GhostConsensus
