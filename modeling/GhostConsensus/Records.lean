import GhostConsensus.Stakes

/-!
# The ledger of slashes

`SlashingRecords` is written by the check for downtime only, although a report slashes as well. In a
run it lists the slashes performed so far, with what they took, as long as every report fails, no
sum of stakes wraps and no slash is above the stake.
-/

namespace GhostConsensus

open Transition MachineInt

variable {α H B : Type} [AccountId α]

/-! ## Slashes performed and recorded -/

/-- The record of the slash that an event announces in a runtime block. -/
def Event.record (block : ℕ) : Event α → Option (α × SlashingReason × U128 × ℕ)
  | .validatorSlashed validator reason amount => some (validator, reason, amount, block)
  | _ => none

/-- The amounts recorded for `v`. -/
def recordedFor (v : α) (records : List (α × SlashingReason × U128 × ℕ)) : ℕ :=
  (records.map fun record => if record.1 = v then record.2.2.1.toNat else 0).sum

theorem recordedFor_append (v : α) (records new : List (α × SlashingReason × U128 × ℕ)) :
    recordedFor v (records ++ new) = recordedFor v records + recordedFor v new := by
  rw [recordedFor, List.map_append, List.sum_append, recordedFor, recordedFor]

/-- The records of the slashes that the events announce hold the amounts they announce. -/
theorem recordedFor_record (v : α) (block : ℕ) (events : List (Event α)) :
    recordedFor v (events.filterMap (Event.record block)) = slashed v events := by
  induction events with
  | nil => rfl
  | cons event events ih =>
    rw [slashed] at ih
    rw [slashed, List.map_cons, List.sum_cons, ← ih, List.filterMap_cons]
    cases event with
    | validatorSlashed => rw [Event.record, recordedFor, List.map_cons, List.sum_cons]; rfl
    | _ => exact (Nat.zero_add _).symm

section Definitions

variable [DecidableEq H] (T : Config α H B)

/-- The slashes performed in a step, with the runtime block of the step. -/
def performedIn (e : Record α H B) : List (α × SlashingReason × U128 × ℕ) :=
  (step T e.1 e.2).elim [] fun s' =>
    (s'.events.drop e.1.events.length).filterMap (Event.record s'.blockNumber)

/-- The slashes performed in a history, oldest first. -/
def performed : List (Record α H B) → List (α × SlashingReason × U128 × ℕ)
  | [] => []
  | e :: h => performed h ++ performedIn T e

/-- The stake that `v` loses in a step other than by unstaking. -/
def lostIn (v : α) (e : Record α H B) : ℕ :=
  if ∃ c ∈ (succeeded T e).bind Call.unstaking, c.1 = v then 0
  else (step T e.1 e.2).elim 0 fun s' => (e.1.stakeOf v).toNat - (s'.stakeOf v).toNat

/-- The stake that `v` has lost in a history other than by unstaking. -/
def lost (v : α) (h : List (Record α H B)) : ℕ := (h.map (lostIn T v)).sum

/-- The storage records the slashes performed, and the amounts recorded are the stake lost. -/
structure SlashesRecorded (h : List (Record α H B)) (s : State α H B) : Prop where
  records : s.slashingRecords = performed T h
  amounts : ∀ v, recordedFor v s.slashingRecords = lost T v h

/-- An action does not slash by a report, does not lose stake by staking, and slashes no more for
downtime than is at stake. -/
structure RecordsSlash (s : State α H B) (a : Action α H) : Prop where
  report : ∀ c ∈ a.call.bind Call.report,
    mulChecked T.overflowChecks (s.stakeOf c.1) ((slashPercentage T c.2).setWidth 128) = none
  staking : ∀ c ∈ (succeeded T (s, a)).bind Call.staking, s.stakeOf c.1 ≤ s.stakeOf c.1 + c.2
  downtime : ∀ n ∈ a.newBlock, n % 10 = 0 → ∀ e ∈ s.validatorStakes.iter,
    dueStake T { s with blockNumber := n } e.1 = some e.2 →
      ∀ amount ∈ (slashAmount T e.2 T.downtimeSlashPercentage).toOption, amount ≤ e.2

instance (s : State α H B) (a : Action α H) : Decidable (RecordsSlash T s a) :=
  decidable_of_iff
    ((∀ c ∈ a.call.bind Call.report,
        mulChecked T.overflowChecks (s.stakeOf c.1) ((slashPercentage T c.2).setWidth 128) = none) ∧
      (∀ c ∈ (succeeded T (s, a)).bind Call.staking, s.stakeOf c.1 ≤ s.stakeOf c.1 + c.2) ∧
      ∀ n ∈ a.newBlock, n % 10 = 0 → ∀ e ∈ s.validatorStakes.iter,
        dueStake T { s with blockNumber := n } e.1 = some e.2 →
          ∀ amount ∈ (slashAmount T e.2 T.downtimeSlashPercentage).toOption, amount ≤ e.2)
    ⟨fun h => ⟨h.1, h.2.1, h.2.2⟩, fun h => ⟨h.1, h.2, h.3⟩⟩

end Definitions

/-! ## One step -/

variable {T : Config α H B}

/-- The start of a runtime block records the slashes it announces. -/
theorem onInitialize_slashingRecords {s s' : State α H B} {n : ℕ} (h : onInitialize T s n = .ok s') :
    ∃ new, s'.events = s.events ++ new ∧ s'.blockNumber = s.blockNumber ∧
      s'.slashingRecords = s.slashingRecords ++ new.filterMap (Event.record s.blockNumber) := by
  refine onInitialize_events_induction
    (P := fun t new => t.blockNumber = s.blockNumber ∧
      t.slashingRecords = s.slashingRecords ++ new.filterMap (Event.record s.blockNumber))
    h ⟨rfl, (List.append_nil _).symm⟩ ?_ ?_
  · rintro t new validator _ stake amount ⟨hblock, hrecords⟩ _ _ _ _ _
    refine ⟨hblock, ?_⟩
    rw [List.filterMap_append, ← List.append_assoc, ← hrecords]
    show t.slashingRecords ++ [(validator, .downtime, amount, t.blockNumber)] = _
    rw [hblock]
    rfl
  · rintro t t' new ⟨hblock, hrecords⟩ _ hadjust
    obtain ⟨entropy, difficulty, -, -, rfl⟩ := adjustDifficulty_eq_ok hadjust
    refine ⟨hblock, hrecords.trans ?_⟩
    rw [List.filterMap_append]
    split <;> simp [Event.record]

variable [DecidableEq H]

theorem performedIn_eq {s s' : State α H B} {a : Action α H} (new : List (Event α))
    (h : step T s a = some s') (hevents : s'.events = s.events ++ new) :
    performedIn T (s, a) = new.filterMap (Event.record s'.blockNumber) := by
  rw [performedIn, h, Option.elim_some, hevents, List.drop_left]

variable (T) in
/-- What a step performs of slashes and what it records. -/
inductive RecordStep (s : State α H B) (a : Action α H) (s' : State α H B) : Prop
  | reported {validator : α} {reason : SlashingReason} {amount : U128} :
      (succeeded T (s, a)).bind Call.report = some (validator, reason) →
      slashAmount T (s.stakeOf validator) (slashPercentage T reason) = .ok amount →
      performedIn T (s, a) = [(validator, reason, amount, s'.blockNumber)] →
      s'.slashingRecords = s.slashingRecords → RecordStep s a s'
  | initialized {n : ℕ} {new : List (Event α)} : a = .onInitialize n →
      performedIn T (s, a) = new.filterMap (Event.record s'.blockNumber) →
      s'.slashingRecords = s.slashingRecords ++ performedIn T (s, a) →
      (∀ v, Checked T (if n % 10 = 0 then dueStake T { s with blockNumber := n } v else none)
        ⟨s.validatorStakes.get v, []⟩ ⟨s'.validatorStakes.get v, slashesOf v new⟩) →
      RecordStep s a s'
  | none : (succeeded T (s, a)).bind Call.report = none → a.newBlock = none →
      performedIn T (s, a) = [] → s'.slashingRecords = s.slashingRecords → RecordStep s a s'

theorem step_record {s s' : State α H B} {a : Action α H} (h : step T s a = some s') :
    RecordStep T s a s' := by
  cases step_effect h with
  | rejected hsucc | staked hsucc | unstaked hsucc | registered hsucc =>
    exact .none (by rw [hsucc]; rfl) rfl (performedIn_eq [] h (List.append_nil _).symm) rfl
  | submitted hsucc =>
    exact .none (by rw [hsucc]; rfl) rfl (performedIn_eq [.blockMined _ _ _] h rfl) rfl
  | validated hsucc =>
    exact .none (by rw [hsucc]; rfl) rfl
      (performedIn_eq [.validatorSelected _ _, .rewardsDistributed _ _ _] h
        (List.append_assoc _ _ _)) rfl
  | @reported _ validator reason amount hsucc hamount =>
    have hevents : (applySlash (recordReport s validator reason) validator reason
        (s.stakeOf validator) amount).events =
        s.events ++ [.validatorSlashed validator reason amount] := by
      rw [← recordReport_events s validator reason]
      rfl
    refine .reported (by rw [hsucc]; rfl) hamount (performedIn_eq _ h hevents) ?_
    cases reason <;> rfl
  | @initialized n _ hinit =>
    obtain ⟨new, hevents, hblock, hrecords⟩ := onInitialize_slashingRecords hinit
    obtain ⟨new', hevents', hchecked⟩ := onInitialize_slashes hinit
    obtain rfl := List.append_cancel_left (hevents.symm.trans hevents')
    have hperformed := performedIn_eq _ h hevents
    refine .initialized rfl hperformed (hrecords.trans ?_) hchecked
    rw [hperformed, hblock]
  | finalized =>
    refine .none rfl rfl (performedIn_eq [] h ?_) (by rw [onFinalize_eq])
    rw [onFinalize_eq, List.append_nil]

/-! ## What a step records is what it takes -/

theorem lostIn_eq {s s' : State α H B} {a : Action α H} (h : step T s a = some s') (v : α) :
    lostIn T v (s, a) = if ∃ c ∈ (succeeded T (s, a)).bind Call.unstaking, c.1 = v then 0
      else (s.stakeOf v).toNat - (s'.stakeOf v).toNat := by
  rw [lostIn, h, Option.elim_some]

omit [AccountId α] [DecidableEq H] in
theorem unstaking_eq_none {o : Option (α × Call α H)} {c : α × U128}
    (h : o.bind Call.staking = some c) : o.bind Call.unstaking = none := by
  obtain ⟨⟨who, call⟩, rfl, hcall⟩ := Option.bind_eq_some_iff.1 h
  cases call <;> first | rfl | cases hcall

/-- A step that performs no slash takes no stake but by a sum that wraps. -/
theorem lostIn_eq_zero_iff {s s' : State α H B} {a : Action α H} (h : step T s a = some s')
    (hreport : (succeeded T (s, a)).bind Call.report = none) (hblock : a.newBlock = none) :
    (∀ v, lostIn T v (s, a) = 0) ↔
      ∀ c ∈ (succeeded T (s, a)).bind Call.staking, s.stakeOf c.1 ≤ s.stakeOf c.1 + c.2 := by
  have hstaked : ∀ {v amount}, (succeeded T (s, a)).bind Call.staking = some (v, amount) →
      s'.stakeOf v = s.stakeOf v + amount →
      (lostIn T v (s, a) = 0 ↔ s.stakeOf v ≤ s.stakeOf v + amount) := by
    intro v amount hcall hstake
    rw [lostIn_eq h, unstaking_eq_none hcall, hstake, BitVec.le_def]
    simp [Nat.sub_eq_zero_iff_le]
  constructor
  · rintro hlost ⟨v, amount⟩ hcall
    cases step_entry h v with
    | staked hcall' _ hadd hafter =>
      obtain rfl := (Prod.mk.inj (Option.some.inj (hcall.symm.trans hcall'))).2
      obtain rfl := addChecked_eq_some hadd
      exact (hstaked hcall (stakeOf_of_get hafter)).1 (hlost v)
    | unstaked hcall' =>
      rw [unstaking_eq_none hcall] at hcall'
      cases hcall'
    | reported hcall' =>
      rw [hreport] at hcall'
      cases hcall'
    | checked ha =>
      subst ha
      cases hblock
    | unchanged hstaking => exact absurd hcall (hstaking amount)
  · intro hsum v
    cases step_entry h v with
    | staked hcall _ hadd hafter =>
      obtain rfl := addChecked_eq_some hadd
      exact (hstaked hcall (stakeOf_of_get hafter)).2 (hsum _ hcall)
    | unstaked hcall => exact (lostIn_eq h v).trans (if_pos ⟨_, hcall, rfl⟩)
    | reported hcall =>
      rw [hreport] at hcall
      cases hcall
    | checked ha =>
      subst ha
      cases hblock
    | unchanged _ _ _ _ hafter =>
      rw [lostIn_eq h, State.stakeOf, State.stakeOf, hafter, Nat.sub_self, ite_self]

/-- A check takes what it announces if that is not above the stake. -/
theorem checked_lostIn_iff {s s' : State α H B} {n : ℕ} {v : α} {new : List (Event α)}
    {due : Option U128} (h : step T s (.onInitialize n) = some s')
    (hdue : ∀ stake, due = some stake → s.validatorStakes.get v = some stake)
    (hchecked : Checked T due ⟨s.validatorStakes.get v, []⟩
      ⟨s'.validatorStakes.get v, slashesOf v new⟩) :
    slashed v new = lostIn T v (s, .onInitialize n) ↔ ∀ stake, due = some stake →
      ∀ amount ∈ (slashAmount T stake T.downtimeSlashPercentage).toOption, amount ≤ stake := by
  have hlost : lostIn T v (s, .onInitialize n) = (s.stakeOf v).toNat - (s'.stakeOf v).toNat :=
    (lostIn_eq h v).trans (if_neg fun ⟨_, hc, _⟩ => by cases hc)
  rw [slashed_eq, hlost]
  rcases hchecked with ⟨stake, amount, rfl, hamount, hafter⟩ | ⟨rfl, hafter⟩
  · obtain ⟨hstake', hslashes⟩ := Standing.mk.inj hafter
    rw [hslashes, stakeOf_of_get (hdue stake rfl), stakeOf_of_get hstake', toNat_saturatingSub]
    simp only [List.nil_append, List.map_singleton, List.sum_singleton, Option.some.injEq,
      forall_eq', hamount, Except.toOption, Option.mem_def, BitVec.le_def]
    omega
  · obtain ⟨hstake', hslashes⟩ := Standing.mk.inj hafter
    rw [hslashes, State.stakeOf, State.stakeOf, hstake']
    simp

/-- The start of a runtime block takes what it announces exactly if it records what it takes. -/
theorem initialized_lostIn_iff {s s' : State α H B} {n : ℕ} {new : List (Event α)}
    (h : step T s (.onInitialize n) = some s')
    (hchecked : ∀ v, Checked T
      (if n % 10 = 0 then dueStake T { s with blockNumber := n } v else none)
      ⟨s.validatorStakes.get v, []⟩ ⟨s'.validatorStakes.get v, slashesOf v new⟩) :
    (∀ v, slashed v new = lostIn T v (s, .onInitialize n)) ↔ RecordsSlash T s (.onInitialize n) := by
  have hdue : ∀ v stake,
      (if n % 10 = 0 then dueStake T { s with blockNumber := n } v else none) = some stake →
        s.validatorStakes.get v = some stake := by
    intro v stake hstake
    split at hstake
    · obtain ⟨_, -, -, hget⟩ := dueStake_eq_some.1 hstake
      exact hget
    · cases hstake
  constructor
  · refine fun hlost => ⟨fun _ hc => (by cases hc), fun _ hc => (by cases hc), ?_⟩
    rintro m hm hten ⟨v, stake⟩ - hstake
    obtain rfl := Option.some.inj hm
    exact (checked_lostIn_iff h (hdue v) (hchecked v)).1 (hlost v) stake
      ((if_pos hten).trans hstake)
  · intro hrec v
    refine (checked_lostIn_iff h (hdue v) (hchecked v)).2 fun stake hstake => ?_
    have hstored := s.validatorStakes.mem_iter.2 (hdue v stake hstake)
    split at hstake
    · rename_i hten
      exact hrec.downtime n rfl hten (v, stake) hstored hstake
    · cases hstake

/-- Where all slashes performed are recorded only the amounts may differ from the losses. -/
theorem SlashesRecorded.append_iff {h : List (Record α H B)} {s s' : State α H B} {a : Action α H}
    (recorded : SlashesRecorded T h s)
    (hrecords : s'.slashingRecords = s.slashingRecords ++ performedIn T (s, a)) :
    SlashesRecorded T ((s, a) :: h) s' ↔
      ∀ v, recordedFor v (performedIn T (s, a)) = lostIn T v (s, a) := by
  have hlost : ∀ v, lost T v ((s, a) :: h) = lostIn T v (s, a) + lost T v h := fun v => by
    rw [lost, List.map_cons, List.sum_cons, lost]
  have hamount : ∀ v, recordedFor v s'.slashingRecords = lost T v ((s, a) :: h) ↔
      recordedFor v (performedIn T (s, a)) = lostIn T v (s, a) := by
    intro v
    rw [hrecords, recordedFor_append, recorded.amounts, hlost]
    omega
  refine ⟨fun hrec v => (hamount v).1 (hrec.amounts v), fun hrec => ⟨?_, fun v => ?_⟩⟩
  · rw [hrecords, recorded.records, performed]
  · exact (hamount v).2 (hrec v)

/-- A step keeps the records right exactly if it records what it takes. -/
theorem SlashesRecorded.step_iff {h : List (Record α H B)} {s s' : State α H B} {a : Action α H}
    (recorded : SlashesRecorded T h s) (hstep : step T s a = some s') :
    SlashesRecorded T ((s, a) :: h) s' ↔ RecordsSlash T s a := by
  cases step_record hstep with
  | reported hcall hamount hslash hrecords =>
    refine ⟨fun hrec => ?_, fun hrec => ?_⟩
    · have hsame := hrec.records
      rw [hrecords, performed, recorded.records, hslash, List.self_eq_append_right] at hsame
      cases hsame
    · have hpanic := hrec.report _ (bind_call_of_succeeded hcall)
      rw [(slashAmount_eq_ok.1 hamount).1] at hpanic
      cases hpanic
  | none hreport hblock hslash hrecords =>
    have hnone : s'.slashingRecords = s.slashingRecords ++ performedIn T (s, a) := by
      rw [hrecords, hslash, List.append_nil]
    have hlost : (∀ v, recordedFor v (performedIn T (s, a)) = lostIn T v (s, a)) ↔
        ∀ v, lostIn T v (s, a) = 0 := by
      rw [hslash]
      exact forall_congr' fun v => eq_comm
    rw [recorded.append_iff hnone, hlost, lostIn_eq_zero_iff hstep hreport hblock]
    refine ⟨fun hsum => ⟨mulChecked_of_report hreport, hsum, fun n hn => ?_⟩,
      fun hrec => hrec.staking⟩
    rw [hblock] at hn
    cases hn
  | initialized ha hslash hrecords hchecked =>
    subst ha
    rw [recorded.append_iff hrecords, ← initialized_lostIn_iff hstep hchecked, hslash]
    simp only [recordedFor_record]

/-! ## Runs -/

/-- Starting without records, the records are in every state of a run the slashes performed so far,
and add up to the stake lost, exactly if no step of the run fails to record what it takes. -/
theorem run_slashesRecorded_iff {s₀ s : State α H B} {h : List (Record α H B)}
    (run : Run (step T) s₀ h s) (start : s₀.slashingRecords = []) :
    (∀ pre t, pre <:+ h → Run (step T) s₀ pre t → SlashesRecorded T pre t) ↔
      ∀ e ∈ h, RecordsSlash T e.1 e.2 := by
  constructor
  · intro hrec e he
    obtain ⟨post, pre, rfl⟩ := List.append_of_mem he
    obtain ⟨hpre, t, hstep, -⟩ := run.at_step
    have hbefore := hrec pre e.1 ((List.suffix_cons e pre).trans (List.suffix_append post _)) hpre
    exact (hbefore.step_iff hstep).1
      (hrec (e :: pre) t (List.suffix_append post _) (hpre.cons hstep))
  · intro hrec pre t hsuffix hpre
    refine hpre.history_invariant (I := SlashesRecorded T) ⟨start, fun v => ?_⟩
      (fun e he => hrec e (hsuffix.mem he)) fun _ _ _ _ _ inv hC hstep => (inv.step_iff hstep).2 hC
    rw [start]
    rfl

theorem run_slashesRecorded_iff_devRound :
    ∃ h s, Run (step devConfig) devState h s ∧
      s.slashingRecords = [(1, .downtime, 100000000000, 110), (1, .downtime, 189900000000, 120)] ∧
      SlashesRecorded devConfig h s := by
  obtain ⟨h, s, run, hcheck⟩ := exists_run_of_exec (step devConfig) devState
    (devRound ++ [.onInitialize 110, .dispatch (.signed 1) (.unstake 1000000000),
      .dispatch (.signed 1) (.stake 1000000000000), .onInitialize 120])
    (fun r => decide (r.2.slashingRecords =
        [(1, .downtime, 100000000000, 110), (1, .downtime, 189900000000, 120)] ∧
      ∀ e ∈ r.1, RecordsSlash devConfig e.1 e.2)) (by decide +kernel)
  obtain ⟨hrecords, hrec⟩ := of_decide_eq_true hcheck
  exact ⟨h, s, run, hrecords, (run_slashesRecorded_iff run rfl).2 hrec h s List.suffix_rfl run⟩

/-- A report slashes without a record. -/
theorem not_slashesRecorded :
    ∃ h s, Run (step devConfig) devState h s ∧ devState.validatorStakes = ∅ ∧
      devState.slashingRecords = [] ∧ ¬SlashesRecorded devConfig h s := by
  obtain ⟨h, s, run, hcheck⟩ := exists_run_of_exec (step devConfig) devState
    [.onInitialize 1, .dispatch (.signed 1) (.stake 1000000000000),
      .dispatch (.signed 2) (.reportMisbehavior 1 .invalidBlock)]
    (fun r => decide (r.2.slashingRecords = [] ∧
      performed devConfig r.1 = [(1, .invalidBlock, 500000000000, 1)])) (by decide +kernel)
  obtain ⟨hrecords, hperformed⟩ := of_decide_eq_true hcheck
  refine ⟨h, s, run, rfl, rfl, fun hrec => ?_⟩
  have hsame := hrec.records
  rw [hrecords, hperformed] at hsame
  cases hsame

end GhostConsensus
