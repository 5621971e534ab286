import GhostConsensus.Window

/-!
# The chain as its events tell it

Whoever follows the events of the pallet, with the extrinsic or the start of the runtime block they
come from, needs no storage. `Index.follow` replays them, and refuses what the pallet never announces.
On the notes of a run it never refuses, and it ends with the phase, the difficulty, the entropy, the
producers, the window, the reports and the records of slashes that the storage holds (`run_follow`).
-/

namespace GhostConsensus

open Transition

/-- What follows from the events. -/
structure Index (α : Type) where
  difficulty : U64
  currentPhase : ConsensusPhase
  blockProducers : StorageMap U32 α
  doubleSignReports : StorageMap α Bool
  invalidBlockReports : StorageMap α Bool
  slashingRecords : List (α × SlashingReason × U128 × ℕ)
  recentBlockProducers : List α
  currentEntropy : U64
  blockNumber : ℕ

/-- The events of the runtime with the phase of the runtime block they come from. -/
inductive Note (α : Type) where
  | initialization (n : ℕ) (events : List (Event α))
  | extrinsic (events : List (Event α))
  | finalization
  deriving DecidableEq

variable {α H B : Type} [AccountId α]

/-- The part of the storage that follows from the events. -/
def State.index (s : State α H B) : Index α where
  difficulty := s.difficulty
  currentPhase := s.currentPhase
  blockProducers := s.blockProducers
  doubleSignReports := s.doubleSignReports
  invalidBlockReports := s.invalidBlockReports
  slashingRecords := s.slashingRecords
  recentBlockProducers := s.recentBlockProducers.toList
  currentEntropy := s.currentEntropy
  blockNumber := s.blockNumber

section Definitions

variable (T : Config α H B)

/-- The rewards are those of a block. -/
def PaysBlockReward (minerReward stakersReward : U128) : Prop :=
  calculateBlockReward T T.blockReward = .ok { total := T.blockReward, minerReward, stakersReward }

instance (minerReward stakersReward : U128) :
    Decidable (PaysBlockReward T minerReward stakersReward) :=
  inferInstanceAs (Decidable (_ = _))

/-- The event of an extrinsic: a block in the mining phase, the selected validator and then the
rewards in the validation phase, or a report. -/
def Index.applied (i : Index α) : Event α → Option (Index α)
  | .blockMined blockNumber miner _ =>
    if i.currentPhase = .powMining ∧ 0 < blockNumber then
      some { i with
        blockProducers := i.blockProducers.insert blockNumber miner
        recentBlockProducers := (i.recentBlockProducers ++ [miner]).rtake 100
        currentPhase := .posValidation }
    else none
  | .validatorSelected _ _ => if i.currentPhase = .posValidation then some i else none
  | .rewardsDistributed _ minerReward stakersReward =>
    if i.currentPhase = .posValidation ∧ PaysBlockReward T minerReward stakersReward then
      some { i with currentPhase := .finalization }
    else none
  | .validatorSlashed validator .doubleSigning _ =>
    some { i with doubleSignReports := i.doubleSignReports.insert validator true }
  | .validatorSlashed validator .invalidBlock _ =>
    some { i with invalidBlockReports := i.invalidBlockReports.insert validator true }
  | .validatorSlashed _ _ _ => some i
  | .difficultyAdjusted _ _ => none

/-- The event of the start of a runtime block: a slash for downtime in every tenth, a retarget to
what the window of producers calls for in every hundredth. -/
def Index.initialized (i : Index α) : Event α → Option (Index α)
  | .validatorSlashed validator .downtime amount =>
    if i.blockNumber % 10 = 0 then
      some { i with slashingRecords :=
        i.slashingRecords ++ [(validator, .downtime, amount, i.blockNumber)] }
    else none
  | .difficultyAdjusted oldDifficulty newDifficulty =>
    if i.blockNumber % 100 = 0 ∧ i.difficulty = oldDifficulty ∧ newDifficulty ≠ oldDifficulty ∧
        ∃ entropy ∈ (calculateEntropy T i.recentBlockProducers).toOption,
          newDifficulty = calculateDifficultyAdjustment oldDifficulty 5 5 entropy then
      some { i with difficulty := newDifficulty }
    else none
  | _ => none

/-- The entropy of the window, every hundredth runtime block. -/
def Index.measured (i : Index α) : Option (Index α) :=
  if i.blockNumber % 100 = 0 then
    (calculateEntropy T i.recentBlockProducers).toOption.map fun entropy =>
      { i with currentEntropy := entropy }
  else some i

/-- Replay one note. -/
def Index.follow (i : Index α) : Note α → Option (Index α)
  | .initialization n events => do
    let i ← events.foldlM (Index.initialized T) { i with blockNumber := n }
    i.measured T
  | .extrinsic events => events.foldlM (Index.applied T) i
  | .finalization => some { i with
      currentPhase := if i.currentPhase = .finalization then .powMining else i.currentPhase }

variable [DecidableEq H]

/-- The events a recorded step deposits. -/
def deposited (e : Record α H B) : List (Event α) :=
  (step T e.1 e.2).elim [] fun s' => s'.events.drop e.1.events.length

/-- The note of a recorded step. -/
def note (e : Record α H B) : Note α :=
  match e.2 with
  | .dispatch _ _ => .extrinsic (deposited T e)
  | .onInitialize n => .initialization n (deposited T e)
  | .onFinalize _ => .finalization

/-- The notes of a history, oldest first. -/
def transcript (h : List (Record α H B)) : List (Note α) := (h.map (note T)).reverse

end Definitions

variable {T : Config α H B}

/-! ## The start of a runtime block -/

/-- The check announces all that it records. -/
theorem checkDowntimeSlashing_follow {s s' : State α H B} (hn : s.blockNumber % 10 = 0)
    (h : checkDowntimeSlashing T s = .ok s') :
    ∃ new, s'.events = s.events ++ new ∧
      new.foldlM (Index.initialized T) s.index = some s'.index := by
  have hfollow : s'.blockNumber = s.blockNumber ∧ ∃ new, s'.events = s.events ++ new ∧
      new.foldlM (Index.initialized T) s.index = some s'.index := by
    refine checkDowntimeSlashing_induction (P := fun t => t.blockNumber = s.blockNumber ∧
      ∃ new, t.events = s.events ++ new ∧
        new.foldlM (Index.initialized T) s.index = some t.index) h
      ⟨rfl, [], (List.append_nil _).symm, rfl⟩ ?_
    rintro t validator lastActive stake amount ⟨hblock, new, hevents, hfold⟩ _ _ _ _
    refine ⟨hblock, new ++ [.validatorSlashed validator .downtime amount], ?_, ?_⟩
    · rw [← List.append_assoc, ← hevents]
      rfl
    · apply foldlM_concat_eq_some hfold
      have hten : t.index.blockNumber % 10 = 0 := by rwa [State.index, hblock]
      exact if_pos hten
  exact hfollow.2

/-- The retarget announces the difficulty it sets, and the window tells the entropy. -/
theorem adjustDifficulty_follow {s s' : State α H B} (hn : s.blockNumber % 100 = 0)
    (h : adjustDifficulty T s = .ok s') :
    ∃ new i, s'.events = s.events ++ new ∧
      new.foldlM (Index.initialized T) s.index = some i ∧ i.measured T = some s'.index := by
  obtain ⟨entropy, difficulty, hentropy, hdifficulty, rfl⟩ := adjustDifficulty_eq_ok h
  have hmem : (calculateEntropy T s.index.recentBlockProducers).toOption = some entropy := by
    rw [State.index, hentropy]
    rfl
  have hmeasured : ∀ i : Index α, i.blockNumber = s.blockNumber →
      i.recentBlockProducers = s.recentBlockProducers.toList →
      i.measured T = some { i with currentEntropy := entropy } := by
    intro i hblock hwindow
    rw [Index.measured, if_pos (by rwa [hblock]), hwindow, hentropy]
    rfl
  by_cases hsame : difficulty = s.difficulty
  · refine ⟨[], s.index, by rw [if_pos hsame], rfl, ?_⟩
    rw [hmeasured s.index rfl rfl, hsame]
    rfl
  · refine ⟨[.difficultyAdjusted s.difficulty difficulty], { s.index with difficulty },
      by rw [if_neg hsame], ?_, hmeasured _ rfl rfl⟩
    apply foldlM_concat_eq_some (List.foldlM_nil (f := Index.initialized T))
    exact if_pos ⟨hn, rfl, hsame, entropy, hmem, hdifficulty⟩

theorem onInitialize_follow {s s' : State α H B} {n : ℕ}
    (h : onInitialize T { s with blockNumber := n } n = .ok s') :
    ∃ new, s'.events = s.events ++ new ∧
      s.index.follow T (.initialization n new) = some s'.index := by
  simp only [onInitialize, bind_eq_ok] at h
  obtain ⟨t, hslash, hadjust⟩ := h
  have ht : t.blockNumber = n ∧ ∃ new, t.events = s.events ++ new ∧
      new.foldlM (Index.initialized T) { s.index with blockNumber := n } = some t.index := by
    split at hslash
    · rename_i hn
      refine ⟨?_, checkDowntimeSlashing_follow (s := { s with blockNumber := n }) hn hslash⟩
      exact checkDowntimeSlashing_induction (P := fun t => t.blockNumber = n) hslash rfl
        fun _ _ _ _ _ ht _ _ _ _ => ht
    · obtain rfl := Except.ok.inj hslash
      exact ⟨rfl, [], (List.append_nil _).symm, rfl⟩
  obtain ⟨hblock, new, hevents, hfold⟩ := ht
  split at hadjust
  · rename_i hn
    obtain ⟨new', i, hevents', hfold', hmeasured⟩ :=
      adjustDifficulty_follow (by rwa [hblock]) hadjust
    refine ⟨new ++ new', by rw [hevents', hevents, List.append_assoc], ?_⟩
    rw [Index.follow, List.foldlM_append, hfold]
    simp [hfold', hmeasured]
  · rename_i hn
    obtain rfl := Except.ok.inj hadjust
    refine ⟨new, hevents, ?_⟩
    rw [Index.follow, hfold]
    have hkept : t.index.measured T = some t.index := if_neg (by rwa [State.index, hblock])
    simp [hkept]

/-! ## One step -/

omit [AccountId α] in
theorem calculateBlockReward_total {totalReward : U128} {reward : BlockReward}
    (h : calculateBlockReward T totalReward = .ok reward) : reward.total = totalReward := by
  simp only [calculateBlockReward, bind_eq_ok, pure_eq_ok] at h
  obtain ⟨_, _, _, _, rfl⟩ := h
  rfl

/-- A full window loses its first entry to the push. -/
theorem rtake_recentBlockProducers (s : State α H B) (miner : α) (header : GhostBlockHeader H) :
    (acceptBlock s miner header).recentBlockProducers.toList =
      (s.recentBlockProducers.toList ++ [miner]).rtake 100 := by
  have hself : s.recentBlockProducers.toList = s.recentBlockProducers.toList.rtake 100 := by
    rw [List.rtake, Nat.sub_eq_zero_of_le s.recentBlockProducers.length_le, List.drop_zero]
  rw [acceptBlock_recentBlockProducers, BoundedVec.toList_makeRoom hself,
    List.rtake_concat_succ]

theorem acceptBlock_index (s : State α H B) (miner : α) (header : GhostBlockHeader H) :
    (acceptBlock s miner header).index = { s.index with
      blockProducers := s.blockProducers.insert header.number miner
      recentBlockProducers := (s.recentBlockProducers.toList ++ [miner]).rtake 100
      currentPhase := .posValidation } := by
  rw [← rtake_recentBlockProducers s miner header]
  rfl

variable [DecidableEq H]

theorem deposited_eq {s s' : State α H B} {a : Action α H} {new : List (Event α)}
    (h : step T s a = some s') (hevents : s'.events = s.events ++ new) :
    deposited T (s, a) = new := by
  rw [deposited, h, Option.elim_some, hevents, List.drop_left]

theorem note_dispatch {s s' : State α H B} {origin : Origin α} {call : Call α H}
    {new : List (Event α)} (h : step T s (.dispatch origin call) = some s')
    (hevents : s'.events = s.events ++ new) :
    note T (s, .dispatch origin call) = .extrinsic new := by
  rw [note, deposited_eq h hevents]

/-- Replaying the note of a step takes the index of the state before to that of the state after. -/
theorem step_follow {s s' : State α H B} {a : Action α H} (h : step T s a = some s') :
    s.index.follow T (note T (s, a)) = some s'.index := by
  cases step_effect h with
  | rejected | staked | unstaked | registered =>
    rw [note_dispatch h (List.append_nil _).symm]
    rfl
  | @submitted miner header _ _ haccepts =>
    have hevents : (acceptBlock s miner header).events =
        s.events ++ [.blockMined header.number miner header.nonce] := rfl
    rw [note_dispatch h hevents]
    apply foldlM_concat_eq_some (List.foldlM_nil (f := Index.applied T))
    refine (if_pos ⟨haccepts.phase, haccepts.positive⟩).trans ?_
    rw [acceptBlock_index]
    rfl
  | @validated validator miner n sig header selection reward balances _ hcloses =>
    have hevents : (closedState T s validator n sig header selection reward miner balances).events =
        s.events ++ [.validatorSelected validator selection.weight,
          .rewardsDistributed miner reward.minerReward reward.stakersReward] :=
      List.append_assoc _ _ _
    rw [note_dispatch h hevents]
    have hselected : s.index.applied T (.validatorSelected validator selection.weight) =
        some s.index := if_pos hcloses.phase
    have hpays : PaysBlockReward T reward.minerReward reward.stakersReward := by
      have htotal := calculateBlockReward_total hcloses.reward_eq
      rw [PaysBlockReward, hcloses.reward_eq, ← htotal]
    apply foldlM_concat_eq_some (foldlM_concat_eq_some (List.foldlM_nil) hselected)
    exact if_pos ⟨hcloses.phase, hpays⟩
  | @reported _ validator reason amount =>
    have hevents : (applySlash (recordReport s validator reason) validator reason
        (s.stakeOf validator) amount).events =
        s.events ++ [.validatorSlashed validator reason amount] := by
      rw [← recordReport_events s validator reason]
      rfl
    rw [note_dispatch h hevents]
    apply foldlM_concat_eq_some (List.foldlM_nil (f := Index.applied T))
    cases reason <;> rfl
  | @initialized n _ hinit =>
    obtain ⟨new, hevents, hfollow⟩ := onInitialize_follow hinit
    rw [note, deposited_eq h hevents]
    exact hfollow
  | finalized =>
    rw [onFinalize_eq]
    rfl

/-! ## Runs -/

/-- Replaying the notes of a run, from what the storage said at its start, never meets a note that is
refused, and ends with what the storage says at its end. -/
theorem run_follow {s₀ s : State α H B} {h : List (Record α H B)} (run : Run (step T) s₀ h s) :
    (transcript T h).foldlM (Index.follow T) s₀.index = some s.index :=
  run.replay State.index (note T) (Index.follow T) fun _ _ _ => step_follow

theorem run_follow_devRound :
    ∃ h s, Run (step devConfig) { devState with difficulty := 1000 } h s ∧
      transcript devConfig h =
        [.initialization 1 [], .extrinsic [], .extrinsic [.blockMined 1 2 0],
          .extrinsic [.validatorSelected 1 1000000000000,
            .rewardsDistributed 2 4000000000000 6000000000000],
          .finalization, .initialization 100 [.difficultyAdjusted 1000 500]] ∧
      (transcript devConfig h).foldlM (Index.follow devConfig)
        { devState.index with difficulty := 1000 } = some s.index := by
  obtain ⟨h, s, run, hcheck⟩ := exists_run_of_exec (step devConfig)
    { devState with difficulty := 1000 }
    [.onInitialize 1, .dispatch (.signed 1) (.stake 1000000000000),
      .dispatch (.signed 2) (.submitBlock { devBlock with difficulty := 1000 }),
      .dispatch (.signed 1) (.validateBlock 1 ⟨0⟩), .onFinalize 1, .onInitialize 100]
    (fun r => decide (transcript devConfig r.1 =
        [.initialization 1 [], .extrinsic [], .extrinsic [.blockMined 1 2 0],
          .extrinsic [.validatorSelected 1 1000000000000,
            .rewardsDistributed 2 4000000000000 6000000000000],
          .finalization, .initialization 100 [.difficultyAdjusted 1000 500]])) (by decide +kernel)
  exact ⟨h, s, run, of_decide_eq_true hcheck, run_follow run⟩

end GhostConsensus
