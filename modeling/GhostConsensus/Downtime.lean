import GhostConsensus.Entries
import GhostConsensus.Runtime

/-!
# The downtime check

The activity of a validator is recorded as the number of the block it mined or validated, and read
by the downtime check as if it were a number of a runtime block. A validator that was active within
the allowed downtime is spared as long as the recorded numbers keep up with the runtime
(`KeepsUp`).
-/

namespace GhostConsensus

open Transition MachineInt

variable {α H B : Type} [AccountId α] [DecidableEq H]

section Definitions

variable (T : Config α H B)

/-- Who was active in a step, and the number recorded for it. -/
def activity (e : Record α H B) : Option (α × U32) :=
  match submission T e with
  | some (miner, header) => some (miner, header.number)
  | none => (validation T e).map fun c => (c.1, c.2.1)

/-- The last activity of `v` in a history: its runtime block and the number recorded. -/
def lastActivity (v : α) : List (Record α H B) → Option (ℕ × U32)
  | [] => none
  | e :: h =>
    match activity T e with
    | some (who, n) => if who = v then some (e.1.blockNumber, n) else lastActivity v h
    | none => lastActivity v h

/-- The step from `s` to `s'` announces a slash of `v` for downtime. -/
def SlashedForDowntime (s s' : State α H B) (v : α) : Prop :=
  ∃ amount, Event.validatorSlashed v .downtime amount ∈ s'.events.drop s.events.length

/-- No start of a runtime block in the history slashes a validator for downtime that was active in
one of the last `MaxDowntimeBlocks` runtime blocks before it. -/
def SparesActive (h : List (Record α H B)) : Prop :=
  ∀ post pre s b s', h = post ++ (s, .onInitialize b) :: pre →
    step T s (.onInitialize b) = some s' → ∀ v, SlashedForDowntime s s' v →
    ∀ e ∈ pre, ∀ n, activity T e = some (v, n) →
      ¬(b ≤ e.1.blockNumber + T.maxDowntimeBlocks.toNat ∧ e.1.blockNumber < b)

/-- An activity in the runtime block `t` recorded as `n` is recent enough for all checks within the
allowed downtime. -/
def KeepsUp (t : ℕ) (n : U32) : Prop :=
  ∀ b, b ≤ t + T.maxDowntimeBlocks.toNat → t < b → b % 10 = 0 →
    (saturatedInto 32 b : U32).toNat ≤ n.toNat + T.maxDowntimeBlocks.toNat

instance (t : ℕ) (n : U32) : Decidable (KeepsUp T t n) :=
  inferInstanceAs (Decidable (∀ b, b ≤ _ → _))

/-- The numbers of the blocks that an action submits or validates keep up with the runtime. -/
def RecordsKeepUp (s : State α H B) (a : Action α H) : Prop :=
  (∀ c ∈ offered T s a, KeepsUp T s.blockNumber c.2.number) ∧
    ∀ c ∈ closing T s a, KeepsUp T s.blockNumber c.2.1

instance (s : State α H B) (a : Action α H) : Decidable (RecordsKeepUp T s a) :=
  inferInstanceAs (Decidable (_ ∧ _))

/-- A runtime block starts with a number above that of the current one. -/
def NextBlock (s : State α H B) (a : Action α H) : Prop := ∀ n ∈ a.newBlock, s.blockNumber < n

instance (s : State α H B) (a : Action α H) : Decidable (NextBlock s a) :=
  inferInstanceAs (Decidable (∀ _ ∈ a.newBlock, _))

end Definitions

variable {T : Config α H B}

/-! ## What the check slashes -/

omit [DecidableEq H] in
theorem onInitialize_blockNumber {s s' : State α H B} {n : ℕ} (h : onInitialize T s n = .ok s') :
    s'.blockNumber = s.blockNumber := by
  obtain ⟨_, _, _, _, _, rfl⟩ := onInitialize_frame h
  rfl

omit [DecidableEq H] in
/-- The start of a runtime block announces a slash for downtime where a stake is due. -/
theorem onInitialize_slashed {s s' : State α H B} {n : ℕ} {v : α}
    (h : onInitialize T s n = .ok s') :
    SlashedForDowntime s s' v ↔ n % 10 = 0 ∧ ∃ stake, dueStake T s v = some stake := by
  obtain ⟨new, hevents, hchecked⟩ := onInitialize_slashes h
  have hslashed : SlashedForDowntime s s' v ↔
      ∃ amount, (SlashingReason.downtime, amount) ∈ slashesOf v new := by
    rw [SlashedForDowntime, hevents, List.drop_left]
    exact exists_congr fun _ => mem_slashesOf.symm
  rw [hslashed]
  rcases hchecked v with ⟨stake, amount, hdue, -, hafter⟩ | ⟨hdue, hafter⟩
  · rw [show slashesOf v new = [(.downtime, amount)] from congrArg Standing.slashes hafter]
    split at hdue
    · rename_i hn
      exact ⟨fun _ => ⟨hn, stake, hdue⟩, fun _ => ⟨amount, List.mem_singleton_self _⟩⟩
    · cases hdue
  · rw [show slashesOf v new = [] from congrArg Standing.slashes hafter]
    refine ⟨fun ⟨_, hmem⟩ => (List.not_mem_nil hmem).elim, fun ⟨hn, stake, hstake⟩ => ?_⟩
    rw [if_pos hn, hstake] at hdue
    cases hdue

/-! ## The record of activity -/

/-- Only the start of a runtime block changes the number of the current one. -/
theorem step_blockNumber {s s' : State α H B} {a : Action α H} (h : step T s a = some s') :
    s'.blockNumber = s.blockNumber ∨ ∃ n, a = .onInitialize n ∧ s'.blockNumber = n := by
  cases step_effect h with
  | rejected | submitted | staked | unstaked | validated | registered => exact Or.inl rfl
  | @reported _ _ reason => cases reason <;> exact Or.inl rfl
  | @initialized n _ hinit => exact Or.inr ⟨n, rfl, onInitialize_blockNumber hinit⟩
  | finalized => exact Or.inl (by rw [onFinalize_eq])

/-- How a step changes the record of activity: not at all, or by its own activity. -/
theorem step_activity {s s' : State α H B} {a : Action α H} (h : step T s a = some s') :
    (activity T (s, a) = none ∧ s'.lastActiveBlock = s.lastActiveBlock) ∨
      ∃ who n, activity T (s, a) = some (who, n) ∧
        (RecordsKeepUp T s a → KeepsUp T s.blockNumber n) ∧
        s'.lastActiveBlock = s.lastActiveBlock.insert who n := by
  cases step_chain h with
  | @accepted miner header _ ha hsub _ haccepts =>
    exact Or.inr ⟨miner, header.number, by rw [activity, hsub],
      fun hkeep => hkeep.1 _ (ha ▸ haccepts.mem_offered), acceptBlock_lastActiveBlock s miner header⟩
  | @closed validator _ n _ _ _ _ _ ha hsub hval hcloses =>
    exact Or.inr ⟨validator, n, by rw [activity, hsub, hval]; rfl,
      fun hkeep => hkeep.2 _ (ha ▸ hcloses.mem_closing),
      closedState_lastActiveBlock _ _ _ _ _ _ _ _ _⟩
  | reopened _ _ hsub hval => exact Or.inl ⟨by rw [activity, hsub, hval]; rfl, rfl⟩
  | unchanged hsub hval _ hsame =>
    exact Or.inl ⟨by rw [activity, hsub, hval]; rfl, hsame.lastActiveBlock⟩

/-- The storage goes on recording the last activity of every account. -/
theorem step_recorded {h : List (Record α H B)} {s s' : State α H B} {a : Action α H}
    (recorded : ∀ v, s.lastActiveBlock.get v = (lastActivity T v h).map Prod.snd)
    (hstep : step T s a = some s') (v : α) :
    s'.lastActiveBlock.get v = (lastActivity T v ((s, a) :: h)).map Prod.snd := by
  rcases step_activity hstep with ⟨hnone, hsame⟩ | ⟨who, n, hactive, -, hinsert⟩
  · rw [lastActivity, hnone, hsame, recorded]
  · rw [lastActivity, hactive, hinsert, OrderedMap.get_insert]
    by_cases hv : v = who
    · simp [hv]
    · simp [hv, Ne.symm hv, recorded]

theorem run_recorded {s₀ s : State α H B} {h : List (Record α H B)} (run : Run (step T) s₀ h s)
    (start : s₀.lastActiveBlock = ∅) :
    ∀ v, s.lastActiveBlock.get v = (lastActivity T v h).map Prod.snd := by
  refine run.history_invariant (C := fun _ _ => True)
    (I := fun h s => ∀ v, s.lastActiveBlock.get v = (lastActivity T v h).map Prod.snd) (fun v => ?_)
    (fun _ _ => trivial) fun _ _ _ _ _ recorded _ hstep => step_recorded recorded hstep
  rw [start]
  rfl

/-- The last activity is one of the history. -/
theorem lastActivity_eq_some {v : α} {t : ℕ} {m : U32} :
    ∀ {h : List (Record α H B)}, lastActivity T v h = some (t, m) →
      ∃ e ∈ h, activity T e = some (v, m) ∧ e.1.blockNumber = t
  | e :: h, hlast => by
      rw [lastActivity] at hlast
      split at hlast
      · rename_i who n hactivity
        split at hlast
        · rename_i hv
          obtain ⟨rfl, rfl⟩ := Prod.mk.inj (Option.some.inj hlast)
          exact ⟨e, List.mem_cons_self, hv ▸ hactivity, rfl⟩
        · obtain ⟨e', he', hlast⟩ := lastActivity_eq_some hlast
          exact ⟨e', List.mem_cons_of_mem _ he', hlast⟩
      · obtain ⟨e', he', hlast⟩ := lastActivity_eq_some hlast
        exact ⟨e', List.mem_cons_of_mem _ he', hlast⟩

/-- The runtime blocks of the history are none after the current one, and the last activity of an
account is in none before that of any other activity. -/
structure ActivityInvariant (T : Config α H B) (h : List (Record α H B)) (s : State α H B) : Prop where
  past : ∀ e ∈ h, e.1.blockNumber ≤ s.blockNumber
  last : ∀ e ∈ h, ∀ v n, activity T e = some (v, n) → ∃ t m, lastActivity T v h = some (t, m) ∧
    e.1.blockNumber ≤ t

theorem ActivityInvariant.step {h : List (Record α H B)} {s s' : State α H B} {a : Action α H}
    (inv : ActivityInvariant T h s) (hnext : NextBlock s a) (hstep : step T s a = some s') :
    ActivityInvariant T ((s, a) :: h) s' := by
  have hblock : s.blockNumber ≤ s'.blockNumber := by
    rcases step_blockNumber hstep with heq | ⟨n, ha, heq⟩
    · exact heq.ge
    · exact heq ▸ (hnext n (ha ▸ rfl)).le
  refine ⟨fun e he => ?_, fun e he v n hactivity => ?_⟩
  · rcases List.mem_cons.1 he with rfl | he
    · exact hblock
    · exact (inv.past e he).trans hblock
  · rw [lastActivity]
    rcases List.mem_cons.1 he with rfl | he
    · rw [hactivity]
      exact ⟨_, n, if_pos rfl, le_rfl⟩
    · obtain ⟨t, m, hlast, hle⟩ := inv.last e he v n hactivity
      split
      · split
        · exact ⟨_, _, rfl, inv.past e he⟩
        · exact ⟨t, m, hlast, hle⟩
      · exact ⟨t, m, hlast, hle⟩

theorem run_activityInvariant {s₀ s : State α H B} {h : List (Record α H B)}
    (run : Run (step T) s₀ h s) (next : ∀ e ∈ h, NextBlock e.1 e.2) : ActivityInvariant T h s :=
  run.history_invariant (I := ActivityInvariant T)
    ⟨fun _ he => (List.not_mem_nil he).elim, fun _ he => (List.not_mem_nil he).elim⟩ next
    fun _ _ _ _ _ inv hnext hstep => inv.step hnext hstep

/-! ## Who is spared -/

/-- Whenever the check reads what was recorded of a staker in the last `MaxDowntimeBlocks` runtime
blocks, the number has kept up with the runtime. -/
def ReadInTime (T : Config α H B) (h : List (Record α H B)) : Prop :=
  ∀ post pre s b, h = post ++ (s, .onInitialize b) :: pre → b % 10 = 0 →
    ∀ v t m, lastActivity T v pre = some (t, m) → b ≤ t + T.maxDowntimeBlocks.toNat →
      (s.validatorStakes.get v).isSome = true →
        (saturatedInto 32 b : U32).toNat ≤ m.toNat + T.maxDowntimeBlocks.toNat

/-- In a run through increasing runtime blocks the downtime check spares who was active if and only
if what it reads has kept up with the runtime. -/
theorem sparesActive_iff {s₀ s : State α H B} {h : List (Record α H B)} (run : Run (step T) s₀ h s)
    (start : s₀.lastActiveBlock = ∅) (next : ∀ e ∈ h, NextBlock e.1 e.2) :
    SparesActive T h ↔ ReadInTime T h := by
  constructor
  · rintro hspares post pre t b rfl hten v t₁ m hlast hrecent hstaker
    obtain ⟨hpre, t', hstep, -⟩ := run.at_step
    have hb : t.blockNumber < b := next (t, .onInitialize b) (by simp) b rfl
    obtain ⟨e, he, hactivity, rfl⟩ := lastActivity_eq_some hlast
    have hpast := (run_activityInvariant hpre fun e he => next e (by simp [he])).past e he
    obtain ⟨stake, hstake⟩ := Option.isSome_iff_exists.1 hstaker
    have hget := run_recorded hpre start v
    rw [hlast] at hget
    by_contra hlate
    have hdown : downtimeExceeded T { t with blockNumber := b } m :=
      downtimeExceeded_iff.2 (by show _ < (saturatedInto 32 b : U32).toNat - m.toNat; omega)
    cases step_effect hstep with
    | initialized hinit =>
      have hslashed : SlashedForDowntime t t' v := (onInitialize_slashed hinit).2
        ⟨hten, stake, dueStake_eq_some.2 ⟨m, hget, hdown, hstake⟩⟩
      exact hspares post pre t b t' rfl hstep v hslashed e he m hactivity ⟨hrecent, by omega⟩
  · rintro hread post pre t b t' rfl hstep v hslashed e he n hactivity ⟨hrecent, -⟩
    obtain ⟨hpre, -⟩ := run.at_step
    have inv := run_activityInvariant hpre fun e he => next e (by simp [he])
    cases step_effect hstep with
    | initialized hinit =>
      obtain ⟨hten, stake, hdue⟩ := (onInitialize_slashed hinit).1 hslashed
      obtain ⟨lastActive, hget, hdown, hstake⟩ := dueStake_eq_some.1 hdue
      obtain ⟨t₁, m, hlast, hle⟩ := inv.last e he v n hactivity
      have hrecorded := run_recorded hpre start v
      rw [hlast] at hrecorded
      obtain rfl : m = lastActive := Option.some.inj (hrecorded.symm.trans hget)
      have hstaker : (t.validatorStakes.get v).isSome = true :=
        Option.isSome_iff_exists.2 ⟨stake, hstake⟩
      have htime := hread post pre t b rfl hten v t₁ m hlast
        (hrecent.trans (Nat.add_le_add_right hle _)) hstaker
      have hexceeded : T.maxDowntimeBlocks.toNat <
          (saturatedInto 32 b : U32).toNat - m.toNat := downtimeExceeded_iff.1 hdown
      omega

/-- What keeps up with the runtime when it is recorded has kept up when it is read. -/
theorem ReadInTime.of_recordsKeepUp {s₀ s : State α H B} {h : List (Record α H B)}
    (run : Run (step T) s₀ h s) (next : ∀ e ∈ h, NextBlock e.1 e.2) (keep : ∀ e ∈ h, RecordsKeepUp T e.1 e.2) :
    ReadInTime T h := by
  rintro post pre t b rfl hten v t₁ m hlast hrecent -
  obtain ⟨hpre, -⟩ := run.at_step
  have hb : t.blockNumber < b := next (t, .onInitialize b) (by simp) b rfl
  obtain ⟨e, he, hactivity, rfl⟩ := lastActivity_eq_some hlast
  have hpast := (run_activityInvariant hpre fun e he => next e (by simp [he])).past e he
  have hkeep := keep e (by simp [he])
  obtain ⟨post', pre', rfl⟩ := List.append_of_mem he
  obtain ⟨-, _, hstep, -⟩ := hpre.at_step
  rcases step_activity hstep with ⟨hnone, -⟩ | ⟨who, n, hactive, hup, -⟩
  · rw [hactivity] at hnone
    cases hnone
  · obtain ⟨-, rfl⟩ := Prod.mk.inj (Option.some.inj (hactivity.symm.trans hactive))
    exact hup hkeep b hrecent (by omega) hten

/-- In every run through increasing runtime blocks in which the recorded block numbers keep up with
the runtime, the downtime check spares who was active. -/
theorem run_sparesActive {s₀ s : State α H B} {h : List (Record α H B)}
    (run : Run (step T) s₀ h s) (start : s₀.lastActiveBlock = ∅)
    (next : ∀ e ∈ h, NextBlock e.1 e.2) (keep : ∀ e ∈ h, RecordsKeepUp T e.1 e.2) :
    SparesActive T h :=
  (sparesActive_iff run start next).2 (ReadInTime.of_recordsKeepUp run next keep)

theorem run_sparesActive_devRound :
    ∃ h s, Run (step devConfig) devState h s ∧
      Event.validatorSlashed 1 .downtime 100000000000 ∈ s.events ∧ SparesActive devConfig h := by
  obtain ⟨h, s, run, hcheck⟩ := exists_run_of_exec (step devConfig) devState
    (devRound ++ [.onInitialize 110])
    (fun r => decide (Event.validatorSlashed 1 .downtime 100000000000 ∈ r.2.events ∧
      (∀ e ∈ r.1, NextBlock e.1 e.2) ∧ ∀ e ∈ r.1, RecordsKeepUp devConfig e.1 e.2))
    (by decide +kernel)
  obtain ⟨hslashed, hnext, hkeep⟩ := of_decide_eq_true hcheck
  exact ⟨h, s, run, hslashed, run_sparesActive run rfl hnext hkeep⟩

/-- The storage of `devState` when runtime block `108` is over. -/
def lateState : State ℕ (List ℕ) (Accounts ℕ) := { devState with blockNumber := 108 }

/-- Account `1` mines the first block in runtime block `109`, and is slashed for downtime at the
start of the next one. -/
theorem not_sparesActive :
    ∃ h s, Run (step devConfig) lateState h s ∧
      lateState.blockHeaders = StorageMap.empty.insert 0 devHeader ∧
      lateState.lastActiveBlock = ∅ ∧ (∀ e ∈ h, NextBlock e.1 e.2) ∧ ¬SparesActive devConfig h := by
  obtain ⟨h, s, run, hcheck⟩ := exists_run_of_exec (step devConfig) lateState
    [.onInitialize 109, .dispatch (.signed 1) (.stake 1000000000000),
      .dispatch (.signed 1) (.submitBlock devBlock), .onFinalize 109]
    (fun r => decide ((∀ e ∈ r.1, NextBlock e.1 e.2) ∧ r.2.blockNumber = 109 ∧
      (∃ e ∈ r.1, e.1.blockNumber = 109 ∧ activity devConfig e = some (1, 1)) ∧
      ∃ s' ∈ step devConfig r.2 (.onInitialize 110),
        Event.validatorSlashed 1 .downtime 100000000000 ∈ s'.events.drop r.2.events.length))
    (by decide +kernel)
  obtain ⟨hnext, hblock, ⟨e, he, hactive, hactivity⟩, s', hstep, hslashed⟩ := of_decide_eq_true hcheck
  refine ⟨(s, .onInitialize 110) :: h, s', run.cons hstep, rfl, rfl, ?_, fun hspares => ?_⟩
  · intro e he
    rcases List.mem_cons.1 he with rfl | he
    · intro n hn
      obtain rfl := Option.some.inj hn
      have hblock' : s.blockNumber = 109 := hblock
      show s.blockNumber < 110
      omega
    · exact hnext e he
  · exact hspares [] h s 110 s' rfl hstep 1 ⟨_, hslashed⟩ e he 1 hactivity
      ⟨by rw [hactive]; decide, by omega⟩

end GhostConsensus
