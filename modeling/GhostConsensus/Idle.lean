import GhostConsensus.Downtime

/-!
# Idle stakers

The check for downtime visits the accounts with a record of activity, and an account has one only
once it has mined or validated a block. Who stakes and stays idle from the start is therefore never
visited; and whoever is visited is judged by the number of a block, not by the runtime block in which
it was active.
-/

namespace GhostConsensus

open Transition MachineInt

variable {α H B : Type} [AccountId α] [DecidableEq H]

section Definitions

variable (T : Config α H B)

/-- In each of the `MaxDowntimeBlocks + 1` runtime blocks before `b` the account `v` held stake and
was not active. -/
structure IdleBefore (h : List (Record α H B)) (b : ℕ) (v : α) : Prop where
  first : T.maxDowntimeBlocks.toNat + 1 ≤ b
  block : ∀ t, t < b → b ≤ t + (T.maxDowntimeBlocks.toNat + 1) → ∃ e ∈ h, e.1.blockNumber = t
  staked : ∀ e ∈ h, e.1.blockNumber < b →
    b ≤ e.1.blockNumber + (T.maxDowntimeBlocks.toNat + 1) → 0 < e.1.stakeOf v
  inactive : ∀ e ∈ h, e.1.blockNumber < b →
    b ≤ e.1.blockNumber + (T.maxDowntimeBlocks.toNat + 1) → ∀ c ∈ activity T e, c.1 ≠ v

instance (h : List (Record α H B)) (b : ℕ) (v : α) : Decidable (IdleBefore T h b v) :=
  decidable_of_iff
    (T.maxDowntimeBlocks.toNat + 1 ≤ b ∧
      (∀ t, t < b → b ≤ t + (T.maxDowntimeBlocks.toNat + 1) → ∃ e ∈ h, e.1.blockNumber = t) ∧
      (∀ e ∈ h, e.1.blockNumber < b →
        b ≤ e.1.blockNumber + (T.maxDowntimeBlocks.toNat + 1) → 0 < e.1.stakeOf v) ∧
      ∀ e ∈ h, e.1.blockNumber < b →
        b ≤ e.1.blockNumber + (T.maxDowntimeBlocks.toNat + 1) → ∀ c ∈ activity T e, c.1 ≠ v)
    ⟨fun h => ⟨h.1, h.2.1, h.2.2.1, h.2.2.2⟩, fun h => ⟨h.1, h.2, h.3, h.4⟩⟩

/-- A check at the start of runtime block `b` finds `v` with at least `10` units of stake, idle all
the time allowed for downtime. -/
def IdleStaker (pre : List (Record α H B)) (s : State α H B) (b : ℕ) (v : α) : Prop :=
  b % 10 = 0 ∧ 10 ≤ s.stakeOf v ∧ IdleBefore T ((s, .onInitialize b) :: pre) b v

instance (pre : List (Record α H B)) (s : State α H B) (b : ℕ) (v : α) :
    Decidable (IdleStaker T pre s b v) :=
  inferInstanceAs (Decidable (_ ∧ _ ∧ _))

/-- Every check in the history slashes the idle stakers it finds. -/
def CatchesIdle (h : List (Record α H B)) : Prop :=
  ∀ post pre s b s', h = post ++ (s, .onInitialize b) :: pre →
    step T s (.onInitialize b) = some s' → ∀ v, IdleStaker T pre s b v → SlashedForDowntime s s' v

/-- `v` has been active in the history, and the number recorded for it last is out of date at the
start of runtime block `b`. -/
def Overdue (pre : List (Record α H B)) (v : α) (b : ℕ) : Prop :=
  ∃ n ∈ (lastActivity T v pre).map Prod.snd,
    T.maxDowntimeBlocks < saturatingSub (saturatedInto 32 b) n

/-- Every idle staker that a check in the history finds is overdue. -/
def IdleOverdue (h : List (Record α H B)) : Prop :=
  ∀ post pre s b, h = post ++ (s, .onInitialize b) :: pre → ∀ v, IdleStaker T pre s b v →
    Overdue T pre v b

end Definitions

variable {T : Config α H B}

/-- A check slashes a staker just when its last recorded activity is out of date. -/
theorem slashedForDowntime_iff_overdue {pre : List (Record α H B)} {s s' : State α H B} {b : ℕ}
    {v : α} (recorded : s.lastActiveBlock.get v = (lastActivity T v pre).map Prod.snd)
    (hstep : step T s (.onInitialize b) = some s') (hten : b % 10 = 0) (hstake : 0 < s.stakeOf v) :
    SlashedForDowntime s s' v ↔ Overdue T pre v b := by
  cases step_effect hstep with
  | initialized hinit =>
    have hslashed : SlashedForDowntime s s' v ↔
        b % 10 = 0 ∧ ∃ stake, dueStake T { s with blockNumber := b } v = some stake :=
      onInitialize_slashed hinit
    rw [hslashed, Overdue, ← recorded]
    constructor
    · rintro ⟨-, _, hdue⟩
      obtain ⟨lastActive, hget, hdown, -⟩ := dueStake_eq_some.1 hdue
      exact ⟨lastActive, hget, hdown⟩
    · rintro ⟨lastActive, hget, hdown⟩
      obtain ⟨stake, hget'⟩ := exists_validatorStakes hstake
      exact ⟨hten, stake, dueStake_eq_some.2 ⟨lastActive, hget, hdown, hget'⟩⟩

/-- Starting without records of activity, the checks of a run slash all idle stakers exactly if
each of them is overdue. -/
theorem run_catchesIdle_iff {s₀ s : State α H B} {h : List (Record α H B)}
    (run : Run (step T) s₀ h s) (start : s₀.lastActiveBlock = ∅) :
    CatchesIdle T h ↔ IdleOverdue T h := by
  have hcheck : ∀ {post pre t b t' v}, h = post ++ (t, .onInitialize b) :: pre →
      step T t (.onInitialize b) = some t' → IdleStaker T pre t b v →
      (SlashedForDowntime t t' v ↔ Overdue T pre v b) := by
    rintro post pre t b t' v rfl hstep ⟨hten, hstake, -⟩
    have hpos : 0 < t.stakeOf v := BitVec.lt_def.2 (lt_of_lt_of_le (by decide) (BitVec.le_def.1 hstake))
    obtain ⟨hpre, -⟩ := run.at_step
    exact slashedForDowntime_iff_overdue (run_recorded hpre start v) hstep hten hpos
  constructor
  · rintro hcatches post pre t b rfl v hidle
    obtain ⟨-, t', hstep, -⟩ := run.at_step
    exact (hcheck rfl hstep hidle).1 (hcatches post pre t b t' rfl hstep v hidle)
  · rintro hoverdue post pre t b t' rfl hstep v hidle
    exact (hcheck rfl hstep hidle).2 (hoverdue post pre t b rfl v hidle)

theorem run_catchesIdle_iff_devRound :
    ∃ h s, Run (step devConfig) devState h s ∧ IdleStaker devConfig h s 110 1 ∧
      Overdue devConfig h 1 110 ∧ (CatchesIdle devConfig h ↔ IdleOverdue devConfig h) := by
  obtain ⟨h, s, run, hcheck⟩ := exists_run_of_exec (step devConfig) devState
    (devRound ++ emptyBlocks 2 108)
    (fun r => decide (IdleStaker devConfig r.1 r.2 110 1 ∧
      ∃ n ∈ (lastActivity devConfig 1 r.1).map Prod.snd,
        devConfig.maxDowntimeBlocks < saturatingSub (saturatedInto 32 110) n)) (by decide +kernel)
  obtain ⟨hidle, hoverdue⟩ := of_decide_eq_true hcheck
  exact ⟨h, s, run, hidle, hoverdue, run_catchesIdle_iff run rfl⟩

/-- A staker that never mined or validated a block is not slashed, however long it is idle. -/
theorem not_catchesIdle :
    ∃ h s, Run (step devConfig) devState h s ∧ devState.validatorStakes = ∅ ∧
      devState.lastActiveBlock = ∅ ∧ ¬CatchesIdle devConfig h := by
  obtain ⟨h, s, run, hcheck⟩ := exists_run_of_exec (step devConfig) devState
    ([.onInitialize 1, .dispatch (.signed 1) (.stake 1000000000000), .onFinalize 1] ++
      emptyBlocks 2 108)
    (fun r => decide (IdleStaker devConfig r.1 r.2 110 1 ∧
      ∃ s' ∈ step devConfig r.2 (.onInitialize 110), s'.events.drop r.2.events.length = []))
    (by decide +kernel)
  obtain ⟨hidle, s', hstep, hnone⟩ := of_decide_eq_true hcheck
  refine ⟨(s, .onInitialize 110) :: h, s', run.cons hstep, rfl, rfl, fun hcatches => ?_⟩
  obtain ⟨_, hmem⟩ := hcatches [] h s 110 s' rfl hstep 1 hidle
  rw [hnone] at hmem
  exact List.not_mem_nil hmem

end GhostConsensus
