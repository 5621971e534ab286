import GhostConsensus.Downtime

/-!
# Downtime over an interval

The check for downtime takes its share of the stake in every tenth runtime block in which it finds
the account overdue, and it leaves the record of activity as it was. What an interval costs an
account that does nothing is bounded by one slash only if one check takes a share at most.
-/

namespace GhostConsensus

open Transition MachineInt

variable {α H B : Type} [AccountId α] [DecidableEq H]

section Definitions

variable (T : Config α H B) (v : α)

/-- In the step `v` does not mine or validate a block, stake or unstake, and nobody reports it. -/
structure Quiet (e : Record α H B) : Prop where
  inactive : ∀ c ∈ activity T e, c.1 ≠ v
  staking : ∀ c ∈ (succeeded T e).bind Call.staking, c.1 ≠ v
  unstaking : ∀ c ∈ (succeeded T e).bind Call.unstaking, c.1 ≠ v
  report : ∀ c ∈ (succeeded T e).bind Call.report, c.1 ≠ v

instance (e : Record α H B) : Decidable (Quiet T v e) :=
  decidable_of_iff
    ((∀ c ∈ activity T e, c.1 ≠ v) ∧ (∀ c ∈ (succeeded T e).bind Call.staking, c.1 ≠ v) ∧
      (∀ c ∈ (succeeded T e).bind Call.unstaking, c.1 ≠ v) ∧
      ∀ c ∈ (succeeded T e).bind Call.report, c.1 ≠ v)
    ⟨fun h => ⟨h.1, h.2.1, h.2.2.1, h.2.2.2⟩, fun h => ⟨h.1, h.2, h.3, h.4⟩⟩

/-- What the start of a runtime block takes from the stake of `v`. -/
def checkLoss (e : Record α H B) : ℕ :=
  match e.2 with
  | .onInitialize _ =>
    (step T e.1 e.2).elim 0 fun s' => (e.1.stakeOf v).toNat - (s'.stakeOf v).toNat
  | _ => 0

/-- What all checks of a history take from the stake of `v`. -/
def checkLosses (h : List (Record α H B)) : ℕ := (h.map (checkLoss T v)).sum

/-- The step is a check that finds a stake of `v` due, of which its share is at least one unit. -/
def TakesShare (e : Record α H B) : Prop :=
  ∃ n ∈ e.2.newBlock, n % 10 = 0 ∧ ∃ stake ∈ dueStake T { e.1 with blockNumber := n } v,
    100 ≤ stake.toNat * T.downtimeSlashPercentage.toNat

instance (e : Record α H B) : Decidable (TakesShare T v e) :=
  inferInstanceAs (Decidable (∃ _ ∈ _, _))

/-- How many checks of a history take a share of the stake of `v`. -/
def sharesTaken (h : List (Record α H B)) : ℕ := h.countP fun e => decide (TakesShare T v e)

end Definitions

variable {T : Config α H B} {v : α}

/-- In a quiet step only a check takes from the stake, and it takes its share. -/
theorem step_checkLoss {s s' : State α H B} {a : Action α H} (quiet : Quiet T v (s, a))
    (h : step T s a = some s') :
    (s'.stakeOf v).toNat + checkLoss T v (s, a) = (s.stakeOf v).toNat ∧
      ((TakesShare T v (s, a) ∧ ∃ amount,
          slashAmount T (s.stakeOf v) T.downtimeSlashPercentage = .ok amount ∧
          100 ≤ (s.stakeOf v).toNat * T.downtimeSlashPercentage.toNat ∧
          checkLoss T v (s, a) = min amount.toNat (s.stakeOf v).toNat) ∨
        ¬TakesShare T v (s, a) ∧ checkLoss T v (s, a) = 0) := by
  cases step_entry h v with
  | staked hcall => exact absurd rfl (quiet.staking _ hcall)
  | unstaked hcall => exact absurd rfl (quiet.unstaking _ hcall)
  | reported hcall => exact absurd rfl (quiet.report _ hcall)
  | @checked n stake amount ha hn hdue hamount hafter =>
    subst ha
    obtain ⟨_, -, -, hget⟩ := dueStake_eq_some.1 hdue
    have hstake : s.stakeOf v = stake := stakeOf_of_get hget
    have hstake' : (s'.stakeOf v).toNat = stake.toNat - amount.toNat := by
      rw [stakeOf_of_get hafter, toNat_saturatingSub]
    have hloss : checkLoss T v (s, .onInitialize n) = min amount.toNat stake.toNat := by
      simp only [checkLoss, h, Option.elim_some, hstake, hstake']
      omega
    have hshare : TakesShare T v (s, .onInitialize n) ↔
        100 ≤ stake.toNat * T.downtimeSlashPercentage.toNat := by
      refine ⟨?_, fun hle => ⟨n, rfl, hn, stake, hdue, hle⟩⟩
      rintro ⟨m, hm, -, stake', hdue', hle⟩
      obtain rfl := Option.some.inj hm
      obtain rfl := Option.some.inj (hdue.symm.trans hdue')
      exact hle
    rw [hloss, hstake, hstake', hshare]
    refine ⟨by omega, ?_⟩
    by_cases hle : 100 ≤ stake.toNat * T.downtimeSlashPercentage.toNat
    · exact Or.inl ⟨hle, amount, hamount, hle, rfl⟩
    · have := toNat_slashAmount_le hamount
      rw [Nat.div_eq_of_lt (not_le.1 hle)] at this
      exact Or.inr ⟨hle, by omega⟩
  | unchanged _ _ _ hcheck hafter =>
    have hstake : s'.stakeOf v = s.stakeOf v := by rw [State.stakeOf, hafter, State.stakeOf]
    have hloss : checkLoss T v (s, a) = 0 := by
      unfold checkLoss
      split
      · simp [h, hstake]
      · rfl
    refine ⟨by rw [hloss, hstake]; rfl, Or.inr ⟨?_, hloss⟩⟩
    rintro ⟨n, hn, hten, stake, hdue, -⟩
    cases a with
    | onInitialize m =>
      obtain rfl := Option.some.inj hn
      rw [hcheck _ rfl hten] at hdue
      cases hdue
    | dispatch | onFinalize => cases hn

/-! ## Runs -/

theorem checkLosses_cons (e : Record α H B) (h : List (Record α H B)) :
    checkLosses T v (e :: h) = checkLoss T v e + checkLosses T v h := by
  rw [checkLosses, List.map_cons, List.sum_cons, checkLosses]

omit [DecidableEq H] in
theorem sharesTaken_cons (e : Record α H B) (h : List (Record α H B)) :
    sharesTaken T v (e :: h) = sharesTaken T v h + if TakesShare T v e then 1 else 0 := by
  rw [sharesTaken, List.countP_cons, sharesTaken]
  simp

/-- The losses to the checks of a quiet interval are what the stake has gone down by, and they are
at most one share if at most one check takes one. -/
theorem run_checkLosses_le {s₁ s : State α H B} {h : List (Record α H B)}
    (run : Run (step T) s₁ h s) (quiet : ∀ e ∈ h, Quiet T v e) :
    (s.stakeOf v).toNat + checkLosses T v h = (s₁.stakeOf v).toNat ∧
      (sharesTaken T v h = 0 → checkLosses T v h = 0) ∧
      (sharesTaken T v h ≤ 1 → checkLosses T v h ≤
        (s₁.stakeOf v).toNat * T.downtimeSlashPercentage.toNat / 100) := by
  induction run with
  | nil => exact ⟨rfl, fun _ => rfl, fun _ => Nat.zero_le _⟩
  | @cons h s s' a run hstep ih =>
    obtain ⟨hledger, hnone, hone⟩ := ih fun e he => quiet e (List.mem_cons_of_mem _ he)
    obtain ⟨hstake, hloss⟩ := step_checkLoss (quiet (s, a) List.mem_cons_self) hstep
    rw [sharesTaken_cons, checkLosses_cons]
    rcases hloss with ⟨hshare, amount, hamount, -, hloss⟩ | ⟨hshare, hloss⟩
    · rw [if_pos hshare]
      refine ⟨by omega, fun hcount => by omega, fun hcount => ?_⟩
      -- the first check to take a share finds the stake of the start
      have hzero := hnone (by omega)
      have hle := toNat_slashAmount_le hamount
      rw [show s.stakeOf v = s₁.stakeOf v from BitVec.eq_of_toNat_eq (by omega)] at hle
      omega
    · rw [if_neg hshare, Nat.add_zero]
      refine ⟨by omega, fun hcount => ?_, fun hcount => ?_⟩
      · rw [hloss, hnone hcount]
      · rw [hloss, Nat.zero_add]
        exact hone hcount

/-- Where no product wraps, the first check that takes a share takes one share of the stake at the
start, and every further one at least one unit more. -/
theorem run_checkLosses_ge {s₁ s : State α H B} {h : List (Record α H B)}
    (run : Run (step T) s₁ h s) (quiet : ∀ e ∈ h, Quiet T v e)
    (percentage : T.downtimeSlashPercentage.toNat ≤ 100)
    (fits : (s₁.stakeOf v).toNat * T.downtimeSlashPercentage.toNat < 2 ^ 128) :
    (0 < sharesTaken T v h →
        (s₁.stakeOf v).toNat * T.downtimeSlashPercentage.toNat / 100 ≤ checkLosses T v h) ∧
      (1 < sharesTaken T v h →
        (s₁.stakeOf v).toNat * T.downtimeSlashPercentage.toNat / 100 < checkLosses T v h) := by
  induction run with
  | nil => exact ⟨fun hcount => absurd hcount (by simp [sharesTaken]),
      fun hcount => absurd hcount (by simp [sharesTaken])⟩
  | @cons h s s' a run hstep ih =>
    have quiet' : ∀ e ∈ h, Quiet T v e := fun e he => quiet e (List.mem_cons_of_mem _ he)
    obtain ⟨hpos, hmore⟩ := ih quiet'
    obtain ⟨hledger, hnone, -⟩ := run_checkLosses_le run quiet'
    obtain ⟨-, hloss⟩ := step_checkLoss (quiet (s, a) List.mem_cons_self) hstep
    rw [sharesTaken_cons, checkLosses_cons]
    rcases hloss with ⟨hshare, amount, hamount, hunit, hloss⟩ | ⟨hshare, hloss⟩
    · have hfits : (s.stakeOf v).toNat * T.downtimeSlashPercentage.toNat < 2 ^ 128 :=
        lt_of_le_of_lt (Nat.mul_le_mul_right _ (by omega)) fits
      have hle := slashAmount_le percentage hamount
      have hshare' : checkLoss T v (s, a) =
          (s.stakeOf v).toNat * T.downtimeSlashPercentage.toNat / 100 := by
        rw [hloss, min_eq_left hle, toNat_slashAmount hfits hamount]
      have hunit' : 1 ≤ checkLoss T v (s, a) :=
        hshare' ▸ (Nat.le_div_iff_mul_le (by decide)).2 (by omega)
      have hfirst : sharesTaken T v h = 0 → checkLoss T v (s, a) =
          (s₁.stakeOf v).toNat * T.downtimeSlashPercentage.toNat / 100 := by
        intro hcount
        have hzero := hnone hcount
        rw [hshare', show s.stakeOf v = s₁.stakeOf v from BitVec.eq_of_toNat_eq (by omega)]
      rw [if_pos hshare]
      refine ⟨fun _ => ?_, fun hcount => ?_⟩
      · rcases Nat.eq_zero_or_pos (sharesTaken T v h) with hcount | hcount
        · exact hfirst hcount ▸ Nat.le_add_right _ _
        · exact (hpos hcount).trans (Nat.le_add_left _ _)
      · have := hpos (by omega)
        omega
    · rw [if_neg hshare, Nat.add_zero]
      rw [hloss, Nat.zero_add]
      exact ⟨hpos, hmore⟩

/-- The checks of a quiet interval cost one slash at most if at most one of them takes a share, and
only then where no product wraps. -/
theorem run_oneDowntimeSlash {s₁ s : State α H B} {h : List (Record α H B)}
    (run : Run (step T) s₁ h s) (quiet : ∀ e ∈ h, Quiet T v e) :
    (sharesTaken T v h ≤ 1 → checkLosses T v h ≤
        (s₁.stakeOf v).toNat * T.downtimeSlashPercentage.toNat / 100) ∧
      (T.downtimeSlashPercentage.toNat ≤ 100 →
        (s₁.stakeOf v).toNat * T.downtimeSlashPercentage.toNat < 2 ^ 128 →
        checkLosses T v h ≤ (s₁.stakeOf v).toNat * T.downtimeSlashPercentage.toNat / 100 →
        sharesTaken T v h ≤ 1) := by
  refine ⟨(run_checkLosses_le run quiet).2.2, fun percentage fits hle => ?_⟩
  by_contra hcount
  exact not_lt.2 hle ((run_checkLosses_ge run quiet percentage fits).2 (by omega))

theorem run_oneDowntimeSlash_devRound :
    ∃ pre s₁ h s, Run (step devConfig) devState pre s₁ ∧ Run (step devConfig) s₁ h s ∧
      sharesTaken devConfig 1 h = 1 ∧ checkLosses devConfig 1 h ≤
        (s₁.stakeOf 1).toNat * devConfig.downtimeSlashPercentage.toNat / 100 := by
  obtain ⟨pre, s₁, run, hcheck⟩ := exists_run_of_exec (step devConfig) devState
    (devRound ++ emptyBlocks 2 108)
    (fun r => decide (∃ r' ∈ exec (step devConfig) [] r.2 (emptyBlocks 110 10),
      (∀ e ∈ r'.1, Quiet devConfig 1 e) ∧ sharesTaken devConfig 1 r'.1 = 1)) (by decide +kernel)
  obtain ⟨r, hexec, quiet, hone⟩ := of_decide_eq_true hcheck
  have run' := run_of_exec Run.nil hexec
  exact ⟨pre, s₁, r.1, r.2, run, run', hone, (run_oneDowntimeSlash run' quiet).1 hone.le⟩

/-- An account that stays down through two checks is slashed twice. -/
theorem not_oneDowntimeSlash :
    ∃ pre s₁ h s, Run (step devConfig) devState pre s₁ ∧ Run (step devConfig) s₁ h s ∧
      (∀ e ∈ h, Quiet devConfig 1 e) ∧ ¬checkLosses devConfig 1 h ≤
        (s₁.stakeOf 1).toNat * devConfig.downtimeSlashPercentage.toNat / 100 := by
  obtain ⟨pre, s₁, run, hcheck⟩ := exists_run_of_exec (step devConfig) devState
    (devRound ++ emptyBlocks 2 108)
    (fun r => decide (∃ r' ∈ exec (step devConfig) [] r.2 (emptyBlocks 110 11),
      (∀ e ∈ r'.1, Quiet devConfig 1 e) ∧ ¬checkLosses devConfig 1 r'.1 ≤
        (r.2.stakeOf 1).toNat * devConfig.downtimeSlashPercentage.toNat / 100)) (by decide +kernel)
  obtain ⟨r, hexec, quiet, hmore⟩ := of_decide_eq_true hcheck
  exact ⟨pre, s₁, r.1, r.2, run, run_of_exec Run.nil hexec, quiet, hmore⟩

end GhostConsensus
