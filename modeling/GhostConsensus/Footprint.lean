import GhostConsensus.Entries
import GhostConsensus.Runtime

/-!
# The size of the storage

What the maps and the list of records grow by. An account enters the map of activity by closing or
opening a round, and the map of stakes by staking or by being reported. The check for downtime visits
the map of activity, which is never cleared, and records at most one slash for each of its entries.
-/

namespace GhostConsensus

open Transition

variable {α H B : Type} [AccountId α] [DecidableEq H]

/-- The account whose entry a call may make in `ValidatorStakes`. -/
def Call.entrant : α × Call α H → Option α
  | (staker, .stake _) => some staker
  | (_, .reportMisbehavior validator _) => some validator
  | _ => none

/-- The action checks for downtime. -/
def Action.checks : Action α H → Bool
  | .onInitialize n => n % 10 == 0
  | _ => false

/-- The number of checks for downtime in a history. -/
def checkCount (h : List (Record α H B)) : ℕ := h.countP fun e => e.2.checks

section Definitions

variable (T : Config α H B)

/-- The account that a step notes as active. -/
def activeIn (e : Record α H B) : Option α :=
  ((submission T e).map Prod.fst).or ((validation T e).map Prod.fst)

/-- The account that a step may give an entry in `ValidatorStakes`. -/
def entrantIn (e : Record α H B) : Option α := (succeeded T e).bind Call.entrant

/-- The accounts that were active in a history, each once. -/
def activeAccounts (h : List (Record α H B)) : List α := (h.filterMap (activeIn T)).dedup

/-- The accounts that staked or were reported in a history, each once. -/
def entrants (h : List (Record α H B)) : List α := (h.filterMap (entrantIn T)).dedup

end Definitions

variable {T : Config α H B}

/-! ## One step -/

theorem step_activity_keys {s s' : State α H B} {a : Action α H} (h : step T s a = some s') (v : α)
    (hv : s'.lastActiveBlock.containsKey v = true) :
    s.lastActiveBlock.containsKey v = true ∨ activeIn T (s, a) = some v := by
  have hinsert : ∀ who n, (s.lastActiveBlock.insert who n).containsKey v = true →
      s.lastActiveBlock.containsKey v = true ∨ who = v := by
    intro who n hkey
    by_cases heq : v = who
    · exact .inr heq.symm
    · rw [OrderedMap.containsKey, OrderedMap.get_insert_of_ne _ heq] at hkey
      exact .inl hkey
  cases step_chain h with
  | @accepted miner header _ _ hsub =>
    rw [acceptBlock_lastActiveBlock] at hv
    refine (hinsert miner header.number hv).imp_right fun heq => ?_
    rw [activeIn, hsub, ← heq]
    rfl
  | @closed validator _ n _ _ _ _ _ _ hsub hval =>
    rw [closedState_lastActiveBlock] at hv
    refine (hinsert validator n hv).imp_right fun heq => ?_
    rw [activeIn, hsub, hval, ← heq]
    rfl
  | reopened => exact .inl hv
  | unchanged _ _ _ hsame => exact .inl (hsame.lastActiveBlock ▸ hv)

omit [AccountId α] [DecidableEq H] in
theorem entrant_of_staking {o : Option (α × Call α H)} {v : α} {amount : U128}
    (h : o.bind Call.staking = some (v, amount)) : o.bind Call.entrant = some v := by
  obtain ⟨⟨who, call⟩, rfl, hcall⟩ := Option.bind_eq_some_iff.1 h
  cases call with
  | stake =>
    obtain ⟨rfl, -⟩ := Prod.mk.inj (Option.some.inj hcall)
    rfl
  | _ => cases hcall

omit [AccountId α] [DecidableEq H] in
theorem entrant_of_report {o : Option (α × Call α H)} {v : α} {reason : SlashingReason}
    (h : o.bind Call.report = some (v, reason)) : o.bind Call.entrant = some v := by
  obtain ⟨⟨who, call⟩, rfl, hcall⟩ := Option.bind_eq_some_iff.1 h
  cases call with
  | reportMisbehavior =>
    obtain ⟨rfl, -⟩ := Prod.mk.inj (Option.some.inj hcall)
    rfl
  | _ => cases hcall

theorem step_stake_keys {s s' : State α H B} {a : Action α H} (h : step T s a = some s') (v : α)
    (hv : s'.validatorStakes.containsKey v = true) :
    s.validatorStakes.containsKey v = true ∨ entrantIn T (s, a) = some v := by
  rw [OrderedMap.containsKey_eq_true] at hv ⊢
  cases step_entry h v with
  | staked hcall => exact .inr (entrant_of_staking hcall)
  | reported hcall => exact .inr (entrant_of_report hcall)
  | unstaked _ hstake => exact .inl ⟨_, hstake⟩
  | checked _ _ hdue =>
    obtain ⟨_, -, -, hstake⟩ := dueStake_eq_some.1 hdue
    exact .inl ⟨_, hstake⟩
  | unchanged _ _ _ _ hafter => exact .inl (hafter ▸ hv)

omit [DecidableEq H] in
/-- A check records no more slashes than there are entries in the map of activity. -/
theorem checkDowntimeSlashing_records {s s' : State α H B} (h : checkDowntimeSlashing T s = .ok s') :
    s'.slashingRecords.length ≤ s.slashingRecords.length + s.lastActiveBlock.iter.length := by
  have loop : ∀ (l : List (α × U32)) (t : State α H B), l.foldlM (slashIfDown T) t = .ok s' →
      s'.slashingRecords.length ≤ t.slashingRecords.length + l.length := by
    intro l
    induction l with
    | nil =>
      intro t hfold
      obtain rfl := pure_eq_ok.1 hfold
      exact le_rfl
    | cons e l ih =>
      intro t hfold
      rw [List.foldlM_cons, bind_eq_ok] at hfold
      obtain ⟨t', hbody, hfold⟩ := hfold
      have hrest := ih t' hfold
      have hone : t'.slashingRecords.length ≤ t.slashingRecords.length + 1 := by
        rcases slashIfDown_eq_ok hbody with rfl | ⟨-, stake, amount, -, -, rfl⟩
        · exact Nat.le_succ _
        · exact (List.length_append ..).le
      rw [List.length_cons]
      omega
  exact loop _ s h

theorem step_records {s s' : State α H B} {a : Action α H} (h : step T s a = some s') :
    s'.slashingRecords.length ≤ s.slashingRecords.length +
      if a.checks = true then s.lastActiveBlock.iter.length else 0 := by
  cases step_effect h with
  | rejected | submitted | staked | unstaked | validated | registered => exact Nat.le_add_right _ _
  | @reported _ _ reason => cases reason <;> exact Nat.le_add_right _ _
  | finalized =>
    rw [onFinalize_eq]
    exact Nat.le_add_right _ _
  | @initialized n _ hinit =>
    simp only [onInitialize, bind_eq_ok] at hinit
    obtain ⟨t, hslash, hadjust⟩ := hinit
    have ht : t.slashingRecords.length ≤ s.slashingRecords.length +
        if (Action.onInitialize n : Action α H).checks = true then s.lastActiveBlock.iter.length
        else 0 := by
      simp only [Action.checks, beq_iff_eq]
      split at hslash
      · rename_i hn
        rw [if_pos hn]
        have hlength := checkDowntimeSlashing_records hslash
        exact hlength
      · obtain rfl := Except.ok.inj hslash
        exact Nat.le_add_right _ _
    split at hadjust
    · obtain ⟨_, _, -, -, rfl⟩ := adjustDifficulty_eq_ok hadjust
      exact ht
    · obtain rfl := Except.ok.inj hadjust
      exact ht

/-! ## Runs -/

variable (T) in
/-- What the storage has grown to after the history `h`, with all reads of the checks. -/
structure Footprint (s₀ : State α H B) (h : List (Record α H B)) (s : State α H B) : Prop where
  activity : s.lastActiveBlock.iter.length ≤
    s₀.lastActiveBlock.iter.length + (activeAccounts T h).length
  stakes : s.validatorStakes.iter.length ≤ s₀.validatorStakes.iter.length + (entrants T h).length
  records : s.slashingRecords.length ≤ s₀.slashingRecords.length +
    checkCount h * (s₀.lastActiveBlock.iter.length + (activeAccounts T h).length)

theorem activity_length_le {s₀ s : State α H B} {h : List (Record α H B)}
    (run : Run (step T) s₀ h s) : s.lastActiveBlock.iter.length ≤
      s₀.lastActiveBlock.iter.length + (activeAccounts T h).length := by
  refine s.lastActiveBlock.length_iter_le fun v hv => ?_
  have hadded := run.added (fun t v => t.lastActiveBlock.containsKey v = true) (activeIn T)
    (fun _ _ _ hstep v => step_activity_keys hstep v) hv
  rwa [activeAccounts, List.mem_dedup, List.mem_filterMap]

theorem stakes_length_le {s₀ s : State α H B} {h : List (Record α H B)}
    (run : Run (step T) s₀ h s) : s.validatorStakes.iter.length ≤
      s₀.validatorStakes.iter.length + (entrants T h).length := by
  refine s.validatorStakes.length_iter_le fun v hv => ?_
  have hadded := run.added (fun t v => t.validatorStakes.containsKey v = true) (entrantIn T)
    (fun _ _ _ hstep v => step_stake_keys hstep v) hv
  rwa [entrants, List.mem_dedup, List.mem_filterMap]

theorem activeAccounts_length_le (e : Record α H B) (h : List (Record α H B)) :
    (activeAccounts T h).length ≤ (activeAccounts T (e :: h)).length := by
  have hsubset : activeAccounts T h ⊆ activeAccounts T (e :: h) := by
    intro v hv
    rw [activeAccounts, List.mem_dedup, List.mem_filterMap] at hv ⊢
    obtain ⟨d, hd, hactive⟩ := hv
    exact ⟨d, List.mem_cons_of_mem _ hd, hactive⟩
  exact (List.subperm_of_subset (List.nodup_dedup _) hsubset).length_le

/-- In every run the maps have one entry at most for each account that entered them, and each check
records one slash at most for each account that was active. -/
theorem run_footprint {s₀ s : State α H B} {h : List (Record α H B)} (run : Run (step T) s₀ h s) :
    Footprint T s₀ h s := by
  induction run with
  | nil => exact ⟨Nat.le_add_right _ _, Nat.le_add_right _ _, Nat.le_add_right _ _⟩
  | @cons h t s a run hstep ih =>
    refine ⟨activity_length_le (run.cons hstep), stakes_length_le (run.cons hstep), ?_⟩
    have hrecords := ih.records
    have hactivity := ih.activity
    have hgrow := step_records hstep
    have hmono := activeAccounts_length_le (T := T) (t, a) h
    have hcount : checkCount ((t, a) :: h) = checkCount h + if a.checks = true then 1 else 0 :=
      List.countP_cons
    have hbound : checkCount h * (s₀.lastActiveBlock.iter.length + (activeAccounts T h).length) ≤
        checkCount h *
          (s₀.lastActiveBlock.iter.length + (activeAccounts T ((t, a) :: h)).length) :=
      Nat.mul_le_mul_left _ (Nat.add_le_add_left hmono _)
    rw [hcount, Nat.add_mul]
    split at hgrow <;> split <;> omega

theorem run_footprint_devRound :
    ∃ h s, Run (step devConfig) devState h s ∧ activeAccounts devConfig h = [1, 2] ∧
      entrants devConfig h = [1] ∧ s.lastActiveBlock.iter.length = 2 ∧
      Footprint devConfig devState h s := by
  obtain ⟨h, s, run, hcheck⟩ := exists_run_of_exec (step devConfig) devState
    (devRound ++ [.onInitialize 110])
    (fun r => decide (activeAccounts devConfig r.1 = [1, 2] ∧ entrants devConfig r.1 = [1] ∧
      r.2.lastActiveBlock.iter.length = 2)) (by decide +kernel)
  obtain ⟨hactive, hentrants, hlength⟩ := of_decide_eq_true hcheck
  exact ⟨h, s, run, hactive, hentrants, hlength, run_footprint run⟩

end GhostConsensus
