import GhostConsensus.Payout
import GhostConsensus.Stakes

/-!
# The wealth of an account

What an account owns is its free balance and its stake. Staking and unstaking only move tokens
between the two (`step_freeOf`); a block that is paid for adds exactly what the account is due of the
reward, and a slash takes exactly what it announces, so that over any run the account owns what it
did at the start, what it has earned, less what it was slashed (`run_wealth`).
-/

namespace GhostConsensus

open Transition MachineInt

variable {α H B : Type} [AccountId α]

def State.freeOf (T : Config α H B) (s : State α H B) (v : α) : ℕ :=
  (T.currency.freeBalance s.balances v).toNat

variable [DecidableEq H]

/-! ## What an account earns -/

/-- What `v` is due of the reward in a step: a block that is validated is paid for, with the stakes
as they are then. -/
def earnedIn (T : Config α H B) (v : α) (e : Record α H B) : ℕ :=
  (validation T e).elim 0 fun c => (e.1.blockProducers c.2.1).elim 0 fun miner =>
    payout T.blockReward.toNat miner e.1.stakers v

def earned (T : Config α H B) (v : α) (h : List (Record α H B)) : ℕ := (h.map (earnedIn T v)).sum

/-- The reward of a step that validates a block is paid in full. -/
def PaidInFull (T : Config α H B) (ed : U128) (Alive : B → α → Prop) (e : Record α H B) : Prop :=
  ∀ c ∈ validation T e, ∀ miner ∈ e.1.blockProducers c.2.1,
    PaysInFull T ed Alive T.blockReward miner e.1.stakers e.1.balances

variable {T : Config α H B} {ed : U128} {Alive : B → α → Prop}

theorem earned_eq_zero {v : α} {h : List (Record α H B)} (none : ∀ e ∈ h, validation T e = none) :
    earned T v h = 0 := by
  apply List.sum_eq_zero
  intro n hn
  obtain ⟨e, he, rfl⟩ := List.mem_map.1 hn
  rw [earnedIn, none e he]
  rfl

omit [DecidableEq H] in
/-- The balances after a block that is paid for in full. -/
theorem Closes.freeBalance (exact : T.currency.DepositsExactly ed Alive) {s : State α H B}
    {validator miner : α} {n : U32} {sig : PqcSignature} {header : GhostBlockHeader H}
    {selection : PosSelection α} {reward : BlockReward} {balances : B}
    (h : Closes T s validator n sig header selection reward miner balances)
    (full : PaysInFull T ed Alive T.blockReward miner s.stakers s.balances) (v : α) :
    (T.currency.freeBalance balances v).toNat =
      s.freeOf T v + payout T.blockReward.toNat miner s.stakers v := by
  obtain ⟨reward', b, hreward, hpaid, hvalue⟩ := full.exists_distributeRewards exact
  obtain rfl : reward' = reward := Except.ok.inj (hreward.symm.trans h.reward_eq)
  obtain rfl : b = balances := Except.ok.inj (hpaid.symm.trans h.paid)
  exact hvalue v

/-- What a step does to the free balance of an account other than the escrow. -/
theorem step_freeOf (lawful : T.currency.Lawful ed) (exact : T.currency.DepositsExactly ed Alive)
    {s s' : State α H B} {a : Action α H} (full : PaidInFull T ed Alive (s, a)) {v : α}
    (hv : v ≠ T.accountId) (h : step T s a = some s') :
    s'.freeOf T v + stakedIn T v (s, a) =
      s.freeOf T v + (unstakedIn T v (s, a) + earnedIn T v (s, a)) := by
  cases step_effect h with
  | rejected hsucc | submitted hsucc | registered hsucc =>
    rw [stakedIn, unstakedIn, earnedIn, validation, hsucc]
    rfl
  | @staked staker amount balances hsucc _ htransfer =>
    rw [stakedIn, unstakedIn, earnedIn, validation, hsucc]
    show (T.currency.freeBalance balances v).toNat + (if staker = v then amount.toNat else 0) =
      (T.currency.freeBalance s.balances v).toNat + 0
    by_cases hstaker : staker = v
    · subst hstaker
      have hcovered := lawful.covered htransfer hv
      -- the staker has to stay alive, so that it keeps the rest
      rcases lawful.payer htransfer hv with hkept | ⟨-, hdeath, -⟩
      · rw [if_pos rfl, hkept, Currency.rest]
        omega
      · cases hdeath
    · rw [if_neg hstaker, lawful.others htransfer v (Ne.symm hstaker) hv]
  | @unstaked staker amount currentStake balances hsucc _ _ htransfer =>
    rw [stakedIn, unstakedIn, earnedIn, validation, hsucc]
    show (T.currency.freeBalance balances v).toNat + 0 =
      (T.currency.freeBalance s.balances v).toNat + ((if staker = v then amount.toNat else 0) + 0)
    by_cases hstaker : staker = v
    · subst hstaker
      rw [if_pos rfl, lawful.payee htransfer hv.symm]
      omega
    · rw [if_neg hstaker, lawful.others htransfer v hv (Ne.symm hstaker)]
  | @validated validator miner n sig _ _ _ balances hsucc hcloses =>
    have hval : validation T (s, .dispatch (.signed validator) (.validateBlock n sig)) =
        some (validator, n, sig) := by
      rw [validation, hsucc]
      rfl
    have hpaid := hcloses.freeBalance exact
      (full _ hval miner (Option.mem_def.2 hcloses.miner_stored)) v
    have hearned : earnedIn T v (s, .dispatch (.signed validator) (.validateBlock n sig)) =
        payout T.blockReward.toNat miner s.stakers v := by
      rw [earnedIn, hval]
      show (s.blockProducers n).elim 0 _ = _
      rw [hcloses.miner_stored]
      rfl
    rw [hearned, stakedIn, unstakedIn, hsucc]
    show (T.currency.freeBalance balances v).toNat + 0 = s.freeOf T v + (0 + _)
    rw [hpaid, Nat.add_zero, Nat.zero_add]
  | @reported _ validator reason amount hsucc =>
    rw [stakedIn, unstakedIn, earnedIn, validation, hsucc]
    show (T.currency.freeBalance (recordReport s validator reason).balances v).toNat + 0 = _
    rw [recordReport_balances]
    rfl
  | initialized hinit =>
    rw [State.freeOf, onInitialize_balances hinit]
    rfl
  | finalized =>
    rw [onFinalize_eq]
    rfl

/-- The free balance of an account over a run. -/
theorem run_freeOf (lawful : T.currency.Lawful ed) (exact : T.currency.DepositsExactly ed Alive)
    {s₀ s : State α H B} {h : List (Record α H B)} (run : Run (step T) s₀ h s)
    (full : ∀ e ∈ h, PaidInFull T ed Alive e) {v : α} (hv : v ≠ T.accountId) :
    s.freeOf T v + staked T v h = s₀.freeOf T v + (unstaked T v h + earned T v h) := by
  rw [staked, unstaked, earned, ← List.sum_map_add]
  exact run.balanced (f := fun t => t.freeOf T v) fun e he u hstep =>
    step_freeOf lawful exact (full e he) hv hstep

/-- In every run in which the rewards are paid in full, what an account owns, free or at stake, is
what it did at the start and what it has earned, less what it was slashed. -/
theorem run_wealth (lawful : T.currency.Lawful ed) (exact : T.currency.DepositsExactly ed Alive)
    (percentages : ∀ reason, (slashPercentage T reason).toNat ≤ 100) {s₀ s : State α H B}
    {h : List (Record α H B)} (run : Run (step T) s₀ h s) (fits : ∀ e ∈ h, StakesFit T e.1 e.2)
    (full : ∀ e ∈ h, PaidInFull T ed Alive e) {v : α} (hv : v ≠ T.accountId) :
    s.freeOf T v + (s.stakeOf v).toNat + slashed v (s.events.drop s₀.events.length) =
      s₀.freeOf T v + (s₀.stakeOf v).toNat + earned T v h := by
  obtain ⟨new, hevents, hledger⟩ := run_ledger_eq percentages run fits
  have hstakes := hledger v
  have hfree := run_freeOf lawful exact run full hv
  rw [hevents, List.drop_left]
  omega

/-- The reward that `1`, the only staker, and the miner `2` share is paid in full. -/
theorem paysInFull_dev {b : Accounts ℕ} (hfree : ∀ who, (b.free who).toNat < 2 ^ 127)
    (halive : ∀ who ∈ [1, 2], b.free who ≠ 0) :
    PaysInFull devConfig existentialDeposit (fun b w => b.free w ≠ 0) devConfig.blockReward 2
      [⟨1, 1000000000000, 1000000000000⟩] b where
  distinct := by decide
  total := by decide
  reward := by decide
  shares := by decide
  balances who := by
    have hpayout : payout devConfig.blockReward.toNat 2 [⟨1, 1000000000000, 1000000000000⟩]
        who < 2 ^ 127 := by
      match who with
      | 0 | 1 | 2 => decide
      | who + 3 => simp [payout, stakeIn, sumStakes, Weights.share]
    have hbalance : (devConfig.currency.freeBalance b who).toNat < 2 ^ 127 := hfree who
    omega
  payableMiner := Or.inl (halive 2 (by decide))
  payableStakers staker hmem := by
    obtain rfl := List.mem_singleton.1 hmem
    exact Or.inl (halive 1 (by decide))

/-- A round in which `2` mines and `1`, the only staker, validates, and a slash of half the stake. -/
theorem run_wealth_dev :
    ∃ h s, Run (step devConfig) devState h s ∧ earned devConfig 1 h = 6000000000000 ∧
      slashed 1 (s.events.drop devState.events.length) = 500000000000 ∧
      s.freeOf devConfig 1 + (s.stakeOf 1).toNat +
        slashed 1 (s.events.drop devState.events.length) =
          devState.freeOf devConfig 1 + (devState.stakeOf 1).toNat + earned devConfig 1 h := by
  obtain ⟨h, s, run, hcheck⟩ := exists_run_of_exec (step devConfig) devState
    (devRound ++ [.dispatch (.signed 2) (.reportMisbehavior 1 .invalidBlock)])
    (fun r => decide (earned devConfig 1 r.1 = 6000000000000 ∧
      slashed 1 (r.2.events.drop devState.events.length) = 500000000000 ∧
      (r.1.filterMap (validation devConfig)).length = 1 ∧
      (∀ e ∈ r.1, (succeeded devConfig e).bind Call.unstaking = none ∧
        StakesFit devConfig e.1 e.2) ∧
      ∀ e ∈ r.1, ∀ c ∈ validation devConfig e, ∀ miner ∈ e.1.blockProducers c.2.1,
        miner = 2 ∧ e.1.stakers = [⟨1, 1000000000000, 1000000000000⟩] ∧
          (∀ who ≤ 2, e.1.freeOf devConfig who < 2 ^ 127) ∧
          ∀ who ∈ [1, 2], e.1.balances.free who ≠ 0))
    (by decide +kernel)
  obtain ⟨hearned, hslashed, hone, hstakes, hpaid⟩ := of_decide_eq_true hcheck
  have percentages : ∀ reason, (slashPercentage devConfig reason).toNat ≤ 100 := by
    intro reason
    cases reason <;> decide
  have lawful := Accounts.currency_lawful (α := ℕ) existentialDeposit
  have exact := Accounts.currency_depositsExactly (α := ℕ) existentialDeposit
  -- before the one block that is paid for, whoever had nothing has nothing
  have hothers : ∀ e ∈ h, (validation devConfig e).isSome = true → ∀ who, 2 < who →
      e.1.freeOf devConfig who = 0 := by
    intro e he hval who hwho
    obtain ⟨post, pre, rfl⟩ := List.append_of_mem he
    have hnone : ∀ e' ∈ pre, validation devConfig e' = none := by
      obtain ⟨c, hc⟩ := Option.isSome_iff_exists.1 hval
      rw [List.filterMap_append, List.length_append, List.filterMap_cons_some hc,
        List.length_cons] at hone
      apply List.filterMap_eq_nil_iff.1
      apply List.eq_nil_of_length_eq_zero
      omega
    have hunstaked : unstaked devConfig who pre = 0 := by
      apply List.sum_eq_zero
      intro n hn
      obtain ⟨e', he', rfl⟩ := List.mem_map.1 hn
      rw [unstakedIn, (hstakes e' (List.mem_append_right _ (List.mem_cons_of_mem _ he'))).1]
      rfl
    have hfull : ∀ e' ∈ pre,
        PaidInFull devConfig existentialDeposit (fun b w => b.free w ≠ 0) e' := by
      intro e' he' c hc
      rw [hnone e' he'] at hc
      cases hc
    have hfree := run_freeOf lawful exact run.at_step.1 hfull
      (show who ≠ 0 from Nat.ne_of_gt (Nat.zero_lt_of_lt hwho))
    have hstart : devState.freeOf devConfig who = 0 := by
      show (if who = 1 ∨ who = 2 then (1 <<< 60 : U128) else 0).toNat = 0
      rw [if_neg (by omega)]
      rfl
    rw [earned_eq_zero hnone, hunstaked, hstart] at hfree
    omega
  have full : ∀ e ∈ h, PaidInFull devConfig existentialDeposit (fun b w => b.free w ≠ 0) e := by
    intro e he c hc miner hminer
    obtain ⟨rfl, hstakers, hknown, halive⟩ := hpaid e he c hc miner hminer
    rw [hstakers]
    refine paysInFull_dev (fun who => ?_) halive
    rcases Nat.lt_or_ge 2 who with hwho | hwho
    · have hzero := hothers e he (Option.isSome_iff_exists.2 ⟨c, hc⟩) who hwho
      exact lt_of_eq_of_lt hzero (by decide)
    · exact hknown who hwho
  exact ⟨h, s, run, hearned, hslashed, run_wealth lawful exact percentages run
    (fun e he => (hstakes e he).2) full (by decide)⟩

end GhostConsensus
