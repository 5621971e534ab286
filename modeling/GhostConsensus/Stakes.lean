import GhostConsensus.Entries
import GhostConsensus.Rewards
import GhostConsensus.Runtime

/-!
# Stakes

The ledger of the stakes: what an account has staked is what it has at stake, what it has unstaked
and what it was slashed (`run_ledger`). The stakes together are covered by the balance of the escrow
account (`Solvent`) until an unstaking leaves so little there that the account dies.
-/

namespace GhostConsensus

open Transition MachineInt

variable {α H B : Type} [AccountId α]

/-! ## Single stakes and their sum -/

theorem withStake_stakeOf (s : State α H B) (balances : B) (who v : α) (stake : U128) :
    (s.withStake balances who stake).stakeOf v = if v = who then stake else s.stakeOf v := by
  rw [State.stakeOf, State.withStake, OrderedMap.get_insert]
  split <;> rfl

theorem applySlash_stakeOf (s : State α H B) (who v : α) (reason : SlashingReason)
    (stake amount : U128) :
    (applySlash s who reason stake amount).stakeOf v =
      if v = who then saturatingSub stake amount else s.stakeOf v :=
  withStake_stakeOf s s.balances who v _

theorem elim_get_validatorStakes (s : State α H B) (who : α) :
    (s.validatorStakes.get who).elim 0 BitVec.toNat = (s.stakeOf who).toNat := by
  unfold State.stakeOf
  cases s.validatorStakes.get who <;> rfl

/-- Writing a stake trades the old stake for the new one in the sum. -/
theorem withStake_totalStake (s : State α H B) (balances : B) (who : α) (stake : U128) :
    (s.withStake balances who stake).totalStake + (s.stakeOf who).toNat =
      s.totalStake + stake.toNat := by
  rw [← elim_get_validatorStakes]
  exact s.validatorStakes.total_insert BitVec.toNat who stake

theorem stakeOf_le_totalStake (s : State α H B) (who : α) :
    (s.stakeOf who).toNat ≤ s.totalStake := by
  rw [← elim_get_validatorStakes]
  cases h : s.validatorStakes.get who with
  | none => exact Nat.zero_le _
  | some stake => exact s.validatorStakes.le_total (f := BitVec.toNat) h

/-- A slash lowers the sum of the stakes. -/
theorem totalStake_applySlash_le (s : State α H B) (who : α) (reason : SlashingReason)
    (amount : U128) :
    (applySlash s who reason (s.stakeOf who) amount).totalStake ≤ s.totalStake := by
  have htotal : (applySlash s who reason (s.stakeOf who) amount).totalStake +
      (s.stakeOf who).toNat = s.totalStake + _ :=
    withStake_totalStake s s.balances who (saturatingSub (s.stakeOf who) amount)
  have hle := toNat_saturatingSub_le (s.stakeOf who) amount
  omega

/-! ## Solvency of the escrow -/

/-- The stakes are covered by the balance of the escrow account. -/
def Solvent (T : Config α H B) (s : State α H B) : Prop :=
  s.totalStake ≤ (T.currency.freeBalance s.balances T.accountId).toNat

/-- An unstaking of `amount` leaves the escrow account alive, or nothing at stake. -/
def LeavesDeposit (T : Config α H B) (ed : U128) (s : State α H B) (amount : U128) : Prop :=
  amount = 0 ∨ ed.toNat ≤ T.currency.rest s.balances T.accountId amount ∨
    s.totalStake ≤ amount.toNat

instance (T : Config α H B) (ed : U128) (s : State α H B) (amount : U128) :
    Decidable (LeavesDeposit T ed s amount) :=
  inferInstanceAs (Decidable (_ ∨ _))

section Unstake

variable {T : Config α H B} {ed : U128} (lawful : T.currency.Lawful ed) {s s' : State α H B}
  {staker : α} {amount : U128}
include lawful

/-- An unstaking keeps the escrow solvent exactly when it leaves the escrow account alive, or
nothing at stake. -/
theorem unstake_solvent_iff (hs : Solvent T s) (hsigner : staker ≠ T.accountId)
    (h : unstake T s (.signed staker) amount = .ok s') :
    Solvent T s' ↔ LeavesDeposit T ed s amount := by
  obtain ⟨who, stake, balances, ho, hget, hle, htransfer, rfl⟩ := unstake_eq_ok.1 h
  obtain rfl := Origin.signed.inj ho
  have hcovered := lawful.covered htransfer hsigner.symm
  have hpayer := lawful.payer htransfer hsigner.symm
  have hstake : stake.toNat ≤ s.totalStake := s.validatorStakes.le_total (f := BitVec.toNat) hget
  have hamount : amount.toNat ≤ stake.toNat := BitVec.le_def.1 hle
  have htotal := withStake_totalStake s balances staker (stake - amount)
  rw [stakeOf_of_get hget, BitVec.toNat_sub_of_le hle] at htotal
  have hsolvent : Solvent T (s.withStake balances staker (stake - amount)) ↔
      s.totalStake - amount.toNat ≤ (T.currency.freeBalance balances T.accountId).toNat := by
    rw [Solvent, show (s.withStake balances staker (stake - amount)).totalStake =
      s.totalStake - amount.toNat by omega]
    rfl
  rw [hsolvent, LeavesDeposit]
  rw [Solvent] at hs
  have hrest : T.currency.rest s.balances T.accountId amount =
    (T.currency.freeBalance s.balances T.accountId).toNat - amount.toNat := rfl
  constructor
  · intro hcovers
    by_contra hnot
    push Not at hnot
    obtain ⟨hne, hdust, hleft⟩ := hnot
    rw [lawful.reaped htransfer hsigner.symm hne hdust] at hcovers
    have : s.totalStake - amount.toNat ≤ 0 := hcovers
    omega
  · rintro (rfl | halive | hnothing)
    · rcases hpayer with hkept | ⟨hne, -⟩
      · rw [hkept, hrest]
        omega
      · exact absurd rfl hne
    · rcases hpayer with hkept | ⟨-, -, hdust⟩
      · rw [hkept, hrest]
        omega
      · exact absurd hdust (not_lt.2 halive)
    · omega

end Unstake

variable [DecidableEq H] {T : Config α H B} {ed : U128}

/-- An unstaking that the stake of its signer covers leaves the escrow account alive, or nothing at
stake. -/
def LeavesDeposits (T : Config α H B) (ed : U128) (s : State α H B) (a : Action α H) : Prop :=
  ∀ c ∈ a.call.bind Call.unstaking, c.2 ≤ s.stakeOf c.1 → LeavesDeposit T ed s c.2

instance (T : Config α H B) (ed : U128) (s : State α H B) (a : Action α H) :
    Decidable (LeavesDeposits T ed s a) :=
  inferInstanceAs (Decidable (∀ _ ∈ _, _ → _))

theorem Solvent.step (lawful : T.currency.Lawful ed) {s s' : State α H B} {a : Action α H}
    (hs : Solvent T s) (hsigner : ∀ c ∈ a.call, c.1 ≠ T.accountId) (hleaves : LeavesDeposits T ed s a)
    (h : step T s a = some s') : Solvent T s' := by
  cases step_effect h with
  | rejected | submitted | registered => exact hs
  | @staked staker amount balances _ _ htransfer =>
    have hne : staker ≠ T.accountId := hsigner (staker, .stake amount) rfl
    have hpayee := lawful.payee htransfer hne
    have htotal := withStake_totalStake s balances staker (s.stakeOf staker + amount)
    have hadd := toNat_add_le (s.stakeOf staker) amount
    rw [Solvent] at hs
    show State.totalStake _ ≤ (T.currency.freeBalance balances T.accountId).toNat
    omega
  | @unstaked staker amount currentStake balances _ hget hle htransfer =>
    have hne : staker ≠ T.accountId := hsigner (staker, .unstake amount) rfl
    have hok : unstake T s (.signed staker) amount = .ok _ :=
      unstake_eq_ok.2 ⟨staker, currentStake, balances, rfl, hget, hle, htransfer, rfl⟩
    have hwithin : amount ≤ s.stakeOf staker := stakeOf_of_get hget ▸ hle
    exact (unstake_solvent_iff lawful hs hne hok).2 (hleaves (staker, amount) rfl hwithin)
  | validated _ hcloses =>
    refine distributeRewards_induction
      (P := fun b => s.totalStake ≤ (T.currency.freeBalance b T.accountId).toNat) hcloses.paid hs ?_
    exact fun b who amount hb => hb.trans (lawful.le_freeBalance_deposit b who amount T.accountId)
  | @reported _ validator reason amount =>
    have hle := totalStake_applySlash_le (recordReport s validator reason) validator reason amount
    rw [recordReport_stakeOf] at hle
    apply hle.trans
    show _ ≤ (T.currency.freeBalance (recordReport s validator reason).balances _).toNat
    rw [State.totalStake, recordReport_validatorStakes, recordReport_balances]
    exact hs
  | initialized hinit =>
    refine onInitialize_induction (P := Solvent T) hinit hs ?_ ?_
    · intro t validator _ stake amount ht _ _ _ hstake _
      have hle := totalStake_applySlash_le t validator .downtime amount
      rw [stakeOf_of_get hstake] at hle
      exact hle.trans ht
    · intro t t' ht _ hadjust
      obtain ⟨_, _, -, -, rfl⟩ := adjustDifficulty_eq_ok hadjust
      exact ht
  | finalized =>
    rw [onFinalize_eq]
    exact hs

/-- Starting without stakes, the escrow stays solvent in every run in which nobody signs for the
escrow account and every unstaking leaves it alive, or nothing at stake. -/
theorem run_solvent (lawful : T.currency.Lawful ed) {s₀ s : State α H B} {h : List (Record α H B)}
    (run : Run (step T) s₀ h s) (start : s₀.validatorStakes = ∅)
    (signers : ∀ e ∈ h, ∀ c ∈ e.2.call, c.1 ≠ T.accountId)
    (leaves : ∀ e ∈ h, LeavesDeposits T ed e.1 e.2) : Solvent T s := by
  refine run.invariant_of (I := Solvent T)
    (C := fun s a => (∀ c ∈ a.call, c.1 ≠ T.accountId) ∧ LeavesDeposits T ed s a) ?_
    (fun e he => ⟨signers e he, leaves e he⟩) fun _ _ _ hs hC hstep => hs.step lawful hC.1 hC.2 hstep
  rw [Solvent, State.totalStake, start]
  exact Nat.zero_le _

theorem run_solvent_dev :
    ∃ h s, Run (step devConfig) devState h s ∧ 0 < s.totalStake ∧ Solvent devConfig s := by
  obtain ⟨h, s, run, hcheck⟩ := exists_run_of_exec (step devConfig) devState
    (devRound ++ [.dispatch (.signed 1) (.unstake 500000000000),
      .dispatch (.signed 2) (.reportMisbehavior 1 .invalidBlock)])
    (fun r => decide (0 < r.2.totalStake ∧ (∀ e ∈ r.1, ∀ c ∈ e.2.call, c.1 ≠ devConfig.accountId) ∧
      ∀ e ∈ r.1, LeavesDeposits devConfig existentialDeposit e.1 e.2)) (by decide +kernel)
  obtain ⟨hpos, hsigners, hleaves⟩ := of_decide_eq_true hcheck
  exact ⟨h, s, run, hpos,
    run_solvent (Accounts.currency_lawful existentialDeposit) run rfl hsigners hleaves⟩

/-- A staker takes all but one unit out: the rest dies with the escrow account, the stake stays. -/
theorem not_solvent :
    ∃ h s, Run (step devConfig) devState h s ∧ devState.validatorStakes = ∅ ∧
      devConfig.currency.Lawful existentialDeposit ∧ 0 < existentialDeposit ∧
      existentialDeposit ≤ devConfig.minStake ∧
      (∀ e ∈ h, ∀ c ∈ e.2.call, c.1 ≠ devConfig.accountId) ∧ ¬Solvent devConfig s := by
  obtain ⟨h, s, run, hcheck⟩ := exists_run_of_exec (step devConfig) devState
    [.dispatch (.signed 1) (.stake 1000000000000), .dispatch (.signed 1) (.unstake 999999999999)]
    (fun r => decide ((∀ e ∈ r.1, ∀ c ∈ e.2.call, c.1 ≠ devConfig.accountId) ∧
      (devConfig.currency.freeBalance r.2.balances devConfig.accountId).toNat < r.2.totalStake))
    (by decide +kernel)
  obtain ⟨hsigners, hlt⟩ := of_decide_eq_true hcheck
  exact ⟨h, s, run, rfl, Accounts.currency_lawful existentialDeposit, by decide, by decide, hsigners,
    not_le.2 hlt⟩

/-! ## The ledger -/

/-- The amount of a call of staking or unstaking, if it is one of `v`. -/
def amountOf (v : α) (c : Option (α × U128)) : ℕ :=
  c.elim 0 fun c => if c.1 = v then c.2.toNat else 0

/-- What `v` has staked in a step. -/
def stakedIn (T : Config α H B) (v : α) (e : Record α H B) : ℕ :=
  amountOf v ((succeeded T e).bind Call.staking)

/-- What `v` has unstaked in a step. -/
def unstakedIn (T : Config α H B) (v : α) (e : Record α H B) : ℕ :=
  amountOf v ((succeeded T e).bind Call.unstaking)

def staked (T : Config α H B) (v : α) (h : List (Record α H B)) : ℕ := (h.map (stakedIn T v)).sum

def unstaked (T : Config α H B) (v : α) (h : List (Record α H B)) : ℕ :=
  (h.map (unstakedIn T v)).sum

/-- What an event says `v` was slashed. -/
def Event.slashed (v : α) : Event α → ℕ
  | .validatorSlashed who _ amount => if who = v then amount.toNat else 0
  | _ => 0

/-- What `v` was slashed, according to the events. -/
def slashed (v : α) (events : List (Event α)) : ℕ := (events.map (Event.slashed v)).sum

theorem slashed_append (v : α) (events new : List (Event α)) :
    slashed v (events ++ new) = slashed v events + slashed v new := by
  rw [slashed, slashed, slashed, List.map_append, List.sum_append]

/-- A stake that a call adds to fits the width of a balance then. -/
def StakesFit (T : Config α H B) (s : State α H B) (a : Action α H) : Prop :=
  ∀ c ∈ (succeeded T (s, a)).bind Call.staking, (s.stakeOf c.1).toNat + c.2.toNat < 2 ^ 128

instance (T : Config α H B) (s : State α H B) (a : Action α H) : Decidable (StakesFit T s a) :=
  inferInstanceAs (Decidable (∀ _ ∈ _, _))

omit [DecidableEq H] in
/-- A slash of at most the stake moves what it announces from the stake to the slashed. -/
theorem applySlash_ledger (s : State α H B) (who : α) (reason : SlashingReason) {amount : U128}
    (hle : amount.toNat ≤ (s.stakeOf who).toNat) (v : α) :
    ((applySlash s who reason (s.stakeOf who) amount).stakeOf v).toNat +
        slashed v [.validatorSlashed who reason amount] = (s.stakeOf v).toNat := by
  rw [applySlash_stakeOf, slashed, List.map_singleton, List.sum_singleton, Event.slashed]
  by_cases h : v = who
  · rw [if_pos h, if_pos h.symm, toNat_saturatingSub, h]
    omega
  · rw [if_neg h, if_neg (Ne.symm h), Nat.add_zero]

theorem slashed_eq (v : α) (events : List (Event α)) :
    slashed v events = ((slashesOf v events).map fun slash => slash.2.toNat).sum := by
  induction events with
  | nil => rfl
  | cons event events ih =>
    rw [slashed, slashesOf] at ih
    rw [slashed, slashesOf, List.map_cons, List.sum_cons, ih, List.filterMap_cons]
    cases event with
    | validatorSlashed who reason amount =>
      by_cases h : who = v <;> simp [Event.slashed, Event.slashOf, h]
    | _ => simp [Event.slashed, Event.slashOf]

omit [DecidableEq H] in
/-- The start of a runtime block moves what it announces from the stakes to the slashed. -/
theorem onInitialize_ledger {s s' : State α H B} {n : ℕ}
    (covered : ∀ v stake amount, dueStake T s v = some stake →
      slashAmount T stake T.downtimeSlashPercentage = .ok amount → amount.toNat ≤ stake.toNat)
    (h : onInitialize T s n = .ok s') :
    ∃ new, s'.events = s.events ++ new ∧
      ∀ v, (s'.stakeOf v).toNat + slashed v new = (s.stakeOf v).toNat := by
  obtain ⟨new, hevents, hchecked⟩ := onInitialize_slashes h
  refine ⟨new, hevents, fun v => ?_⟩
  rw [slashed_eq]
  rcases hchecked v with ⟨stake, amount, hdue, hamount, hafter⟩ | ⟨-, hafter⟩
  · obtain ⟨hstake', hslashes⟩ := Standing.mk.inj hafter
    have hdue' : dueStake T s v = some stake := by
      split at hdue
      · exact hdue
      · cases hdue
    obtain ⟨_, -, -, hstake⟩ := dueStake_eq_some.1 hdue'
    have hle := covered v stake amount hdue' hamount
    rw [hslashes, stakeOf_of_get hstake, stakeOf_of_get hstake', toNat_saturatingSub]
    simp only [List.nil_append, List.map_singleton, List.sum_singleton]
    omega
  · obtain ⟨hstake', hslashes⟩ := Standing.mk.inj hafter
    rw [hslashes, State.stakeOf, hstake', State.stakeOf]
    rfl

/-- What a step moves between what is staked, at stake, unstaked and slashed. -/
theorem step_ledger {s s' : State α H B} {a : Action α H}
    (percentages : ∀ reason, (slashPercentage T reason).toNat ≤ 100) (fits : StakesFit T s a)
    (h : step T s a = some s') :
    ∃ new, s'.events = s.events ++ new ∧ ∀ v,
      (s'.stakeOf v).toNat + unstakedIn T v (s, a) + slashed v new =
        (s.stakeOf v).toNat + stakedIn T v (s, a) := by
  cases step_effect h with
  | rejected hsucc =>
    refine ⟨[], (List.append_nil _).symm, fun v => ?_⟩
    rw [unstakedIn, stakedIn, hsucc]
    rfl
  | @submitted _ header _ hsucc =>
    refine ⟨[.blockMined header.number _ header.nonce], rfl, fun v => ?_⟩
    rw [unstakedIn, stakedIn, hsucc]
    rfl
  | @staked staker amount balances hsucc =>
    refine ⟨[], (List.append_nil _).symm, fun v => ?_⟩
    have hadd : (s.stakeOf staker + amount).toNat = (s.stakeOf staker).toNat + amount.toNat :=
      toNat_add_of_lt (fits (staker, amount) (by rw [hsucc]; rfl))
    rw [unstakedIn, stakedIn, hsucc, withStake_stakeOf]
    show _ + 0 + 0 = (s.stakeOf v).toNat + if staker = v then amount.toNat else 0
    by_cases hv : v = staker
    · rw [if_pos hv, if_pos hv.symm, hadd, hv, Nat.add_zero]
    · rw [if_neg hv, if_neg (Ne.symm hv)]
  | @unstaked staker amount currentStake balances hsucc hget hle =>
    refine ⟨[], (List.append_nil _).symm, fun v => ?_⟩
    rw [unstakedIn, stakedIn, hsucc, withStake_stakeOf]
    show _ + (if staker = v then amount.toNat else 0) + 0 = (s.stakeOf v).toNat + 0
    by_cases hv : v = staker
    · have hamount : amount.toNat ≤ currentStake.toNat := BitVec.le_def.1 hle
      rw [if_pos hv, if_pos hv.symm, BitVec.toNat_sub_of_le hle, hv, stakeOf_of_get hget]
      omega
    · rw [if_neg hv, if_neg (Ne.symm hv)]
  | validated hsucc =>
    refine ⟨[.validatorSelected _ _, .rewardsDistributed _ _ _], List.append_assoc _ _ _, fun v => ?_⟩
    rw [unstakedIn, stakedIn, hsucc]
    rfl
  | @reported _ validator reason amount hsucc hamount =>
    have hle := slashAmount_le (percentages reason) hamount
    have hslash := applySlash_ledger (recordReport s validator reason) validator reason
      (recordReport_stakeOf s validator validator reason ▸ hle)
    refine ⟨[.validatorSlashed validator reason amount], ?_, fun v => ?_⟩
    · rw [← recordReport_events s validator reason]
      rfl
    · have := hslash v
      rw [recordReport_stakeOf, recordReport_stakeOf] at this
      rw [unstakedIn, stakedIn, hsucc]
      exact this
  | registered hsucc =>
    refine ⟨[], (List.append_nil _).symm, fun v => ?_⟩
    rw [unstakedIn, stakedIn, hsucc]
    rfl
  | @initialized n _ hinit =>
    exact onInitialize_ledger (s := { s with blockNumber := n })
      (fun _ _ _ _ hamount => slashAmount_le (percentages .downtime) hamount) hinit
  | @finalized n =>
    refine ⟨[], ?_, fun v => ?_⟩
    · rw [onFinalize_eq, List.append_nil]
    · rw [onFinalize_eq]
      rfl

/-- The ledger of a run: the slashes are read off the events deposited in it. -/
theorem run_ledger_eq {s₀ s : State α H B} {h : List (Record α H B)}
    (percentages : ∀ reason, (slashPercentage T reason).toNat ≤ 100) (run : Run (step T) s₀ h s)
    (fits : ∀ e ∈ h, StakesFit T e.1 e.2) :
    ∃ new, s.events = s₀.events ++ new ∧ ∀ v,
      (s.stakeOf v).toNat + unstaked T v h + slashed v new =
        (s₀.stakeOf v).toNat + staked T v h := by
  induction run with
  | nil => exact ⟨[], (List.append_nil _).symm, fun v => rfl⟩
  | @cons h s s' a run hstep ih =>
    obtain ⟨new, hevents, hledger⟩ := ih fun e he => fits e (List.mem_cons_of_mem _ he)
    have hfits : StakesFit T s a := fits _ List.mem_cons_self
    obtain ⟨new', hevents', hledger'⟩ := step_ledger percentages hfits hstep
    refine ⟨new ++ new', by rw [hevents', hevents, List.append_assoc], fun v => ?_⟩
    have hold := hledger v
    have hnew := hledger' v
    rw [unstaked, staked] at hold
    rw [unstaked, staked, List.map_cons, List.map_cons, List.sum_cons, List.sum_cons, slashed_append]
    omega

/-- Starting without stakes, the stake of an account is at any time what it has staked less what it
has unstaked and what it was slashed, and these never exceed what it has staked. -/
theorem run_ledger {s₀ s : State α H B} {h : List (Record α H B)}
    (percentages : ∀ reason, (slashPercentage T reason).toNat ≤ 100) (run : Run (step T) s₀ h s)
    (start : s₀.validatorStakes = ∅) (fits : ∀ e ∈ h, StakesFit T e.1 e.2) (v : α) :
    unstaked T v h + slashed v (s.events.drop s₀.events.length) ≤ staked T v h ∧
      (s.stakeOf v).toNat =
        staked T v h - unstaked T v h - slashed v (s.events.drop s₀.events.length) := by
  obtain ⟨new, hevents, hledger⟩ := run_ledger_eq percentages run fits
  have hzero : (s₀.stakeOf v).toNat = 0 := by
    rw [State.stakeOf, start]
    rfl
  have := hledger v
  rw [hevents, List.drop_left]
  omega

theorem run_ledger_dev :
    ∃ h s, Run (step devConfig) devState h s ∧
      staked devConfig 1 h = 1000000000000 ∧ unstaked devConfig 1 h = 500000000000 ∧
      (s.stakeOf 1).toNat = staked devConfig 1 h - unstaked devConfig 1 h -
        slashed 1 (s.events.drop devState.events.length) := by
  obtain ⟨h, s, run, hcheck⟩ := exists_run_of_exec (step devConfig) devState
    (devRound ++ [.dispatch (.signed 1) (.unstake 500000000000),
      .dispatch (.signed 2) (.reportMisbehavior 1 .invalidBlock)])
    (fun r => decide (staked devConfig 1 r.1 = 1000000000000 ∧
      unstaked devConfig 1 r.1 = 500000000000 ∧ ∀ e ∈ r.1, StakesFit devConfig e.1 e.2))
    (by decide +kernel)
  obtain ⟨hstaked, hunstaked, hfits⟩ := of_decide_eq_true hcheck
  have percentages : ∀ reason, (slashPercentage devConfig reason).toNat ≤ 100 := by
    intro reason
    cases reason <;> decide
  exact ⟨h, s, run, hstaked, hunstaked, (run_ledger percentages run rfl hfits 1).2⟩

end GhostConsensus
