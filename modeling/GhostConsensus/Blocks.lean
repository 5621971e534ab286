import GhostConsensus.Downtime
import GhostConsensus.Limits
import GhostConsensus.Rounds

/-!
# Runtime blocks

One level up, a step executes a whole runtime block: the hook at its beginning, its calls in order,
the hook at its end. A run of blocks is a run of the pallet (`run_actions`). The chain of the pallet
grows by one block in a runtime block at most, so that what it has fallen behind the runtime is never
made up (`run_behind`); and since the downtime check compares the two, a chain that is too far behind
slashes every validator it has a record of (`run_slashes_all`).
-/

namespace GhostConsensus

open Transition MachineInt

variable {α H B : Type} [AccountId α] [DecidableEq H]

/-- Execute the next runtime block, with the given calls. -/
def executeBlock (T : Config α H B) (s : State α H B) (calls : List (Origin α × Call α H)) :
    Option (State α H B) := do
  let s' ← step T s (.onInitialize (s.blockNumber + 1))
  let s'' ← calls.foldlM (fun s call => step T s (.dispatch call.1 call.2)) s'
  step T s'' (.onFinalize (s.blockNumber + 1))

/-- The actions of the next runtime block, newest first. -/
def blockActions (s : State α H B) (calls : List (Origin α × Call α H)) : List (Action α H) :=
  .onFinalize (s.blockNumber + 1) ::
    (calls.map fun call => Action.dispatch call.1 call.2).reverse ++
      [.onInitialize (s.blockNumber + 1)]

variable {T : Config α H B}

/-! ## Blocks as runs of the pallet -/

/-- The parts of a runtime block. -/
theorem executeBlock_eq_some {s s' : State α H B} {calls : List (Origin α × Call α H)}
    (h : executeBlock T s calls = some s') :
    ∃ t u h', step T s (.onInitialize (s.blockNumber + 1)) = some t ∧ Run (step T) t h' u ∧
      h'.map Prod.snd = (calls.map fun call => Action.dispatch call.1 call.2).reverse ∧
      s' = onFinalize u (s.blockNumber + 1) := by
  unfold executeBlock at h
  obtain ⟨t, hinit, h⟩ := Option.bind_eq_some_iff.1 h
  obtain ⟨u, hcalls, hfinal⟩ := Option.bind_eq_some_iff.1 h
  obtain ⟨h', run, hacts⟩ :=
    run_of_foldlM (fun call : Origin α × Call α H => Action.dispatch call.1 call.2) hcalls
  exact ⟨t, u, h', hinit, run, hacts, (Option.some.inj hfinal).symm⟩

omit [AccountId α] [DecidableEq H] in
theorem eq_dispatch_of_mem {S : Type} {h : List (S × Action α H)}
    {calls : List (Origin α × Call α H)}
    (hacts : h.map Prod.snd = (calls.map fun call => Action.dispatch call.1 call.2).reverse) :
    ∀ e ∈ h, ∃ o call, e.2 = Action.dispatch o call := by
  intro e he
  have hmem : e.2 ∈ (calls.map fun call => Action.dispatch call.1 call.2).reverse :=
    hacts ▸ List.mem_map_of_mem he
  obtain ⟨call, -, hcall⟩ := List.mem_map.1 (List.mem_reverse.1 hmem)
  exact ⟨_, _, hcall.symm⟩

theorem exists_run_of_executeBlock {s s' : State α H B} {calls : List (Origin α × Call α H)}
    (h : executeBlock T s calls = some s') :
    ∃ h', Run (step T) s h' s' ∧ h'.map Prod.snd = blockActions s calls := by
  obtain ⟨t, u, h', hinit, run, hacts, rfl⟩ := executeBlock_eq_some h
  refine ⟨(u, .onFinalize (s.blockNumber + 1)) :: (h' ++ [(s, .onInitialize (s.blockNumber + 1))]),
    ((Run.nil.cons hinit).append run).cons rfl, ?_⟩
  rw [List.map_cons, List.map_append, hacts]
  rfl

/-- A run of runtime blocks is a run of the pallet. -/
theorem run_actions {s₀ s : State α H B} {h : List (State α H B × List (Origin α × Call α H))}
    (run : Run (executeBlock T) s₀ h s) :
    ∃ h', Run (step T) s₀ h' s ∧ h'.map Prod.snd = h.flatMap fun e => blockActions e.1 e.2 := by
  obtain ⟨h', s', run', rfl, hacts⟩ := run.simulate Eq blockActions rfl
    fun t calls u t' hexec heq => by
      subst heq
      obtain ⟨h', run', hacts⟩ := exists_run_of_executeBlock hexec
      exact ⟨h', u, run', rfl, hacts⟩
  exact ⟨h', run', hacts⟩

/-! ## The chain and the runtime -/

/-- All numbers of stored headers, and all recorded for activity, are `k` or more behind the
number of the current runtime block. -/
structure Behind (k : ℕ) (s : State α H B) : Prop where
  headers : ∀ n, (s.blockHeaders n).isSome = true → n.toNat + k ≤ s.blockNumber
  activity : ∀ v n, s.lastActiveBlock.get v = some n → n.toNat + k ≤ s.blockNumber

/-- Within a runtime block: as long as a block may be accepted, the chain is behind by one more. -/
structure BehindWithin (k : ℕ) (s : State α H B) : Prop where
  headers : ∀ n, (s.blockHeaders n).isSome = true →
    n.toNat + k + (if s.currentPhase = .powMining then 1 else 0) ≤ s.blockNumber
  activity : ∀ v n, s.lastActiveBlock.get v = some n → n.toNat + k ≤ s.blockNumber

theorem BehindWithin.dispatch {k : ℕ} {s s' : State α H B} {o : Origin α} {call : Call α H}
    (hs : BehindWithin k s) (h : step T s (.dispatch o call) = some s') : BehindWithin k s' := by
  have hblock : s'.blockNumber = s.blockNumber := by
    rcases step_blockNumber h with heq | ⟨n, ha, -⟩
    · exact heq
    · cases ha
  cases step_chain h with
  | @accepted miner header parent _ _ _ haccepts =>
    have hparent := hs.headers (header.number - 1) (haccepts.parent_stored ▸ rfl)
    rw [if_pos haccepts.phase] at hparent
    have hnumber : header.number.toNat + k ≤ s.blockNumber := by
      have hpos : 1 ≤ header.number.toNat := BitVec.lt_def.1 haccepts.positive
      have hsub : (header.number - 1).toNat = header.number.toNat - 1 :=
        BitVec.toNat_sub_of_le (BitVec.le_def.2 hpos)
      omega
    refine ⟨fun n hn => ?_, fun v n hn => ?_⟩
    · rw [acceptBlock_blockHeaders, StorageMap.isSome_insert] at hn
      rw [if_neg (by simp [acceptBlock, State.depositEvent]), hblock]
      rcases hn with rfl | hn
      · exact hnumber
      · have := hs.headers n hn
        omega
    · rw [acceptBlock_lastActiveBlock, OrderedMap.get_insert] at hn
      rw [hblock]
      split at hn
      · obtain rfl := Option.some.inj hn
        exact hnumber
      · exact hs.activity v n hn
  | @closed validator _ m _ _ _ _ _ _ _ _ hcloses =>
    have hnumber : m.toNat + k ≤ s.blockNumber := by
      have := hs.headers m (hcloses.header_stored ▸ rfl)
      omega
    refine ⟨fun n hn => ?_, fun v n hn => ?_⟩
    · rw [hcloses.isSome_blockHeaders] at hn
      rw [if_neg (by simp [closedState, closeRound, State.depositEvent]), hblock]
      have := hs.headers n hn
      omega
    · rw [closedState_lastActiveBlock, OrderedMap.get_insert] at hn
      rw [hblock]
      split at hn
      · obtain rfl := Option.some.inj hn
        exact hnumber
      · exact hs.activity v n hn
  | reopened ha => cases ha
  | unchanged _ _ _ hsame =>
    refine ⟨?_, ?_⟩
    · rw [hsame.blockHeaders, hsame.currentPhase, hblock]
      exact hs.headers
    · rw [hsame.lastActiveBlock, hblock]
      exact hs.activity

theorem Behind.executeBlock {k : ℕ} {s s' : State α H B} {calls : List (Origin α × Call α H)}
    (hs : Behind k s) (h : executeBlock T s calls = some s') : Behind k s' := by
  obtain ⟨t, u, h', hinit, run, hacts, rfl⟩ := executeBlock_eq_some h
  have ht : BehindWithin k t := by
    cases step_effect hinit with
    | initialized hinit =>
      have hsame := onInitialize_sameChain hinit
      have hblock : t.blockNumber = s.blockNumber + 1 := onInitialize_blockNumber hinit
      refine ⟨fun n hn => ?_, fun v n hn => ?_⟩
      · rw [hsame.blockHeaders] at hn
        have := hs.headers n hn
        split <;> omega
      · rw [hsame.lastActiveBlock] at hn
        have := hs.activity v n hn
        omega
  have hu : BehindWithin k u := by
    refine run.invariant_of (I := BehindWithin k) (C := fun _ a => ∃ o call, a = .dispatch o call) ht
      (eq_dispatch_of_mem hacts) fun t a t' ht ha hstep => ?_
    obtain ⟨o, call, rfl⟩ := ha
    exact ht.dispatch hstep
  rw [onFinalize_eq]
  refine ⟨fun n hn => ?_, hu.activity⟩
  have hbehind := hu.headers n hn
  show n.toNat + k ≤ u.blockNumber
  omega

/-- What the chain of the pallet, and its record of activity, are behind the runtime is never made
up. -/
theorem run_behind {k : ℕ} {s₀ s : State α H B}
    {h : List (State α H B × List (Origin α × Call α H))} (run : Run (executeBlock T) s₀ h s)
    (start : Behind k s₀) : Behind k s :=
  run.invariant start fun _ _ _ ht hexec => ht.executeBlock hexec

theorem behind_lateState {k : ℕ} (hk : k ≤ 108) : Behind k lateState := by
  refine ⟨fun n hn => ?_, fun v n hn => by cases hn⟩
  rcases (StorageMap.isSome_insert _ _ _ _).1 hn with rfl | hnone
  · show 0 + k ≤ 108
    omega
  · cases hnone

theorem run_behind_late :
    ∃ h s, Run (executeBlock devConfig) lateState h s ∧ s.blockNumber = 110 ∧
      s.blockHeaders 1 = some devBlock ∧ Behind 108 s := by
  obtain ⟨h, s, run, hcheck⟩ := exists_run_of_exec (executeBlock devConfig) lateState
    [[(.signed 1, .stake 1000000000000), (.signed 1, .submitBlock devBlock)], []]
    (fun r => decide (r.2.blockNumber = 110 ∧ r.2.blockHeaders 1 = some devBlock))
    (by decide +kernel)
  obtain ⟨hblock, hstored⟩ := of_decide_eq_true hcheck
  exact ⟨h, s, run, hblock, hstored, run_behind run (behind_lateState le_rfl)⟩

/-! ## The downtime check of a chain that is behind -/

/-- Once the chain is `MaxDowntimeBlocks` behind the runtime, every check for downtime slashes every
staker with a record of activity, even if it was active in the runtime block before. -/
theorem run_slashes_all {s₀ s s' : State α H B}
    {h : List (State α H B × List (Origin α × Call α H))} (run : Run (executeBlock T) s₀ h s)
    (start : Behind T.maxDowntimeBlocks.toNat s₀) (width : s.blockNumber + 1 < 2 ^ 32)
    (check : (s.blockNumber + 1) % 10 = 0)
    (hstep : step T s (.onInitialize (s.blockNumber + 1)) = some s') {v : α}
    (active : (s.lastActiveBlock.get v).isSome = true)
    (staker : (s.validatorStakes.get v).isSome = true) : SlashedForDowntime s s' v := by
  obtain ⟨n, hn⟩ := Option.isSome_iff_exists.1 active
  obtain ⟨stake, hstake⟩ := Option.isSome_iff_exists.1 staker
  have hbehind := (run_behind run start).activity v n hn
  have hdown : downtimeExceeded T { s with blockNumber := s.blockNumber + 1 } n := by
    rw [downtimeExceeded_iff, toNat_saturatedInto]
    show T.maxDowntimeBlocks.toNat < min (s.blockNumber + 1) (2 ^ 32 - 1) - n.toNat
    omega
  cases step_effect hstep with
  | initialized hinit =>
    have hslashed : SlashedForDowntime s s' v ↔ (s.blockNumber + 1) % 10 = 0 ∧
        ∃ stake, dueStake T { s with blockNumber := s.blockNumber + 1 } v = some stake :=
      onInitialize_slashed hinit
    exact hslashed.2 ⟨check, stake, dueStake_eq_some.2 ⟨n, hn, hdown, hstake⟩⟩

theorem run_slashes_all_late :
    ∃ h s s', Run (executeBlock devConfig) lateState h s ∧ s.blockNumber = 109 ∧
      s.lastActiveBlock.get 1 = some 1 ∧ step devConfig s (.onInitialize 110) = some s' ∧
      SlashedForDowntime s s' 1 := by
  obtain ⟨h, s, run, hcheck⟩ := exists_run_of_exec (executeBlock devConfig) lateState
    [[(.signed 1, .stake 1000000000000), (.signed 1, .submitBlock devBlock)]]
    (fun r => decide (r.2.blockNumber = 109 ∧ r.2.lastActiveBlock.get 1 = some 1 ∧
      (r.2.validatorStakes.get 1).isSome = true ∧
      (step devConfig r.2 (.onInitialize 110)).isSome = true)) (by decide +kernel)
  obtain ⟨hblock, hactive, hstaker, hsome⟩ := of_decide_eq_true hcheck
  obtain ⟨s', hstep⟩ := Option.isSome_iff_exists.1 hsome
  have hnext : s.blockNumber + 1 = 110 := congrArg (· + 1) hblock
  refine ⟨h, s, s', run, hblock, hactive, hstep, ?_⟩
  exact run_slashes_all run (behind_lateState (by decide)) (hnext ▸ by decide) (hnext ▸ by decide)
    (hnext ▸ hstep) (hactive ▸ rfl) hstaker

/-! ## What the blocks mint -/

omit [DecidableEq H] in
/-- With overflow checks, a round that was closed has computed its reward without overflow. -/
theorem Closes.rewardFits (hchecks : T.overflowChecks = true) {s : State α H B}
    {validator miner : α} {n : U32} {sig : PqcSignature} {header : GhostBlockHeader H}
    {selection : PosSelection α} {reward : BlockReward} {balances : B}
    (h : Closes T s validator n sig header selection reward miner balances) :
    RewardFits T s.stakers := by
  refine ⟨lt_of_calculateBlockReward hchecks h.reward_eq, fun staker hstaker => ?_⟩
  rw [← toNat_stakersReward hchecks h.reward_eq]
  exact lt_of_distributeRewards hchecks h.paid hstaker

/-- What a run adds to the issuance is at most what its steps have minted. -/
theorem totalIssuance_le_minted {s₀ s : State α H B} {h : List (Record α H B)}
    (run : Run (step T) s₀ h s) :
    T.currency.totalIssuance s.balances ≤
      T.currency.totalIssuance s₀.balances + minted T h := by
  induction run with
  | nil => exact Nat.le_add_right _ _
  | cons _ hstep ih =>
    have hlast := mintedBy_of_step hstep
    rw [minted] at ih
    rw [minted, List.map_cons, List.sum_cons]
    omega

theorem executeBlock_totalIssuance_le {ed : U128} (lawful : T.currency.Lawful ed)
    (hchecks : T.overflowChecks = true) {s s' : State α H B} {calls : List (Origin α × Call α H)}
    (h : executeBlock T s calls = some s') :
    T.currency.totalIssuance s'.balances ≤
      T.currency.totalIssuance s.balances + T.blockReward.toNat := by
  obtain ⟨t, u, h', hinit, run, hacts, rfl⟩ := executeBlock_eq_some h
  have hopen : ∀ e ∈ h', ∀ n, e.2 ≠ .onFinalize n := by
    rintro e he n heq
    obtain ⟨o, call, hcall⟩ := eq_dispatch_of_mem hacts e he
    rw [heq] at hcall
    cases hcall
  have hfits : ∀ e ∈ h', (validation T e).isSome = true →
      RewardFits T e.1.stakers ∧ (T.overflowChecks = true ∨ e.1.totalStake < 2 ^ 128) := by
    rintro ⟨t', a⟩ he hval
    obtain ⟨post, pre, rfl⟩ := List.append_of_mem he
    obtain ⟨-, _, hstep, -⟩ := run.at_step
    obtain ⟨⟨v, n, sig⟩, hval⟩ := Option.isSome_iff_exists.1 hval
    obtain ⟨_, _, _, _, _, hcloses⟩ := closes_of_validation hstep hval
    exact ⟨hcloses.rewardFits hchecks, .inl hchecks⟩
  have hone : (roundCalls T h').count .validate ≤ 1 := by
    have := (roundCalls_in_block run hopen).2
    omega
  have hbalances : t.balances = s.balances := by
    cases step_effect hinit with
    | initialized hinit =>
      have hsame := onInitialize_balances hinit
      exact hsame
  rw [onFinalize_eq]
  calc T.currency.totalIssuance u.balances
      ≤ T.currency.totalIssuance t.balances + minted T h' := totalIssuance_le_minted run
    _ ≤ T.currency.totalIssuance s.balances + T.blockReward.toNat * 1 := by
        rw [hbalances]
        have hminted := minted_le lawful run hfits
        exact Nat.add_le_add_left (hminted.trans (Nat.mul_le_mul_left _ hone)) _
    _ = _ := by rw [Nat.mul_one]

/-- Whatever its calls are, a runtime block adds at most one block reward to the issuance. -/
theorem run_inflation {ed : U128} (lawful : T.currency.Lawful ed) (hchecks : T.overflowChecks = true)
    {s₀ s : State α H B} {h : List (State α H B × List (Origin α × Call α H))}
    (run : Run (executeBlock T) s₀ h s) :
    T.currency.totalIssuance s.balances ≤
      T.currency.totalIssuance s₀.balances + h.length * T.blockReward.toNat := by
  induction run with
  | nil => exact Nat.le_add_right _ _
  | cons _ hexec ih =>
    have hblock := executeBlock_totalIssuance_le lawful hchecks hexec
    rw [List.length_cons, Nat.add_mul]
    omega

theorem run_inflation_dev :
    ∃ h s, Run (executeBlock devConfig.checked) devState h s ∧ h.length = 2 ∧
      devConfig.currency.totalIssuance s.balances = 2 * 2 ^ 60 + 10000000000000 ∧
      devConfig.currency.totalIssuance s.balances ≤
        devConfig.currency.totalIssuance devState.balances + h.length * 10000000000000 := by
  obtain ⟨h, s, run, hcheck⟩ := exists_run_of_exec (executeBlock devConfig.checked) devState
    [[(.signed 1, .stake 1000000000000), (.signed 2, .submitBlock devBlock),
      (.signed 1, .validateBlock 1 ⟨0⟩), (.signed 1, .validateBlock 1 ⟨0⟩)],
      [(.signed 1, .validateBlock 1 ⟨0⟩)]]
    (fun r => decide (r.1.length = 2 ∧
      devConfig.currency.totalIssuance r.2.balances = 2 * 2 ^ 60 + 10000000000000))
    (by decide +kernel)
  obtain ⟨hlength, hissuance⟩ := of_decide_eq_true hcheck
  have lawful : devConfig.checked.currency.Lawful existentialDeposit :=
    Accounts.currency_lawful existentialDeposit
  exact ⟨h, s, run, hlength, hissuance, run_inflation lawful rfl run⟩

end GhostConsensus
