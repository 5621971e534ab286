import GhostConsensus.Genesis
import GhostConsensus.Hardness

/-!
# The pallet on the chain as it is configured

At genesis no header is stored, so that no block is ever accepted and no round is ever closed. What is
left of the pallet is the escrow: stakes, keys and reports. Nothing is ever minted, nobody is ever
slashed for downtime, and all that the hooks do is to set the difficulty to `1` once.
-/

namespace GhostConsensus

open Transition MachineInt

variable {α H B : Type} [AccountId α] {T : Config α H B} {ed : U128}

variable (T) in
/-- What a chain that started with `balances` holds after `retargets` retargets. -/
structure Dormant (balances : B) (retargets : ℕ) (s : State α H B) : Prop where
  phase : s.currentPhase = .powMining
  headers : s.blockHeaders = .empty
  producers : s.blockProducers = .empty
  activity : s.lastActiveBlock = ∅
  records : s.slashingRecords = []
  window : s.recentBlockProducers.toList = []
  entropy : s.currentEntropy = 0
  difficulty : s.difficulty = if retargets = 0 then 0 else 1
  issuance : T.currency.totalIssuance s.balances ≤ T.currency.totalIssuance balances

/-! ## The start of a runtime block -/

theorem checkDowntimeSlashing_of_empty {s : State α H B} (h : s.lastActiveBlock = ∅) :
    checkDowntimeSlashing T s = .ok s := by
  unfold checkDowntimeSlashing
  rw [h]
  rfl

/-- A retarget without producers sets the difficulty to `1`, from `0` or from `1`. -/
theorem Dormant.adjustDifficulty {balances : B} {k : ℕ} {s s' : State α H B}
    (hs : Dormant T balances k s) (h : adjustDifficulty T s = .ok s') :
    Dormant T balances (k + 1) s' := by
  obtain ⟨entropy, difficulty, hentropy, hdifficulty, rfl⟩ := adjustDifficulty_eq_ok h
  have hzero : entropy = 0 := by
    rw [hs.window] at hentropy
    exact (Except.ok.inj hentropy).symm
  have hone : difficulty = 1 := by
    rw [hdifficulty, hzero, hs.difficulty]
    split <;> decide
  exact ⟨hs.phase, hs.headers, hs.producers, hs.activity, hs.records, hs.window, hzero,
    hone.trans (if_neg (Nat.succ_ne_zero k)).symm, hs.issuance⟩

theorem Dormant.onInitialize {balances : B} {k n : ℕ} {s s' : State α H B}
    (hs : Dormant T balances k s) (h : onInitialize T s n = .ok s') :
    Dormant T balances (if n % 100 = 0 then k + 1 else k) s' := by
  have hcheck : (if n % 10 = 0 then checkDowntimeSlashing T s else .ok s) = .ok s := by
    split
    · exact checkDowntimeSlashing_of_empty hs.activity
    · rfl
  simp only [GhostConsensus.onInitialize, hcheck, bind_eq_ok, Except.ok.injEq,
    exists_eq_left'] at h
  split at h
  · rename_i hn
    rw [if_pos hn]
    exact hs.adjustDifficulty h
  · rename_i hn
    rw [if_neg hn, ← Except.ok.inj h]
    exact hs

/-! ## Runs -/

variable [DecidableEq H]

theorem Dormant.step (lawful : T.currency.Lawful ed) {balances : B} {k : ℕ} {s s' : State α H B}
    {a : Action α H} (hs : Dormant T balances k s) (h : step T s a = some s') :
    Dormant T balances (if a.retargets = true then k + 1 else k) s' := by
  cases step_effect h with
  | rejected => exact hs
  | submitted _ haccepts =>
    have hparent := haccepts.parent_stored
    rw [hs.headers] at hparent
    cases hparent
  | validated _ hcloses =>
    have hheader := hcloses.header_stored
    rw [hs.headers] at hheader
    cases hheader
  | staked _ _ htransfer | unstaked _ _ _ htransfer =>
    exact ⟨hs.phase, hs.headers, hs.producers, hs.activity, hs.records, hs.window, hs.entropy,
      hs.difficulty, (lawful.issuance htransfer).trans hs.issuance⟩
  | @reported _ _ reason =>
    cases reason <;> exact ⟨hs.phase, hs.headers, hs.producers, hs.activity, hs.records, hs.window,
      hs.entropy, hs.difficulty, hs.issuance⟩
  | registered =>
    exact ⟨hs.phase, hs.headers, hs.producers, hs.activity, hs.records, hs.window, hs.entropy,
      hs.difficulty, hs.issuance⟩
  | @initialized n _ hinit =>
    have hblock : Dormant T balances k { s with blockNumber := n } :=
      ⟨hs.phase, hs.headers, hs.producers, hs.activity, hs.records, hs.window, hs.entropy,
        hs.difficulty, hs.issuance⟩
    simp only [Action.retargets, beq_iff_eq]
    exact hblock.onInitialize hinit
  | finalized =>
    rw [onFinalize_eq, hs.phase]
    exact ⟨rfl, hs.headers, hs.producers, hs.activity, hs.records, hs.window, hs.entropy,
      hs.difficulty, hs.issuance⟩

/-- Whatever is called on a chain after its genesis, the pallet stays dormant. -/
theorem run_dormant (lawful : T.currency.Lawful ed) {balances : B} {s : State α H B}
    {h : List (Record α H B)} (run : Run (GhostConsensus.step T) (genesis balances) h s) :
    Dormant T balances (retargetCount h) s := by
  induction run with
  | nil => exact ⟨rfl, rfl, rfl, rfl, rfl, rfl, rfl, rfl, le_rfl⟩
  | @cons h t s a _ hstep ih =>
    have hs := ih.step lawful hstep
    have hcount : retargetCount ((t, a) :: h) =
        if a.retargets = true then retargetCount h + 1 else retargetCount h := by
      rw [retargetCount, List.countP_cons]
      split <;> rfl
    rw [hcount]
    exact hs

theorem run_dormant_dev :
    ∃ h s, Run (step devConfig) (genesis devAccounts) h s ∧ s.stakeOf 1 = 1000000000000 ∧
      retargetCount h = 2 ∧ Dormant devConfig devAccounts 2 s := by
  obtain ⟨h, s, run, hcheck⟩ := exists_run_of_exec (step devConfig) (genesis devAccounts)
    (devRound ++ [.onInitialize 100, .onFinalize 100, .onInitialize 200])
    (fun r => decide (r.2.stakeOf 1 = 1000000000000 ∧ retargetCount r.1 = 2)) (by decide +kernel)
  obtain ⟨hstake, hcount⟩ := of_decide_eq_true hcheck
  exact ⟨h, s, run, hstake, hcount, hcount ▸ run_dormant
    (Accounts.currency_lawful existentialDeposit) run⟩

end GhostConsensus
