import GhostConsensus.Rounds

/-!
# Which block a validation pays for

`validate_block` takes the number of the block it rewards from its caller. As long as every call
that could close the round names the block of the round in progress, each accepted block is
rewarded in its own round, and no block twice.
-/

namespace GhostConsensus

open Transition

variable {α H B : Type} [AccountId α] [DecidableEq H]

section Definitions

variable (T : Config α H B)

/-- The number of the block accepted last. -/
def lastSubmitted (h : List (Record α H B)) : Option U32 :=
  (h.findSome? (submission T)).map fun e => e.2.number

/-- The submission that a validation of block `n` pays for: the last one of that number, given by
its position in the history. -/
def paidSubmission (n : U32) : List (Record α H B) → Option ℕ
  | [] => none
  | e :: h =>
    if (submission T e).map (fun x => x.2.number) = some n then some h.length
    else paidSubmission n h

/-- The submissions paid for by the validations of a history. -/
def payments : List (Record α H B) → List ℕ
  | [] => []
  | e :: h =>
    match validation T e with
    | some (_, n, _) => (paidSubmission T n h).toList ++ payments h
    | none => payments h

/-- Every validation rewards the block accepted last, and no submission is paid for twice. -/
structure RewardedOnce (h : List (Record α H B)) : Prop where
  own_round : ∀ post pre e validator n sig, h = post ++ e :: pre →
    validation T e = some (validator, n, sig) → lastSubmitted T pre = some n
  nodup : (payments T h).Nodup

/-- The number of the block of the round in progress: its miner is the last of the recent producers,
and was last active at it. -/
def pendingNumber (s : State α H B) : Option U32 :=
  s.recentBlockProducers.toList.getLast?.bind s.lastActiveBlock.get

/-- A call that closes the round names the block of that round. -/
def NamesPending (s : State α H B) (a : Action α H) : Prop :=
  ∀ c ∈ closing T s a, pendingNumber s = some c.2.1

instance (s : State α H B) (a : Action α H) : Decidable (NamesPending T s a) :=
  inferInstanceAs (Decidable (∀ _ ∈ closing T s a, _))

end Definitions

variable {T : Config α H B}

theorem payments_cons {e : Record α H B} (h : List (Record α H B)) (he : validation T e = none) :
    payments T (e :: h) = payments T h := by
  rw [payments, he]

theorem lastSubmitted_cons {e : Record α H B} (h : List (Record α H B)) (he : submission T e = none) :
    lastSubmitted T (e :: h) = lastSubmitted T h := by
  rw [lastSubmitted, List.findSome?_cons, he, lastSubmitted]

theorem paidSubmission_cons {e : Record α H B} (h : List (Record α H B)) (he : submission T e = none)
    (n : U32) : paidSubmission T n (e :: h) = paidSubmission T n h := by
  rw [paidSubmission, he, if_neg (by simp)]

omit [DecidableEq H] in
theorem pendingNumber_acceptBlock (s : State α H B) (miner : α) (header : GhostBlockHeader H) :
    pendingNumber (acceptBlock s miner header) = some header.number := by
  rw [pendingNumber, acceptBlock_recentBlockProducers, List.getLast?_concat]
  exact OrderedMap.get_insert_self _ _ _

theorem paidSubmission_lt {n : U32} :
    ∀ {h : List (Record α H B)} {k : ℕ}, paidSubmission T n h = some k → k < h.length
  | [], _, hk => by cases hk
  | e :: h, k, hk => by
      rw [paidSubmission] at hk
      split at hk
      · obtain rfl := Option.some.inj hk
        exact Nat.lt_succ_self _
      · exact (paidSubmission_lt hk).trans (Nat.lt_succ_self _)

/-- What holds in every run whose calls name the block of the round in progress: the submission of
an open round is newer than all that were paid for. -/
structure PaymentInvariant (T : Config α H B) (h : List (Record α H B)) (s : State α H B) : Prop where
  nodup : (payments T h).Nodup
  lt_length : ∀ k ∈ payments T h, k < h.length
  pending : s.currentPhase = .posValidation → ∃ n k, pendingNumber s = some n ∧
    lastSubmitted T h = some n ∧ paidSubmission T n h = some k ∧ ∀ j ∈ payments T h, j < k

theorem PaymentInvariant.step {h : List (Record α H B)} {s s' : State α H B} {a : Action α H}
    (inv : PaymentInvariant T h s) (hnames : NamesPending T s a) (hstep : step T s a = some s') :
    PaymentInvariant T ((s, a) :: h) s' := by
  cases step_chain hstep with
  | @accepted miner header parent _ hsub hval _ =>
    have hpayments := payments_cons h hval
    refine ⟨hpayments ▸ inv.nodup, ?_, fun _ => ⟨header.number, h.length, ?_, ?_, ?_, ?_⟩⟩
    · exact fun k hk => (inv.lt_length k (hpayments ▸ hk)).trans (Nat.lt_succ_self _)
    · exact pendingNumber_acceptBlock s miner header
    · rw [lastSubmitted, List.findSome?_cons, hsub]
      rfl
    · rw [paidSubmission, hsub]
      exact if_pos rfl
    · exact fun j hj => inv.lt_length j (hpayments ▸ hj)
  | @closed validator miner n sig _ _ _ _ ha _ hval hcloses =>
    obtain ⟨n', k, hpending, -, hpaid, hnew⟩ := inv.pending hcloses.phase
    have hn : pendingNumber s = some n := hnames _ (ha ▸ hcloses.mem_closing)
    obtain rfl := Option.some.inj (hpending.symm.trans hn)
    have hpayments : payments T ((s, a) :: h) = k :: payments T h := by
      rw [payments, hval]
      show (paidSubmission T n' h).toList ++ _ = _
      rw [hpaid]
      rfl
    refine ⟨?_, ?_, fun hphase => by cases hphase⟩
    · rw [hpayments]
      exact List.nodup_cons.2 ⟨fun hk => (hnew k hk).false, inv.nodup⟩
    · intro j hj
      rw [hpayments] at hj
      rcases List.mem_cons.1 hj with rfl | hj
      · exact (paidSubmission_lt hpaid).trans (Nat.lt_succ_self _)
      · exact (inv.lt_length j hj).trans (Nat.lt_succ_self _)
  | reopened _ _ _ hval =>
    have hpayments := payments_cons h hval
    refine ⟨hpayments ▸ inv.nodup, ?_, fun hphase => by cases hphase⟩
    exact fun k hk => (inv.lt_length k (hpayments ▸ hk)).trans (Nat.lt_succ_self _)
  | unchanged hsub hval _ hsame =>
    have hpayments := payments_cons h hval
    refine ⟨hpayments ▸ inv.nodup, ?_, fun hphase => ?_⟩
    · exact fun k hk => (inv.lt_length k (hpayments ▸ hk)).trans (Nat.lt_succ_self _)
    · obtain ⟨n, k, hpending, hlast, hpaid, hnew⟩ := inv.pending (hsame.currentPhase ▸ hphase)
      refine ⟨n, k, ?_, ?_, ?_, hpayments ▸ hnew⟩
      · rw [pendingNumber, hsame.recentBlockProducers, hsame.lastActiveBlock]
        exact hpending
      · rw [lastSubmitted_cons h hsub, hlast]
      · rw [paidSubmission_cons h hsub, hpaid]

theorem run_paymentInvariant {s₀ s : State α H B} {h : List (Record α H B)}
    (run : Run (step T) s₀ h s) (start : s₀.currentPhase = .powMining)
    (named : ∀ e ∈ h, NamesPending T e.1 e.2) : PaymentInvariant T h s := by
  refine run.history_invariant (I := PaymentInvariant T) ?_ named ?_
  · refine ⟨List.nodup_nil, fun _ hk => (List.not_mem_nil hk).elim, fun hphase => ?_⟩
    rw [start] at hphase
    cases hphase
  · exact fun h t a t' _ inv hnames hstep => inv.step hnames hstep

/-- In every run from the mining phase whose calls name the block of the round in progress, each
accepted block is rewarded in its own round, and at most once. -/
theorem run_rewardedOnce {s₀ s : State α H B} {h : List (Record α H B)}
    (run : Run (step T) s₀ h s) (start : s₀.currentPhase = .powMining)
    (named : ∀ e ∈ h, NamesPending T e.1 e.2) : RewardedOnce T h where
  own_round := by
    rintro post pre ⟨t, a⟩ validator n sig rfl hval
    obtain ⟨hpre, t', hstep, -⟩ := run.at_step
    have inv := run_paymentInvariant hpre start fun e he => named e (by simp [he])
    cases step_chain hstep with
    | accepted _ _ hval' | reopened _ _ _ hval' | unchanged _ hval' =>
      rw [hval] at hval'
      cases hval'
    | closed ha _ hval' hcloses =>
      obtain ⟨rfl, rfl, rfl⟩ : validator = _ ∧ n = _ ∧ sig = _ := by
        simpa using hval.symm.trans hval'
      have hn := named (t, a) (by simp) _ (ha ▸ hcloses.mem_closing)
      obtain ⟨n', _, hpending, hlast, -⟩ := inv.pending hcloses.phase
      rw [hlast, ← hpending, hn]
  nodup := (run_paymentInvariant run start named).nodup

theorem run_rewardedOnce_devRound :
    ∃ h s, Run (step devConfig) devState h s ∧ payments devConfig h = [5, 2] ∧
      RewardedOnce devConfig h := by
  obtain ⟨h, s, run, hcheck⟩ := exists_run_of_exec (step devConfig) devState
    (devRound ++ [.dispatch (.signed 2) (.submitBlock devNextBlock),
      .dispatch (.signed 1) (.validateBlock 2 ⟨0⟩)])
    (fun r => decide (payments devConfig r.1 = [5, 2] ∧
      ∀ e ∈ r.1, NamesPending devConfig e.1 e.2)) (by decide +kernel)
  obtain ⟨hpayments, hnamed⟩ := of_decide_eq_true hcheck
  exact ⟨h, s, run, hpayments, run_rewardedOnce run rfl hnamed⟩

/-- In the round of the second block the validator names the first one again, which is rewarded
twice. -/
theorem not_rewardedOnce :
    ∃ h s, Run (step devConfig) devState h s ∧
      devState.blockHeaders = StorageMap.empty.insert 0 devHeader ∧
      devState.currentPhase = .powMining ∧ ¬RewardedOnce devConfig h := by
  obtain ⟨h, s, run, hcheck⟩ := exists_run_of_exec (step devConfig) devState
    (devRound ++ [.dispatch (.signed 2) (.submitBlock devNextBlock),
      .dispatch (.signed 1) (.validateBlock 1 ⟨0⟩)])
    (fun r => decide (¬(payments devConfig r.1).Nodup)) (by decide +kernel)
  exact ⟨h, s, run, rfl, rfl, fun hrewarded => of_decide_eq_true hcheck hrewarded.nodup⟩

end GhostConsensus
