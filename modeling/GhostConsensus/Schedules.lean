import GhostConsensus.Search

/-!
# When the miner returns

`start` never deadlocks. It returns `None` only when `stop` was called while it ran (or there are no
threads), and never after a thread has hashed a solution. Once a solution is announced, or `stop`
was called, every schedule comes to an end after a number of turns that only depends on the number
of threads; without either it does so when every thread has a solution among its nonces.
-/

namespace GhostConsensus

open MachineInt Transition

/-- The action is the turn of a thread, not a call of `stop`. -/
def MinerAction.isTurn : MinerAction → Bool
  | .stop => false
  | _ => true

/-- The call has returned. -/
def StartPc.hasReturned : StartPc → Bool
  | .returned _ => true
  | _ => false

section Deadlock

variable {α H B : Type} {T : Config α H B} {miner : Miner} {header : MiningBlockHeader H}
  {s : Mining}

theorem isSome_workerStep {threadId : ℕ} {w : Worker} (h : w.pc ≠ .ended) :
    (workerStep T miner header s threadId w).isSome = true := by
  unfold workerStep
  split
  case h_9 hpc => exact absurd hpc h
  all_goals rfl

/-- The calling thread only ever waits for a worker that has not ended. -/
theorem isSome_startStep (h : s.pc.hasReturned = false)
    (hjoin : ∀ threadId w, s.pc = .join threadId → s.workers[threadId]? = some w →
      w.pc = .ended) : (startStep miner s).isSome = true := by
  unfold startStep
  split
  case h_2 => split <;> rfl
  case h_3 threadId hpc =>
    split
    · rename_i w hw
      rw [if_pos (hjoin threadId w hpc hw)]
      rfl
    · rfl
  case h_8 hpc =>
    rw [hpc] at h
    cases h
  all_goals rfl

/-- Until the call returns, some thread can take a turn. -/
theorem exists_turn (h : s.pc.hasReturned = false) :
    ∃ action s', action.isTurn = true ∧ mineStep T miner header s action = some s' := by
  by_cases hjoin : ∀ threadId w, s.pc = .join threadId → s.workers[threadId]? = some w →
      w.pc = .ended
  · have hcan : (startStep miner s).isSome = true := isSome_startStep h hjoin
    obtain ⟨s', hs'⟩ := Option.isSome_iff_exists.1 hcan
    exact ⟨.start, s', rfl, hs'⟩
  · -- the worker that the calling thread waits for can move
    push Not at hjoin
    obtain ⟨threadId, w, -, hw, hrunning⟩ := hjoin
    have hcan : (workerStep T miner header s threadId w).isSome = true := isSome_workerStep hrunning
    obtain ⟨s', hs'⟩ := Option.isSome_iff_exists.1 hcan
    refine ⟨.worker threadId, s', rfl, ?_⟩
    rw [mineStep, hw]
    exact hs'

end Deadlock

/-! ## After a solution or a stop -/

/-- The turns a worker may still take, once a solution is announced (`found`) or once `running` is
off. -/
def WorkerPc.turnsLeft (found : Bool) : WorkerPc → ℕ
  | .loadRunning => if found then 2 else 1
  | .loadFoundSolution => if found then 1 else 6
  | .hash => 5
  | .countHash _ => 4
  | .storeFoundSolution => 3
  | .storeFoundNonce => 2
  | .storeRunning => 1
  | .advance => if found then 3 else 2
  | .ended => 0

/-- The turns of the calling thread that are left, and those of the workers it has yet to spawn. -/
def StartPc.turnsLeft (threads : ℕ) : StartPc → ℕ
  | .storeRunning => 4 * threads + 7
  | .spawn threadId => 3 * (threads - threadId) + (threads + 6)
  | .join threadId => threads - threadId + 5
  | .loadHashes => 4
  | .loadBlocksFound _ => 3
  | .loadFoundSolution _ => 2
  | .loadFoundNonce _ => 1
  | .returned _ => 0

def Mining.turnsLeft (miner : Miner) (found : Bool) (s : Mining) : ℕ :=
  (s.workers.map fun w => w.pc.turnsLeft found).sum + s.pc.turnsLeft miner.threads

/-- The workers are about to leave their loops: a solution is announced (`found`), or `running` is
off for good. -/
def Mining.Closing (found : Bool) (s : Mining) : Prop :=
  if found then s.foundSolution = true else s.running = false ∧ s.pc ≠ .storeRunning

section Closing

variable {α H B : Type} {T : Config α H B} {miner : Miner} {header : MiningBlockHeader H}
  {s s' : Mining} {threadId : ℕ} {w : Worker} {found : Bool}

theorem MineEffect.closing_of {action : MinerAction} (hs : s.Closing found)
    (h : MineEffect T miner header s action s') : s'.Closing found := by
  cases found with
  | true =>
    have hfound : s.foundSolution = true := hs
    change s'.foundSolution = true
    cases h with
    | start hturn => rwa [hturn.foundSolution_eq]
    | worker hw hturn => cases hturn <;> first | exact hfound | rfl
    | stop => exact hfound
  | false =>
    obtain ⟨hrunning, hpc⟩ : s.running = false ∧ s.pc ≠ .storeRunning := hs
    change s'.running = false ∧ s'.pc ≠ .storeRunning
    cases h with
    | start hturn =>
      cases hturn with
      | storeRunning hstore => exact absurd hstore hpc
      | spawn | spawned | join | joined | loadHashes | loadBlocksFound | found | notFound
      | loadFoundNonce => exact ⟨hrunning, by simp⟩
    | worker hw hturn =>
      rw [hturn.pc_eq]
      cases hturn <;> first | exact ⟨hrunning, hpc⟩ | exact ⟨rfl, hpc⟩
    | stop => exact ⟨rfl, hpc⟩

/-- In a closing state every turn of a worker is one of those it has left. -/
theorem WorkerTurn.turnsLeft_lt (hs : s.Closing found)
    (h : WorkerTurn T miner header s threadId w s') :
    ∃ w', s'.workers = s.workers.set threadId w' ∧
      w'.pc.turnsLeft found + 1 ≤ w.pc.turnsLeft found := by
  unfold Mining.Closing at hs
  cases h with
  | loadRunning hpc =>
    refine ⟨_, rfl, ?_⟩
    rw [hpc]
    cases found with
    | true => cases s.running <;> simp [WorkerPc.turnsLeft]
    | false =>
      obtain ⟨hrunning, -⟩ : s.running = false ∧ s.pc ≠ .storeRunning := hs
      rw [hrunning]
      simp [WorkerPc.turnsLeft]
  | loadFoundSolution hpc =>
    refine ⟨_, rfl, ?_⟩
    rw [hpc]
    cases found with
    | true =>
      rw [if_pos rfl] at hs
      rw [hs]
      simp [WorkerPc.turnsLeft]
    | false => cases s.foundSolution <;> simp [WorkerPc.turnsLeft]
  | hash hpc =>
    refine ⟨_, rfl, ?_⟩
    rw [hpc]
    exact le_rfl
  | countHash hpc =>
    refine ⟨_, rfl, ?_⟩
    rw [hpc]
    -- a hash that fails leaves one turn less than one that solves, or as many
    split
    · exact le_rfl
    · cases found <;> simp [WorkerPc.turnsLeft]
  | storeFoundSolution hpc | storeFoundNonce hpc | storeRunning hpc =>
    refine ⟨_, rfl, ?_⟩
    rw [hpc]
    exact le_rfl
  | advance hpc =>
    refine ⟨_, rfl, ?_⟩
    rw [hpc]
    cases found <;> simp [WorkerPc.turnsLeft]

/-- A new worker is paid for by the calling thread. -/
theorem StartTurn.turnsLeft_lt (hspawned : s.Spawned miner) (h : StartTurn miner s s') :
    s'.turnsLeft miner found + 1 ≤ s.turnsLeft miner found := by
  have hlength := hspawned.length_eq
  unfold Mining.turnsLeft
  cases h with
  | spawn hpc hlt =>
    rw [hpc, List.map_append, List.sum_append]
    have hnew : WorkerPc.turnsLeft found .loadRunning ≤ 2 := by cases found <;> decide
    simp only [List.map_cons, List.map_nil, List.sum_singleton, StartPc.turnsLeft]
    omega
  | join hpc hw =>
    rw [hpc]
    have hlt := (List.getElem?_eq_some_iff.1 hw).1
    rw [hlength (by simp [hpc]) (by simp [hpc])] at hlt
    simp only [StartPc.turnsLeft]
    omega
  | storeRunning hpc | spawned hpc | joined hpc | loadHashes hpc | loadBlocksFound hpc
  | found hpc | notFound hpc | loadFoundNonce hpc =>
    rw [hpc]
    simp only [StartPc.turnsLeft]
    omega

/-- In a closing state every turn is one of those that are left. -/
theorem MineEffect.turnsLeft_le {action : MinerAction} (hs : s.Closing found)
    (hspawned : s.Spawned miner) (h : MineEffect T miner header s action s') :
    (if action.isTurn = true then 1 else 0) + s'.turnsLeft miner found ≤
      s.turnsLeft miner found := by
  cases h with
  | start hturn =>
    change 1 + _ ≤ _
    rw [Nat.add_comm]
    exact hturn.turnsLeft_lt hspawned
  | worker hw hturn =>
    obtain ⟨w', hworkers, hlt⟩ := hturn.turnsLeft_lt hs
    have hsum := sum_map_set (y := w') (fun w => w.pc.turnsLeft found) hw
    change 1 + _ ≤ _
    rw [Mining.turnsLeft, Mining.turnsLeft, hworkers, hturn.pc_eq]
    omega
  | stop => exact (Nat.zero_add _).le

theorem WorkerPc.turnsLeft_le (pc : WorkerPc) : pc.turnsLeft found ≤ 6 := by
  cases found <;> cases pc <;> simp [WorkerPc.turnsLeft]

/-- However far the call has come, the turns left only depend on the number of threads. -/
theorem Mining.turnsLeft_le (h : s.Spawned miner) :
    s.turnsLeft miner found ≤ 10 * miner.threads + 7 := by
  have hworkers : (s.workers.map fun w => w.pc.turnsLeft found).sum ≤ s.workers.length * 6 := by
    have := List.sum_le_card_nsmul (s.workers.map fun w => w.pc.turnsLeft found) 6 (by
      intro n hn
      obtain ⟨w, -, rfl⟩ := List.mem_map.1 hn
      exact w.pc.turnsLeft_le)
    simpa using this
  have hlength := h.length_le
  have hstart : s.pc.turnsLeft miner.threads ≤ 4 * miner.threads + 7 := by
    unfold StartPc.turnsLeft
    split <;> omega
  unfold Mining.turnsLeft
  omega

end Closing

/-! ## Turns and hashes -/

/-- The action is a turn of the worker thread `threadId`. -/
def MinerAction.isTurnOf (threadId : ℕ) : MinerAction → Bool
  | .worker i => i == threadId
  | _ => false

def MinerAction.isStart : MinerAction → Bool
  | .start => true
  | _ => false

/-- A worker takes at most five turns for each hash it counts; this is what it has in hand. -/
def WorkerPc.turnsInHand : WorkerPc → ℕ
  | .loadRunning => 5
  | .loadFoundSolution => 4
  | .hash => 3
  | .countHash _ => 2
  | .storeFoundSolution | .advance => 6
  | .storeFoundNonce => 5
  | .storeRunning => 4
  | .ended => 3

/-- The turns the calling thread has taken when it gets there. -/
def StartPc.turnsTaken (threads : ℕ) : StartPc → ℕ
  | .storeRunning => 0
  | .spawn threadId => threadId + 1
  | .join threadId => threads + min threadId threads + 2
  | .loadHashes => 2 * threads + 3
  | .loadBlocksFound _ => 2 * threads + 4
  | .loadFoundSolution _ => 2 * threads + 5
  | .loadFoundNonce _ => 2 * threads + 6
  | .returned _ => 2 * threads + 7

section Turns

variable {α H B : Type} {T : Config α H B} {miner : Miner} {header : MiningBlockHeader H}
  {s s' : Mining} {hist : List (Mining × MinerAction)} {threadId : ℕ} {w : Worker}

theorem WorkerTurn.turnsInHand_le (h : WorkerTurn T miner header s threadId w s') :
    ∃ w', s'.workers = s.workers.set threadId w' ∧
      w'.pc.turnsInHand + 1 ≤ w.pc.turnsInHand + if w.counts = true then 5 else 0 := by
  unfold Worker.counts
  cases h with
  | loadRunning hpc =>
    refine ⟨_, rfl, ?_⟩
    rw [hpc]
    cases s.running <;> simp [WorkerPc.turnsInHand]
  | loadFoundSolution hpc =>
    refine ⟨_, rfl, ?_⟩
    rw [hpc]
    cases s.foundSolution <;> simp [WorkerPc.turnsInHand]
  | countHash hpc =>
    refine ⟨_, rfl, ?_⟩
    rw [hpc]
    split <;> simp [WorkerPc.turnsInHand]
  | hash hpc | storeFoundSolution hpc | storeFoundNonce hpc | storeRunning hpc | advance hpc =>
    refine ⟨_, rfl, ?_⟩
    rw [hpc]
    simp [WorkerPc.turnsInHand]

theorem StartTurn.turnsTaken_le (hspawned : s.Spawned miner) (h : StartTurn miner s s') :
    s.pc.turnsTaken miner.threads + 1 ≤ s'.pc.turnsTaken miner.threads := by
  have hlength := hspawned.length_eq
  unfold Mining.Spawned at hspawned
  cases h with
  | spawned hpc =>
    rw [hpc] at hspawned ⊢
    simp only [StartPc.turnsTaken]
    omega
  | join hpc hw =>
    have hlt := (List.getElem?_eq_some_iff.1 hw).1
    rw [hlength (by simp [hpc]) (by simp [hpc])] at hlt
    rw [hpc]
    simp only [StartPc.turnsTaken]
    omega
  | storeRunning hpc | spawn hpc | joined hpc | loadHashes hpc | loadBlocksFound hpc
  | found hpc | notFound hpc | loadFoundNonce hpc =>
    rw [hpc]
    simp only [StartPc.turnsTaken]
    omega

/-- The turns of a history: those of the workers are paid for by the hashes they have counted. -/
structure TurnsCounted (miner : Miner) (hist : List (Mining × MinerAction)) (s : Mining) :
    Prop where
  worker : ∀ i w, s.workers[i]? = some w →
    hist.countP (fun e => e.2.isTurnOf i) + w.pc.turnsInHand ≤ 5 * (searched hist i).length + 5
  unspawned : ∀ i, s.workers.length ≤ i → hist.countP (fun e => e.2.isTurnOf i) = 0
  start : hist.countP (fun e => e.2.isStart) ≤ s.pc.turnsTaken miner.threads
  total : hist.countP (fun e => e.2.isTurn) = hist.countP (fun e => e.2.isStart) +
    ∑ i ∈ Finset.range miner.threads, hist.countP (fun e => e.2.isTurnOf i)

theorem TurnsCounted.start_turn (hs : TurnsCounted miner hist s) (hspawned : s.Spawned miner)
    (h : StartTurn miner s s') : TurnsCounted miner ((s, .start) :: hist) s' := by
  refine ⟨?_, ?_, ?_, ?_⟩
  case refine_1 =>
    rcases h.workers_eq with hworkers | ⟨i, hpc, hworkers⟩
    · rw [hworkers]
      exact hs.worker
    · rw [hworkers]
      apply forall_getElem?_concat hs.worker
      change hist.countP (fun e => e.2.isTurnOf s.workers.length) + 5 ≤ _
      rw [hs.unspawned _ le_rfl]
      omega
  case refine_2 => exact fun i hi => hs.unspawned i (h.length_workers_le.trans hi)
  case refine_3 =>
    have htaken := h.turnsTaken_le hspawned
    have hstart := hs.start
    rw [List.countP_cons_of_pos rfl]
    omega
  case refine_4 =>
    have htotal := hs.total
    rw [List.countP_cons_of_pos rfl, List.countP_cons_of_pos rfl, htotal, Nat.add_right_comm]
    rfl

theorem TurnsCounted.worker_turn {hashes : U64}
    (hsearch : SearchState T miner header hashes hist s) (hs : TurnsCounted miner hist s)
    (hw : s.workers[threadId]? = some w) (h : WorkerTurn T miner header s threadId w s') :
    TurnsCounted miner ((s, .worker threadId) :: hist) s' := by
  have hself : ((s, .worker threadId) :: hist).countP (fun e => e.2.isTurnOf threadId) =
      hist.countP (fun e => e.2.isTurnOf threadId) + 1 :=
    List.countP_cons_of_pos (by simp [MinerAction.isTurnOf])
  have hother (i : ℕ) (hne : i ≠ threadId) :
      ((s, .worker threadId) :: hist).countP (fun e => e.2.isTurnOf i) =
        hist.countP (fun e => e.2.isTurnOf i) :=
    List.countP_cons_of_neg (by simp [MinerAction.isTurnOf, hne.symm])
  refine ⟨?_, ?_, ?_, ?_⟩
  case refine_1 =>
    obtain ⟨w', hworkers, hle⟩ := h.turnsInHand_le
    have hpaid := hs.worker threadId w hw
    rw [hworkers]
    apply forall_getElem?_set
    · intro i v hne hv
      rw [hother i hne, searched_worker_of_ne hne.symm]
      exact hs.worker i v hv
    · rw [hself, searched_worker_self hw]
      split at hle
      · rename_i hcounts
        rw [if_pos hcounts, List.length_cons]
        omega
      · rename_i hcounts
        rw [if_neg hcounts]
        omega
  case refine_2 =>
    intro i hi
    rw [h.length_workers] at hi
    rw [hother i ((List.getElem?_eq_some_iff.1 hw).1.trans_le hi).ne']
    exact hs.unspawned i hi
  case refine_3 =>
    rw [List.countP_cons_of_neg (by simp [MinerAction.isStart]), h.pc_eq]
    exact hs.start
  case refine_4 =>
    have hmem : threadId ∈ Finset.range miner.threads := Finset.mem_range.2 (hsearch.lt_threads hw)
    have htotal := hs.total
    rw [← Finset.add_sum_erase _ _ hmem] at htotal
    rw [List.countP_cons_of_pos rfl, List.countP_cons_of_neg (by simp [MinerAction.isStart]),
      ← Finset.add_sum_erase _ _ hmem, hself,
      Finset.sum_congr rfl fun i hi => hother i (Finset.ne_of_mem_erase hi)]
    omega

theorem TurnsCounted.step {hashes : U64} {action : MinerAction}
    (hsearch : SearchState T miner header hashes hist s) (hs : TurnsCounted miner hist s)
    (h : MineEffect T miner header s action s') : TurnsCounted miner ((s, action) :: hist) s' := by
  cases h with
  | start hturn => exact hs.start_turn hsearch.spawned hturn
  | worker hw hturn => exact hs.worker_turn hsearch hw hturn
  | stop => exact ⟨hs.worker, hs.unspawned, hs.start, hs.total⟩

end Turns

/-! ## Every schedule ends -/

section Ends

variable {α H B : Type} {T : Config α H B} {miner : Miner} {header : MiningBlockHeader H}
  {s s' : Mining} {hist hist' : List (Mining × MinerAction)} {running : Bool} {hashes : U64}

/-- Whatever the threads have done so far: once a solution is announced, or `stop` was called after
`start` had set `running`, at most `10 * threads + 7` more turns follow, in whatever order, and as
long as `start` has not returned there is a next one. -/
theorem run_closes (run : Run (mineStep T miner header) (Mining.called running hashes) hist s)
    (hclosing : s.foundSolution = true ∨ s.running = false ∧ s.pc ≠ .storeRunning)
    (run' : Run (mineStep T miner header) s hist' s') :
    hist'.countP (fun e => e.2.isTurn) ≤ 10 * miner.threads + 7 ∧
      (s'.pc.hasReturned = false → ∃ action s'', action.isTurn = true ∧
        mineStep T miner header s' action = some s'') := by
  refine ⟨?_, exists_turn⟩
  have hspawned := (run_searchState run).spawned
  have hbound (found : Bool) (hs : s.Closing found) :
      hist'.countP (fun e => e.2.isTurn) ≤ 10 * miner.threads + 7 := by
    have hpaid := run'.countP_add_le (I := fun t => t.Closing found ∧ t.Spawned miner)
      (μ := Mining.turnsLeft miner found) (p := fun e => e.2.isTurn) ⟨hs, hspawned⟩
      (fun _ _ _ ht hstep => ⟨(mineStep_effect hstep).closing_of ht.1,
        (mineStep_effect hstep).spawned_of ht.2⟩)
      (fun _ _ _ ht hstep => (mineStep_effect hstep).turnsLeft_le ht.1 ht.2)
    have hleft : s.turnsLeft miner found ≤ 10 * miner.threads + 7 := Mining.turnsLeft_le hspawned
    omega
  rcases hclosing with hfound | hstopped
  · exact hbound true hfound
  · exact hbound false hstopped

theorem run_turnsCounted (run : Run (mineStep T miner header) (Mining.called running hashes) hist s) :
    TurnsCounted miner hist s := by
  refine run.history_invariant (C := fun _ _ => True) ?_ (fun _ _ => trivial) ?_
  · refine ⟨fun i w hw => ?_, fun _ _ => rfl, Nat.zero_le _, by simp⟩
    cases hw
  · intro _ _ _ _ run ht _ hstep
    exact ht.step (run_searchState run) (mineStep_effect hstep)

/-- A thread never hashes past its first solution. -/
theorem SearchState.length_searched_le (hs : SearchState T miner header hashes hist s)
    {threadId k : ℕ} (hsolves : Solves T miner header (candidate miner threadId k)) :
    (searched hist threadId).length ≤ k + 1 := by
  by_contra hlt
  exact hs.noneSolves threadId k (by omega) hsolves

/-- Whatever the order of the turns and whether or not `stop` is called: when every thread has a
solution among its nonces, at number `solution i` for thread `i`, the whole call takes at most
`5 * solution i + 8` turns of each worker and `2 * threads + 7` of the calling thread, and as long as
it has not returned there is a next turn. -/
theorem run_ends (run : Run (mineStep T miner header) (Mining.called running hashes) hist s)
    {solution : ℕ → ℕ}
    (hsolution : ∀ i < miner.threads, Solves T miner header (candidate miner i (solution i))) :
    hist.countP (fun e => e.2.isTurn) ≤
        ∑ i ∈ Finset.range miner.threads, (5 * solution i + 8) + (2 * miner.threads + 7) ∧
      (s.pc.hasReturned = false → ∃ action s', action.isTurn = true ∧
        mineStep T miner header s action = some s') := by
  refine ⟨?_, exists_turn⟩
  have hs := run_searchState run
  have hcounted := run_turnsCounted run
  have hworkers : ∑ i ∈ Finset.range miner.threads, hist.countP (fun e => e.2.isTurnOf i) ≤
      ∑ i ∈ Finset.range miner.threads, (5 * solution i + 8) := by
    apply Finset.sum_le_sum
    intro i hi
    have hlength := hs.length_searched_le (hsolution i (Finset.mem_range.1 hi))
    cases hw : s.workers[i]? with
    | none =>
      rw [hcounted.unspawned i (List.getElem?_eq_none_iff.1 hw)]
      exact Nat.zero_le _
    | some w =>
      have hpaid := hcounted.worker i w hw
      have hinHand : 2 ≤ w.pc.turnsInHand := by cases w.pc <;> simp [WorkerPc.turnsInHand]
      omega
  have hstart : s.pc.turnsTaken miner.threads ≤ 2 * miner.threads + 7 := by
    have hlength := hs.spawned
    unfold Mining.Spawned at hlength
    cases hpc : s.pc with
    | spawn threadId =>
      rw [hpc] at hlength
      have := hlength.2
      simp only [StartPc.turnsTaken]
      omega
    | storeRunning | join | loadHashes | loadBlocksFound | loadFoundSolution | loadFoundNonce
    | returned =>
      simp only [StartPc.turnsTaken]
      omega
  have htaken := hcounted.start
  rw [hcounted.total]
  omega

end Ends

/-- The call has returned what `devRace` ends with. -/
def devReturned (r : List (Mining × MinerAction) × Mining) : Bool :=
  decide (r.2.pc = .returned (some (2, ⟨3, 1⟩)))

theorem run_closes_devRace : ∃ hist s hist' s',
    Run (mineStep devMiningConfig devMiner devMiningHeader) (Mining.called false 0) hist s ∧
      s.foundSolution = true ∧
      Run (mineStep devMiningConfig devMiner devMiningHeader) s hist' s' ∧
      s'.pc = .returned (some (2, ⟨3, 1⟩)) ∧ hist'.countP (fun e => e.2.isTurn) ≤ 27 := by
  obtain ⟨hist, s, run, hs⟩ := exists_run_of_exec (mineStep devMiningConfig devMiner devMiningHeader)
    (Mining.called false 0) (devRace.take 18)
    (fun r => decide (r.2.foundSolution = true) &&
      (exec (mineStep devMiningConfig devMiner devMiningHeader) [] r.2 (devRace.drop 18)).any
        devReturned) (by decide +kernel)
  obtain ⟨hfound, hrest⟩ := Bool.and_eq_true_iff.1 hs
  obtain ⟨hist', s', run', hs'⟩ := exists_run_of_exec _ s (devRace.drop 18) _ hrest
  have hclosing := of_decide_eq_true hfound
  exact ⟨hist, s, hist', s', run, hclosing, run', of_decide_eq_true hs',
    (run_closes run (Or.inl hclosing) run').1⟩

theorem run_ends_devRace : ∃ hist s,
    Run (mineStep devMiningConfig devMiner devMiningHeader) (Mining.called false 0) hist s ∧
      s.pc = .returned (some (2, ⟨3, 1⟩)) ∧ hist.countP (fun e => e.2.isTurn) ≤ 13 + 8 + 11 := by
  obtain ⟨hist, s, run, hs⟩ := exists_run_of_exec (mineStep devMiningConfig devMiner devMiningHeader)
    (Mining.called false 0) devRace devReturned (by decide +kernel)
  have hsolution : ∀ i < devMiner.threads, Solves devMiningConfig devMiner devMiningHeader
      (candidate devMiner i (1 - i)) := by
    unfold Solves
    decide +kernel
  exact ⟨hist, s, run, of_decide_eq_true hs, (run_ends run hsolution).1⟩

/-! ## Why `None` is returned -/

/-- `stop` was called after `start` had set `running`. -/
def WasStopped (hist : List (Mining × MinerAction)) : Prop :=
  ∃ t, (t, MinerAction.stop) ∈ hist ∧ t.pc ≠ .storeRunning

section Stopped

variable {α H B : Type} {T : Config α H B} {miner : Miner} {header : MiningBlockHeader H}
  {s s' : Mining} {hist : List (Mining × MinerAction)} {running : Bool} {hashes : U64}

/-- As long as no solution is announced, `running` is on unless `stop` was called, and what the
threads have hashed has failed, unless one of them is about to announce it. -/
structure Unannounced (T : Config α H B) (miner : Miner) (header : MiningBlockHeader H)
    (hist : List (Mining × MinerAction)) (s : Mining) : Prop where
  running : s.running = false → s.pc = .storeRunning ∨ WasStopped hist
  pc : ∀ w ∈ s.workers, w.pc ≠ .storeFoundNonce ∧ w.pc ≠ .storeRunning
  ended : ∀ i w, s.workers[i]? = some w → w.pc = .ended →
    WasStopped hist ∧ NoneSolves T miner header i (searched hist i).length

theorem WasStopped.cons (h : WasStopped hist) (e : Mining × MinerAction) :
    WasStopped (e :: hist) := by
  obtain ⟨t, ht, hpc⟩ := h
  exact ⟨t, List.mem_cons_of_mem e ht, hpc⟩

theorem Unannounced.start_turn (hs : Unannounced T miner header hist s)
    (h : StartTurn miner s s') : Unannounced T miner header ((s, .start) :: hist) s' := by
  refine ⟨?_, ?_, ?_⟩
  case refine_1 =>
    intro hrunning
    right
    cases h with
    | storeRunning => cases hrunning
    | spawn hpc | spawned hpc | join hpc | joined hpc | loadHashes hpc | loadBlocksFound hpc
    | found hpc | notFound hpc | loadFoundNonce hpc =>
      rcases hs.running hrunning with hstore | hstopped
      · rw [hstore] at hpc
        cases hpc
      · exact hstopped.cons _
  case refine_2 =>
    rcases h.workers_eq with hworkers | ⟨i, -, hworkers⟩
    · rw [hworkers]
      exact hs.pc
    · rw [hworkers]
      intro w hw
      rcases List.mem_append.1 hw with hw | hw
      · exact hs.pc w hw
      · obtain rfl := List.mem_singleton.1 hw
        exact ⟨by simp, by simp⟩
  case refine_3 =>
    have hended : ∀ i w, s.workers[i]? = some w → w.pc = .ended →
        WasStopped ((s, .start) :: hist) ∧ NoneSolves T miner header i (searched hist i).length :=
      fun i w hw hpc => (hs.ended i w hw hpc).imp_left fun hstopped => hstopped.cons _
    rcases h.workers_eq with hworkers | ⟨i, -, hworkers⟩
    · rw [hworkers]
      exact hended
    · rw [hworkers]
      apply forall_getElem?_concat hended
      intro hpc
      cases hpc

/-- A worker that ends although no solution is announced has seen `running` off. -/
theorem Unannounced.worker_turn (hsearch : SearchState T miner header hashes hist s)
    (hs : Unannounced T miner header hist s) {threadId : ℕ} {w : Worker}
    (hw : s.workers[threadId]? = some w) (h : WorkerTurn T miner header s threadId w s')
    (hfound : s'.foundSolution = false) :
    Unannounced T miner header ((s, .worker threadId) :: hist) s' := by
  have hmem := List.mem_of_getElem? hw
  have hsearched := (hsearch.worker threadId w hw).2
  unfold Worker.Searched at hsearched
  -- the state after the turn, given what has become of the worker
  have hmove {w' : Worker} (hrunning : s'.running = s.running)
      (hworkers : s'.workers = s.workers.set threadId w')
      (hpc : w'.pc ≠ .storeFoundNonce ∧ w'.pc ≠ .storeRunning)
      (hended : w'.pc = .ended → WasStopped hist ∧ w.counts = false ∧
        NoneSolves T miner header threadId (searched hist threadId).length) :
      Unannounced T miner header ((s, .worker threadId) :: hist) s' := by
    refine ⟨?_, ?_, ?_⟩
    · rw [hrunning, h.pc_eq]
      exact fun hoff => (hs.running hoff).imp_right fun hstopped => hstopped.cons _
    · rw [hworkers]
      intro v hv
      rcases List.mem_or_eq_of_mem_set hv with hv | rfl
      · exact hs.pc v hv
      · exact hpc
    · rw [hworkers]
      apply forall_getElem?_set
      · intro i v hne hv hpc
        rw [searched_worker_of_ne hne.symm]
        exact (hs.ended i v hv hpc).imp_left fun hstopped => hstopped.cons _
      · intro hpc
        obtain ⟨hstopped, hcounts, hnone⟩ := hended hpc
        rw [searched_worker_self hw, hcounts]
        exact ⟨hstopped.cons _, hnone⟩
  cases h with
  | loadRunning hpc =>
    rw [hpc] at hsearched
    refine hmove rfl rfl ?_ ?_
    · cases s.running <;> simp
    · intro hended
      cases hrunning : s.running with
      | true => simp [hrunning] at hended
      | false =>
        rcases hs.running hrunning with hstore | hstopped
        · have hspawned := hsearch.spawned
          unfold Mining.Spawned at hspawned
          rw [hstore] at hspawned
          rw [hspawned] at hw
          cases hw
        · exact ⟨hstopped, by simp [Worker.counts, hpc], hsearched.2⟩
  | loadFoundSolution hpc =>
    have hnot : s.foundSolution = false := hfound
    refine hmove rfl rfl ?_ ?_ <;> simp [hnot]
  | countHash hpc =>
    refine hmove rfl rfl ?_ ?_
    · split <;> simp
    · split <;> simp
  | hash hpc | advance hpc => exact hmove rfl rfl (by simp) (by simp)
  | storeFoundSolution hpc => cases hfound
  | storeFoundNonce hpc => exact absurd hpc (hs.pc w hmem).1
  | storeRunning hpc => exact absurd hpc (hs.pc w hmem).2

theorem Unannounced.step {action : MinerAction} (hsearch : SearchState T miner header hashes hist s)
    (hs : s.foundSolution = false → Unannounced T miner header hist s)
    (h : MineEffect T miner header s action s') :
    s'.foundSolution = false → Unannounced T miner header ((s, action) :: hist) s' := by
  intro hfound
  cases h with
  | start hturn =>
    rw [hturn.foundSolution_eq] at hfound
    exact (hs hfound).start_turn hturn
  | worker hw hturn =>
    have hbefore : s.foundSolution = false := by
      cases hturn <;> first | exact hfound | cases hfound
    exact (hs hbefore).worker_turn hsearch hw hturn hfound
  | stop =>
    have hs := hs hfound
    refine ⟨fun _ => ?_, hs.pc, fun i w hw hpc =>
      (hs.ended i w hw hpc).imp_left fun hstopped => hstopped.cons _⟩
    by_cases hstore : s.pc = .storeRunning
    · exact Or.inl hstore
    · exact Or.inr ⟨s, List.mem_cons_self, hstore⟩

/-- `None` is what `start` returns when no solution is announced. -/
theorem MineEffect.notFound_of {action : MinerAction} (hquiet : s.Quiet)
    (hs : s.pc = .returned none → s.foundSolution = false)
    (h : MineEffect T miner header s action s') :
    s'.pc = .returned none → s'.foundSolution = false := by
  intro hreturned
  cases h with
  | start hturn =>
    cases hturn with
    | notFound hpc hfound => exact hfound
    | storeRunning | spawn | spawned | join | joined | loadHashes | loadBlocksFound | found
    | loadFoundNonce => cases hreturned
  | worker hw hturn =>
    rw [hturn.pc_eq] at hreturned
    have hpast := hquiet.pastJoin_eq_false hw hturn
    rw [hreturned] at hpast
    cases hpast
  | stop => exact hs hreturned

/-- `start` returns `None` only if `stop` was called while it ran, or if there are no threads, and
no nonce that a thread has hashed by then is a solution: none is lost. -/
theorem returned_none (run : Run (mineStep T miner header) (Mining.called running hashes) hist s)
    (hreturned : s.pc = .returned none) :
    (miner.threads = 0 ∨ WasStopped hist) ∧
      ∀ i, ∀ nonce ∈ searched hist i, ¬Solves T miner header nonce := by
  have hs := run_searchState run
  have hfound : s.foundSolution = false :=
    run.history_invariant (C := fun _ _ => True)
      (I := fun _ t => t.pc = .returned none → t.foundSolution = false) (fun _ => rfl)
      (fun _ _ => trivial)
      (fun _ _ _ _ run ht _ hstep =>
        (mineStep_effect hstep).notFound_of (run_searchState run).quiet ht) hreturned
  have hunannounced : Unannounced T miner header hist s :=
    run.history_invariant (C := fun _ _ => True)
      (I := fun l t => t.foundSolution = false → Unannounced T miner header l t)
      (fun _ => ⟨fun _ => Or.inl rfl, fun w hw => by simp [Mining.called] at hw,
        fun i w hw => absurd hw (by simp [Mining.called])⟩)
      (fun _ _ => trivial)
      (fun _ _ _ _ run ht _ hstep => Unannounced.step (run_searchState run) ht
        (mineStep_effect hstep)) hfound
  have hended := hs.quiet (by rw [hreturned]; rfl)
  have hlength := hs.spawned.length_eq (by simp [hreturned]) (by simp [hreturned])
  constructor
  · rcases Nat.eq_zero_or_pos miner.threads with hzero | hpos
    · exact Or.inl hzero
    · right
      have hw := List.getElem?_eq_getElem (hlength ▸ hpos : 0 < s.workers.length)
      exact (hunannounced.ended 0 _ hw (hended _ (List.mem_of_getElem? hw))).1
  · intro i nonce hnonce
    cases hw : s.workers[i]? with
    | none =>
      rw [hs.unspawned i (List.getElem?_eq_none_iff.1 hw)] at hnonce
      cases hnonce
    | some w =>
      rw [hs.searched_eq i] at hnonce
      obtain ⟨j, hj, rfl⟩ := mem_candidates.1 hnonce
      exact (hunannounced.ended i w hw (hended _ (List.mem_of_getElem? hw))).2 j hj

end Stopped

/-- `stop` is called once both workers are spawned, when one of them has hashed a nonce. -/
def devStopped : List MinerAction :=
  [List.replicate 4 .start, List.replicate 4 (.worker 0), [.stop, .worker 1, .worker 0, .worker 0],
    List.replicate 6 .start].flatten

theorem returned_none_devStopped : ∃ hist s,
    Run (mineStep devMiningConfig devMiner devMiningHeader) (Mining.called false 0) hist s ∧
      s.pc = .returned none ∧ searched hist 0 = [0] ∧
      (devMiner.threads = 0 ∨ WasStopped hist) ∧
      ¬Solves devMiningConfig devMiner devMiningHeader 0 := by
  obtain ⟨hist, s, run, hs⟩ := exists_run_of_exec (mineStep devMiningConfig devMiner devMiningHeader)
    (Mining.called false 0) devStopped
    (fun r => decide (r.2.pc = .returned none ∧ searched r.1 0 = [0])) (by decide +kernel)
  obtain ⟨hreturned, hsearched⟩ := of_decide_eq_true hs
  obtain ⟨hstopped, hnone⟩ := returned_none run hreturned
  exact ⟨hist, s, run, hreturned, hsearched, hstopped, hnone 0 0 (by simp [hsearched])⟩

end GhostConsensus
