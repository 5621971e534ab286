import GhostConsensus.Miner

/-!
# The turns of the miner's threads

`WorkerTurn` and `StartTurn` list what one step of a worker and of the calling thread can do, and
`MineEffect` puts the two together with `stop`. The invariants about whole schedules are proved by
cases on them.
-/

namespace GhostConsensus

open MachineInt Transition

variable {α H B : Type} (T : Config α H B) (miner : Miner) (header : MiningBlockHeader H)

/-- What one step of the worker `w`, which is thread `threadId`, can do. -/
inductive WorkerTurn (s : Mining) (threadId : ℕ) (w : Worker) : Mining → Prop
  | loadRunning : w.pc = .loadRunning → WorkerTurn s threadId w (s.setWorker threadId
      { w with pc := if s.running then .loadFoundSolution else .ended })
  | loadFoundSolution : w.pc = .loadFoundSolution → WorkerTurn s threadId w (s.setWorker threadId
      { w with pc := if s.foundSolution then .ended else .hash })
  | hash : w.pc = .hash → WorkerTurn s threadId w (s.setWorker threadId
      { w with pc := .countHash (miningHash T header w.nonce) })
  | countHash {hashValue : U64} : w.pc = .countHash hashValue → WorkerTurn s threadId w
      (({ s with hashes := s.hashes + 1 } : Mining).setWorker threadId
        { w with pc := if hashValue ≤ miner.target header then .storeFoundSolution else .advance })
  | storeFoundSolution : w.pc = .storeFoundSolution → WorkerTurn s threadId w
      (({ s with foundSolution := true } : Mining).setWorker threadId
        { w with pc := .storeFoundNonce })
  | storeFoundNonce : w.pc = .storeFoundNonce → WorkerTurn s threadId w
      (({ s with foundNonce := w.nonce } : Mining).setWorker threadId
        { w with pc := .storeRunning })
  | storeRunning : w.pc = .storeRunning → WorkerTurn s threadId w
      (({ s with running := false } : Mining).setWorker threadId { w with pc := .ended })
  | advance : w.pc = .advance → WorkerTurn s threadId w (s.setWorker threadId
      { pc := .loadRunning, nonce := w.nonce + BitVec.ofNat 64 miner.threads })

/-- What one step of the calling thread can do. -/
inductive StartTurn (s : Mining) : Mining → Prop
  | storeRunning : s.pc = .storeRunning → StartTurn s { s with running := true, pc := .spawn 0 }
  | spawn {threadId : ℕ} : s.pc = .spawn threadId → threadId < miner.threads →
      StartTurn s { s with
        workers := s.workers ++ [{ pc := .loadRunning, nonce := BitVec.ofNat 64 threadId }]
        pc := .spawn (threadId + 1) }
  | spawned {threadId : ℕ} : s.pc = .spawn threadId → miner.threads ≤ threadId →
      StartTurn s { s with pc := .join 0 }
  | join {threadId : ℕ} {w : Worker} : s.pc = .join threadId → s.workers[threadId]? = some w →
      w.pc = .ended → StartTurn s { s with pc := .join (threadId + 1) }
  | joined {threadId : ℕ} : s.pc = .join threadId → s.workers[threadId]? = none →
      StartTurn s { s with pc := .loadHashes }
  | loadHashes : s.pc = .loadHashes → StartTurn s { s with pc := .loadBlocksFound s.hashes }
  | loadBlocksFound {hashesComputed : U64} : s.pc = .loadBlocksFound hashesComputed →
      StartTurn s { s with
        pc := .loadFoundSolution ⟨hashesComputed, if s.foundSolution then 1 else 0⟩ }
  | found {stats : MiningStats} : s.pc = .loadFoundSolution stats → s.foundSolution = true →
      StartTurn s { s with pc := .loadFoundNonce stats }
  | notFound {stats : MiningStats} : s.pc = .loadFoundSolution stats → s.foundSolution = false →
      StartTurn s { s with pc := .returned none }
  | loadFoundNonce {stats : MiningStats} : s.pc = .loadFoundNonce stats →
      StartTurn s { s with pc := .returned (some (s.foundNonce, stats)) }

/-- What one step of the miner can do. -/
inductive MineEffect (s : Mining) : MinerAction → Mining → Prop
  | start {s' : Mining} : StartTurn miner s s' → MineEffect s .start s'
  | worker {s' : Mining} {threadId : ℕ} {w : Worker} : s.workers[threadId]? = some w →
      WorkerTurn T miner header s threadId w s' → MineEffect s (.worker threadId) s'
  | stop : MineEffect s .stop { s with running := false }

variable {T miner header} {s s' : Mining} {threadId : ℕ} {w : Worker}

theorem workerStep_turn (h : workerStep T miner header s threadId w = some s') :
    WorkerTurn T miner header s threadId w s' := by
  unfold workerStep at h
  split at h
  case h_9 => cases h
  all_goals obtain rfl := Option.some.inj h
  case h_1 hpc => exact .loadRunning hpc
  case h_2 hpc => exact .loadFoundSolution hpc
  case h_3 hpc => exact .hash hpc
  case h_4 hpc => exact .countHash hpc
  case h_5 hpc => exact .storeFoundSolution hpc
  case h_6 hpc => exact .storeFoundNonce hpc
  case h_7 hpc => exact .storeRunning hpc
  case h_8 hpc => exact .advance hpc

theorem startStep_turn (h : startStep miner s = some s') : StartTurn miner s s' := by
  unfold startStep at h
  split at h
  case h_1 hpc =>
    obtain rfl := Option.some.inj h
    exact .storeRunning hpc
  case h_2 hpc =>
    split at h
    · rename_i hlt
      obtain rfl := Option.some.inj h
      exact .spawn hpc hlt
    · rename_i hge
      obtain rfl := Option.some.inj h
      exact .spawned hpc (not_lt.1 hge)
  case h_3 hpc =>
    split at h
    · rename_i w hw
      split at h
      · rename_i hended
        obtain rfl := Option.some.inj h
        exact .join hpc hw hended
      · cases h
    · rename_i hnone
      obtain rfl := Option.some.inj h
      exact .joined hpc hnone
  case h_4 hpc =>
    obtain rfl := Option.some.inj h
    exact .loadHashes hpc
  case h_5 hpc =>
    obtain rfl := Option.some.inj h
    exact .loadBlocksFound hpc
  case h_6 hpc =>
    obtain rfl := Option.some.inj h
    by_cases hfound : s.foundSolution = true
    · rw [if_pos hfound]
      exact .found hpc hfound
    · rw [if_neg hfound]
      exact .notFound hpc (Bool.eq_false_iff.2 hfound)
  case h_7 hpc =>
    obtain rfl := Option.some.inj h
    exact .loadFoundNonce hpc
  case h_8 => cases h

theorem mineStep_effect {action : MinerAction} (h : mineStep T miner header s action = some s') :
    MineEffect T miner header s action s' := by
  cases action with
  | start => exact .start (startStep_turn h)
  | worker threadId =>
    obtain ⟨w, hw, h⟩ := Option.bind_eq_some_iff.1 h
    exact .worker hw (workerStep_turn h)
  | stop =>
    obtain rfl := Option.some.inj h
    exact .stop

/-! ## What a turn keeps -/

theorem WorkerTurn.pc_eq (h : WorkerTurn T miner header s threadId w s') : s'.pc = s.pc := by
  cases h <;> rfl

theorem WorkerTurn.exists_set (h : WorkerTurn T miner header s threadId w s') :
    ∃ w', s'.workers = s.workers.set threadId w' := by
  cases h <;> exact ⟨_, rfl⟩

theorem WorkerTurn.length_workers (h : WorkerTurn T miner header s threadId w s') :
    s'.workers.length = s.workers.length := by
  obtain ⟨w', hw'⟩ := h.exists_set
  rw [hw', List.length_set]

/-- The loop of a worker that has ended is left for good. -/
theorem WorkerTurn.not_ended (h : WorkerTurn T miner header s threadId w s') : w.pc ≠ .ended := by
  intro hended
  cases h <;> simp_all

theorem StartTurn.workers_eq (h : StartTurn miner s s') :
    s'.workers = s.workers ∨ ∃ threadId, s.pc = .spawn threadId ∧
      s'.workers = s.workers ++ [{ pc := .loadRunning, nonce := BitVec.ofNat 64 threadId }] := by
  cases h with
  | spawn hpc => exact Or.inr ⟨_, hpc, rfl⟩
  | storeRunning | spawned | join | joined | loadHashes | loadBlocksFound | found | notFound
  | loadFoundNonce => exact Or.inl rfl

theorem StartTurn.mem_workers (h : StartTurn miner s s') (hw : w ∈ s.workers) :
    w ∈ s'.workers := by
  rcases h.workers_eq with hworkers | ⟨_, _, hworkers⟩
  · rwa [hworkers]
  · rw [hworkers]
    exact List.mem_append_left _ hw

theorem StartTurn.length_workers_le (h : StartTurn miner s s') :
    s.workers.length ≤ s'.workers.length := by
  rcases h.workers_eq with hworkers | ⟨_, _, hworkers⟩
  · rw [hworkers]
  · rw [hworkers, List.length_append]
    exact Nat.le_add_right _ _

theorem StartTurn.hashes_eq (h : StartTurn miner s s') : s'.hashes = s.hashes := by
  cases h <;> rfl

theorem StartTurn.foundNonce_eq (h : StartTurn miner s s') : s'.foundNonce = s.foundNonce := by
  cases h <;> rfl

theorem StartTurn.foundSolution_eq (h : StartTurn miner s s') :
    s'.foundSolution = s.foundSolution := by
  cases h <;> rfl

/-! ## The workers spawned so far -/

/-- The workers are spawned one by one, all of them before the first is joined. -/
def Mining.Spawned (miner : Miner) (s : Mining) : Prop :=
  match s.pc with
  | .storeRunning => s.workers = []
  | .spawn threadId => s.workers.length = threadId ∧ threadId ≤ miner.threads
  | _ => s.workers.length = miner.threads

theorem Mining.Spawned.length_le (h : s.Spawned miner) : s.workers.length ≤ miner.threads := by
  unfold Mining.Spawned at h
  split at h
  · rw [h]
    exact Nat.zero_le _
  · exact h.1.le.trans h.2
  · exact h.le

theorem Mining.Spawned.length_eq (h : s.Spawned miner) (hstore : s.pc ≠ .storeRunning)
    (hspawn : ∀ threadId, s.pc ≠ .spawn threadId) : s.workers.length = miner.threads := by
  unfold Mining.Spawned at h
  split at h
  · rename_i hpc
    exact absurd hpc hstore
  · rename_i hpc
    exact absurd hpc (hspawn _)
  · exact h

theorem StartTurn.spawned_of (hs : s.Spawned miner) (h : StartTurn miner s s') :
    s'.Spawned miner := by
  have hlength := hs.length_eq
  unfold Mining.Spawned at hs
  cases h with
  | storeRunning hpc =>
    rw [hpc] at hs
    exact ⟨by rw [hs, List.length_nil], Nat.zero_le _⟩
  | spawn hpc hlt =>
    rw [hpc] at hs
    refine ⟨?_, hlt⟩
    rw [List.length_append, hs.1, List.length_singleton]
  | spawned hpc hge =>
    rw [hpc] at hs
    exact hs.1.trans (hs.2.antisymm hge)
  | join hpc | joined hpc | loadHashes hpc | loadBlocksFound hpc | found hpc | notFound hpc
  | loadFoundNonce hpc =>
    exact hlength (by simp [hpc]) (by simp [hpc])

theorem MineEffect.spawned_of {action : MinerAction} (hs : s.Spawned miner)
    (h : MineEffect T miner header s action s') : s'.Spawned miner := by
  cases h with
  | start hturn => exact hturn.spawned_of hs
  | worker hw hturn =>
    unfold Mining.Spawned at hs ⊢
    rw [hturn.pc_eq]
    split at hs
    · rw [hs] at hw
      cases hw
    · rwa [hturn.length_workers]
    · rwa [hturn.length_workers]
  | stop => exact hs

end GhostConsensus
