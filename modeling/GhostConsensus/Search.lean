import Mathlib.Algebra.BigOperators.Group.Finset.Basic
import GhostConsensus.Lib.Threads
import GhostConsensus.Solutions

/-!
# What the miner has searched

Thread `i` of `n` tries the nonces `i`, `i + n`, `i + 2 * n`, … (`candidate`). `searched` reads off
the history of a schedule which nonces a thread has hashed. Whatever the schedule, that is an initial
segment of its candidates with a solution at most at the end, `hashes` counts the nonces of all
threads, and a returned nonce is the first solution among the candidates of its thread.
-/

namespace GhostConsensus

open MachineInt Transition

/-- The nonce that thread `threadId` tries after `k` others. -/
def candidate (miner : Miner) (threadId k : ℕ) : U64 :=
  BitVec.ofNat 64 (threadId + k * miner.threads)

/-- The first `k` nonces of thread `threadId`, newest first. -/
def candidates (miner : Miner) (threadId : ℕ) : ℕ → List U64
  | 0 => []
  | k + 1 => candidate miner threadId k :: candidates miner threadId k

/-- The worker has hashed its nonce, and is about to count the hash. -/
def Worker.counts (w : Worker) : Bool :=
  match w.pc with
  | .countHash _ => true
  | _ => false

/-- The nonce whose hash a step of thread `threadId` counts. -/
def countedNonce (threadId : ℕ) (e : Mining × MinerAction) : Option U64 :=
  match e.2 with
  | .worker i =>
    if i = threadId then (e.1.workers[i]?.filter Worker.counts).map Worker.nonce else none
  | _ => none

/-- The nonces thread `threadId` has hashed and counted, newest first. -/
def searched (hist : List (Mining × MinerAction)) (threadId : ℕ) : List U64 :=
  hist.filterMap (countedNonce threadId)

theorem candidate_succ (miner : Miner) (threadId k : ℕ) :
    candidate miner threadId k + BitVec.ofNat 64 miner.threads =
      candidate miner threadId (k + 1) := by
  unfold candidate
  rw [← BitVec.ofNat_add, Nat.add_assoc, ← Nat.succ_mul]

section Searched

variable {hist : List (Mining × MinerAction)} {s : Mining} {threadId : ℕ} {w : Worker}

theorem searched_worker_self (hw : s.workers[threadId]? = some w) :
    searched ((s, .worker threadId) :: hist) threadId =
      if w.counts = true then w.nonce :: searched hist threadId else searched hist threadId := by
  unfold searched
  rw [List.filterMap_cons]
  simp only [countedNonce, if_true, hw]
  by_cases hcounts : w.counts = true
  · rw [Option.filter_some_pos hcounts, if_pos hcounts]
    rfl
  · rw [Option.filter_some_neg (Bool.eq_false_iff.2 hcounts), if_neg hcounts]
    rfl

theorem searched_worker_of_ne {i : ℕ} (h : threadId ≠ i) :
    searched ((s, .worker threadId) :: hist) i = searched hist i := by
  unfold searched
  rw [List.filterMap_cons]
  simp only [countedNonce, if_neg h]

theorem length_searched_le (e : Mining × MinerAction) (i : ℕ) :
    (searched hist i).length ≤ (searched (e :: hist) i).length := by
  unfold searched
  rw [List.filterMap_cons]
  split
  · exact le_rfl
  · exact Nat.le_succ _

end Searched

/-! ## The workers -/

section Worker

variable {α H B : Type} (T : Config α H B) (miner : Miner) (header : MiningBlockHeader H)

/-- None of the first `k` nonces of thread `threadId` is a solution. -/
def NoneSolves (threadId k : ℕ) : Prop :=
  ∀ j < k, ¬Solves T miner header (candidate miner threadId j)

/-- Where a worker stands that has counted `k` hashes. -/
def Worker.Searched (threadId k : ℕ) (w : Worker) : Prop :=
  match w.pc with
  | .loadRunning | .loadFoundSolution | .hash | .countHash _ =>
    w.nonce = candidate miner threadId k ∧ NoneSolves T miner header threadId k
  | .storeFoundSolution | .storeFoundNonce | .storeRunning =>
    ∃ j, k = j + 1 ∧ w.nonce = candidate miner threadId j ∧ NoneSolves T miner header threadId j
  | .advance =>
    ∃ j, k = j + 1 ∧ w.nonce = candidate miner threadId j ∧ NoneSolves T miner header threadId k
  | .ended =>
    NoneSolves T miner header threadId k ∨ ∃ j, k = j + 1 ∧
      Solves T miner header (candidate miner threadId j) ∧ NoneSolves T miner header threadId j

end Worker

section Turn

variable {α H B : Type} {T : Config α H B} {miner : Miner} {header : MiningBlockHeader H}
  {s s' : Mining} {threadId k : ℕ} {w : Worker}

theorem NoneSolves.succ (h : NoneSolves T miner header threadId k)
    (hk : ¬Solves T miner header (candidate miner threadId k)) :
    NoneSolves T miner header threadId (k + 1) := by
  intro j hj
  rcases Nat.lt_succ_iff_lt_or_eq.1 hj with hj | rfl
  · exact h j hj
  · exact hk

/-- However a worker stands, all its nonces but the last failed. -/
theorem Worker.Searched.noneSolves (h : w.Searched T miner header threadId k) :
    NoneSolves T miner header threadId (k - 1) := by
  unfold Worker.Searched at h
  split at h
  iterate 4 exact fun j hj => h.2 j (by omega)
  iterate 3
    obtain ⟨j, rfl, -, hnone⟩ := h
    exact hnone
  · exact fun j hj => h.choose_spec.2.2 j (by omega)
  · rcases h with hnone | ⟨j, rfl, -, hnone⟩
    · exact fun j hj => hnone j (by omega)
    · exact hnone

/-- A worker that counts a hash counts the hash of its next candidate. -/
theorem Worker.Searched.nonce_eq (h : w.Searched T miner header threadId k)
    (hcounts : w.counts = true) : w.nonce = candidate miner threadId k := by
  unfold Worker.counts at hcounts
  unfold Worker.Searched at h
  split at hcounts
  · rename_i hpc
    rw [hpc] at h
    exact h.1
  · cases hcounts

/-- A turn of a worker keeps where it stands, with one more hash if it counts one. -/
theorem WorkerTurn.searched_of (hsafe : w.Safe T miner header)
    (hs : w.Searched T miner header threadId k) (h : WorkerTurn T miner header s threadId w s') :
    ∃ w', s'.workers = s.workers.set threadId w' ∧
      w'.Searched T miner header threadId (if w.counts = true then k + 1 else k) := by
  unfold Worker.Safe at hsafe
  unfold Worker.Searched at hs
  cases h with
  | loadRunning hpc =>
    rw [hpc] at hs
    refine ⟨_, rfl, ?_⟩
    rw [Worker.counts, hpc]
    cases s.running
    · exact Or.inl hs.2
    · exact hs
  | loadFoundSolution hpc =>
    rw [hpc] at hs
    refine ⟨_, rfl, ?_⟩
    rw [Worker.counts, hpc]
    cases s.foundSolution
    · exact hs
    · exact Or.inl hs.2
  | hash hpc =>
    rw [hpc] at hs
    refine ⟨_, rfl, ?_⟩
    rw [Worker.counts, hpc]
    exact hs
  | @countHash hashValue hpc =>
    rw [hpc] at hs hsafe
    refine ⟨_, rfl, ?_⟩
    rw [Worker.counts, hpc]
    -- the comparison decides whether the nonce just counted is a solution
    by_cases hle : hashValue ≤ miner.target header
    · rw [if_pos hle]
      exact ⟨k, rfl, hs⟩
    · rw [if_neg hle]
      refine ⟨k, rfl, hs.1, hs.2.succ ?_⟩
      rw [hsafe, hs.1] at hle
      exact hle
  | storeFoundSolution hpc =>
    rw [hpc] at hs
    refine ⟨_, rfl, ?_⟩
    rw [Worker.counts, hpc]
    exact hs
  | storeFoundNonce hpc =>
    rw [hpc] at hs
    refine ⟨_, rfl, ?_⟩
    rw [Worker.counts, hpc]
    exact hs
  | storeRunning hpc =>
    rw [hpc] at hs hsafe
    refine ⟨_, rfl, ?_⟩
    rw [Worker.counts, hpc]
    obtain ⟨j, hk, hnonce, hnone⟩ := hs
    exact Or.inr ⟨j, hk, hnonce ▸ hsafe, hnone⟩
  | advance hpc =>
    rw [hpc] at hs
    refine ⟨_, rfl, ?_⟩
    rw [Worker.counts, hpc]
    obtain ⟨j, rfl, hnonce, hnone⟩ := hs
    refine ⟨?_, hnone⟩
    rw [hnonce]
    exact candidate_succ miner threadId j

end Turn

/-! ## The calling thread -/

/-- The calling thread has joined every worker. -/
def StartPc.pastJoin : StartPc → Bool
  | .storeRunning | .spawn _ | .join _ => false
  | _ => true

/-- Once the calling thread has joined every worker, none of them moves. -/
def Mining.Quiet (s : Mining) : Prop :=
  s.pc.pastJoin = true → ∀ w ∈ s.workers, w.pc = .ended

section Quiet

variable {α H B : Type} {T : Config α H B} {miner : Miner} {header : MiningBlockHeader H}
  {s s' : Mining} {threadId : ℕ} {w : Worker}

theorem Mining.Quiet.pastJoin_eq_false (hs : s.Quiet) (hw : s.workers[threadId]? = some w)
    (h : WorkerTurn T miner header s threadId w s') : s.pc.pastJoin = false := by
  by_contra hpast
  exact h.not_ended (hs (Bool.eq_true_of_not_eq_false hpast) w (List.mem_of_getElem? hw))

theorem MineEffect.quiet_of {action : MinerAction} (hsafe : s.Safe T miner header) (hs : s.Quiet)
    (h : MineEffect T miner header s action s') : s'.Quiet := by
  cases h with
  | worker hw hturn =>
    intro hpast
    rw [hturn.pc_eq, hs.pastJoin_eq_false hw hturn] at hpast
    cases hpast
  | stop => exact hs
  | start hturn =>
    cases hturn with
    | storeRunning | spawn | spawned | join =>
      intro hpast
      cases hpast
    | joined hpc hnone => exact fun _ => (hsafe.loadHashes hpc hnone).joined
    | loadHashes hpc | loadBlocksFound hpc | found hpc | notFound hpc | loadFoundNonce hpc =>
      exact fun _ => hs (by rw [hpc]; rfl)

end Quiet

section Search

variable {α H B : Type} (T : Config α H B) (miner : Miner) (header : MiningBlockHeader H)

/-- The nonce is the first solution among those of its thread, which has hashed it. -/
def Winner (hist : List (Mining × MinerAction)) (nonce : U64) : Prop :=
  ∃ threadId < miner.threads, ∃ k < (searched hist threadId).length,
    nonce = candidate miner threadId k ∧ Solves T miner header nonce ∧
      NoneSolves T miner header threadId k

/-- An announced solution is that of a winner, or about to be. -/
def Mining.Won (hist : List (Mining × MinerAction)) (s : Mining) : Prop :=
  s.foundSolution = true →
    Winner T miner header hist s.foundNonce ∨ ∃ w ∈ s.workers, w.pc = .storeFoundNonce

/-- What the calling thread has read is what the workers have left. -/
def Mining.Read (hist : List (Mining × MinerAction)) (s : Mining) : Prop :=
  match s.pc with
  | .loadBlocksFound hashesComputed => hashesComputed = s.hashes
  | .loadFoundSolution stats =>
    stats.hashesComputed = s.hashes ∧ stats.blocksFound = if s.foundSolution then 1 else 0
  | .loadFoundNonce stats =>
    stats.hashesComputed = s.hashes ∧ stats.blocksFound = 1 ∧ s.foundSolution = true
  | .returned (some (nonce, stats)) =>
    stats.hashesComputed = s.hashes ∧ stats.blocksFound = 1 ∧ Winner T miner header hist nonce
  | _ => True

/-- The state of a search that began when `hashes` was the count of earlier calls. -/
structure SearchState (hashes : U64) (hist : List (Mining × MinerAction)) (s : Mining) : Prop where
  safe : s.Safe T miner header
  spawned : s.Spawned miner
  quiet : s.Quiet
  worker : ∀ i w, s.workers[i]? = some w →
    searched hist i = candidates miner i (searched hist i).length ∧
      w.Searched T miner header i (searched hist i).length
  unspawned : ∀ i, s.workers.length ≤ i → searched hist i = []
  hashes_eq : s.hashes =
    hashes + BitVec.ofNat 64 (∑ i ∈ Finset.range miner.threads, (searched hist i).length)
  won : s.Won T miner header hist
  read : s.Read T miner header hist

end Search

section Search

variable {α H B : Type} {T : Config α H B} {miner : Miner} {header : MiningBlockHeader H}
  {s s' : Mining} {hist : List (Mining × MinerAction)} {threadId : ℕ} {w : Worker} {hashes : U64}

theorem Winner.cons {nonce : U64} (h : Winner T miner header hist nonce)
    (e : Mining × MinerAction) : Winner T miner header (e :: hist) nonce := by
  obtain ⟨i, hi, k, hk, hwinner⟩ := h
  exact ⟨i, hi, k, hk.trans_le (length_searched_le e i), hwinner⟩

theorem searchState_called (running : Bool) :
    SearchState T miner header hashes [] (Mining.called running hashes) where
  safe := Mining.safe_called T miner header running hashes
  spawned := rfl
  quiet h := by cases h
  worker i w hw := by cases hw
  unspawned i _ := rfl
  hashes_eq := by simp [searched, Mining.called]
  won h := by cases h
  read := trivial

/-- A worker that is about to store its nonce still is after a turn of another one. -/
theorem WorkerTurn.pending (hw : s.workers[threadId]? = some w)
    (h : WorkerTurn T miner header s threadId w s') (hne : w.pc ≠ .storeFoundNonce)
    (hpending : ∃ v ∈ s.workers, v.pc = .storeFoundNonce) :
    ∃ v ∈ s'.workers, v.pc = .storeFoundNonce := by
  obtain ⟨v, hv, hpc⟩ := hpending
  obtain ⟨w', hworkers⟩ := h.exists_set
  refine ⟨v, ?_, hpc⟩
  rw [hworkers]
  refine mem_set_of_ne hw hv ?_
  rintro rfl
  exact hne hpc

theorem SearchState.lt_threads (hs : SearchState T miner header hashes hist s)
    (hw : s.workers[threadId]? = some w) : threadId < miner.threads :=
  (List.getElem?_eq_some_iff.1 hw).1.trans_le hs.spawned.length_le

/-- The nonce a worker is about to store is that of a winner. -/
theorem SearchState.winner (hs : SearchState T miner header hashes hist s)
    (hw : s.workers[threadId]? = some w) (hpc : w.pc = .storeFoundNonce) :
    Winner T miner header hist w.nonce := by
  have hsearched := (hs.worker threadId w hw).2
  have hsafe := hs.safe.workers w (List.mem_of_getElem? hw)
  unfold Worker.Searched at hsearched
  unfold Worker.Safe at hsafe
  rw [hpc] at hsearched hsafe
  obtain ⟨j, hlength, hnonce, hnone⟩ := hsearched
  exact ⟨threadId, hs.lt_threads hw, j, by omega, hnonce, hsafe, hnone⟩

theorem SearchState.won_worker (hs : SearchState T miner header hashes hist s)
    (hw : s.workers[threadId]? = some w) (h : WorkerTurn T miner header s threadId w s') :
    s'.Won T miner header ((s, .worker threadId) :: hist) := by
  have hkept (hne : w.pc ≠ .storeFoundNonce) (hsolution : s'.foundSolution = s.foundSolution)
      (hnonce : s'.foundNonce = s.foundNonce) :
      s'.Won T miner header ((s, .worker threadId) :: hist) := by
    intro hfound
    rw [hsolution] at hfound
    rw [hnonce]
    rcases hs.won hfound with hwinner | hpending
    · exact Or.inl (hwinner.cons _)
    · exact Or.inr (h.pending hw hne hpending)
  cases h with
  | loadRunning hpc | loadFoundSolution hpc | hash hpc | countHash hpc | storeRunning hpc
  | advance hpc => exact hkept (by simp [hpc]) rfl rfl
  | storeFoundSolution hpc => exact fun _ => Or.inr ⟨_, mem_set_self hw, rfl⟩
  | storeFoundNonce hpc => exact fun _ => Or.inl ((hs.winner hw hpc).cons _)

theorem WorkerTurn.hashes_eq (h : WorkerTurn T miner header s threadId w s') :
    s'.hashes = if w.counts = true then s.hashes + 1 else s.hashes := by
  unfold Worker.counts
  cases h with
  | countHash hpc =>
    rw [hpc]
    rfl
  | loadRunning hpc | loadFoundSolution hpc | hash hpc | storeFoundSolution hpc
  | storeFoundNonce hpc | storeRunning hpc | advance hpc =>
    rw [hpc]
    rfl

/-- The counter of the hashes counts every nonce that was hashed. -/
theorem SearchState.hashes_worker (hs : SearchState T miner header hashes hist s)
    (hw : s.workers[threadId]? = some w) (h : WorkerTurn T miner header s threadId w s') :
    s'.hashes = hashes + BitVec.ofNat 64 (∑ i ∈ Finset.range miner.threads,
      (searched ((s, .worker threadId) :: hist) i).length) := by
  have hmem : threadId ∈ Finset.range miner.threads := Finset.mem_range.2 (hs.lt_threads hw)
  have hself : searched ((s, .worker threadId) :: hist) threadId =
      if w.counts = true then w.nonce :: searched hist threadId else searched hist threadId :=
    searched_worker_self hw
  have hothers : ∀ i ∈ (Finset.range miner.threads).erase threadId,
      (searched ((s, .worker threadId) :: hist) i).length = (searched hist i).length := by
    intro i hi
    rw [searched_worker_of_ne (Finset.ne_of_mem_erase hi).symm]
  rw [← Finset.add_sum_erase _ _ hmem, Finset.sum_congr rfl hothers, hself]
  have hsum := hs.hashes_eq
  rw [← Finset.add_sum_erase _ _ hmem] at hsum
  rw [h.hashes_eq]
  by_cases hcounts : w.counts = true
  · rw [if_pos hcounts, if_pos hcounts, List.length_cons, Nat.add_right_comm, BitVec.ofNat_add,
      ← BitVec.add_assoc, ← hsum]
    rfl
  · rw [if_neg hcounts, if_neg hcounts, hsum]

theorem SearchState.worker_turn (hs : SearchState T miner header hashes hist s)
    (hw : s.workers[threadId]? = some w) (h : WorkerTurn T miner header s threadId w s') :
    ∀ i v, s'.workers[i]? = some v →
      searched ((s, .worker threadId) :: hist) i =
          candidates miner i (searched ((s, .worker threadId) :: hist) i).length ∧
        v.Searched T miner header i (searched ((s, .worker threadId) :: hist) i).length := by
  obtain ⟨hcandidates, hsearched⟩ := hs.worker threadId w hw
  have hsafe := hs.safe.workers w (List.mem_of_getElem? hw)
  obtain ⟨w', hworkers, hmoved⟩ := h.searched_of hsafe hsearched
  rw [hworkers]
  apply forall_getElem?_set
  · intro i v hne hv
    rw [searched_worker_of_ne hne.symm]
    exact hs.worker i v hv
  · rw [searched_worker_self hw]
    by_cases hcounts : w.counts = true
    · rw [if_pos hcounts] at hmoved ⊢
      rw [List.length_cons]
      refine ⟨?_, hmoved⟩
      rw [candidates, ← hcandidates, hsearched.nonce_eq hcounts]
    · rw [if_neg hcounts] at hmoved ⊢
      exact ⟨hcandidates, hmoved⟩

/-- A new worker begins with the first candidate of its thread. -/
theorem SearchState.worker_start (hs : SearchState T miner header hashes hist s)
    (h : StartTurn miner s s') :
    ∀ i v, s'.workers[i]? = some v →
      searched hist i = candidates miner i (searched hist i).length ∧
        v.Searched T miner header i (searched hist i).length := by
  rcases h.workers_eq with hworkers | ⟨threadId, hpc, hworkers⟩
  · rw [hworkers]
    exact hs.worker
  · rw [hworkers]
    apply forall_getElem?_concat hs.worker
    have hlength : s.workers.length = threadId := by
      have hspawned := hs.spawned
      unfold Mining.Spawned at hspawned
      rw [hpc] at hspawned
      exact hspawned.1
    rw [hs.unspawned _ le_rfl, hlength]
    refine ⟨rfl, ?_, fun j hj => absurd hj (Nat.not_lt_zero j)⟩
    rw [candidate, List.length_nil, Nat.zero_mul, Nat.add_zero]

theorem SearchState.unspawned_step {action : MinerAction}
    (hs : SearchState T miner header hashes hist s) (h : MineEffect T miner header s action s') :
    ∀ i, s'.workers.length ≤ i → searched ((s, action) :: hist) i = [] := by
  intro i hi
  cases h with
  | start hturn =>
    exact hs.unspawned i (hturn.length_workers_le.trans hi)
  | worker hw hturn =>
    rw [hturn.length_workers] at hi
    have hlt := (List.getElem?_eq_some_iff.1 hw).1
    rw [searched_worker_of_ne (hlt.trans_le hi).ne]
    exact hs.unspawned i hi
  | stop => exact hs.unspawned i hi

theorem SearchState.read_start (hs : SearchState T miner header hashes hist s)
    (h : StartTurn miner s s') : s'.Read T miner header ((s, .start) :: hist) := by
  have hread := hs.read
  unfold Mining.Read at hread
  cases h with
  | storeRunning | spawn | spawned | join | joined | notFound => trivial
  | loadHashes hpc => rfl
  | loadBlocksFound hpc =>
    rw [hpc] at hread
    exact ⟨hread, rfl⟩
  | found hpc hfound =>
    rw [hpc] at hread
    rw [if_pos hfound] at hread
    exact ⟨hread.1, hread.2, hfound⟩
  | loadFoundNonce hpc =>
    rw [hpc] at hread
    refine ⟨hread.1, hread.2.1, ?_⟩
    -- no worker is left to store another nonce
    rcases hs.won hread.2.2 with hwinner | ⟨v, hv, hstore⟩
    · exact hwinner.cons _
    · rw [hs.quiet (by rw [hpc]; rfl) v hv] at hstore
      cases hstore

theorem Mining.read_of_pastJoin_eq_false (h : s.pc.pastJoin = false) :
    s.Read T miner header hist := by
  unfold Mining.Read
  split
  case h_5 => trivial
  all_goals
    rename_i hpc
    rw [hpc] at h
    cases h

theorem Mining.Read.cons (hs : s.Read T miner header hist) (e : Mining × MinerAction) :
    s.Read T miner header (e :: hist) := by
  unfold Mining.Read at hs ⊢
  cases hpc : s.pc with
  | returned result =>
    rw [hpc] at hs
    cases result with
    | none => trivial
    | some r => exact ⟨hs.1, hs.2.1, hs.2.2.cons e⟩
  | storeRunning | spawn | join | loadHashes | loadBlocksFound | loadFoundSolution
  | loadFoundNonce =>
    rw [hpc] at hs
    exact hs

theorem searchState_step {action : MinerAction} (hs : SearchState T miner header hashes hist s)
    (hstep : mineStep T miner header s action = some s') :
    SearchState T miner header hashes ((s, action) :: hist) s' := by
  have heffect := mineStep_effect hstep
  refine ⟨heffect.safe_of hs.safe, heffect.spawned_of hs.spawned,
    heffect.quiet_of hs.safe hs.quiet, ?_, hs.unspawned_step heffect, ?_, ?_, ?_⟩
  case refine_1 =>
    cases heffect with
    | start hturn => exact hs.worker_start hturn
    | worker hw hturn => exact hs.worker_turn hw hturn
    | stop => exact hs.worker
  case refine_2 =>
    cases heffect with
    | start hturn =>
      rw [hturn.hashes_eq]
      exact hs.hashes_eq
    | worker hw hturn => exact hs.hashes_worker hw hturn
    | stop => exact hs.hashes_eq
  case refine_3 =>
    cases heffect with
    | start hturn =>
      intro hfound
      rw [hturn.foundSolution_eq] at hfound
      rw [hturn.foundNonce_eq]
      rcases hs.won hfound with hwinner | ⟨v, hv, hpc⟩
      · exact Or.inl (hwinner.cons _)
      · exact Or.inr ⟨v, hturn.mem_workers hv, hpc⟩
    | worker hw hturn => exact hs.won_worker hw hturn
    | stop => exact fun hfound => (hs.won hfound).imp_left fun hwinner => hwinner.cons _
  case refine_4 =>
    cases heffect with
    | start hturn => exact hs.read_start hturn
    | worker hw hturn =>
      apply Mining.read_of_pastJoin_eq_false
      rw [hturn.pc_eq]
      exact hs.quiet.pastJoin_eq_false hw hturn
    | stop => exact hs.read.cons _

theorem run_searchState {running : Bool}
    (run : Run (mineStep T miner header) (Mining.called running hashes) hist s) :
    SearchState T miner header hashes hist s :=
  run.history_invariant (C := fun _ _ => True) (searchState_called running) (fun _ _ => trivial)
    fun _ _ _ _ _ ht _ hstep => searchState_step ht hstep

/-- What a thread has hashed is an initial segment of its candidates. -/
theorem SearchState.searched_eq (hs : SearchState T miner header hashes hist s) (i : ℕ) :
    searched hist i = candidates miner i (searched hist i).length := by
  cases hw : s.workers[i]? with
  | some w => exact (hs.worker i w hw).1
  | none =>
    rw [hs.unspawned i (List.getElem?_eq_none_iff.1 hw)]
    rfl

theorem SearchState.noneSolves (hs : SearchState T miner header hashes hist s) (i : ℕ) :
    NoneSolves T miner header i ((searched hist i).length - 1) := by
  cases hw : s.workers[i]? with
  | some w => exact (hs.worker i w hw).2.noneSolves
  | none =>
    rw [hs.unspawned i (List.getElem?_eq_none_iff.1 hw)]
    exact fun j hj => absurd hj (Nat.not_lt_zero j)

/-- The candidates a winner has hashed end with its solution. -/
theorem SearchState.length_searched (hs : SearchState T miner header hashes hist s) {k : ℕ}
    (hk : k < (searched hist threadId).length)
    (hsolves : Solves T miner header (candidate miner threadId k)) :
    (searched hist threadId).length = k + 1 := by
  by_contra hne
  exact hs.noneSolves threadId k (by omega) hsolves

/-- What `start` has read when it returns a nonce. -/
theorem SearchState.returned (hs : SearchState T miner header hashes hist s) {nonce : U64}
    {stats : MiningStats} (hreturned : s.pc = .returned (some (nonce, stats))) :
    Winner T miner header hist nonce ∧ stats.blocksFound = 1 ∧ stats.hashesComputed =
      hashes + BitVec.ofNat 64 (∑ i ∈ Finset.range miner.threads, (searched hist i).length) := by
  have hread := hs.read
  unfold Mining.Read at hread
  rw [hreturned] at hread
  exact ⟨hread.2.2, hread.2.1, hread.1.trans hs.hashes_eq⟩

/-- However the threads are scheduled and whenever the miner is stopped: when `start` returns a
nonce, every thread has hashed an initial segment of its candidates, without a solution before its
end; the nonce is the solution at the end of one of them; and `hashes_computed` is the count of the
earlier calls plus the number of all these hashes. -/
theorem mined_searched {running : Bool}
    (run : Run (mineStep T miner header) (Mining.called running hashes) hist s) {nonce : U64}
    {stats : MiningStats} (hreturned : s.pc = .returned (some (nonce, stats))) :
    (∀ i, searched hist i = candidates miner i (searched hist i).length ∧
      NoneSolves T miner header i ((searched hist i).length - 1)) ∧
    (∃ i < miner.threads, ∃ k, (searched hist i).length = k + 1 ∧ nonce = candidate miner i k ∧
      Solves T miner header nonce) ∧
    stats.blocksFound = 1 ∧
    stats.hashesComputed =
      hashes + BitVec.ofNat 64 (∑ i ∈ Finset.range miner.threads, (searched hist i).length) := by
  have hs := run_searchState run
  obtain ⟨⟨i, hi, k, hk, rfl, hsolves, -⟩, hblocks, hhashes⟩ := hs.returned hreturned
  refine ⟨fun j => ⟨hs.searched_eq j, hs.noneSolves j⟩, ?_, hblocks, hhashes⟩
  exact ⟨i, hi, k, hs.length_searched hk hsolves, rfl, hsolves⟩

end Search

theorem mined_searched_devRace : ∃ hist s,
    Run (mineStep devMiningConfig devMiner devMiningHeader) (Mining.called false 0) hist s ∧
      s.pc = .returned (some (2, ⟨3, 1⟩)) ∧
      (∃ i < 2, ∃ k, (searched hist i).length = k + 1 ∧ 2 = candidate devMiner i k ∧
        Solves devMiningConfig devMiner devMiningHeader 2) ∧
      (3 : U64) = 0 + BitVec.ofNat 64 (∑ i ∈ Finset.range 2, (searched hist i).length) := by
  obtain ⟨hist, s, run, hs⟩ := exists_run_of_exec (mineStep devMiningConfig devMiner devMiningHeader)
    (Mining.called false 0) devRace (fun r => decide (r.2.pc = .returned (some (2, ⟨3, 1⟩))))
    (by decide +kernel)
  have hreturned := of_decide_eq_true hs
  have hsearched := mined_searched run hreturned
  exact ⟨hist, s, run, hreturned, hsearched.2.1, hsearched.2.2.2⟩

/-! ## No nonce is tried twice -/

section Nodup

variable {miner : Miner} {i i' k k' : ℕ}

theorem candidate_inj (hi : i < miner.threads) (hi' : i' < miner.threads)
    (hk : i + k * miner.threads < 2 ^ 64) (hk' : i' + k' * miner.threads < 2 ^ 64)
    (h : candidate miner i k = candidate miner i' k') : i = i' ∧ k = k' := by
  have hsum : i + k * miner.threads = i' + k' * miner.threads := by
    have := congrArg BitVec.toNat h
    unfold candidate at this
    rwa [toNat_ofNat_of_lt hk, toNat_ofNat_of_lt hk'] at this
  have hmod := congrArg (· % miner.threads) hsum
  simp only [Nat.add_mul_mod_self_right, Nat.mod_eq_of_lt hi, Nat.mod_eq_of_lt hi'] at hmod
  subst hmod
  have hpos : 0 < miner.threads := Nat.zero_lt_of_lt hi
  exact ⟨rfl, Nat.eq_of_mul_eq_mul_right hpos (Nat.add_left_cancel hsum)⟩

theorem mem_candidates {nonce : U64} :
    nonce ∈ candidates miner i k ↔ ∃ j < k, nonce = candidate miner i j := by
  induction k with
  | zero => simp [candidates]
  | succ k ih =>
    rw [candidates, List.mem_cons, ih]
    constructor
    · rintro (rfl | ⟨j, hj, rfl⟩)
      · exact ⟨k, Nat.lt_succ_self k, rfl⟩
      · exact ⟨j, hj.trans (Nat.lt_succ_self k), rfl⟩
    · rintro ⟨j, hj, rfl⟩
      rcases Nat.lt_succ_iff_lt_or_eq.1 hj with hj | rfl
      · exact Or.inr ⟨j, hj, rfl⟩
      · exact Or.inl rfl

/-- A thread that has not gone once round the nonces stays below the end of them. -/
theorem span_lt (hi : i < miner.threads) (hk : k * miner.threads ≤ 2 ^ 64) {j : ℕ} (hj : j < k) :
    i + j * miner.threads < 2 ^ 64 := by
  have hle : (j + 1) * miner.threads ≤ k * miner.threads := Nat.mul_le_mul_right _ hj
  rw [Nat.succ_mul] at hle
  omega

theorem nodup_candidates (hi : i < miner.threads) (hk : k * miner.threads ≤ 2 ^ 64) :
    (candidates miner i k).Nodup := by
  induction k with
  | zero => exact List.nodup_nil
  | succ k ih =>
    refine List.nodup_cons.2 ⟨?_, ih ((Nat.mul_le_mul_right _ (Nat.le_succ k)).trans hk)⟩
    intro hmem
    obtain ⟨j, hj, heq⟩ := mem_candidates.1 hmem
    have hlast := span_lt hi hk (Nat.lt_succ_self k)
    have hfirst := span_lt hi hk (hj.trans (Nat.lt_succ_self k))
    exact hj.ne (candidate_inj hi hi hlast hfirst heq).2.symm

theorem disjoint_candidates (hi : i < miner.threads) (hi' : i' < miner.threads) (hne : i ≠ i')
    (hk : k * miner.threads ≤ 2 ^ 64) (hk' : k' * miner.threads ≤ 2 ^ 64) :
    (candidates miner i k).Disjoint (candidates miner i' k') := by
  intro nonce hmem hmem'
  obtain ⟨j, hj, rfl⟩ := mem_candidates.1 hmem
  obtain ⟨j', hj', heq⟩ := mem_candidates.1 hmem'
  exact hne (candidate_inj hi hi' (span_lt hi hk hj) (span_lt hi' hk' hj') heq).1

end Nodup

/-- In no schedule do the threads try a nonce twice, by one thread or by two, before a thread has
gone once round the 64-bit nonces. -/
theorem searched_nodup {α H B : Type} {T : Config α H B} {miner : Miner}
    {header : MiningBlockHeader H} {running : Bool} {hashes : U64} {s : Mining}
    {hist : List (Mining × MinerAction)}
    (run : Run (mineStep T miner header) (Mining.called running hashes) hist s)
    (hspan : ∀ i < miner.threads, (searched hist i).length * miner.threads ≤ 2 ^ 64) :
    ((List.range miner.threads).flatMap (searched hist)).Nodup := by
  have hs := run_searchState run
  rw [List.nodup_flatMap]
  constructor
  · intro i hi
    have hi := List.mem_range.1 hi
    rw [hs.searched_eq i]
    exact nodup_candidates hi (hspan i hi)
  · apply List.nodup_range.imp_of_mem
    intro i i' hi hi' hne
    have hi := List.mem_range.1 hi
    have hi' := List.mem_range.1 hi'
    rw [Function.onFun, hs.searched_eq i, hs.searched_eq i']
    exact disjoint_candidates hi hi' hne (hspan i hi) (hspan i' hi')

theorem searched_nodup_devRace : ∃ hist s,
    Run (mineStep devMiningConfig devMiner devMiningHeader) (Mining.called false 0) hist s ∧
      searched hist 0 = [2, 0] ∧ searched hist 1 = [1] ∧
      ((List.range 2).flatMap (searched hist)).Nodup := by
  obtain ⟨hist, s, run, hs⟩ := exists_run_of_exec (mineStep devMiningConfig devMiner devMiningHeader)
    (Mining.called false 0) devRace
    (fun r => decide (searched r.1 0 = [2, 0] ∧ searched r.1 1 = [1])) (by decide +kernel)
  obtain ⟨h0, h1⟩ := of_decide_eq_true hs
  refine ⟨hist, s, run, h0, h1, searched_nodup run ?_⟩
  intro i hi
  have hcases : i = 0 ∨ i = 1 := by
    have : devMiner.threads = 2 := rfl
    omega
  rcases hcases with rfl | rfl
  · rw [h0]
    decide
  · rw [h1]
    decide

end GhostConsensus
