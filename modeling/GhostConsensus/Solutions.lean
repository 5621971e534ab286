import GhostConsensus.Turns

/-!
# Solutions

The flag that announces a solution is stored before its nonce, and by several workers at once. Still
a nonce that `start` returns is a solution: it is read when no worker is left that has announced one
and not yet stored its nonce (`Mining.Safe`). So it passes the verifier of the pallet
(`mined_verifies`).
-/

namespace GhostConsensus

open MachineInt Transition

/-! ## What the threads have established -/

section Safe

variable {α H B : Type} (T : Config α H B) (miner : Miner) (header : MiningBlockHeader H)

/-- The nonce solves the header for the target the workers compare with. -/
def Solves (nonce : U64) : Prop := miningHash T header nonce ≤ miner.target header

/-- What a worker has established about its nonce. -/
def Worker.Safe (w : Worker) : Prop :=
  match w.pc with
  | .countHash hashValue => hashValue = miningHash T header w.nonce
  | .storeFoundSolution | .storeFoundNonce | .storeRunning => Solves T miner header w.nonce
  | _ => True

/-- A solution that is announced has its nonce stored, or about to be: the flag comes first. -/
def Mining.Published (s : Mining) : Prop :=
  s.foundSolution = true →
    Solves T miner header s.foundNonce ∨ ∃ w ∈ s.workers, w.pc = .storeFoundNonce

/-- What the calling thread has established: which workers have ended, and what it has read. -/
def Mining.Joined (s : Mining) : Prop :=
  match s.pc with
  | .join threadId => ∀ i < threadId, ∀ w, s.workers[i]? = some w → w.pc = .ended
  | .loadHashes | .loadBlocksFound _ | .loadFoundSolution _ => ∀ w ∈ s.workers, w.pc = .ended
  | .loadFoundNonce _ => (∀ w ∈ s.workers, w.pc = .ended) ∧ Solves T miner header s.foundNonce
  | .returned (some (nonce, _)) => Solves T miner header nonce
  | _ => True

structure Mining.Safe (s : Mining) : Prop where
  workers : ∀ w ∈ s.workers, w.Safe T miner header
  published : s.Published T miner header
  joined : s.Joined T miner header

theorem Mining.safe_called (running : Bool) (hashes : U64) :
    (Mining.called running hashes).Safe T miner header where
  workers w hw := by cases hw
  published h := by cases h
  joined := trivial

end Safe

section Step

variable {α H B : Type} {T : Config α H B} {miner : Miner} {header : MiningBlockHeader H}
  {s s' : Mining} {threadId : ℕ} {w w' : Worker}

theorem Mining.Published.of_eq (hs : s.Published T miner header)
    (hsolution : s'.foundSolution = s.foundSolution) (hnonce : s'.foundNonce = s.foundNonce)
    (hworkers : ∀ w ∈ s.workers, w.pc = .storeFoundNonce → w ∈ s'.workers) :
    s'.Published T miner header := by
  intro h
  rw [hsolution] at h
  rcases hs h with hsolves | ⟨w, hw, hpc⟩
  · left
    rwa [hnonce]
  · exact Or.inr ⟨w, hworkers w hw hpc, hpc⟩

/-- A worker that has not ended keeps the calling thread from getting past it. -/
theorem Mining.Joined.set (hs : s.Joined T miner header) (hw : s.workers[threadId]? = some w)
    (hrunning : w.pc ≠ .ended) (hpc : s'.pc = s.pc)
    (hworkers : s'.workers = s.workers.set threadId w') : s'.Joined T miner header := by
  have hmem := List.mem_of_getElem? hw
  unfold Mining.Joined at hs ⊢
  rw [hpc]
  split at hs
  · intro i hi v hv
    have hne : threadId ≠ i := by
      rintro rfl
      exact hrunning (hs _ hi w hw)
    rw [hworkers, List.getElem?_set_ne hne] at hv
    exact hs i hi v hv
  · exact absurd (hs w hmem) hrunning
  · exact absurd (hs w hmem) hrunning
  · exact absurd (hs w hmem) hrunning
  · exact absurd (hs.1 w hmem) hrunning
  · exact hs
  · trivial

/-- A step of a worker that has not ended keeps the state safe, when it keeps the worker safe and
leaves a nonce behind for an announced solution. -/
theorem Mining.Safe.set (hs : s.Safe T miner header) (hw : s.workers[threadId]? = some w)
    (hrunning : w.pc ≠ .ended) (hpc : s'.pc = s.pc)
    (hworkers : s'.workers = s.workers.set threadId w') (hsafe : w'.Safe T miner header)
    (hpublished : s'.Published T miner header) : s'.Safe T miner header where
  workers v hv := by
    rw [hworkers] at hv
    rcases List.mem_or_eq_of_mem_set hv with hv | rfl
    · exact hs.workers v hv
    · exact hsafe
  published := hpublished
  joined := hs.joined.set hw hrunning hpc hworkers

/-- The other workers are still there after the step of a worker. -/
theorem mem_set_of_ne {l : List Worker} {v : Worker} (hw : l[threadId]? = some w) (hv : v ∈ l)
    (hne : v ≠ w) : v ∈ l.set threadId w' := by
  obtain ⟨i, hi⟩ := List.mem_iff_getElem?.1 hv
  have hidx : threadId ≠ i := by
    rintro rfl
    exact hne (Option.some.inj (hi.symm.trans hw))
  rw [← List.getElem?_set_ne hidx] at hi
  exact List.mem_of_getElem? hi

theorem mem_set_self {l : List Worker} (hw : l[threadId]? = some w) : w' ∈ l.set threadId w' :=
  List.mem_set (List.getElem?_eq_some_iff.1 hw).1 w'

/-- A step that stores neither the flag nor a nonce. -/
theorem Mining.Safe.setQuietly (hs : s.Safe T miner header) (hw : s.workers[threadId]? = some w)
    (hrunning : w.pc ≠ .ended) (hnonce : w.pc ≠ .storeFoundNonce) (running : Bool) (hashes : U64)
    (hsafe : w'.Safe T miner header) :
    (({ s with running, hashes } : Mining).setWorker threadId w').Safe T miner header := by
  refine hs.set hw hrunning rfl rfl hsafe (hs.published.of_eq rfl rfl ?_)
  intro v hv hpc
  refine mem_set_of_ne hw hv ?_
  rintro rfl
  exact hnonce hpc

theorem WorkerTurn.safe_of (hs : s.Safe T miner header) (hw : s.workers[threadId]? = some w)
    (h : WorkerTurn T miner header s threadId w s') : s'.Safe T miner header := by
  have hsafe := hs.workers w (List.mem_of_getElem? hw)
  have hrunning := h.not_ended
  unfold Worker.Safe at hsafe
  cases h with
  | loadRunning hpc =>
    apply hs.setQuietly hw hrunning (by simp [hpc]) s.running s.hashes
    split <;> trivial
  | loadFoundSolution hpc =>
    apply hs.setQuietly hw hrunning (by simp [hpc]) s.running s.hashes
    split <;> trivial
  | hash hpc => exact hs.setQuietly hw hrunning (by simp [hpc]) s.running s.hashes rfl
  | countHash hpc =>
    apply hs.setQuietly hw hrunning (by simp [hpc]) s.running (s.hashes + 1)
    rw [hpc] at hsafe
    -- the comparison that establishes the solution
    split
    · rename_i hle
      rw [hsafe] at hle
      exact hle
    · trivial
  | storeFoundSolution hpc =>
    rw [hpc] at hsafe
    refine hs.set hw hrunning rfl rfl hsafe ?_
    exact fun _ => Or.inr ⟨_, mem_set_self hw, rfl⟩
  | storeFoundNonce hpc =>
    rw [hpc] at hsafe
    refine hs.set hw hrunning rfl rfl hsafe ?_
    exact fun _ => Or.inl hsafe
  | storeRunning hpc => exact hs.setQuietly hw hrunning (by simp [hpc]) false s.hashes trivial
  | advance hpc => exact hs.setQuietly hw hrunning (by simp [hpc]) s.running s.hashes trivial

/-- A new worker has established nothing. -/
theorem Mining.Safe.spawn (hs : s.Safe T miner header) (nonce : U64) :
    ({ s with workers := s.workers ++ [{ pc := .loadRunning, nonce }], pc := .spawn threadId } :
      Mining).Safe T miner header where
  workers v hv := by
    rcases List.mem_append.1 hv with hv | hv
    · exact hs.workers v hv
    · obtain rfl := List.mem_singleton.1 hv
      trivial
  published := hs.published.of_eq rfl rfl fun v hv _ => List.mem_append_left _ hv
  joined := trivial

/-- The calling thread gets past a worker that has ended. -/
theorem Mining.Safe.join (hs : s.Safe T miner header) (hpc : s.pc = .join threadId)
    (hw : s.workers[threadId]? = some w) (hended : w.pc = .ended) :
    ({ s with pc := .join (threadId + 1) } : Mining).Safe T miner header := by
  have hjoined := hs.joined
  unfold Mining.Joined at hjoined
  rw [hpc] at hjoined
  refine ⟨hs.workers, hs.published, fun i hi v hv => ?_⟩
  rcases Nat.lt_succ_iff_lt_or_eq.1 hi with hi | rfl
  · exact hjoined i hi v hv
  · exact Option.some.inj (hw.symm.trans hv) ▸ hended

/-- Past the last worker, all have ended. -/
theorem Mining.Safe.loadHashes (hs : s.Safe T miner header) (hpc : s.pc = .join threadId)
    (hnone : s.workers[threadId]? = none) :
    ({ s with pc := .loadHashes } : Mining).Safe T miner header := by
  have hjoined := hs.joined
  unfold Mining.Joined at hjoined
  rw [hpc] at hjoined
  refine ⟨hs.workers, hs.published, fun v hv => ?_⟩
  obtain ⟨i, hi⟩ := List.mem_iff_getElem?.1 hv
  have hlt := (List.getElem?_eq_some_iff.1 hi).1
  exact hjoined i (lt_of_lt_of_le hlt (List.getElem?_eq_none_iff.1 hnone)) v hi

/-- With no worker left to store its nonce, an announced solution has its nonce stored. -/
theorem Mining.Safe.found (hs : s.Safe T miner header) {stats : MiningStats}
    (hpc : s.pc = .loadFoundSolution stats) (hfound : s.foundSolution = true) :
    ({ s with pc := .loadFoundNonce stats } : Mining).Safe T miner header := by
  have hjoined := hs.joined
  unfold Mining.Joined at hjoined
  rw [hpc] at hjoined
  refine ⟨hs.workers, hs.published, hjoined, ?_⟩
  rcases hs.published hfound with hsolves | ⟨v, hv, hstore⟩
  · exact hsolves
  · rw [hjoined v hv] at hstore
    cases hstore

theorem StartTurn.safe_of (hs : s.Safe T miner header) (h : StartTurn miner s s') :
    s'.Safe T miner header := by
  have hjoined := hs.joined
  unfold Mining.Joined at hjoined
  cases h with
  | storeRunning | notFound => exact ⟨hs.workers, hs.published, trivial⟩
  | spawn => exact hs.spawn _
  | spawned => exact ⟨hs.workers, hs.published, fun i hi => absurd hi (Nat.not_lt_zero i)⟩
  | join hpc hw hended => exact hs.join hpc hw hended
  | joined hpc hnone => exact hs.loadHashes hpc hnone
  | loadHashes hpc | loadBlocksFound hpc =>
    rw [hpc] at hjoined
    exact ⟨hs.workers, hs.published, hjoined⟩
  | found hpc hfound => exact hs.found hpc hfound
  | loadFoundNonce hpc =>
    rw [hpc] at hjoined
    exact ⟨hs.workers, hs.published, hjoined.2⟩

theorem MineEffect.safe_of {action : MinerAction} (hs : s.Safe T miner header)
    (h : MineEffect T miner header s action s') : s'.Safe T miner header := by
  cases h with
  | start hturn => exact hturn.safe_of hs
  | worker hw hturn => exact hturn.safe_of hs hw
  | stop => exact ⟨hs.workers, hs.published, hs.joined⟩

end Step

/-! ## The nonce that is returned -/

theorem solves_iff {α H B : Type} {T : Config α H B} {miner : Miner} {header : MiningBlockHeader H}
    {nonce : U64} :
    Solves T miner header nonce ↔ miningHash T header nonce ≤ miner.targetDifficulty ∧
      miningHash T header nonce ≤ header.difficulty := by
  unfold Solves Miner.target
  simp only [BitVec.le_def, toNat_minimum, le_min_iff]

section Returned

variable {α H B : Type} {T : Config α H B} {miner : Miner} {header : MiningBlockHeader H}
  {s : Mining} {hist : List (Mining × MinerAction)}

/-- The miner hashes what the verifier hashes. -/
theorem verifyPowEnhanced_withNonce (nonce : U64) (validatorSignature : Option H)
    (pqcSignature : Option PqcSignature) (targetDifficulty : U64) :
    verifyPowEnhanced T (header.withNonce nonce validatorSignature pqcSignature) targetDifficulty =
      decide (miningHash T header nonce ≤ targetDifficulty) :=
  rfl

/-- However the threads are scheduled and whenever the miner is stopped, a nonce that `start`
returns passes the verifier of the pallet, for the header's difficulty and the miner's own. -/
theorem mined_verifies {running : Bool} {hashes : U64}
    (run : Run (mineStep T miner header) (Mining.called running hashes) hist s) {nonce : U64}
    {stats : MiningStats} (hreturned : s.pc = .returned (some (nonce, stats)))
    (validatorSignature : Option H) (pqcSignature : Option PqcSignature) :
    verifyPowEnhanced T (header.withNonce nonce validatorSignature pqcSignature)
        header.difficulty = true ∧
      verifyPowEnhanced T (header.withNonce nonce validatorSignature pqcSignature)
        miner.targetDifficulty = true := by
  have hsafe := run.invariant (Mining.safe_called T miner header running hashes)
    fun _ _ _ hs hstep => (mineStep_effect hstep).safe_of hs
  have hjoined := hsafe.joined
  unfold Mining.Joined at hjoined
  rw [hreturned] at hjoined
  obtain ⟨hown, hheader⟩ := solves_iff.1 hjoined
  rw [verifyPowEnhanced_withNonce, verifyPowEnhanced_withNonce]
  exact ⟨decide_eq_true hheader, decide_eq_true hown⟩

end Returned

theorem mined_verifies_devRace : ∃ hist s,
    Run (mineStep devMiningConfig devMiner devMiningHeader) (Mining.called false 0) hist s ∧
      s.pc = .returned (some (2, ⟨3, 1⟩)) ∧
      verifyPowEnhanced devMiningConfig (devMiningHeader.withNonce 2 none none) 6 = true ∧
      verifyPowEnhanced devMiningConfig (devMiningHeader.withNonce 2 none none) 7 = true := by
  obtain ⟨hist, s, run, hs⟩ := exists_run_of_exec (mineStep devMiningConfig devMiner devMiningHeader)
    (Mining.called false 0) devRace (fun r => decide (r.2.pc = .returned (some (2, ⟨3, 1⟩))))
    (by decide +kernel)
  have hreturned := of_decide_eq_true hs
  exact ⟨hist, s, run, hreturned, mined_verifies run hreturned none none⟩

end GhostConsensus
