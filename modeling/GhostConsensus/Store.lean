import GhostConsensus.Runtime

/-!
# The block store

The headers and the producers of the blocks stay in step: a header is stored under its own number,
above its parent, and together with its producer. This keeps the addition of `validate_block_header`
within 32 bits and leaves some errors of the calls without an occasion.
-/

namespace GhostConsensus

open Transition MachineInt

variable {α H B : Type} [AccountId α]

/-- The representation invariant of `BlockHeaders` and `BlockProducers`. -/
structure BlockStore (s : State α H B) : Prop where
  numbered : ∀ n header, s.blockHeaders n = some header → header.number = n
  closed : ∀ n, n ≠ 0 → (s.blockHeaders n).isSome = true → (s.blockHeaders (n - 1)).isSome = true
  producers : ∀ n, (s.blockProducers n).isSome = true ↔ n ≠ 0 ∧ (s.blockHeaders n).isSome = true

variable [DecidableEq H] {T : Config α H B}

/-- The number of the parent that `submit_block` reads never overflows and is always the number
before, and `validate_block` always finds the miner of a stored block above number `0`. -/
structure CallsInSequence (T : Config α H B) (s : State α H B) : Prop where
  addition : ∀ (header parent : GhostBlockHeader H), 0 < header.number →
    s.blockHeaders (header.number - 1) = some parent →
      parent.number.toNat + 1 < 2 ^ 32 ∧ header.number = parent.number + 1
  sequence : ∀ origin header, submitBlock T s origin header ≠ .error .panic ∧
    (0 < header.number →
      submitBlock T s origin header ≠ .error (.dispatch (.module .invalidBlockNumber)))
  miner : ∀ n, n ≠ 0 → (s.blockHeaders n).isSome = true →
    ∃ miner, getMinerForBlock s n = .ok miner

omit [DecidableEq H] in
theorem blockStore_start {s : State α H B} {header₀ : GhostBlockHeader H}
    (stored : s.blockHeaders = StorageMap.empty.insert 0 header₀) (number : header₀.number = 0)
    (noProducers : s.blockProducers = .empty) : BlockStore s := by
  refine ⟨fun n header hheader => ?_, fun n hn hsome => ?_, fun n => ?_⟩
  · rw [stored, StorageMap.insert_eq_some] at hheader
    rcases hheader with ⟨rfl, rfl⟩ | ⟨-, hnone⟩
    · exact number
    · cases hnone
  · rw [stored, StorageMap.isSome_insert] at hsome
    rcases hsome with hzero | hnone
    · exact absurd hzero hn
    · cases hnone
  · rw [stored, noProducers, StorageMap.isSome_insert]
    simp [StorageMap.empty]

theorem BlockStore.step {s s' : State α H B} {a : Action α H} (hs : BlockStore s)
    (h : step T s a = some s') : BlockStore s' := by
  cases step_chain h with
  | @accepted miner header parent _ _ _ haccepts =>
    have hpos : header.number ≠ 0 := by
      have := haccepts.positive
      bv_omega
    refine ⟨fun n hd hheader => ?_, fun n hn hsome => ?_, fun n => ?_⟩
    · rw [acceptBlock_blockHeaders, StorageMap.insert_eq_some] at hheader
      rcases hheader with ⟨rfl, rfl⟩ | ⟨-, hstored⟩
      · rfl
      · exact hs.numbered n hd hstored
    · rw [acceptBlock_blockHeaders, StorageMap.isSome_insert] at hsome ⊢
      right
      rcases hsome with rfl | hsome
      · rw [haccepts.parent_stored]
        rfl
      · exact hs.closed n hn hsome
    · rw [acceptBlock_blockHeaders, acceptBlock_blockProducers, StorageMap.isSome_insert,
        StorageMap.isSome_insert, hs.producers]
      constructor
      · rintro (rfl | ⟨hn, hsome⟩)
        · exact ⟨hpos, Or.inl rfl⟩
        · exact ⟨hn, Or.inr hsome⟩
      · rintro ⟨hn, hsome⟩
        exact hsome.imp_right fun hsome => ⟨hn, hsome⟩
  | @closed _ _ _ _ header _ _ _ _ _ _ hcloses =>
    refine ⟨fun n hd hheader => ?_, fun n hn hstored => ?_, fun n => ?_⟩
    · rw [closedState_blockHeaders, StorageMap.insert_eq_some] at hheader
      rcases hheader with ⟨rfl, rfl⟩ | ⟨-, hstored⟩
      · exact hs.numbered n header hcloses.header_stored
      · exact hs.numbered n hd hstored
    · rw [hcloses.isSome_blockHeaders] at hstored ⊢
      exact hs.closed n hn hstored
    · rw [hcloses.isSome_blockHeaders, closedState_blockProducers, hs.producers]
  | reopened => exact ⟨hs.1, hs.2, hs.3⟩
  | unchanged _ _ _ hsame =>
    refine ⟨?_, ?_, ?_⟩
    · rw [hsame.blockHeaders]
      exact hs.numbered
    · rw [hsame.blockHeaders]
      exact hs.closed
    · rw [hsame.blockHeaders, hsame.blockProducers]
      exact hs.producers

omit [DecidableEq H] in
theorem BlockStore.parent_number {s : State α H B} (hs : BlockStore s)
    {header parent : GhostBlockHeader H} (hpos : 0 < header.number)
    (hparent : s.blockHeaders (header.number - 1) = some parent) :
    parent.number.toNat + 1 < 2 ^ 32 ∧ header.number = parent.number + 1 := by
  have hnumber := hs.numbered _ _ hparent
  rw [hnumber]
  constructor <;> bv_omega

omit [AccountId α] in
/-- A header above its parent gets past the check of its number. -/
theorem validateBlockHeader_error {expectedDifficulty : U64} {header parent : GhostBlockHeader H}
    {e : Failure} (hnumber : parent.number.toNat + 1 < 2 ^ 32 ∧ header.number = parent.number + 1)
    (h : validateBlockHeader T expectedDifficulty header parent = .error e) :
    e ≠ .panic ∧ e ≠ .dispatch (.module .invalidBlockNumber) := by
  have hadd : addChecked T.overflowChecks parent.number 1 = some header.number :=
    hnumber.2 ▸ addChecked_of_lt _ hnumber.1
  simp only [validateBlockHeader, bind_eq_error, orPanic_eq_error, ensure_eq_error, hadd,
    orPanic_eq_ok, ensure_eq_ok, Option.some.injEq] at h
  rcases h with ⟨hnone, -⟩ | ⟨_, rfl, ⟨hne, -⟩ | ⟨_, -, h⟩⟩
  · cases hnone
  · exact absurd rfl hne
  · rcases h with ⟨-, rfl⟩ | ⟨_, -, ⟨-, rfl⟩ | ⟨_, -, ⟨-, rfl⟩ | ⟨_, -, -, rfl⟩⟩⟩ <;>
      exact ⟨by simp, by simp⟩

theorem BlockStore.callsInSequence {s : State α H B} (hs : BlockStore s) : CallsInSequence T s where
  addition := fun _ _ hpos hparent => hs.parent_number hpos hparent
  sequence := by
    intro origin header
    have herror : ∀ e, submitBlock T s origin header = .error e → e ≠ .panic ∧
        (0 < header.number → e ≠ .dispatch (.module .invalidBlockNumber)) := by
      intro e h
      simp only [submitBlock, bind_eq_error, ensureSigned_eq_error, ensure_eq_error, ensure_eq_ok,
        okOr_eq_error, okOr_eq_ok] at h
      rcases h with ⟨-, rfl⟩ | ⟨_, -, ⟨-, rfl⟩ | ⟨_, -, ⟨hzero, rfl⟩ | ⟨_, hpos, h⟩⟩⟩
      · exact ⟨by simp, by simp⟩
      · exact ⟨by simp, by simp⟩
      · exact ⟨by simp, fun hpos => absurd hpos hzero⟩
      · have hone : (1 : U32).toNat ≤ header.number.toNat := BitVec.lt_def.1 hpos
        rw [subChecked_of_le true hone] at h
        simp only [reduceCtorEq, false_and, Option.some.injEq, false_or] at h
        obtain ⟨_, rfl, ⟨-, rfl⟩ | ⟨parent, hparent, h⟩⟩ := h
        · exact ⟨by simp, by simp⟩
        · rcases h with h | ⟨_, -, h⟩
          · have hvalid := validateBlockHeader_error (hs.parent_number hpos hparent) h
            exact ⟨hvalid.1, fun _ => hvalid.2⟩
          · exact absurd h pure_ne_error
    exact ⟨fun h => (herror _ h).1 rfl, fun hpos h => (herror _ h).2 hpos rfl⟩
  miner := by
    intro n hn hsome
    obtain ⟨miner, hminer⟩ := Option.isSome_iff_exists.1 ((hs.producers n).2 ⟨hn, hsome⟩)
    exact ⟨miner, okOr_eq_ok.2 hminer⟩

/-- In every run from a header at number `0` the block store keeps its invariant, and the calls
their sequence. -/
theorem run_blockStore {s₀ s : State α H B} {h : List (Record α H B)} {header₀ : GhostBlockHeader H}
    (run : Run (step T) s₀ h s) (stored : s₀.blockHeaders = StorageMap.empty.insert 0 header₀)
    (number : header₀.number = 0) (noProducers : s₀.blockProducers = .empty) :
    BlockStore s ∧ CallsInSequence T s := by
  have hs : BlockStore s := run.invariant (I := BlockStore)
    (blockStore_start stored number noProducers) fun _ _ _ ht hstep => ht.step hstep
  exact ⟨hs, hs.callsInSequence⟩

theorem run_blockStore_devRound :
    ∃ h s, Run (step devConfig) devState h s ∧ s.blockHeaders 2 = some devNextBlock ∧
      BlockStore s ∧ CallsInSequence devConfig s := by
  obtain ⟨h, s, run, hcheck⟩ := exists_run_of_exec (step devConfig) devState
    (devRound ++ [.dispatch (.signed 2) (.submitBlock devNextBlock)])
    (fun r => decide (r.2.blockHeaders 2 = some devNextBlock)) (by decide +kernel)
  exact ⟨h, s, run, of_decide_eq_true hcheck, run_blockStore run rfl rfl rfl⟩

end GhostConsensus
