import GhostConsensus.Search
import GhostConsensus.System

/-!
# Sequential mining, and submitting what was mined

`GhostMiningWorker::mine_block` of `consensus.rs` tries the nonces one after another. It returns the
least valid one below a million, and the miner of the node with one thread returns the same. What
either of them returns, `submit_block` never rejects for its proof of work.
-/

namespace GhostConsensus

open MachineInt Transition

structure GhostMiningWorker where
  difficulty : U64

section Loop

variable {α H B : Type} (T : Config α H B) (worker : GhostMiningWorker)
  (blockHeader : GhostBlockHeader H)

/-- `verify_pow_enhanced` for the header with a nonce. -/
def testNonce (nonce : U64) : Bool :=
  verifyPowEnhanced T { blockHeader with nonce } worker.difficulty

/-- The loop of `mine_block`, with `attempts` iterations left. -/
def mineLoop : ℕ → U64 → Except Failure (Option U64)
  | 0, _ => .ok none
  | attempts + 1, nonce =>
    if testNonce T worker blockHeader nonce = true then .ok (some nonce)
    else do
      let nonce ← orPanic (addChecked T.overflowChecks nonce 1)
      mineLoop attempts nonce

/-- Mine a block with the given parameters. -/
def mineBlock : Except Failure (Option U64) :=
  mineLoop T worker blockHeader 1000000 0

end Loop

/-! ## The sequential search -/

section Loop

variable {α H B : Type} {T : Config α H B} {worker : GhostMiningWorker}
  {blockHeader : GhostBlockHeader H}

/-- No nonce from `first` up to `last` passes. -/
def NonePasses (T : Config α H B) (worker : GhostMiningWorker) (blockHeader : GhostBlockHeader H)
    (first last : ℕ) : Prop :=
  ∀ m : U64, first ≤ m.toNat → m.toNat < last → testNonce T worker blockHeader m = false

/-- The loop goes through, and finds the first nonce that passes, if there is one in its range. -/
theorem mineLoop_spec {attempts : ℕ} {nonce : U64} (hfit : nonce.toNat + attempts < 2 ^ 64) :
    mineLoop T worker blockHeader attempts nonce = .ok none ∧
        NonePasses T worker blockHeader nonce.toNat (nonce.toNat + attempts) ∨
      ∃ n : U64, mineLoop T worker blockHeader attempts nonce = .ok (some n) ∧
        n.toNat < nonce.toNat + attempts ∧ testNonce T worker blockHeader n = true ∧
        NonePasses T worker blockHeader nonce.toNat n.toNat := by
  induction attempts generalizing nonce with
  | zero =>
    left
    exact ⟨rfl, fun m hfirst hlast => absurd hlast (not_lt.2 hfirst)⟩
  | succ attempts ih =>
    rw [mineLoop]
    by_cases hpass : testNonce T worker blockHeader nonce = true
    · rw [if_pos hpass]
      right
      refine ⟨nonce, rfl, by omega, hpass, ?_⟩
      exact fun m hfirst hlast => absurd hlast (not_lt.2 hfirst)
    · rw [if_neg hpass]
      have hone : (1 : U64).toNat = 1 := rfl
      have hnext : (nonce + 1).toNat = nonce.toNat + 1 := toNat_add_of_lt (by omega)
      have hadd := addChecked_of_lt T.overflowChecks (a := nonce) (b := 1) (by omega)
      -- the first nonce fails, the others are those of the rest of the loop
      have hextend {last : ℕ} (h : NonePasses T worker blockHeader (nonce + 1).toNat last) :
          NonePasses T worker blockHeader nonce.toNat last := by
        intro m hfirst hlast
        rcases hfirst.eq_or_lt with heq | hlt
        · rw [← BitVec.eq_of_toNat_eq heq]
          exact Bool.eq_false_iff.2 hpass
        · exact h m (by omega) hlast
      rw [hadd]
      have hfit' : (nonce + 1).toNat + attempts < 2 ^ 64 := by omega
      rcases ih hfit' with ⟨hnone, hfails⟩ | ⟨n, hsome, hlt, hn, hfails⟩
      · left
        refine ⟨hnone, hextend ?_⟩
        rwa [show nonce.toNat + (attempts + 1) = (nonce + 1).toNat + attempts by omega]
      · right
        exact ⟨n, hsome, by omega, hn, hextend hfails⟩

/-- What `mine_block` is for: the least nonce below 1,000,000 that passes, if there is one. -/
def IsLeastNonce (T : Config α H B) (worker : GhostMiningWorker)
    (blockHeader : GhostBlockHeader H) : Option U64 → Prop
  | some nonce => nonce.toNat < 1000000 ∧ testNonce T worker blockHeader nonce = true ∧
      NonePasses T worker blockHeader 0 nonce.toNat
  | none => NonePasses T worker blockHeader 0 1000000

theorem IsLeastNonce.unique {r r' : Option U64} (h : IsLeastNonce T worker blockHeader r)
    (h' : IsLeastNonce T worker blockHeader r') : r = r' := by
  have hpasses {n : U64} {last : ℕ} (hn : testNonce T worker blockHeader n = true)
      (hfails : NonePasses T worker blockHeader 0 last) : last ≤ n.toNat := by
    by_contra hlt
    rw [hfails n (Nat.zero_le _) (not_le.1 hlt)] at hn
    cases hn
  cases r with
  | none =>
    cases r' with
    | none => rfl
    | some n' => exact absurd (hpasses h'.2.1 h) (not_le.2 h'.1)
  | some n =>
    cases r' with
    | none => exact absurd (hpasses h.2.1 h') (not_le.2 h.1)
    | some n' =>
      have hle := hpasses h'.2.1 h.2.2
      have hge := hpasses h.2.1 h'.2.2
      rw [BitVec.eq_of_toNat_eq (hle.antisymm hge)]

/-- `mine_block` never overflows its nonce, and returns the least nonce below 1,000,000 that passes,
or `None` when none does. -/
theorem mineBlock_eq_ok {result : Option U64} :
    mineBlock T worker blockHeader = .ok result ↔ IsLeastNonce T worker blockHeader result := by
  have hfit : (0 : U64).toNat + 1000000 < 2 ^ 64 := by decide
  have hspec : ∃ r, mineBlock T worker blockHeader = .ok r ∧
      IsLeastNonce T worker blockHeader r := by
    unfold mineBlock
    rcases mineLoop_spec hfit with ⟨hnone, hfails⟩ | ⟨n, hsome, hlt, hn, hfails⟩
    · exact ⟨none, hnone, hfails⟩
    · exact ⟨some n, hsome, hlt, hn, hfails⟩
  obtain ⟨r, hr, hleast⟩ := hspec
  rw [hr]
  constructor
  · intro h
    obtain rfl := Except.ok.inj h
    exact hleast
  · intro h
    rw [hleast.unique h]

end Loop

/-! ## One thread -/

section Agree

variable {α H B : Type} {T : Config α H B} {miner : Miner} {header : MiningBlockHeader H}
  {hashes : U64} {s : Mining} {hist : List (Mining × MinerAction)}

/-- The worker with the target of the miner tests a nonce as the miner does. -/
theorem testNonce_eq_true {nonce₀ nonce : U64} {validatorSignature : Option H}
    {pqcSignature : Option PqcSignature} :
    testNonce T ⟨miner.target header⟩ (header.withNonce nonce₀ validatorSignature pqcSignature)
      nonce = true ↔ Solves T miner header nonce :=
  decide_eq_true_iff

/-- A thread that has gone once round the nonces has met all its nonces before. -/
theorem lt_of_noneSolves {threadId k : ℕ} (hnone : NoneSolves T miner header threadId k)
    (hsolves : Solves T miner header (candidate miner threadId k)) : k < 2 ^ 64 := by
  by_contra hge
  refine hnone (k - 2 ^ 64) (by omega) ?_
  have hcandidate : candidate miner threadId (k - 2 ^ 64) = candidate miner threadId k := by
    unfold candidate
    apply BitVec.eq_of_toNat_eq
    rw [BitVec.toNat_ofNat, BitVec.toNat_ofNat]
    obtain ⟨j, rfl⟩ := Nat.exists_eq_add_of_le (not_lt.1 hge)
    have hround : threadId + (2 ^ 64 + j) * miner.threads =
        threadId + j * miner.threads + 2 ^ 64 * miner.threads := by ring
    rw [Nat.add_sub_cancel_left, hround, Nat.add_mul_mod_self_left]
  rwa [hcandidate]

/-- A nonce that `start` returns is a solution, and with one thread the least one. -/
theorem mined_least {running : Bool}
    (run : Run (mineStep T miner header) (Mining.called running hashes) hist s) {nonce : U64}
    {stats : MiningStats} (hreturned : s.pc = .returned (some (nonce, stats))) :
    Solves T miner header nonce ∧ (miner.threads = 1 →
      (searched hist 0).length = nonce.toNat + 1 ∧
        ∀ m : U64, m.toNat < nonce.toNat → ¬Solves T miner header m) := by
  have hs := run_searchState run
  obtain ⟨⟨i, hi, k, hk, rfl, hsolves, hnone⟩, -⟩ := hs.returned hreturned
  refine ⟨hsolves, fun hone => ?_⟩
  obtain rfl : i = 0 := by omega
  have hnonce (j : ℕ) : candidate miner 0 j = BitVec.ofNat 64 j := by
    rw [candidate, hone, Nat.zero_add, Nat.mul_one]
  have hlt := lt_of_noneSolves hnone hsolves
  rw [hs.length_searched hk hsolves, hnonce k, toNat_ofNat_of_lt hlt]
  refine ⟨rfl, fun m hm hsolves => hnone m.toNat hm ?_⟩
  rwa [hnonce, BitVec.ofNat_toNat, BitVec.setWidth_eq]

/-- The miner of the node against `mine_block` with the same target: whatever the threads and their
schedule, `start` returns no nonce below the one `mine_block` finds; with one thread it returns that
very nonce, or one that `mine_block` gives up before, and has counted the nonces up to it. -/
theorem mined_mineBlock {running : Bool}
    (run : Run (mineStep T miner header) (Mining.called running hashes) hist s) {nonce : U64}
    {stats : MiningStats} (hreturned : s.pc = .returned (some (nonce, stats))) (nonce₀ : U64)
    (validatorSignature : Option H) (pqcSignature : Option PqcSignature) :
    (∀ n, mineBlock T ⟨miner.target header⟩
        (header.withNonce nonce₀ validatorSignature pqcSignature) = .ok (some n) →
      n.toNat ≤ nonce.toNat) ∧
    (miner.threads = 1 →
      mineBlock T ⟨miner.target header⟩
          (header.withNonce nonce₀ validatorSignature pqcSignature) =
        .ok (if nonce.toNat < 1000000 then some nonce else none) ∧
      stats.hashesComputed = hashes + (nonce + 1)) := by
  obtain ⟨hsolves, hone⟩ := mined_least run hreturned
  have hpasses {m : U64} : testNonce T ⟨miner.target header⟩
      (header.withNonce nonce₀ validatorSignature pqcSignature) m = true ↔
        Solves T miner header m := testNonce_eq_true
  constructor
  · intro n hn
    by_contra hlt
    have hfails := (mineBlock_eq_ok.1 hn).2.2 nonce (Nat.zero_le _) (not_le.1 hlt)
    rw [hpasses.2 hsolves] at hfails
    cases hfails
  · intro hthreads
    obtain ⟨hlength, hleast⟩ := hone hthreads
    have hfails : NonePasses T ⟨miner.target header⟩
        (header.withNonce nonce₀ validatorSignature pqcSignature) 0 nonce.toNat :=
      fun m _ hm => Bool.eq_false_iff.2 fun hpass => hleast m hm (hpasses.1 hpass)
    constructor
    · apply mineBlock_eq_ok.2
      split
      · rename_i hlt
        exact ⟨hlt, hpasses.2 hsolves, hfails⟩
      · rename_i hge
        exact fun m hfirst hm => hfails m hfirst (hm.trans_le (not_lt.1 hge))
    · obtain ⟨-, -, hhashes⟩ := (run_searchState run).returned hreturned
      rw [hhashes, hthreads, Finset.sum_range_one, hlength, BitVec.ofNat_add, BitVec.ofNat_toNat,
        BitVec.setWidth_eq]
      rfl

end Agree

/-- The same miner with one thread. -/
def devSingleMiner : Miner := { devMiner with threads := 1 }

theorem mined_mineBlock_devSingleMiner : ∃ hist s,
    Run (mineStep devMiningConfig devSingleMiner devMiningHeader) (Mining.called true 5) hist s ∧
      s.pc = .returned (some (1, ⟨7, 1⟩)) ∧
      mineBlock devMiningConfig ⟨6⟩ (devMiningHeader.withNonce 0 none none) = .ok (some 1) ∧
      (7 : U64) = 5 + (1 + 1) := by
  obtain ⟨hist, s, run, hs⟩ :=
    exists_run_of_exec (mineStep devMiningConfig devSingleMiner devMiningHeader)
      (Mining.called true 5)
      [List.replicate 3 .start, List.replicate 12 (.worker 0), List.replicate 6 .start].flatten
      (fun r => decide (r.2.pc = .returned (some (1, ⟨7, 1⟩)))) (by decide +kernel)
  have hreturned := of_decide_eq_true hs
  have hagree := (mined_mineBlock run hreturned 0 none none).2 rfl
  exact ⟨hist, s, run, hreturned, hagree.1, hagree.2⟩

/-! ## Submitting what was mined -/

section Submit

variable {α H B : Type} [AccountId α] [DecidableEq H] {T : Config α H B} {miner : Miner}
  {header : MiningBlockHeader H} {running : Bool} {hashes : U64} {s : Mining}
  {hist : List (Mining × MinerAction)}

omit [AccountId α] in
/-- The proof of work is what fails only where it is not one. -/
theorem validateBlockHeader_eq_invalidPow {expectedDifficulty : U64}
    {blockHeader parent : GhostBlockHeader H}
    (h : validateBlockHeader T expectedDifficulty blockHeader parent =
      .error (.dispatch (.module .invalidPow))) :
    ¬verifyPowEnhanced T blockHeader blockHeader.difficulty = true := by
  simp only [validateBlockHeader, bind_eq_error, orPanic_eq_error, ensure_eq_error,
    ensure_eq_ok] at h
  rcases h with ⟨-, h⟩ | ⟨_, -, ⟨-, h⟩ | ⟨_, -, ⟨-, h⟩ | ⟨_, -, ⟨hpow, -⟩ | ⟨_, -, ⟨-, h⟩ |
    ⟨_, -, -, h⟩⟩⟩⟩⟩
  · cases h
  · cases h
  · cases h
  · exact hpow
  · cases h
  · cases h

theorem submitBlock_eq_invalidPow {t : State α H B} {origin : Origin α}
    {blockHeader : GhostBlockHeader H}
    (h : submitBlock T t origin blockHeader = .error (.dispatch (.module .invalidPow))) :
    ¬verifyPowEnhanced T blockHeader blockHeader.difficulty = true := by
  simp only [submitBlock, bind_eq_error, ensureSigned_eq_error, ensure_eq_error, okOr_eq_error] at h
  rcases h with ⟨-, h⟩ | ⟨_, -, ⟨-, h⟩ | ⟨_, -, ⟨-, h⟩ | ⟨_, -, ⟨-, h⟩ | ⟨_, -, ⟨-, h⟩ |
    ⟨_, -, h | ⟨_, -, h⟩⟩⟩⟩⟩⟩
  · cases h
  · cases h
  · cases h
  · cases h
  · cases h
  · exact validateBlockHeader_eq_invalidPow h
  · exact absurd h pure_ne_error

/-- What `start` returns for a header is accepted by the pallet in every state in which the phase,
the number, the parent hash and the difficulty of the header are right: the proof of work is never
what fails. -/
theorem submitBlock_mined
    (run : Run (mineStep T miner header) (Mining.called running hashes) hist s) {nonce : U64}
    {stats : MiningStats} (hreturned : s.pc = .returned (some (nonce, stats)))
    (validatorSignature : Option H) (pqcSignature : Option PqcSignature) (t : State α H B)
    (who : α) :
    submitBlock T t (.signed who) (header.withNonce nonce validatorSignature pqcSignature) ≠
        .error (.dispatch (.module .invalidPow)) ∧
      ((∃ t', submitBlock T t (.signed who)
          (header.withNonce nonce validatorSignature pqcSignature) = .ok t') ↔
        t.currentPhase = .powMining ∧ 0 < header.number ∧
          ∃ parent, t.blockHeaders (header.number - 1) = some parent ∧
            addChecked T.overflowChecks parent.number 1 = some header.number ∧
            header.parentHash = T.hashOf (.header parent) ∧
            t.difficulty / 2 ≤ header.difficulty ∧
            header.difficulty ≤ saturatingMul t.difficulty 2) := by
  have hsolves := (mined_least run hreturned).1
  have hpow : verifyPowEnhanced T (header.withNonce nonce validatorSignature pqcSignature)
      header.difficulty = true :=
    decide_eq_true (solves_iff.1 hsolves).2
  constructor
  · exact fun h => submitBlock_eq_invalidPow h hpow
  · simp only [submitBlock_eq_ok]
    constructor
    · rintro ⟨_, _, parent, -, haccepts, -⟩
      obtain ⟨hnumber, hhash, -, hlow, hhigh⟩ := validateBlockHeader_eq_ok.1 haccepts.valid
      exact ⟨haccepts.phase, haccepts.positive, parent, haccepts.parent_stored, hnumber, hhash,
        hlow, hhigh⟩
    · rintro ⟨hphase, hpositive, parent, hparent, hnumber, hhash, hlow, hhigh⟩
      have hvalid := validateBlockHeader_eq_ok.2 ⟨hnumber, hhash, hpow, hlow, hhigh⟩
      exact ⟨_, who, parent, rfl, ⟨hphase, hpositive, hparent, hvalid⟩, rfl⟩

end Submit

/-- A header to mine on top of the one at number `0`. -/
def devMiningChild : MiningBlockHeader (List ℕ) :=
  { devMiningHeader with parentHash := spell (.header devHeader) }

theorem submitBlock_mined_devRace : ∃ hist s,
    Run (mineStep devMiningConfig devMiner devMiningChild) (Mining.called false 0) hist s ∧
      s.pc = .returned (some (2, ⟨3, 1⟩)) ∧
      ∃ t', submitBlock devMiningConfig { devState with difficulty := 6 } (.signed 2)
        (devMiningChild.withNonce 2 none none) = .ok t' := by
  obtain ⟨hist, s, run, hs⟩ := exists_run_of_exec (mineStep devMiningConfig devMiner devMiningChild)
    (Mining.called false 0) devRace (fun r => decide (r.2.pc = .returned (some (2, ⟨3, 1⟩))))
    (by decide +kernel)
  have hreturned := of_decide_eq_true hs
  refine ⟨hist, s, run, hreturned, ?_⟩
  exact (submitBlock_mined run hreturned none none { devState with difficulty := 6 } 2).2.2
    ⟨rfl, by decide, devHeader, rfl, by decide, rfl, by decide, by decide⟩

end GhostConsensus
