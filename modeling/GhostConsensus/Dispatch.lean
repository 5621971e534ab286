import GhostConsensus.Pallet

/-!
# What the dispatchables do

For every function of the pallet that can fail, the exact conditions under which it succeeds and
the state it returns then. Later proofs use these equivalences and never unfold the functions.
-/

namespace GhostConsensus

open MachineInt

/-! ## The failure monad -/

section Failure

variable {σ τ : Type}

theorem bind_eq_ok {x : Except Failure σ} {f : σ → Except Failure τ} {r : τ} :
    (x >>= f) = .ok r ↔ ∃ a, x = .ok a ∧ f a = .ok r := by
  cases x with
  | error e => simp [bind, Except.bind]
  | ok a => simp [bind, Except.bind]

theorem pure_eq_ok {a b : σ} : (pure a : Except Failure σ) = .ok b ↔ a = b := by
  simp [pure, Except.pure]

theorem orPanic_eq_ok {x : Option σ} {a : σ} : orPanic x = .ok a ↔ x = some a := by
  cases x <;> simp [orPanic]

theorem okOr_eq_ok {x : Option σ} {e : Error} {a : σ} : okOr x e = .ok a ↔ x = some a := by
  cases x <;> simp [okOr]

theorem ensure_eq_ok {c : Prop} [Decidable c] {e : Error} {u : Unit} : ensure c e = .ok u ↔ c := by
  by_cases h : c <;> simp [ensure, h]

theorem ensureSigned_eq_ok {o : Origin σ} {who : σ} :
    ensureSigned o = .ok who ↔ o = .signed who := by
  cases o <;> simp [ensureSigned]

theorem mapError_eq_ok {x : Except DispatchError σ} {a : σ} :
    x.mapError Failure.dispatch = .ok a ↔ x = .ok a := by
  cases x <;> simp [Except.mapError]

theorem bind_eq_error {x : Except Failure σ} {f : σ → Except Failure τ} {e : Failure} :
    (x >>= f) = .error e ↔ x = .error e ∨ ∃ a, x = .ok a ∧ f a = .error e := by
  cases x with
  | error e' => simp [bind, Except.bind]
  | ok a => simp [bind, Except.bind]

theorem pure_ne_error {a : σ} {e : Failure} : (pure a : Except Failure σ) ≠ .error e := by
  simp [pure, Except.pure]

theorem orPanic_eq_error {x : Option σ} {e : Failure} :
    orPanic x = .error e ↔ x = none ∧ e = .panic := by
  cases x <;> simp [orPanic, eq_comm]

theorem okOr_eq_error {x : Option σ} {error : Error} {e : Failure} :
    okOr x error = .error e ↔ x = none ∧ e = .dispatch (.module error) := by
  cases x <;> simp [okOr, eq_comm]

theorem ensure_eq_error {c : Prop} [Decidable c] {error : Error} {e : Failure} :
    ensure c error = .error e ↔ ¬c ∧ e = .dispatch (.module error) := by
  by_cases h : c <;> simp [ensure, h, eq_comm]

theorem ensureSigned_eq_error {o : Origin σ} {e : Failure} :
    ensureSigned o = .error e ↔ (∀ who, o ≠ .signed who) ∧ e = .dispatch .badOrigin := by
  cases o <;> simp [ensureSigned, eq_comm]

/-- A loop whose body goes through under an invariant, and keeps it, goes through. -/
theorem exists_foldlM_eq_ok {I : σ → Prop} {f : σ → τ → Except Failure σ} :
    ∀ {l : List τ} {s : σ}, I s → (∀ t, ∀ x ∈ l, I t → ∃ t', f t x = .ok t' ∧ I t') →
      ∃ s', l.foldlM f s = .ok s' ∧ I s'
  | [], s, hs, _ => ⟨s, rfl, hs⟩
  | x :: l, s, hs, hbody => by
      obtain ⟨t, ht, hIt⟩ := hbody s x List.mem_cons_self hs
      obtain ⟨s', hs', hIs'⟩ := exists_foldlM_eq_ok hIt fun t y hy =>
        hbody t y (List.mem_cons_of_mem _ hy)
      exact ⟨s', by rw [List.foldlM_cons]; exact bind_eq_ok.2 ⟨t, ht, hs'⟩, hIs'⟩

/-- A loop whose body goes through wherever another one does, with the same result, does so as a
whole. -/
theorem foldlM_eq_ok_of_imp {f g : σ → τ → Except Failure σ}
    (h : ∀ {s x s'}, f s x = .ok s' → g s x = .ok s') {l : List τ} {s s' : σ}
    (hf : l.foldlM f s = .ok s') : l.foldlM g s = .ok s' := by
  induction l generalizing s with
  | nil => exact hf
  | cons x l ih =>
    rw [List.foldlM_cons] at hf ⊢
    obtain ⟨t, ht, hrest⟩ := bind_eq_ok.1 hf
    exact bind_eq_ok.2 ⟨t, h ht, ih hrest⟩

end Failure

variable {α H B : Type} [AccountId α] {T : Config α H B}

/-! ## Dispatchables -/

omit [AccountId α] in
theorem validateBlockHeader_eq_ok [DecidableEq H] {expectedDifficulty : U64}
    {header parent : GhostBlockHeader H} :
    validateBlockHeader T expectedDifficulty header parent = .ok () ↔
      addChecked T.overflowChecks parent.number 1 = some header.number ∧
        header.parentHash = T.hashOf (.header parent) ∧
        verifyPowEnhanced T header header.difficulty = true ∧
        expectedDifficulty / 2 ≤ header.difficulty ∧
        header.difficulty ≤ saturatingMul expectedDifficulty 2 := by
  simp only [validateBlockHeader, bind_eq_ok, orPanic_eq_ok, ensure_eq_ok]
  constructor
  · rintro ⟨next, hnext, _, rfl, _, hhash, _, hpow, _, hlow, hhigh⟩
    exact ⟨hnext, hhash, hpow, hlow, hhigh⟩
  · rintro ⟨hnext, hhash, hpow, hlow, hhigh⟩
    exact ⟨_, hnext, (), rfl, (), hhash, (), hpow, (), hlow, hhigh⟩

/-- The guards of `submit_block` let `header` pass, on top of `parent`. -/
structure Accepts [DecidableEq H] (T : Config α H B) (s : State α H B)
    (header parent : GhostBlockHeader H) : Prop where
  phase : s.currentPhase = .powMining
  positive : 0 < header.number
  parent_stored : s.blockHeaders (header.number - 1) = some parent
  valid : validateBlockHeader T s.difficulty header parent = .ok ()

instance [DecidableEq H] (T : Config α H B) (s : State α H B) (header parent : GhostBlockHeader H) :
    Decidable (Accepts T s header parent) :=
  decidable_of_iff (s.currentPhase = .powMining ∧ 0 < header.number ∧
      s.blockHeaders (header.number - 1) = some parent ∧
      validateBlockHeader T s.difficulty header parent = .ok ())
    ⟨fun h => ⟨h.1, h.2.1, h.2.2.1, h.2.2.2⟩, fun h => ⟨h.1, h.2, h.3, h.4⟩⟩

/-- The guards of `submit_block` let `header` pass. -/
def Acceptable [DecidableEq H] (T : Config α H B) (s : State α H B) (header : GhostBlockHeader H) :
    Prop :=
  ∃ parent ∈ s.blockHeaders (header.number - 1), Accepts T s header parent

instance [DecidableEq H] (T : Config α H B) (s : State α H B) (header : GhostBlockHeader H) :
    Decidable (Acceptable T s header) :=
  inferInstanceAs (Decidable (∃ parent ∈ _, Accepts T s header parent))

section AcceptBlock

variable (s : State α H B) (miner : α) (header : GhostBlockHeader H)

@[simp]
theorem acceptBlock_blockHeaders :
    (acceptBlock s miner header).blockHeaders = s.blockHeaders.insert header.number header := rfl

@[simp]
theorem acceptBlock_blockProducers :
    (acceptBlock s miner header).blockProducers = s.blockProducers.insert header.number miner := rfl

@[simp]
theorem acceptBlock_lastActiveBlock :
    (acceptBlock s miner header).lastActiveBlock = s.lastActiveBlock.insert miner header.number :=
  rfl

theorem acceptBlock_recentBlockProducers :
    (acceptBlock s miner header).recentBlockProducers.toList =
      s.recentBlockProducers.makeRoom.toList ++ [miner] :=
  BoundedVec.toList_tryPush_of_lt s.recentBlockProducers.length_makeRoom_lt miner

end AcceptBlock

theorem submitBlock_eq_ok [DecidableEq H] {s s' : State α H B} {o : Origin α}
    {header : GhostBlockHeader H} :
    submitBlock T s o header = .ok s' ↔
      ∃ miner parent, o = .signed miner ∧ Accepts T s header parent ∧
        s' = acceptBlock s miner header := by
  simp only [submitBlock, bind_eq_ok, ensureSigned_eq_ok, ensure_eq_ok, okOr_eq_ok, pure_eq_ok]
  constructor
  · rintro ⟨miner, ho, _, hphase, _, hpos, n, hn, parent, hparent, _, hvalid, hs'⟩
    rw [subChecked_eq_some hn] at hparent
    exact ⟨miner, parent, ho, ⟨hphase, hpos, hparent, hvalid⟩, hs'.symm⟩
  · rintro ⟨miner, parent, ho, ⟨hphase, hpos, hparent, hvalid⟩, hs'⟩
    have hone : (1 : U32).toNat ≤ header.number.toNat := BitVec.lt_def.1 hpos
    exact ⟨miner, ho, (), hphase, (), hpos, _, subChecked_of_le true hone, parent, hparent, (),
      hvalid, hs'.symm⟩

/-- The state in which `who` has `stake` at stake, after a transfer that led to `balances`. -/
def State.withStake (s : State α H B) (balances : B) (who : α) (stake : U128) : State α H B :=
  { s with balances, validatorStakes := s.validatorStakes.insert who stake }

theorem stake_eq_ok {s s' : State α H B} {o : Origin α} {amount : U128} :
    stake T s o amount = .ok s' ↔
      ∃ staker balances, o = .signed staker ∧ T.minStake ≤ amount ∧
        T.currency.transfer s.balances staker T.accountId amount .keepAlive = .ok balances ∧
        addChecked T.overflowChecks (s.stakeOf staker) amount = some (s.stakeOf staker + amount) ∧
        s' = s.withStake balances staker (s.stakeOf staker + amount) := by
  simp only [stake, bind_eq_ok, ensureSigned_eq_ok, ensure_eq_ok, mapError_eq_ok, orPanic_eq_ok,
    pure_eq_ok]
  constructor
  · rintro ⟨staker, ho, _, hmin, balances, htransfer, newStake, hnew, hs'⟩
    obtain rfl := addChecked_eq_some hnew
    exact ⟨staker, balances, ho, hmin, htransfer, hnew, hs'.symm⟩
  · rintro ⟨staker, balances, ho, hmin, htransfer, hnew, hs'⟩
    exact ⟨staker, ho, (), hmin, balances, htransfer, _, hnew, hs'.symm⟩

theorem unstake_eq_ok {s s' : State α H B} {o : Origin α} {amount : U128} :
    unstake T s o amount = .ok s' ↔
      ∃ staker currentStake balances, o = .signed staker ∧
        s.validatorStakes.get staker = some currentStake ∧ amount ≤ currentStake ∧
        T.currency.transfer s.balances T.accountId staker amount .allowDeath = .ok balances ∧
        s' = s.withStake balances staker (currentStake - amount) := by
  simp only [unstake, bind_eq_ok, ensureSigned_eq_ok, ensure_eq_ok, okOr_eq_ok, mapError_eq_ok,
    orPanic_eq_ok, pure_eq_ok]
  constructor
  · rintro ⟨staker, ho, currentStake, hget, _, hle, newStake, hnew, balances, htransfer, hs'⟩
    obtain rfl := subChecked_eq_some hnew
    exact ⟨staker, currentStake, balances, ho, hget, hle, htransfer, hs'.symm⟩
  · rintro ⟨staker, currentStake, balances, ho, hget, hle, htransfer, hs'⟩
    exact ⟨staker, ho, currentStake, hget, (), hle, _, subChecked_of_le _ (BitVec.le_def.1 hle),
      balances, htransfer, hs'.symm⟩

theorem checkPqcSignature_eq_ok {s : State α H B} {validator : α} {n : U32} {sig : PqcSignature} :
    checkPqcSignature T s validator n sig = .ok () ↔
      (T.pqcRequired = true → ∃ key, s.validatorPqcPublicKeys validator = some key ∧
        verifyPqcSignature T (signature T validator n) sig key = true) := by
  unfold checkPqcSignature
  split
  · rename_i h
    simp only [bind_eq_ok, okOr_eq_ok, ensure_eq_ok, h, true_implies]
  · rename_i h
    exact ⟨fun _ hreq => absurd hreq h, fun _ => rfl⟩

/-- `validate_block` lets `validator` close the round of block `n`, and pays out `balances`. -/
structure Closes (T : Config α H B) (s : State α H B) (validator : α) (n : U32) (sig : PqcSignature)
    (header : GhostBlockHeader H) (selection : PosSelection α) (reward : BlockReward) (miner : α)
    (balances : B) : Prop where
  staker : s.validatorStakes.containsKey validator = true
  header_stored : s.blockHeaders n = some header
  phase : s.currentPhase = .posValidation
  select : selectPosValidator T s.blockNumber s.stakers (selectionSeed T s n) = .ok (some selection)
  selected : selection.validator = validator
  pqc : checkPqcSignature T s validator n sig = .ok ()
  reward_eq : calculateBlockReward T T.blockReward = .ok reward
  miner_stored : s.blockProducers n = some miner
  paid : distributeRewards T miner s.stakers reward s.balances = .ok balances

/-- The state after `validate_block`. -/
def closedState (T : Config α H B) (s : State α H B) (validator : α) (n : U32) (sig : PqcSignature)
    (header : GhostBlockHeader H) (selection : PosSelection α) (reward : BlockReward) (miner : α)
    (balances : B) : State α H B :=
  closeRound s balances validator selection.weight n (signHeader T header validator n sig) miner
    reward

section ClosedState

variable (s : State α H B) (validator : α) (n : U32) (sig : PqcSignature)
  (header : GhostBlockHeader H) (selection : PosSelection α) (reward : BlockReward) (miner : α)
  (balances : B)

@[simp]
theorem closedState_blockHeaders :
    (closedState T s validator n sig header selection reward miner balances).blockHeaders =
      s.blockHeaders.insert n (signHeader T header validator n sig) := rfl

@[simp]
theorem closedState_blockProducers :
    (closedState T s validator n sig header selection reward miner balances).blockProducers =
      s.blockProducers := rfl

@[simp]
theorem closedState_lastActiveBlock :
    (closedState T s validator n sig header selection reward miner balances).lastActiveBlock =
      s.lastActiveBlock.insert validator n := rfl

end ClosedState

/-- Closing a round stores a header only where one is stored. -/
theorem Closes.isSome_blockHeaders {s : State α H B} {validator miner : α} {n : U32}
    {sig : PqcSignature} {header : GhostBlockHeader H} {selection : PosSelection α}
    {reward : BlockReward} {balances : B}
    (h : Closes T s validator n sig header selection reward miner balances) (m : U32) :
    ((closedState T s validator n sig header selection reward miner balances).blockHeaders
        m).isSome = true ↔ (s.blockHeaders m).isSome = true := by
  rw [closedState_blockHeaders, StorageMap.isSome_insert, or_iff_right_of_imp]
  rintro rfl
  rw [h.header_stored]
  rfl

theorem validateBlock_eq_ok {s s' : State α H B} {o : Origin α} {n : U32} {sig : PqcSignature} :
    validateBlock T s o n sig = .ok s' ↔
      ∃ validator header selection reward miner balances, o = .signed validator ∧
        Closes T s validator n sig header selection reward miner balances ∧
        s' = closedState T s validator n sig header selection reward miner balances := by
  simp only [validateBlock, bind_eq_ok, ensureSigned_eq_ok, ensure_eq_ok, okOr_eq_ok, pure_eq_ok,
    getMinerForBlock]
  constructor
  · rintro ⟨validator, ho, _, hkey, header, hheader, _, hphase, _, hselect, selection, rfl, _,
      hvalidator, _, hsig, reward, hreward, miner, hminer, balances, hbalances, hs'⟩
    exact ⟨validator, header, selection, reward, miner, balances, ho, ⟨hkey, hheader, hphase,
      hselect, hvalidator, hsig, hreward, hminer, hbalances⟩, hs'.symm⟩
  · rintro ⟨validator, header, selection, reward, miner, balances, ho, ⟨hkey, hheader, hphase,
      hselect, hvalidator, hsig, hreward, hminer, hbalances⟩, hs'⟩
    exact ⟨validator, ho, (), hkey, header, hheader, (), hphase, _, hselect, selection, rfl, (),
      hvalidator, (), hsig, reward, hreward, miner, hminer, balances, hbalances, hs'.symm⟩

theorem registerPqcKey_eq_ok {s s' : State α H B} {o : Origin α} {key : PqcPublicKey} :
    registerPqcKey s o key = .ok s' ↔
      ∃ validator, o = .signed validator ∧
        s' = { s with validatorPqcPublicKeys := s.validatorPqcPublicKeys.insert validator key } := by
  simp only [registerPqcKey, bind_eq_ok, ensureSigned_eq_ok, pure_eq_ok]
  constructor
  · rintro ⟨validator, ho, hs'⟩
    exact ⟨validator, ho, hs'.symm⟩
  · rintro ⟨validator, ho, hs'⟩
    exact ⟨validator, ho, hs'.symm⟩

/-! ## Slashing -/

omit [AccountId α] in
theorem slashAmount_eq_ok {stake amount : U128} {percentage : U8} :
    slashAmount T stake percentage = .ok amount ↔
      mulChecked T.overflowChecks stake (percentage.setWidth 128) =
          some (stake * percentage.setWidth 128) ∧
        amount = stake * percentage.setWidth 128 / 100 := by
  simp only [slashAmount, bind_eq_ok, orPanic_eq_ok, pure_eq_ok]
  constructor
  · rintro ⟨product, hproduct, rfl⟩
    obtain rfl := mulChecked_eq_some hproduct
    exact ⟨hproduct, rfl⟩
  · rintro ⟨hproduct, rfl⟩
    exact ⟨_, hproduct, rfl⟩

@[simp]
theorem recordReport_validatorStakes (s : State α H B) (validator : α) (reason : SlashingReason) :
    (recordReport s validator reason).validatorStakes = s.validatorStakes := by
  cases reason <;> rfl

@[simp]
theorem recordReport_stakeOf (s : State α H B) (validator who : α) (reason : SlashingReason) :
    (recordReport s validator reason).stakeOf who = s.stakeOf who := by
  cases reason <;> rfl

@[simp]
theorem recordReport_balances (s : State α H B) (validator : α) (reason : SlashingReason) :
    (recordReport s validator reason).balances = s.balances := by
  cases reason <;> rfl

@[simp]
theorem recordReport_events (s : State α H B) (validator : α) (reason : SlashingReason) :
    (recordReport s validator reason).events = s.events := by
  cases reason <;> rfl

theorem reportMisbehavior_eq_ok {s s' : State α H B} {o : Origin α} {validator : α}
    {reason : SlashingReason} :
    reportMisbehavior T s o validator reason = .ok s' ↔
      ∃ reporter amount, o = .signed reporter ∧
        slashAmount T (s.stakeOf validator) (slashPercentage T reason) = .ok amount ∧
        s' = applySlash (recordReport s validator reason) validator reason (s.stakeOf validator)
          amount := by
  simp only [reportMisbehavior, bind_eq_ok, ensureSigned_eq_ok, recordReport_stakeOf, pure_eq_ok]
  constructor
  · rintro ⟨reporter, ho, amount, hamount, hs'⟩
    exact ⟨reporter, amount, ho, hamount, hs'.symm⟩
  · rintro ⟨reporter, amount, ho, hamount, hs'⟩
    exact ⟨reporter, ho, amount, hamount, hs'.symm⟩

/-- The state after one downtime slash. -/
def slashForDowntime (s : State α H B) (validator : α) (stake amount : U128) : State α H B :=
  applySlash { s with slashingRecords :=
    s.slashingRecords ++ [(validator, .downtime, amount, s.blockNumber)] } validator .downtime stake
    amount

/-- One iteration of the downtime check leaves the state, or slashes the stake of a validator that
is down. -/
theorem slashIfDown_eq_ok {s s' : State α H B} {validator : α} {lastActive : U32}
    (h : slashIfDown T s (validator, lastActive) = .ok s') :
    s' = s ∨ downtimeExceeded T s lastActive ∧ ∃ stake amount,
      s.validatorStakes.get validator = some stake ∧
        slashAmount T stake T.downtimeSlashPercentage = .ok amount ∧
        s' = slashForDowntime s validator stake amount := by
  unfold slashIfDown at h
  split at h
  · rename_i hdown
    split at h
    · rename_i stake hstake
      obtain ⟨amount, hamount, hs'⟩ := bind_eq_ok.1 h
      exact Or.inr ⟨hdown, stake, amount, hstake, hamount, (pure_eq_ok.1 hs').symm⟩
    · exact Or.inl (Except.ok.inj h).symm
  · exact Or.inl (Except.ok.inj h).symm

/-- What is kept by every downtime slash of an entry of `LastActiveBlock` is kept by the check. -/
theorem checkDowntimeSlashing_induction {P : State α H B → Prop} {s s' : State α H B}
    (h : checkDowntimeSlashing T s = .ok s') (init : P s)
    (slash : ∀ (t : State α H B) (validator : α) (lastActive : U32) (stake amount : U128),
      P t → s.lastActiveBlock.get validator = some lastActive → downtimeExceeded T t lastActive →
      t.validatorStakes.get validator = some stake →
      slashAmount T stake T.downtimeSlashPercentage = .ok amount →
      P (slashForDowntime t validator stake amount)) : P s' := by
  have loop : ∀ (l : List (α × U32)) (t : State α H B), (∀ e ∈ l, e ∈ s.lastActiveBlock.iter) →
      P t → l.foldlM (slashIfDown T) t = .ok s' → P s' := by
    intro l
    induction l with
    | nil =>
      intro t _ ht hfold
      exact pure_eq_ok.1 hfold ▸ ht
    | cons e l ih =>
      intro t hl ht hfold
      rw [List.foldlM_cons, bind_eq_ok] at hfold
      obtain ⟨t', hbody, hfold⟩ := hfold
      refine ih t' (fun e' he' => hl e' (List.mem_cons_of_mem _ he')) ?_ hfold
      rcases slashIfDown_eq_ok hbody with rfl | ⟨hdown, stake, amount, hstake, hamount, rfl⟩
      · exact ht
      · have he := s.lastActiveBlock.mem_iter.1 (hl e List.mem_cons_self)
        exact slash t e.1 e.2 stake amount ht he hdown hstake hamount
  exact loop _ s (fun _ he => he) init h

/-! ## Hooks -/

/-- The retarget writes the entropy, the difficulty and an event about it. -/
theorem adjustDifficulty_eq_ok {s s' : State α H B} (h : adjustDifficulty T s = .ok s') :
    ∃ entropy difficulty, calculateEntropy T s.recentBlockProducers.toList = .ok entropy ∧
      difficulty = calculateDifficultyAdjustment s.difficulty 5 5 entropy ∧
      s' = { s with
        currentEntropy := entropy
        difficulty
        events := s.events ++
          if difficulty = s.difficulty then [] else [.difficultyAdjusted s.difficulty difficulty] } := by
  simp only [adjustDifficulty, bind_eq_ok] at h
  obtain ⟨entropy, hentropy, h⟩ := h
  refine ⟨entropy, _, hentropy, rfl, ?_⟩
  split at h
  · rename_i hne
    rw [if_neg hne]
    exact (pure_eq_ok.1 h).symm
  · rename_i heq
    rw [ne_eq, not_not] at heq
    rw [if_pos heq, List.append_nil, heq]
    exact (pure_eq_ok.1 h).symm

/-- The end of a runtime block writes the phase only. -/
theorem onFinalize_eq (s : State α H B) (n : ℕ) :
    onFinalize s n = { s with
      currentPhase := if s.currentPhase = .finalization then .powMining else s.currentPhase } := by
  unfold onFinalize
  split <;> rfl

/-- What is kept by every downtime slash and by every retarget is kept by `on_initialize`. -/
theorem onInitialize_induction {P : State α H B → Prop} {s s' : State α H B} {n : ℕ}
    (h : onInitialize T s n = .ok s') (init : P s)
    (slash : ∀ (t : State α H B) (validator : α) (lastActive : U32) (stake amount : U128),
      P t → n % 10 = 0 → s.lastActiveBlock.get validator = some lastActive →
      downtimeExceeded T t lastActive → t.validatorStakes.get validator = some stake →
      slashAmount T stake T.downtimeSlashPercentage = .ok amount →
      P (slashForDowntime t validator stake amount))
    (retarget : ∀ (t t' : State α H B), P t → n % 100 = 0 → adjustDifficulty T t = .ok t' → P t') :
    P s' := by
  simp only [onInitialize, bind_eq_ok] at h
  obtain ⟨t, hslash, hadjust⟩ := h
  have ht : P t := by
    split at hslash
    · rename_i hn
      exact checkDowntimeSlashing_induction hslash init fun t v l st am hP => slash t v l st am hP hn
    · exact Except.ok.inj hslash ▸ init
  split at hadjust
  · rename_i hn
    exact retarget t s' ht hn hadjust
  · exact Except.ok.inj hadjust ▸ ht

/-- The same for a property of the state and of the events deposited on the way to it. -/
theorem onInitialize_events_induction {P : State α H B → List (Event α) → Prop} {s s' : State α H B}
    {n : ℕ} (h : onInitialize T s n = .ok s') (init : P s [])
    (slash : ∀ (t : State α H B) (new : List (Event α)) (validator : α) (lastActive : U32)
      (stake amount : U128), P t new → n % 10 = 0 →
      s.lastActiveBlock.get validator = some lastActive → downtimeExceeded T t lastActive →
      t.validatorStakes.get validator = some stake →
      slashAmount T stake T.downtimeSlashPercentage = .ok amount →
      P (slashForDowntime t validator stake amount)
        (new ++ [.validatorSlashed validator .downtime amount]))
    (retarget : ∀ (t t' : State α H B) (new : List (Event α)), P t new → n % 100 = 0 →
      adjustDifficulty T t = .ok t' →
      P t' (new ++ if t'.difficulty = t.difficulty then [] else
        [.difficultyAdjusted t.difficulty t'.difficulty])) :
    ∃ new, s'.events = s.events ++ new ∧ P s' new := by
  refine onInitialize_induction (P := fun t => ∃ new, t.events = s.events ++ new ∧ P t new) h
    ⟨[], (List.append_nil _).symm, init⟩ ?_ ?_
  · rintro t validator lastActive stake amount ⟨new, hevents, ht⟩ hn hget hdown hstake hamount
    refine ⟨_, ?_, slash t new validator lastActive stake amount ht hn hget hdown hstake hamount⟩
    rw [← List.append_assoc, ← hevents]
    rfl
  · rintro t t' ⟨new, hevents, ht⟩ hn hadjust
    refine ⟨_, ?_, retarget t t' new ht hn hadjust⟩
    obtain ⟨entropy, difficulty, -, -, rfl⟩ := adjustDifficulty_eq_ok hadjust
    rw [← List.append_assoc, ← hevents]

/-- The start of a runtime block writes the difficulty, the entropy, the stakes, the records of the
slashes and the events only. -/
theorem onInitialize_frame {s s' : State α H B} {n : ℕ} (h : onInitialize T s n = .ok s') :
    ∃ difficulty currentEntropy validatorStakes slashingRecords events, s' = { s with
      difficulty, currentEntropy, validatorStakes, slashingRecords, events } := by
  refine onInitialize_induction (P := fun t => ∃ difficulty currentEntropy validatorStakes
    slashingRecords events, t = { s with
      difficulty, currentEntropy, validatorStakes, slashingRecords, events }) h
    ⟨_, _, _, _, _, rfl⟩ ?_ ?_
  · rintro t _ _ _ _ ⟨_, _, _, _, _, rfl⟩ _ _ _ _ _
    exact ⟨_, _, _, _, _, rfl⟩
  · rintro t t' ⟨_, _, _, _, _, rfl⟩ _ hadjust
    obtain ⟨_, _, -, -, rfl⟩ := adjustDifficulty_eq_ok hadjust
    exact ⟨_, _, _, _, _, rfl⟩

theorem onInitialize_balances {s s' : State α H B} {n : ℕ} (h : onInitialize T s n = .ok s') :
    s'.balances = s.balances := by
  obtain ⟨_, _, _, _, _, rfl⟩ := onInitialize_frame h
  rfl

end GhostConsensus
