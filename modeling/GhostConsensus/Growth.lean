import GhostConsensus.Blocks
import GhostConsensus.Centralization
import GhostConsensus.Hardness
import GhostConsensus.Store

/-!
# Growing the chain

Once there are a stored header and a stake, the pallet is never stuck: from every state at the end of
a runtime block in which nothing is about to overflow, a miner can put a block on top of any stored
one in the next runtime block, one on top of that in the runtime block after it, and so on
(`run_growth`); each is signed by some validator and stays stored. The slashes of the downtime
check take only a part of a stake, so that there is always a validator left to be selected, and the
difficulty never gets below `1`.
-/

namespace GhostConsensus

open Transition MachineInt

variable {α H B : Type} [AccountId α]

/-! ## The stakes behind the chain -/

/-- There is a stake, the weights of all stakes add up without overflow, and so do their products. -/
structure Backed (T : Config α H B) (s : State α H B) : Prop where
  staked : ∃ v, 0 < (s.stakeOf v).toNat
  bounded : s.totalWeight < 2 ^ 64
  limits : WithinLimits T s

/-- The weight of a stake. -/
def stakeWeight (stake : U128) : ℕ := min stake.toNat (2 ^ 64 - 1)

theorem totalWeight_eq_total (s : State α H B) :
    s.totalWeight = s.validatorStakes.total stakeWeight := by
  rw [totalWeight_eq, State.stakers, List.map_map, List.map_map, List.map_map]
  rfl

theorem applySlash_totalWeight_le (s : State α H B) (who : α) (reason : SlashingReason)
    (amount : U128) :
    (applySlash s who reason (s.stakeOf who) amount).totalWeight ≤ s.totalWeight := by
  have hinsert := s.validatorStakes.total_insert stakeWeight who
    (saturatingSub (s.stakeOf who) amount)
  have hbefore : (s.validatorStakes.get who).elim 0 stakeWeight = stakeWeight (s.stakeOf who) := by
    unfold State.stakeOf
    cases s.validatorStakes.get who <;> rfl
  have hle : stakeWeight (saturatingSub (s.stakeOf who) amount) ≤ stakeWeight (s.stakeOf who) :=
    min_le_min_right _ (toNat_saturatingSub_le _ _)
  rw [hbefore] at hinsert
  rw [totalWeight_eq_total, totalWeight_eq_total]
  show (s.validatorStakes.insert who (saturatingSub (s.stakeOf who) amount)).total stakeWeight ≤ _
  omega

variable {T : Config α H B}

theorem Backed.of_eq {s s' : State α H B} (hs : Backed T s)
    (h : s'.validatorStakes = s.validatorStakes) : Backed T s' := by
  have hstakeOf : ∀ v, s'.stakeOf v = s.stakeOf v := fun v => by
    rw [State.stakeOf, h, State.stakeOf]
  refine ⟨?_, ?_, hs.limits.reward, fun v => ?_⟩
  · obtain ⟨v, hv⟩ := hs.staked
    exact ⟨v, (hstakeOf v).symm ▸ hv⟩
  · rw [totalWeight_eq_total, h, ← totalWeight_eq_total]
    exact hs.bounded
  · rw [hstakeOf]
    exact hs.limits.stakes v

/-- A slash of less than the stake leaves a stake. -/
theorem Backed.applySlash {s : State α H B} (hs : Backed T s) {who : α} {reason : SlashingReason}
    {amount : U128} (hle : 0 < (s.stakeOf who).toNat → amount.toNat < (s.stakeOf who).toNat) :
    Backed T (applySlash s who reason (s.stakeOf who) amount) := by
  refine ⟨?_, (applySlash_totalWeight_le s who reason amount).trans_lt hs.bounded,
    hs.limits.reward, fun v => ?_⟩
  · obtain ⟨v, hv⟩ := hs.staked
    refine ⟨v, ?_⟩
    rw [applySlash_stakeOf]
    split
    · rename_i heq
      have hlt := hle (heq ▸ hv)
      rw [toNat_saturatingSub]
      omega
    · exact hv
  · rw [applySlash_stakeOf]
    split
    · exact (toNat_saturatingSub_le _ _).trans (hs.limits.stakes who)
    · exact hs.limits.stakes v

omit [AccountId α] in
theorem slashAmount_lt {stake amount : U128} {percentage : U8} (hpercentage : percentage.toNat < 100)
    (hpos : 0 < stake.toNat) (h : slashAmount T stake percentage = .ok amount) :
    amount.toNat < stake.toNat := by
  have hle := toNat_slashAmount_le h
  have hlt : stake.toNat * percentage.toNat < stake.toNat * 100 :=
    Nat.mul_lt_mul_of_pos_left hpercentage hpos
  omega

/-! ## The start of a runtime block -/

theorem Backed.onInitialize (percentage : T.downtimeSlashPercentage.toNat < 100)
    {s s' : State α H B} {n : ℕ} (hs : Backed T s) (h : onInitialize T s n = .ok s') :
    Backed T s' := by
  refine onInitialize_induction (P := Backed T) h hs ?_ ?_
  · intro t validator _ stake amount ht _ _ _ hstake hamount
    rw [← stakeOf_of_get hstake] at hamount ⊢
    have hrecorded : Backed T { t with
        slashingRecords := t.slashingRecords ++
          [(validator, .downtime, amount, t.blockNumber)] } := ht.of_eq rfl
    exact hrecorded.applySlash fun hpos => slashAmount_lt percentage hpos hamount
  · intro t t' ht _ hadjust
    obtain ⟨_, _, -, -, rfl⟩ := adjustDifficulty_eq_ok hadjust
    exact ht.of_eq rfl

theorem Backed.exists_onInitialize {s : State α H B} (hs : Backed T s) (n : ℕ) :
    ∃ s', GhostConsensus.onInitialize T s n = .ok s' := by
  have hfits : ∀ v, (s.stakeOf v).toNat * T.downtimeSlashPercentage.toNat < 2 ^ 128 := fun v =>
    (le_stakeLimit_iff.1 (hs.limits.stakes v)).2 .downtime
  obtain ⟨t, ht⟩ : ∃ t, (if n % 10 = 0 then checkDowntimeSlashing T s else .ok s) = .ok t := by
    split
    · exact exists_checkDowntimeSlashing hfits
    · exact ⟨s, rfl⟩
  have hlength : t.recentBlockProducers.toList.length ≤ 1000000 :=
    t.recentBlockProducers.length_le.trans (by decide)
  obtain ⟨t', ht', -⟩ := exists_adjustDifficulty T (calculateEntropy_eq T hlength)
  unfold GhostConsensus.onInitialize
  rw [ht]
  show ∃ s', (if n % 100 = 0 then adjustDifficulty T t else .ok t) = .ok s'
  split
  · exact ⟨t', ht'⟩
  · exact ⟨t, rfl⟩

variable [DecidableEq H]

/-- What the chain needs at the end of a runtime block to grow in the next one. -/
structure Ready (T : Config α H B) (s : State α H B) : Prop where
  phase : s.currentPhase = .powMining
  difficulty : 1 ≤ s.difficulty.toNat
  store : BlockStore s
  backed : Backed T s

theorem Ready.onInitialize (percentage : T.downtimeSlashPercentage.toNat < 100) {s : State α H B}
    (hs : Ready T s) (n : ℕ) :
    ∃ t, step T s (.onInitialize n) = some t ∧ Ready T t ∧ SameChain s t := by
  have hbacked : Backed T { s with blockNumber := n } := hs.backed.of_eq rfl
  obtain ⟨t, ht⟩ := hbacked.exists_onInitialize n
  have hstep : step T s (.onInitialize n) = some t := by
    rw [step, ht]
    rfl
  have hsame := onInitialize_sameChain ht
  refine ⟨t, hstep, ⟨hsame.currentPhase.trans hs.phase, ?_, hs.store.step hstep,
    hbacked.onInitialize percentage ht⟩, ⟨hsame.1, hsame.2, hsame.3, hsame.4, hsame.5⟩⟩
  exact (step_retargets hs.difficulty hstep).pos

/-! ## A round -/

omit [DecidableEq H] in
variable (T) in
/-- On every parent there is some content and some nonce whose hash is within twice any difficulty. -/
def Solvable : Prop :=
  ∀ (number : U32) (parentHash : H) (difficulty : U64), 1 ≤ difficulty.toNat →
    ∃ header : GhostBlockHeader H, header.number = number ∧ header.parentHash = parentHash ∧
      powValue T header ≤ saturatingMul difficulty 2

/-- A miner can put a block on top of any stored one. -/
theorem Ready.exists_accepts (solvable : Solvable T) {s : State α H B} (hs : Ready T s) {n : U32}
    {parent : GhostBlockHeader H} (hparent : s.blockHeaders n = some parent)
    (hroom : n.toNat + 1 < 2 ^ 32) :
    ∃ header, header.number = n + 1 ∧ Accepts T s header parent := by
  obtain ⟨header, hnumber, hhash, hpow⟩ := solvable (n + 1) (T.hashOf (.header parent)) s.difficulty
    hs.difficulty
  have hnext : (n + 1).toNat = n.toNat + 1 := toNat_add_of_lt hroom
  refine ⟨header.declaring (saturatingMul s.difficulty 2), hnumber, accepts_iff.2
    ⟨⟨hs.phase, ?_, ?_, ?_, hhash⟩, hpow, half_le_double s.difficulty, BitVec.le_refl _⟩⟩
  · show 0 < header.number
    rw [hnumber, BitVec.lt_def, hnext]
    exact Nat.succ_pos _
  · show s.blockHeaders (header.number - 1) = some parent
    rw [hnumber, BitVec.add_sub_cancel]
    exact hparent
  · show addChecked T.overflowChecks parent.number 1 = some header.number
    rw [hs.store.numbered n parent hparent, hnumber]
    exact addChecked_of_lt _ hroom

omit [DecidableEq H] in
/-- In an open round some validator can close it. -/
theorem Backed.exists_closes (pqc : T.pqcRequired = false) {s : State α H B} (hs : Backed T s)
    (phase : s.currentPhase = .posValidation) {n : U32} {header : GhostBlockHeader H} {miner : α}
    (hheader : s.blockHeaders n = some header) (hminer : s.blockProducers n = some miner)
    (sig : PqcSignature) :
    ∃ v selection reward balances, Closes T s v n sig header selection reward miner balances := by
  have hpos : 0 < s.totalWeight := by
    obtain ⟨v, hv⟩ := hs.staked
    exact totalWeight_pos (hv.trans_le (stakeOf_le_totalStake s v))
  obtain ⟨staker, hstaker, -, hselect⟩ := exists_selectPosValidator (T := T) s.blockNumber
    (selectionSeed T s n) hpos hs.bounded
  obtain ⟨hget, -⟩ := mem_stakers hstaker
  have hreward40 : T.blockReward.toNat * 40 < 2 ^ 128 := by
    have hle := hs.limits.reward
    unfold rewardLimit at hle
    omega
  obtain ⟨reward, hreward, -, hpart⟩ := exists_calculateBlockReward (T := T) hreward40
  obtain ⟨balances, hpaid⟩ : ∃ b, distributeRewards T miner s.stakers reward s.balances = .ok b := by
    refine exists_distributeRewards ((sum_stakers_stake s).symm ▸ totalStake_lt hs.bounded) ?_
    intro other hother
    have hstake := (le_stakeLimit_iff.1 (hs.limits.stakes other.account)).1
    rw [stakeOf_of_get (mem_stakers hother).1] at hstake
    rw [hpart, Nat.mul_comm]
    exact hstake
  refine ⟨staker.account, _, reward, balances, ?_, hheader, phase, hselect, rfl, ?_, hreward, hminer,
    hpaid⟩
  · exact s.validatorStakes.containsKey_eq_true.2 ⟨_, hget⟩
  · refine checkPqcSignature_eq_ok.2 fun hreq => ?_
    rw [pqc] at hreq
    cases hreq

/-! ## Runtime blocks -/

variable (T) in
/-- In the history `miner` has put `header` on top of block `n`, which is `parent`, and `validator`
has signed it. -/
structure Extends (h : List (Record α H B)) (s : State α H B) (miner validator : α) (n : U32)
    (sig : PqcSignature) (header parent : GhostBlockHeader H) : Prop where
  number : header.number = n + 1
  parent_stored : s.blockHeaders n = some parent
  parent_hash : header.parentHash = T.hashOf (.header parent)
  submitted : ∃ e ∈ h, submission T e = some (miner, header)
  validated : ∃ e ∈ h, validation T e = some (validator, n + 1, sig)
  stored : s.blockHeaders (n + 1) = some (signHeader T header validator (n + 1) sig)
  producer : s.blockProducers (n + 1) = some miner

/-- The two states store the same block at `n`. -/
structure SameBlock (s s' : State α H B) (n : U32) : Prop where
  header : s'.blockHeaders n = s.blockHeaders n
  producer : s'.blockProducers n = s.blockProducers n

omit [DecidableEq H] in
theorem SameBlock.refl (s : State α H B) (n : U32) : SameBlock s s n := ⟨rfl, rfl⟩

omit [DecidableEq H] in
theorem SameBlock.trans {s s' s'' : State α H B} {n : U32} (h : SameBlock s s' n)
    (h' : SameBlock s' s'' n) : SameBlock s s'' n :=
  ⟨h'.header.trans h.header, h'.producer.trans h.producer⟩

/-- What later steps leave stored still extends the chain. -/
theorem Extends.mono {h h' : List (Record α H B)} {s s' : State α H B} {miner validator : α}
    {n : U32} {sig : PqcSignature} {header parent : GhostBlockHeader H}
    (hx : Extends T h s miner validator n sig header parent) (hsub : ∀ e ∈ h, e ∈ h')
    (hparent : SameBlock s s' n) (hblock : SameBlock s s' (n + 1)) :
    Extends T h' s' miner validator n sig header parent := by
  refine ⟨hx.number, hparent.header.trans hx.parent_stored, hx.parent_hash, ?_, ?_,
    hblock.header.trans hx.stored, hblock.producer.trans hx.producer⟩
  · obtain ⟨e, he, hsubmitted⟩ := hx.submitted
    exact ⟨e, hsub e he, hsubmitted⟩
  · obtain ⟨e, he, hvalidated⟩ := hx.validated
    exact ⟨e, hsub e he, hvalidated⟩

omit [DecidableEq H] in
/-- A block that is submitted and signed leaves the blocks with other numbers as they are. -/
theorem sameBlock_closedState (s : State α H B) (miner validator : α) {n : U32} (sig : PqcSignature)
    {header : GhostBlockHeader H} (selection : PosSelection α) (reward : BlockReward) (balances : B)
    (hnumber : header.number = n) {m : U32} (hm : m ≠ n) :
    SameBlock s (closedState T (acceptBlock s miner header) validator n sig header selection reward
      miner balances) m := by
  constructor
  · rw [closedState_blockHeaders, acceptBlock_blockHeaders, hnumber, StorageMap.insert_of_ne _ hm,
      StorageMap.insert_of_ne _ hm]
  · rw [closedState_blockProducers, acceptBlock_blockProducers, hnumber,
      StorageMap.insert_of_ne _ hm]

/-- A miner and some validator can put a block on top of any stored one, and change no other. -/
theorem Ready.exists_round (pqc : T.pqcRequired = false) (solvable : Solvable T) {s : State α H B}
    (hs : Ready T s) {n : U32} (hn : (s.blockHeaders n).isSome = true)
    (hroom : n.toNat + 1 < 2 ^ 32) (miner : α) (sig : PqcSignature) :
    ∃ validator header parent u s',
      step T s (.dispatch (.signed miner) (.submitBlock header)) = some u ∧
      step T u (.dispatch (.signed validator) (.validateBlock (n + 1) sig)) = some s' ∧
      Extends T [(u, .dispatch (.signed validator) (.validateBlock (n + 1) sig)),
        (s, .dispatch (.signed miner) (.submitBlock header))] s' miner validator n sig header parent ∧
      (∀ m ≠ n + 1, SameBlock s s' m) ∧ s'.currentPhase = .finalization ∧
      1 ≤ s'.difficulty.toNat ∧ Backed T s' := by
  obtain ⟨parent, hparent⟩ := Option.isSome_iff_exists.1 hn
  obtain ⟨header, hnumber, haccepts⟩ := hs.exists_accepts solvable hparent hroom
  have hproducer : (acceptBlock s miner header).blockProducers (n + 1) = some miner := by
    rw [acceptBlock_blockProducers, ← hnumber, StorageMap.insert_self]
  have hheader : (acceptBlock s miner header).blockHeaders (n + 1) = some header := by
    rw [acceptBlock_blockHeaders, ← hnumber, StorageMap.insert_self]
  have hbacked : Backed T (acceptBlock s miner header) := hs.backed.of_eq rfl
  obtain ⟨v, selection, reward, balances, hcloses⟩ :=
    hbacked.exists_closes pqc rfl hheader hproducer sig
  have hsubmit : dispatch T s (.signed miner) (.submitBlock header) =
      .ok (acceptBlock s miner header) :=
    submitBlock_eq_ok.2 ⟨miner, parent, rfl, haccepts, rfl⟩
  have hvalidate : dispatch T (acceptBlock s miner header) (.signed v) (.validateBlock (n + 1) sig) =
      .ok (closedState T (acceptBlock s miner header) v (n + 1) sig header selection reward miner
        balances) :=
    validateBlock_eq_ok.2 ⟨v, header, _, _, _, _, rfl, hcloses, rfl⟩
  have hne : n ≠ n + 1 := by bv_omega
  have hframe : ∀ m ≠ n + 1, SameBlock s (closedState T (acceptBlock s miner header) v (n + 1) sig
      header selection reward miner balances) m :=
    fun m => sameBlock_closedState s miner v sig selection reward balances hnumber
  refine ⟨v, header, parent, acceptBlock s miner header, _, ?_, ?_, ⟨hnumber, ?_, ?_, ?_, ?_, ?_, ?_⟩,
    hframe, rfl, hs.difficulty, hbacked.of_eq rfl⟩
  · rw [step, hsubmit]
  · rw [step, hvalidate]
  · exact (hframe n hne).header.trans hparent
  · exact (accepts_iff.1 haccepts).1.parent_hash
  · exact ⟨_, List.mem_cons_of_mem _ List.mem_cons_self,
      submission_of_succeeded (succeeded_of_eq_ok hsubmit)⟩
  · exact ⟨_, List.mem_cons_self, validation_of_succeeded (succeeded_of_eq_ok hvalidate)⟩
  · rw [closedState_blockHeaders, StorageMap.insert_self]
  · rw [closedState_blockProducers, hproducer]

/-- The next runtime block can add a block by any miner, and change no other. -/
theorem Ready.exists_executeBlock (pqc : T.pqcRequired = false)
    (percentage : T.downtimeSlashPercentage.toNat < 100) (solvable : Solvable T) {s : State α H B}
    (hs : Ready T s) {n : U32} (hn : (s.blockHeaders n).isSome = true)
    (hroom : n.toNat + 1 < 2 ^ 32) (miner : α) (sig : PqcSignature) :
    ∃ calls h s', executeBlock T s calls = some s' ∧ Run (step T) s h s' ∧
      h.map Prod.snd = blockActions s calls ∧ Ready T s' ∧
      (∃ validator header parent, Extends T h s' miner validator n sig header parent) ∧
      ∀ m ≠ n + 1, SameBlock s s' m := by
  obtain ⟨t, hinit, ht, hsame⟩ := hs.onInitialize percentage (s.blockNumber + 1)
  obtain ⟨v, header, parent, u, w, hsubmit, hvalidate, hextends, hframe, hphase, hdifficulty,
      hbacked⟩ := ht.exists_round pqc solvable (hsame.blockHeaders.symm ▸ hn) hroom miner sig
  have hrun := (((Run.nil.cons hinit).cons hsubmit).cons hvalidate).cons
    (a := .onFinalize (s.blockNumber + 1)) rfl
  have hfinal : ∀ m, SameBlock w (onFinalize w (s.blockNumber + 1)) m := fun m => by
    rw [onFinalize_eq]
    exact ⟨rfl, rfl⟩
  refine ⟨[(.signed miner, .submitBlock header), (.signed v, .validateBlock (n + 1) sig)], _, _, ?_,
    hrun, rfl, ⟨?_, ?_, ?_, ?_⟩, ⟨v, header, parent, ?_⟩, fun m hm => ?_⟩
  · refine Option.bind_eq_some_iff.2 ⟨t, hinit, Option.bind_eq_some_iff.2 ⟨w, ?_, rfl⟩⟩
    exact Option.bind_eq_some_iff.2 ⟨u, hsubmit, Option.bind_eq_some_iff.2 ⟨w, hvalidate, rfl⟩⟩
  · rw [onFinalize, if_pos hphase]
  · rw [onFinalize_eq]
    exact hdifficulty
  · exact hrun.invariant (I := BlockStore) hs.store fun _ _ _ ht hstep => ht.step hstep
  · exact hbacked.of_eq (by rw [onFinalize_eq])
  · exact hextends.mono (fun e he => List.mem_cons_of_mem _ (List.mem_append_left [_] he)) (hfinal n)
      (hfinal (n + 1))
  · have hstart : SameBlock s t m := ⟨by rw [hsame.blockHeaders], by rw [hsame.blockProducers]⟩
    exact (hstart.trans (hframe m hm)).trans (hfinal m)

/-! ## Many runtime blocks -/

theorem add_ofNat_succ (n : U32) (i : ℕ) : n + BitVec.ofNat 32 (i + 1) = n + BitVec.ofNat 32 i + 1 := by
  rw [BitVec.ofNat_add, BitVec.add_assoc]
  rfl

theorem toNat_add_ofNat {n : U32} {i : ℕ} (h : n.toNat + i < 2 ^ 32) :
    (n + BitVec.ofNat 32 i).toNat = n.toNat + i := by
  rw [BitVec.toNat_add, BitVec.toNat_ofNat]
  omega

variable (T) in
/-- In the runtime blocks `blocks`, with the history `h`, `miner` has put a block on top of block `n`
and of each of its own, and the chain can go on growing. -/
structure Grown (s : State α H B) (miner : α) (n : U32) (sig : PqcSignature)
    (blocks : List (State α H B × List (Origin α × Call α H))) (h : List (Record α H B))
    (s' : State α H B) : Prop where
  blocks_run : Run (executeBlock T) s blocks s'
  run : Run (step T) s h s'
  actions : h.map Prod.snd = blocks.flatMap fun e => blockActions e.1 e.2
  extended : ∀ i < blocks.length, ∃ validator header parent,
    Extends T h s' miner validator (n + BitVec.ofNat 32 i) sig header parent
  tip : (s'.blockHeaders (n + BitVec.ofNat 32 blocks.length)).isSome = true
  ready : Ready T s'

/-- One more runtime block adds one more block. -/
theorem Grown.exists_cons (pqc : T.pqcRequired = false)
    (percentage : T.downtimeSlashPercentage.toNat < 100) (solvable : Solvable T) {s t : State α H B}
    {miner : α} {n : U32} {sig : PqcSignature}
    {blocks : List (State α H B × List (Origin α × Call α H))} {h : List (Record α H B)}
    (hg : Grown T s miner n sig blocks h t) (hroom : n.toNat + blocks.length + 1 < 2 ^ 32) :
    ∃ calls h' s', Grown T s miner n sig ((t, calls) :: blocks) h' s' := by
  have htip : (n + BitVec.ofNat 32 blocks.length).toNat = n.toNat + blocks.length :=
    toNat_add_ofNat (by omega)
  obtain ⟨calls, h', s', hexec, run, hacts, hready, ⟨v, header, parent, hnew⟩, hframe⟩ :=
    hg.ready.exists_executeBlock pqc percentage solvable hg.tip (htip ▸ hroom) miner sig
  -- the new block is above all the others
  have hbelow : ∀ m ≤ blocks.length, SameBlock t s' (n + BitVec.ofNat 32 m) := by
    intro m hm
    refine hframe _ fun heq => ?_
    have hvalue := congrArg BitVec.toNat heq
    rw [← add_ofNat_succ, toNat_add_ofNat (by omega), toNat_add_ofNat (by omega)] at hvalue
    omega
  refine ⟨calls, h' ++ h, s', hg.blocks_run.cons hexec, hg.run.append run, ?_, fun i hi => ?_, ?_,
    hready⟩
  · rw [List.map_append, hg.actions, hacts, List.flatMap_cons]
  · rcases Nat.lt_succ_iff_lt_or_eq.1 hi with hlt | rfl
    · obtain ⟨v, header, parent, hold⟩ := hg.extended i hlt
      exact ⟨v, header, parent, hold.mono (fun _ => List.mem_append_right _) (hbelow i hlt.le)
        (add_ofNat_succ n i ▸ hbelow (i + 1) hlt)⟩
    · exact ⟨v, header, parent, hnew.mono (fun _ => List.mem_append_left _) (.refl _ _) (.refl _ _)⟩
  · rw [List.length_cons, add_ofNat_succ, hnew.stored]
    rfl

/-- In every state of the pallet at the end of a runtime block, with a stake and without an overflow
ahead, a miner can extend the chain from any stored block, by a block in each of the runtime blocks to
come, as long as there are numbers left. -/
theorem run_growth (pqc : T.pqcRequired = false)
    (percentage : T.downtimeSlashPercentage.toNat < 100) (solvable : Solvable T)
    {s₀ s : State α H B} {h : List (Record α H B)} {header₀ : GhostBlockHeader H}
    (run : Run (step T) s₀ h s) (stored : s₀.blockHeaders = StorageMap.empty.insert 0 header₀)
    (number : header₀.number = 0) (noProducers : s₀.blockProducers = .empty)
    (phase : s.currentPhase = .powMining) (difficulty : 1 ≤ s.difficulty.toNat)
    (backed : Backed T s) {n : U32} (hn : (s.blockHeaders n).isSome = true) (miner : α)
    (sig : PqcSignature) (k : ℕ) (hk : n.toNat + k < 2 ^ 32) :
    ∃ blocks h' s', blocks.length = k ∧ Grown T s miner n sig blocks h' s' := by
  have store : BlockStore s := run.invariant (I := BlockStore)
    (blockStore_start stored number noProducers) fun _ _ _ ht hstep => ht.step hstep
  induction k with
  | zero =>
    refine ⟨[], [], s, rfl, .nil, .nil, rfl, fun i hi => absurd hi (Nat.not_lt_zero i), ?_,
      phase, difficulty, store, backed⟩
    rw [List.length_nil, show n + BitVec.ofNat 32 0 = n from BitVec.add_zero n]
    exact hn
  | succ k ih =>
    obtain ⟨blocks, h', t, rfl, hg⟩ := ih (by omega)
    obtain ⟨calls, h'', s', hg'⟩ := hg.exists_cons pqc percentage solvable hk
    exact ⟨(t, calls) :: blocks, h'', s', rfl, hg'⟩

/-- With a stake of one account `2` extends the chain by 250 blocks, past two retargets. -/
theorem run_growth_dev :
    ∃ h s blocks h' s', Run (step devConfig) { devState with difficulty := 1000 } h s ∧
      blocks.length = 250 ∧ Grown devConfig s 2 0 ⟨0⟩ blocks h' s' := by
  obtain ⟨h, s, run, hcheck⟩ := exists_run_of_exec (step devConfig)
    { devState with difficulty := 1000 } [.dispatch (.signed 1) (.stake 1000000000000)]
    (fun r => decide (r.2.currentPhase = .powMining ∧ 1 ≤ r.2.difficulty.toNat ∧
      0 < (r.2.stakeOf 1).toNat ∧ r.2.totalWeight < 2 ^ 64 ∧
      devConfig.blockReward.toNat ≤ rewardLimit ∧ r.2.totalStake ≤ stakeLimit devConfig ∧
      (r.2.blockHeaders 0).isSome = true)) (by decide +kernel)
  obtain ⟨hphase, hdifficulty, hstake, hweight, hreward, htotal, hheader⟩ :=
    of_decide_eq_true hcheck
  have solvable : Solvable devConfig := fun number parentHash difficulty _ =>
    ⟨{ devHeader with number, parentHash }, rfl, rfl, BitVec.le_def.2 (Nat.zero_le _)⟩
  have backed : Backed devConfig s :=
    ⟨⟨1, hstake⟩, hweight, hreward, fun v => (stakeOf_le_totalStake s v).trans htotal⟩
  obtain ⟨blocks, h', s', hlength, hgrown⟩ := run_growth rfl (by decide) solvable run rfl rfl rfl
    hphase hdifficulty backed hheader 2 ⟨0⟩ 250 (by decide)
  exact ⟨h, s, blocks, h', s', run, hlength, hgrown⟩

end GhostConsensus
