import GhostConsensus.Functions

/-!
# The pallet: storage, dispatchables, hooks

`State` is the storage of the pallet together with what it uses of the runtime: the balances, the
number of the current runtime block, and the events the pallet has deposited so far, oldest first. A
dispatchable returns the state after it, or the failure that rolls it back.
-/

namespace GhostConsensus

open MachineInt

structure State (α H B : Type) [AccountId α] where
  difficulty : U64
  currentPhase : ConsensusPhase
  blockHeaders : StorageMap U32 (GhostBlockHeader H)
  blockProducers : StorageMap U32 α
  validatorStakes : IterableStorageMap α U128
  lastActiveBlock : IterableStorageMap α U32
  doubleSignReports : StorageMap α Bool
  invalidBlockReports : StorageMap α Bool
  slashingRecords : List (α × SlashingReason × U128 × ℕ)
  validatorPqcPublicKeys : StorageMap α PqcPublicKey
  recentBlockProducers : BoundedVec α 100
  currentEntropy : U64
  /-- `frame_system::Pallet::block_number()`. -/
  blockNumber : ℕ
  events : List (Event α)
  balances : B

variable {α H B : Type} [AccountId α]

namespace State

/-- `deposit_event`. `events` lists the calls of it; `frame_system` drops those in block `0`. -/
def depositEvent (s : State α H B) (event : Event α) : State α H B :=
  { s with events := s.events ++ [event] }

/-- `ValidatorStakes::get(who).unwrap_or_default()`. -/
def stakeOf (s : State α H B) (who : α) : U128 := (s.validatorStakes.get who).getD 0

/-- The stakers as `validate_block` collects them from `ValidatorStakes`. -/
def stakers (s : State α H B) : List (ValidatorStake α) :=
  s.validatorStakes.iter.map fun e =>
    { account := e.1, stake := e.2, weight := saturatedInto 64 e.2.toNat }

end State

variable [DecidableEq H] (T : Config α H B)

/-! ## Mining -/

/-- What `submit_block` writes once the header is accepted. -/
def acceptBlock (s : State α H B) (miner : α) (blockHeader : GhostBlockHeader H) : State α H B :=
  let recent := s.recentBlockProducers
  let recent :=
    if h : 100 ≤ recent.toList.length then recent.removeFirst (BoundedVec.ne_nil_of_bound_le h)
    else recent
  State.depositEvent
    { s with
      blockHeaders := s.blockHeaders.insert blockHeader.number blockHeader
      blockProducers := s.blockProducers.insert blockHeader.number miner
      recentBlockProducers := recent.tryPush miner
      lastActiveBlock := s.lastActiveBlock.insert miner blockHeader.number
      currentPhase := .posValidation }
    (.blockMined blockHeader.number miner blockHeader.nonce)

/-- Submit a mined block with PoW solution. -/
def submitBlock (s : State α H B) (origin : Origin α) (blockHeader : GhostBlockHeader H) :
    Except Failure (State α H B) := do
  let miner ← ensureSigned origin
  ensure (s.currentPhase = .powMining) .invalidPhaseTransition
  ensure (0 < blockHeader.number) .invalidBlockNumber
  -- `checked_sub` is the subtraction that always checks
  let parentNumber ← okOr (subChecked true blockHeader.number 1) .invalidBlockNumber
  let parentHeader ← okOr (s.blockHeaders parentNumber) .blockNotFound
  validateBlockHeader T s.difficulty blockHeader parentHeader
  return acceptBlock s miner blockHeader

/-! ## Staking -/

/-- Stake tokens to participate in PoS validation. -/
def stake (s : State α H B) (origin : Origin α) (amount : U128) : Except Failure (State α H B) := do
  let staker ← ensureSigned origin
  ensure (T.minStake ≤ amount) .insufficientStake
  let balances ← (T.currency.transfer s.balances staker T.accountId amount .keepAlive).mapError
    Failure.dispatch
  let newStake ← orPanic (addChecked T.overflowChecks (s.stakeOf staker) amount)
  return { s with balances, validatorStakes := s.validatorStakes.insert staker newStake }

/-- Unstake tokens. -/
def unstake (s : State α H B) (origin : Origin α) (amount : U128) :
    Except Failure (State α H B) := do
  let staker ← ensureSigned origin
  let currentStake ← okOr (s.validatorStakes.get staker) .notAValidator
  ensure (amount ≤ currentStake) .insufficientStake
  let newStake ← orPanic (subChecked T.overflowChecks currentStake amount)
  let balances ← (T.currency.transfer s.balances T.accountId staker amount .allowDeath).mapError
    Failure.dispatch
  return { s with balances, validatorStakes := s.validatorStakes.insert staker newStake }

/-! ## Validation -/

/-- The message a validator signs for a block, also the signature stored in the header. -/
def signature (validator : α) (blockNumber : U32) : H := T.hashOf (.signer validator blockNumber)

/-- The seed of the selection for a block in the current runtime block. -/
def selectionSeed (s : State α H B) (blockNumber : U32) : H :=
  T.hashOf (.seed blockNumber s.blockNumber)

/-- The on-chain check of the PQC signature, made when `PqcRequired` is set. -/
def checkPqcSignature (s : State α H B) (validator : α) (blockNumber : U32)
    (pqcSignature : PqcSignature) : Except Failure Unit :=
  if T.pqcRequired = true then do
    let publicKey ← okOr (s.validatorPqcPublicKeys validator) .pqcPublicKeyNotFound
    ensure (verifyPqcSignature T (signature T validator blockNumber) pqcSignature publicKey = true)
      .invalidPqcSignature
  else .ok ()

/-- Get miner for a block. -/
def getMinerForBlock (s : State α H B) (blockNumber : U32) : Except Failure α :=
  okOr (s.blockProducers blockNumber) .blockNotFound

/-- The header with the validator's signature and the submitted PQC signature. -/
def signHeader (blockHeader : GhostBlockHeader H) (validator : α) (blockNumber : U32)
    (pqcSignature : PqcSignature) : GhostBlockHeader H :=
  { blockHeader with
    validatorSignature := some (signature T validator blockNumber)
    pqcSignature := some pqcSignature }

/-- What `validate_block` writes once the rewards are paid. -/
def closeRound (s : State α H B) (balances : B) (validator : α) (weight : U64) (blockNumber : U32)
    (signedHeader : GhostBlockHeader H) (miner : α) (reward : BlockReward) : State α H B :=
  let s := { s with
    blockHeaders := s.blockHeaders.insert blockNumber signedHeader
    balances
    lastActiveBlock := s.lastActiveBlock.insert validator blockNumber
    currentPhase := .finalization }
  (s.depositEvent (.validatorSelected validator weight)).depositEvent
    (.rewardsDistributed miner reward.minerReward reward.stakersReward)

/-- Select and validate PoS validator. -/
def validateBlock (s : State α H B) (origin : Origin α) (blockNumber : U32)
    (pqcSignature : PqcSignature) : Except Failure (State α H B) := do
  let validator ← ensureSigned origin
  ensure (s.validatorStakes.containsKey validator = true) .notAValidator
  let blockHeader ← okOr (s.blockHeaders blockNumber) .blockNotFound
  ensure (s.currentPhase = .posValidation) .invalidPhaseTransition
  let selected ← selectPosValidator T s.blockNumber s.stakers (selectionSeed T s blockNumber)
  let selection ← okOr selected .notAValidator
  ensure (selection.validator = validator) .notAValidator
  checkPqcSignature T s validator blockNumber pqcSignature
  let reward ← calculateBlockReward T T.blockReward
  let miner ← getMinerForBlock s blockNumber
  -- `ValidatorStakes` has not been written since the selection, so the list is the same
  let balances ← distributeRewards T miner s.stakers reward s.balances
  return closeRound s balances validator selection.weight blockNumber
    (signHeader T blockHeader validator blockNumber pqcSignature) miner reward

/-- Register PQC public key. -/
def registerPqcKey (s : State α H B) (origin : Origin α) (publicKey : PqcPublicKey) :
    Except Failure (State α H B) := do
  let validator ← ensureSigned origin
  return { s with validatorPqcPublicKeys := s.validatorPqcPublicKeys.insert validator publicKey }

/-! ## Slashing -/

/-- `(stake * percentage.into()) / 100`. -/
def slashAmount (stake : U128) (percentage : U8) : Except Failure U128 := do
  let product ← orPanic (mulChecked T.overflowChecks stake (percentage.setWidth 128))
  return product / 100

/-- The percentage `report_misbehavior` slashes for a reason. -/
def slashPercentage : SlashingReason → U8
  | .doubleSigning => T.doubleSignSlashPercentage
  | .invalidBlock => T.invalidBlockSlashPercentage
  | .downtime => T.downtimeSlashPercentage
  | .other => 10

/-- Note the report of a double signing or an invalid block. -/
def recordReport (s : State α H B) (validator : α) : SlashingReason → State α H B
  | .doubleSigning => { s with doubleSignReports := s.doubleSignReports.insert validator true }
  | .invalidBlock => { s with invalidBlockReports := s.invalidBlockReports.insert validator true }
  | _ => s

/-- Reduce a stake, as both slashing paths do, and announce it. -/
def applySlash (s : State α H B) (validator : α) (reason : SlashingReason)
    (currentStake amount : U128) : State α H B :=
  State.depositEvent
    { s with validatorStakes := s.validatorStakes.insert validator (saturatingSub currentStake amount) }
    (.validatorSlashed validator reason amount)

/-- Report validator misbehavior. -/
def reportMisbehavior (s : State α H B) (origin : Origin α) (validator : α)
    (reason : SlashingReason) : Except Failure (State α H B) := do
  let _reporter ← ensureSigned origin
  let s := recordReport s validator reason
  let currentStake := s.stakeOf validator
  let amount ← slashAmount T currentStake (slashPercentage T reason)
  return applySlash s validator reason currentStake amount

/-- The runtime block number as `check_downtime_slashing` reads it. -/
def currentBlock (s : State α H B) : U32 := saturatedInto 32 s.blockNumber

/-- The validator was last active more than `MaxDowntimeBlocks` before the current block. -/
def downtimeExceeded (s : State α H B) (lastActive : U32) : Prop :=
  T.maxDowntimeBlocks < saturatingSub (currentBlock s) lastActive

instance (s : State α H B) (lastActive : U32) : Decidable (downtimeExceeded T s lastActive) :=
  inferInstanceAs (Decidable (_ < _))

/-- The loop body of `check_downtime_slashing`. -/
def slashIfDown (s : State α H B) (entry : α × U32) : Except Failure (State α H B) :=
  if downtimeExceeded T s entry.2 then
    match s.validatorStakes.get entry.1 with
    | some stake => do
      let amount ← slashAmount T stake T.downtimeSlashPercentage
      -- the source records the slash before it deposits the event
      let record := (entry.1, SlashingReason.downtime, amount, s.blockNumber)
      return applySlash { s with slashingRecords := s.slashingRecords ++ [record] } entry.1 .downtime
        stake amount
    | none => .ok s
  else .ok s

/-- Check and apply slashing for downtime. -/
def checkDowntimeSlashing (s : State α H B) : Except Failure (State α H B) :=
  s.lastActiveBlock.iter.foldlM (slashIfDown T) s

/-! ## Hooks -/

/-- Adjust difficulty based on block time and entropy; the block time is a placeholder. -/
def adjustDifficulty (s : State α H B) : Except Failure (State α H B) := do
  let currentDifficulty := s.difficulty
  let targetBlockTime : U64 := 5
  let actualBlockTime : U64 := 5
  let entropy ← calculateEntropy T s.recentBlockProducers.toList
  let s := { s with currentEntropy := entropy }
  let newDifficulty := calculateDifficultyAdjustment currentDifficulty actualBlockTime
    targetBlockTime entropy
  if newDifficulty ≠ currentDifficulty then
    return State.depositEvent { s with difficulty := newDifficulty }
      (.difficultyAdjusted currentDifficulty newDifficulty)
  else return s

/-- Called at the beginning of each block. -/
def onInitialize (s : State α H B) (n : ℕ) : Except Failure (State α H B) := do
  let s ← (if n % 10 = 0 then checkDowntimeSlashing T s else .ok s)
  if n % 100 = 0 then adjustDifficulty T s else .ok s

/-- Called at the end of each block. -/
def onFinalize (s : State α H B) (_n : ℕ) : State α H B :=
  if s.currentPhase = .finalization then { s with currentPhase := .powMining } else s

end GhostConsensus
