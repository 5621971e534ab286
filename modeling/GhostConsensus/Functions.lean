import GhostConsensus.Balances

/-!
# Core functions of the pallet

The functions of `functions.rs`, over the associated items of the pallet's `Config` trait.
Arithmetic on machine integers wraps, or panics in a build with overflow checks
(`Config.overflowChecks`), and division by zero panics in every build; a computation that may panic
or fail returns an `Except Failure`.
-/

namespace GhostConsensus

open MachineInt

/-- `T: Config`: the constants of the pallet, the account `PalletId` stands for, the hasher and the
balances of the runtime, and the two properties of the build that the code depends on. -/
structure Config (α H B : Type) where
  blockReward : U128
  minStake : U128
  maxDowntimeBlocks : U32
  doubleSignSlashPercentage : U8
  invalidBlockSlashPercentage : U8
  downtimeSlashPercentage : U8
  pqcRequired : Bool
  /-- The escrow account, `PalletId::into_account_truncating`. -/
  accountId : α
  /-- `BlakeTwo256::hash_of`. -/
  hashOf : Preimage α H → H
  /-- The first eight bytes of a hash, read big-endian. -/
  leadingU64 : H → U64
  currency : Currency α B
  /-- `verify_detached_signature` of Dilithium5, on parsed bytes. -/
  verifyDetachedSignature : H → PqcSignature → PqcPublicKey → Bool
  /-- The `std` feature. -/
  std : Bool
  /-- Whether the build panics on arithmetic overflow. -/
  overflowChecks : Bool

/-- The same pallet in a build that panics on overflow. -/
def Config.checked {α H B : Type} (T : Config α H B) : Config α H B :=
  { T with overflowChecks := true }

section Failure

variable {σ : Type}

def orPanic : Option σ → Except Failure σ
  | some x => .ok x
  | none => .error .panic

/-- `ok_or(error)?`. -/
def okOr (x : Option σ) (error : Error) : Except Failure σ :=
  match x with
  | some x => .ok x
  | none => .error (.dispatch (.module error))

/-- `ensure!(condition, error)`. -/
def ensure (condition : Prop) [Decidable condition] (error : Error) : Except Failure Unit :=
  if condition then .ok () else .error (.dispatch (.module error))

/-- `ensure_signed(origin)?`. -/
def ensureSigned : Origin σ → Except Failure σ
  | .signed who => .ok who
  | _ => .error (.dispatch .badOrigin)

end Failure

variable {α H B : Type} [AccountId α] [DecidableEq H] (T : Config α H B)

/-! ## Difficulty and proof of work -/

/-- Calculate mining difficulty adjustment. The difficulty is the largest accepted hash prefix, so
a lower one is harder; an entropy below the threshold lowers it further. -/
def calculateDifficultyAdjustment (currentDifficulty actualBlockTime targetBlockTime entropy : U64) :
    U64 :=
  if hzero : actualBlockTime = 0 ∨ targetBlockTime = 0 then maximum (currentDifficulty / 2) 1
  else
    -- both branches of the source on `actual_block_time < target_block_time` are this expression
    let newTarget := maximum (divNonzero (saturatingMul currentDifficulty actualBlockTime)
      targetBlockTime fun h => hzero (.inr h)) 1
    let entropyThreshold : U64 := 4000000
    if entropy < entropyThreshold then
      let entropyFactor := saturatingAdd entropyThreshold entropy
      maximum (divNonzero (saturatingMul newTarget entropyFactor) (saturatingMul entropyThreshold 2)
        (by decide)) 1
    else newTarget

/-- Enhanced Blake2 PoW: the leading 64 bits of the double hash are within the target. -/
def verifyPowEnhanced (header : GhostBlockHeader H) (targetDifficulty : U64) : Bool :=
  let firstHash := T.hashOf (.pow header.number header.parentHash header.stateRoot
    header.extrinsicsRoot header.nonce)
  let finalHash := T.hashOf (.hash firstHash)
  decide (T.leadingU64 finalHash ≤ targetDifficulty)

/-- Validate a block header against its parent; `expectedDifficulty` is the stored difficulty. -/
def validateBlockHeader (expectedDifficulty : U64) (header parentHeader : GhostBlockHeader H) :
    Except Failure Unit := do
  let nextNumber ← orPanic (addChecked T.overflowChecks parentHeader.number 1)
  ensure (header.number = nextNumber) .invalidBlockNumber
  ensure (header.parentHash = T.hashOf (.header parentHeader)) .invalidParentHash
  ensure (verifyPowEnhanced T header header.difficulty = true) .invalidPow
  ensure (expectedDifficulty / 2 ≤ header.difficulty) .difficultyTooLow
  ensure (header.difficulty ≤ saturatingMul expectedDifficulty 2) .difficultyTooHigh

/-! ## Validator selection -/

/-- The loop of `select_pos_validator`. -/
def selectLoop (round randomValue : U64) :
    U64 → List (ValidatorStake α) → Except Failure (Option (PosSelection α))
  | _, [] => .ok none
  | cumulativeWeight, staker :: stakers => do
    let cumulativeWeight ← orPanic (addChecked T.overflowChecks cumulativeWeight staker.weight)
    if randomValue < cumulativeWeight then
      return some { validator := staker.account, weight := staker.weight, round }
    else selectLoop round randomValue cumulativeWeight stakers

/-- Select PoS validator based on stake weight, in the runtime block `runtimeBlock`. -/
def selectPosValidator (runtimeBlock : ℕ) (stakers : List (ValidatorStake α)) (seed : H) :
    Except Failure (Option (PosSelection α)) :=
  if stakers.isEmpty then .ok none
  else do
    let totalWeight ← orPanic (sumChecked T.overflowChecks (stakers.map ValidatorStake.weight))
    if totalWeight = 0 then return none
    else
      let randomValue ← orPanic (remChecked (T.leadingU64 seed) totalWeight)
      selectLoop T (saturatedInto 64 runtimeBlock) randomValue 0 stakers

/-- Verify PQC Dilithium signature; without `std` there is no verifier. -/
def verifyPqcSignature (message : H) (signature : PqcSignature) (publicKey : PqcPublicKey) : Bool :=
  T.std && T.verifyDetachedSignature message signature publicKey

/-! ## Rewards -/

/-- Split a block reward: 40% for the miner, the rest for the stakers. -/
def calculateBlockReward (totalReward : U128) : Except Failure BlockReward := do
  let product ← orPanic (mulChecked T.overflowChecks totalReward 40)
  let minerReward := product / 100
  let stakersReward ← orPanic (subChecked T.overflowChecks totalReward minerReward)
  return { total := totalReward, minerReward, stakersReward }

/-- Pay one staker its share of the stakers' reward. -/
def payStaker (stakersReward totalStake : U128) (balances : B) (staker : ValidatorStake α) :
    Except Failure B := do
  let product ← orPanic (mulChecked T.overflowChecks stakersReward staker.stake)
  let stakerReward ← orPanic (divChecked product totalStake)
  return T.currency.depositCreating balances staker.account stakerReward

/-- Distribute rewards to miner and stakers. -/
def distributeRewards (miner : α) (stakers : List (ValidatorStake α)) (reward : BlockReward)
    (balances : B) : Except Failure B := do
  let balances := T.currency.depositCreating balances miner reward.minerReward
  let totalStake ← orPanic (sumChecked T.overflowChecks (stakers.map ValidatorStake.stake))
  if totalStake = 0 then return balances
  else stakers.foldlM (payStaker T reward.stakersReward totalStake) balances

/-! ## Entropy of the block producers -/

/-- `u64::leading_zeros`. -/
def leadingZeros (x : U64) : ℕ := if x = 0 then 64 else 63 - Nat.log2 x.toNat

/-- Deterministic integer-based log2 scaled by 1,000,000. -/
def integerLog2Scaled (x : U64) : Except Failure U64 :=
  if x = 0 then .ok 0
  else do
    let scalingFactor : U64 := 1000000
    let integerPart := 63 - leadingZeros x
    let rem := x ^^^ ((1 : U64) <<< integerPart)
    let product ← orPanic (mulChecked T.overflowChecks rem scalingFactor)
    let fractionalPart ← orPanic (divChecked product ((1 : U64) <<< integerPart))
    let scaled ← orPanic (mulChecked T.overflowChecks (BitVec.ofNat 64 integerPart) scalingFactor)
    orPanic (addChecked T.overflowChecks scaled fractionalPart)

/-- `*counts.entry(producer).or_insert(0) += 1`. -/
def countProducer (counts : BTreeMap α U64) (producer : α) : Except Failure (BTreeMap α U64) := do
  let count ← orPanic (addChecked T.overflowChecks ((counts.get producer).getD 0) 1)
  return counts.insert producer count

/-- Add the contribution of one producer, who occurs `count` times. -/
def addEntropyTerm (log2Total totalCount totalEntropy count : U64) : Except Failure U64 := do
  let log2Count ← integerLog2Scaled T count
  let product ← orPanic (mulChecked T.overflowChecks count (saturatingSub log2Total log2Count))
  let term ← orPanic (divChecked product totalCount)
  return saturatingAdd totalEntropy term

/-- Shannon entropy of a list of accounts, scaled by 1,000,000. -/
def calculateEntropy (producers : List α) : Except Failure U64 :=
  let totalCount := BitVec.ofNat 64 producers.length
  if totalCount = 0 then .ok 0
  else do
    let counts ← producers.foldlM (countProducer T) ∅
    let log2Total ← integerLog2Scaled T totalCount
    (counts.iter.map Prod.snd).foldlM (addEntropyTerm T log2Total totalCount) 0

end GhostConsensus
