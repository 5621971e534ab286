import GhostConsensus.Lib.MachineInt
import GhostConsensus.Lib.OrderedMap

/-!
# Types of the Ghost consensus pallet

The data types of `types.rs`, the errors, events and origins of `lib.rs`, and the storage types
of FRAME. The account type `α` and the hash type `H` stay parameters, as in the pallet.
-/

namespace GhostConsensus

abbrev U8 := BitVec 8
abbrev U32 := BitVec 32
abbrev U64 := BitVec 64
abbrev U128 := BitVec 128

/-- `T::AccountId`: the order is its `Ord`; `storageKey` is the key `Blake2_128Concat` gives an
account in the storage trie, read as a number, and fixes the order in which maps are iterated. -/
class AccountId (α : Type) extends LinearOrder α where
  storageKey : α ↪ ℕ

/-! ## `types.rs` -/

structure PqcSignature where
  bytes : BitVec (8 * 4627)
  deriving DecidableEq

abbrev PqcPublicKey := BitVec (8 * 2592)

structure GhostBlockHeader (H : Type) where
  number : U32
  parentHash : H
  stateRoot : H
  extrinsicsRoot : H
  nonce : U64
  difficulty : U64
  validatorSignature : Option H
  pqcSignature : Option PqcSignature
  deriving DecidableEq

structure ValidatorStake (α : Type) where
  account : α
  stake : U128
  weight : U64
  deriving DecidableEq

structure PosSelection (α : Type) where
  validator : α
  weight : U64
  round : U64
  deriving DecidableEq

structure BlockReward where
  total : U128
  minerReward : U128
  stakersReward : U128
  deriving DecidableEq

inductive ConsensusPhase where
  | powMining
  | posValidation
  | finalization
  deriving DecidableEq

inductive SlashingReason where
  | doubleSigning
  | invalidBlock
  | downtime
  | other
  deriving DecidableEq

/-- What the pallet hashes with `BlakeTwo256::hash_of`: a whole header, the fields a miner works
on, a hash, a validator with the block it signs, a block with the runtime block (the seed). -/
inductive Preimage (α H : Type) where
  | header (header : GhostBlockHeader H)
  | pow (number : U32) (parentHash stateRoot extrinsicsRoot : H) (nonce : U64)
  | hash (h : H)
  | signer (validator : α) (blockNumber : U32)
  | seed (blockNumber : U32) (runtimeBlock : ℕ)
  deriving DecidableEq

/-! ## Errors, origins, events -/

inductive Error where
  | invalidBlockNumber
  | invalidParentHash
  | invalidPow
  | difficultyTooLow
  | difficultyTooHigh
  | insufficientStake
  | notAValidator
  | blockNotFound
  | invalidPhaseTransition
  | invalidPqcSignature
  | pqcPublicKeyNotFound
  deriving DecidableEq

/-- `sp_runtime::DispatchError`, as far as the pallet returns it. -/
inductive DispatchError where
  | badOrigin
  | module (error : Error)
  /-- An error of `pallet_balances`. -/
  | balances
  deriving DecidableEq

/-- Why a call did not go through: it returned an error, or it panicked. -/
inductive Failure where
  | dispatch (error : DispatchError)
  | panic
  deriving DecidableEq

inductive Origin (α : Type) where
  | root
  | signed (who : α)
  | none
  deriving DecidableEq

inductive Event (α : Type) where
  | blockMined (blockNumber : U32) (miner : α) (nonce : U64)
  | validatorSelected (validator : α) (weight : U64)
  | rewardsDistributed (miner : α) (minerReward stakersReward : U128)
  | validatorSlashed (validator : α) (reason : SlashingReason) (amount : U128)
  | difficultyAdjusted (oldDifficulty newDifficulty : U64)
  deriving DecidableEq

/-! ## Storage types -/

/-- A `StorageMap` that the pallet never iterates. -/
abbrev StorageMap (K V : Type) := K → Option V

/-- A map with no entry. -/
def StorageMap.empty {K V : Type} : StorageMap K V := fun _ => none

/-- `StorageMap::insert`. -/
def StorageMap.insert {K V : Type} [DecidableEq K] (m : StorageMap K V) (k : K) (v : V) :
    StorageMap K V :=
  Function.update m k (some v)

section StorageMap

variable {K V : Type} [DecidableEq K] (m : StorageMap K V)

@[simp]
theorem StorageMap.insert_self (k : K) (v : V) : m.insert k v k = some v :=
  Function.update_self _ _ _

theorem StorageMap.insert_of_ne {k k' : K} (h : k' ≠ k) (v : V) : m.insert k v k' = m k' :=
  Function.update_of_ne h _ _

theorem StorageMap.insert_eq_some {k k' : K} {v v' : V} :
    m.insert k v k' = some v' ↔ k' = k ∧ v = v' ∨ k' ≠ k ∧ m k' = some v' := by
  by_cases h : k' = k
  · subst h
    simp
  · rw [m.insert_of_ne h]
    simp [h]

theorem StorageMap.insert_apply (k k' : K) (v : V) :
    m.insert k v k' = if k' = k then some v else m k' :=
  Function.update_apply _ _ _ _

theorem StorageMap.isSome_insert (k k' : K) (v : V) :
    (m.insert k v k').isSome = true ↔ k' = k ∨ (m k').isSome = true := by
  rw [m.insert_apply]
  by_cases h : k' = k <;> simp [h]

end StorageMap

/-- A `StorageMap` keyed by account, with the order in which `iter` visits it. -/
abbrev IterableStorageMap (α V : Type) [AccountId α] :=
  OrderedMap α V (AccountId.storageKey (α := α))

/-- A `BTreeMap` keyed by account. -/
abbrev BTreeMap (α V : Type) [LinearOrder α] :=
  OrderedMap α V (Function.Embedding.refl α)

/-- `BoundedVec`: a vector that carries its bound. -/
structure BoundedVec (α : Type) (bound : ℕ) where
  toList : List α
  length_le : toList.length ≤ bound

namespace BoundedVec

variable {α : Type} {bound : ℕ}

/-- `try_push`: the vector is returned unchanged when it is full. -/
def tryPush (v : BoundedVec α bound) (x : α) : BoundedVec α bound :=
  if h : v.toList.length < bound then ⟨v.toList ++ [x], by rw [List.length_append]; exact h⟩ else v

/-- `remove(0)`, which panics on an empty vector. -/
def removeFirst (v : BoundedVec α bound) (_nonempty : v.toList ≠ []) : BoundedVec α bound :=
  ⟨v.toList.drop 1, by rw [List.length_drop]; exact (Nat.sub_le _ _).trans v.length_le⟩

variable [NeZero bound]

theorem ne_nil_of_bound_le {v : BoundedVec α bound} (h : bound ≤ v.toList.length) : v.toList ≠ [] :=
  List.ne_nil_of_length_pos ((Nat.pos_of_neZero bound).trans_le h)

/-- Make room for one more element: a full vector loses its first one. -/
def makeRoom (v : BoundedVec α bound) : BoundedVec α bound :=
  if h : bound ≤ v.toList.length then v.removeFirst (ne_nil_of_bound_le h) else v

theorem length_makeRoom_lt (v : BoundedVec α bound) : v.makeRoom.toList.length < bound := by
  have := v.length_le
  have := Nat.pos_of_neZero bound
  unfold makeRoom
  split
  · rw [removeFirst, List.length_drop]
    omega
  · omega

omit [NeZero bound] in
theorem toList_tryPush_of_lt {v : BoundedVec α bound} (h : v.toList.length < bound) (x : α) :
    (v.tryPush x).toList = v.toList ++ [x] := by
  rw [tryPush, dif_pos h]

end BoundedVec

end GhostConsensus
