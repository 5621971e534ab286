import GhostConsensus.System

/-!
# The runtime

The constants the runtime gives the pallet, the storage of a chain at genesis, and an instance
whose parameters can be evaluated, with a collision-free hash, so that runs can be computed.
-/

namespace GhostConsensus

open Transition

/-! ## The constants of the runtime -/

/-- `EXISTENTIAL_DEPOSIT`, which is `MILLI_UNIT`. -/
def existentialDeposit : U128 := 1000000000

/-- `impl pallet_ghost_consensus::Config for Runtime`; what is not a constant there is given. -/
def runtimeConfig {α H B : Type} (accountId : α) (hashOf : Preimage α H → H) (leadingU64 : H → U64)
    (currency : Currency α B) (verifyDetachedSignature : H → PqcSignature → PqcPublicKey → Bool)
    (std overflowChecks : Bool) : Config α H B where
  blockReward := 10000000000000
  minStake := 1000000000000
  maxDowntimeBlocks := 100
  doubleSignSlashPercentage := 100
  invalidBlockSlashPercentage := 50
  downtimeSlashPercentage := 10
  pqcRequired := false
  accountId
  hashOf
  leadingU64
  currency
  verifyDetachedSignature
  std
  overflowChecks

/-! ## Genesis -/

/-- The storage of a chain at genesis: the pallet has no genesis config, so that all its items have
their defaults. -/
def genesis {α H B : Type} [AccountId α] (balances : B) : State α H B where
  difficulty := 0
  currentPhase := .powMining
  blockHeaders := .empty
  blockProducers := .empty
  validatorStakes := ∅
  lastActiveBlock := ∅
  doubleSignReports := .empty
  invalidBlockReports := .empty
  slashingRecords := []
  validatorPqcPublicKeys := .empty
  recentBlockProducers := ⟨[], Nat.zero_le _⟩
  currentEntropy := 0
  blockNumber := 0
  events := []
  balances

/-! ## A hash that can be evaluated -/

/-- A list with its length in front. -/
def encodeList (l : List ℕ) : List ℕ := l.length :: l

def encodeOption : Option (List ℕ) → List ℕ
  | none => [0]
  | some l => 1 :: encodeList l

theorem encodeList_append_inj {l l' r r' : List ℕ} (h : encodeList l ++ r = encodeList l' ++ r') :
    l = l' ∧ r = r' := by
  obtain ⟨hlength, h⟩ := List.cons.inj h
  exact List.append_inj h hlength

theorem encodeOption_append_inj {o o' : Option (List ℕ)} {r r' : List ℕ}
    (h : encodeOption o ++ r = encodeOption o' ++ r') : o = o' ∧ r = r' := by
  cases o with
  | none =>
    cases o' with
    | none => exact ⟨rfl, (List.cons.inj h).2⟩
    | some l' => cases (List.cons.inj h).1
  | some l =>
    cases o' with
    | none => cases (List.cons.inj h).1
    | some l' =>
      obtain ⟨rfl, hr⟩ := encodeList_append_inj (List.cons.inj h).2
      exact ⟨rfl, hr⟩

def encodeHeader (h : GhostBlockHeader (List ℕ)) : List ℕ :=
  h.number.toNat :: h.nonce.toNat :: h.difficulty.toNat ::
    (encodeList h.parentHash ++ (encodeList h.stateRoot ++ (encodeList h.extrinsicsRoot ++
      (encodeOption h.validatorSignature ++
        (encodeOption (h.pqcSignature.map fun sig => [sig.bytes.toNat]) ++ [])))))

theorem encodeHeader_injective : Function.Injective encodeHeader := by
  intro h h' heq
  obtain ⟨hnumber, heq⟩ := List.cons.inj heq
  obtain ⟨hnonce, heq⟩ := List.cons.inj heq
  obtain ⟨hdifficulty, heq⟩ := List.cons.inj heq
  obtain ⟨hparent, heq⟩ := encodeList_append_inj heq
  obtain ⟨hstate, heq⟩ := encodeList_append_inj heq
  obtain ⟨hextrinsics, heq⟩ := encodeList_append_inj heq
  obtain ⟨hvalidator, heq⟩ := encodeOption_append_inj heq
  obtain ⟨hpqc, -⟩ := encodeOption_append_inj heq
  have hsig : Function.Injective fun sig : PqcSignature => [sig.bytes.toNat] := by
    rintro ⟨b⟩ ⟨b'⟩ hb
    exact congrArg PqcSignature.mk (BitVec.eq_of_toNat_eq (List.cons.inj hb).1)
  cases h
  cases h'
  rw [GhostBlockHeader.mk.injEq]
  exact ⟨BitVec.eq_of_toNat_eq hnumber, hparent, hstate, hextrinsics, BitVec.eq_of_toNat_eq hnonce,
    BitVec.eq_of_toNat_eq hdifficulty, hvalidator, Option.map_injective hsig hpqc⟩

/-- A hash that spells its input out. -/
def spell : Preimage ℕ (List ℕ) → List ℕ
  | .header h => 0 :: encodeHeader h
  | .pow number parentHash stateRoot extrinsicsRoot nonce =>
    1 :: number.toNat :: nonce.toNat ::
      (encodeList parentHash ++ (encodeList stateRoot ++ encodeList extrinsicsRoot))
  | .hash h => 2 :: h
  | .signer validator blockNumber => [3, validator, blockNumber.toNat]
  | .seed blockNumber runtimeBlock => [4, blockNumber.toNat, runtimeBlock]

theorem spell_header_injective : Function.Injective fun h => spell (.header h) :=
  fun _ _ heq => encodeHeader_injective (List.cons.inj heq).2

theorem encodeList_injective : Function.Injective encodeList :=
  fun _ _ h => (List.cons.inj h).2

theorem spell_injective : Function.Injective spell := by
  intro x y h
  cases x <;> cases y <;> obtain ⟨htag, h⟩ := List.cons.inj h <;> try cases htag
  case header.header => exact congrArg Preimage.header (encodeHeader_injective h)
  case pow.pow =>
    obtain ⟨hnumber, h⟩ := List.cons.inj h
    obtain ⟨hnonce, h⟩ := List.cons.inj h
    obtain ⟨hparent, h⟩ := encodeList_append_inj h
    obtain ⟨hstate, h⟩ := encodeList_append_inj h
    rw [Preimage.pow.injEq]
    exact ⟨BitVec.eq_of_toNat_eq hnumber, hparent, hstate, encodeList_injective h,
      BitVec.eq_of_toNat_eq hnonce⟩
  case hash.hash => exact congrArg Preimage.hash h
  case signer.signer =>
    obtain ⟨hvalidator, h⟩ := List.cons.inj h
    rw [hvalidator, BitVec.eq_of_toNat_eq (List.cons.inj h).1]
  case seed.seed =>
    obtain ⟨hnumber, h⟩ := List.cons.inj h
    rw [BitVec.eq_of_toNat_eq hnumber, (List.cons.inj h).1]

/-! ## An instance that can be evaluated -/

instance : AccountId ℕ where
  storageKey := Function.Embedding.refl ℕ

/-- The runtime with natural numbers for accounts, of which `0` is the escrow, where every proof of
work passes and the first staker with a stake is selected. -/
def devConfig : Config ℕ (List ℕ) (Accounts ℕ) :=
  runtimeConfig 0 spell (fun _ => 0) (Accounts.currency existentialDeposit) (fun _ _ _ => false) true
    false

/-- Accounts `1` and `2` are endowed as by the genesis presets. -/
def devAccounts : Accounts ℕ where
  free who := if who = 1 ∨ who = 2 then 1 <<< 60 else 0
  issuance := 2 * 2 ^ 60

def devHeader : GhostBlockHeader (List ℕ) where
  number := 0
  parentHash := []
  stateRoot := []
  extrinsicsRoot := []
  nonce := 0
  difficulty := 0
  validatorSignature := none
  pqcSignature := none

/-- The genesis storage with a header at number `0`, as the tests of the pallet insert it. -/
def devState : State ℕ (List ℕ) (Accounts ℕ) :=
  { (genesis devAccounts : State ℕ (List ℕ) (Accounts ℕ)) with
    blockHeaders := StorageMap.empty.insert 0 devHeader }

/-- A header on top of `parent`. -/
def devChild (parent : GhostBlockHeader (List ℕ)) (nonce : U64) : GhostBlockHeader (List ℕ) :=
  { devHeader with number := parent.number + 1, parentHash := spell (.header parent), nonce }

def devBlock : GhostBlockHeader (List ℕ) := devChild devHeader 0

/-- A round: account `1` stakes, and validates the block that `2` has mined. -/
def devRound : List (Action ℕ (List ℕ)) :=
  [.onInitialize 1, .dispatch (.signed 1) (.stake 1000000000000),
    .dispatch (.signed 2) (.submitBlock devBlock), .dispatch (.signed 1) (.validateBlock 1 ⟨0⟩),
    .onFinalize 1]

/-- Empty runtime blocks, from block `first` on. -/
def emptyBlocks (first count : ℕ) : List (Action ℕ (List ℕ)) :=
  (List.range' first count).flatMap fun n => [.onInitialize n, .onFinalize n]

/-- The block that `2` mines on top of the block of `devRound`, as it is stored after the round. -/
def devNextBlock : GhostBlockHeader (List ℕ) :=
  devChild (signHeader devConfig devBlock 1 1 ⟨0⟩) 0

end GhostConsensus
