import GhostConsensus.Runtime

/-!
# The mock runtime

The constants and the storage that the tests of the pallet run with, as `mock.rs` gives them.
-/

namespace GhostConsensus

/-- `impl pallet_ghost_consensus::Config for Test`; what is not a constant there is given. -/
def mockConfig {α H B : Type} (accountId : α) (hashOf : Preimage α H → H) (leadingU64 : H → U64)
    (currency : Currency α B) (verifyDetachedSignature : H → PqcSignature → PqcPublicKey → Bool)
    (std overflowChecks : Bool) : Config α H B where
  blockReward := 10000000000000000000
  minStake := 1000000000000000000
  maxDowntimeBlocks := 100
  doubleSignSlashPercentage := 100
  invalidBlockSlashPercentage := 50
  downtimeSlashPercentage := 10
  pqcRequired := true
  accountId
  hashOf
  leadingU64
  currency
  verifyDetachedSignature
  std
  overflowChecks

/-- The balances of Alice, Bob, Charlie, Dave and Eve. -/
def mockBalances : ℕ → U128
  | 1 | 2 | 3 => 100000000000000000000
  | 4 => 50000000000000000000
  | 5 => 25000000000000000000
  | _ => 0

/-- The storage that `ExtBuilder::build` prepares. -/
def mockState : State ℕ (List ℕ) (Accounts ℕ) :=
  { (genesis { free := mockBalances, issuance := 375 * 10 ^ 18 } :
      State ℕ (List ℕ) (Accounts ℕ)) with
    difficulty := 1000000000000 }

/-- The mock runtime in a debug build, with the hash that spells its input out. Its existential
deposit is 1, and its accounts are numbers, so that the escrow account reads `modlpy/g`. -/
def mockTest : Config ℕ (List ℕ) (Accounts ℕ) :=
  mockConfig 7435295033573797741 spell (fun h => BitVec.ofNat 64 (h.getD 0 0)) (Accounts.currency 1)
    (fun _ _ _ => false) true true

/-- Alice, Bob and Charlie stake 10, 20 and 15 tokens. -/
def mockStakes : List (Action ℕ (List ℕ)) :=
  [.dispatch (.signed 1) (.stake 10000000000000000000),
    .dispatch (.signed 2) (.stake 20000000000000000000),
    .dispatch (.signed 3) (.stake 15000000000000000000)]

end GhostConsensus
