import GhostConsensus.Runtime

/-!
# What a validator's signature binds

The message a validator signs, and the signature stored in the header, are made of the validator and
the number of the block. No guard of `validate_block` reads what is in the header: the call goes
through with every header stored at that number, or with none (`validates_withHeader`).
-/

namespace GhostConsensus

open Transition MachineInt

variable {α H B : Type} [AccountId α]

/-- The state that differs from `s` by holding `header` at number `n`. -/
def State.withHeader (s : State α H B) (n : U32) (header : GhostBlockHeader H) : State α H B :=
  { s with blockHeaders := s.blockHeaders.insert n header }

section Definitions

variable (T : Config α H B) (s : State α H B) (v : α) (n : U32) (sig : PqcSignature)

/-- `validate_block` goes through. -/
def Validates : Prop := ∃ s', validateBlock T s (.signed v) n sig = .ok s'

instance : Decidable (Validates T s v n sig) :=
  decidable_of_iff _ isOk_eq_true

/-- The guards of `validate_block` that are left when a header is stored let `v` validate block `n`,
and the rewards can be paid. -/
structure Entitled : Prop where
  staker : s.validatorStakes.containsKey v = true
  phase : s.currentPhase = .posValidation
  selected : selectedValidator T s n = some v
  pqc : checkPqcSignature T s v n sig = .ok ()
  paid : ∃ miner reward balances, s.blockProducers n = some miner ∧
    calculateBlockReward T T.blockReward = .ok reward ∧
    distributeRewards T miner s.stakers reward s.balances = .ok balances

/-- A call that goes through with `header` stored at `n` fails with `header'` stored there. -/
def Binds (header header' : GhostBlockHeader H) : Prop :=
  Validates T (s.withHeader n header) v n sig → ¬Validates T (s.withHeader n header') v n sig

end Definitions

variable {T : Config α H B} {s : State α H B} {v : α} {n : U32} {sig : PqcSignature}

/-- Whether a call goes through does not depend on the header. -/
theorem validates_withHeader (header : GhostBlockHeader H) :
    Validates T (s.withHeader n header) v n sig ↔ Entitled T s v n sig := by
  constructor
  · rintro ⟨s', hok⟩
    obtain ⟨validator, stored, selection, reward, miner, balances, ho, hcloses, -⟩ :=
      validateBlock_eq_ok.1 hok
    obtain rfl := Origin.signed.inj ho
    exact ⟨hcloses.staker, hcloses.phase, hcloses.selectedValidator_eq, hcloses.pqc,
      miner, reward, balances, hcloses.miner_stored, hcloses.reward_eq, hcloses.paid⟩
  · rintro ⟨hstaker, hphase, hselected, hpqc, miner, reward, balances, hminer, hreward, hpaid⟩
    obtain ⟨selection, hselect, hvalidator⟩ := exists_selection hselected
    exact ⟨_, validateBlock_eq_ok.2 ⟨v, header, selection, reward, miner, balances, rfl,
      ⟨hstaker, StorageMap.insert_self _ _ _, hphase, hselect, hvalidator, hpqc, hreward, hminer,
        hpaid⟩, rfl⟩⟩

/-- A signature binds the block it was made for exactly when it is not accepted at all. -/
theorem binds_iff (header header' : GhostBlockHeader H) :
    Binds T s v n sig header header' ↔ ¬Entitled T s v n sig := by
  rw [Binds, validates_withHeader, validates_withHeader, imp_not_self]

/-- The runtime with on-chain signature checks. In place of Dilithium, a signature is the sum of the
key and the message. -/
def pqcConfig : Config ℕ (List ℕ) (Accounts ℕ) :=
  { devConfig with
    pqcRequired := true
    verifyDetachedSignature := fun message sig key =>
      decide (sig.bytes.toNat = key.toNat + message.sum) }

/-- The signature of a validator is accepted with the block that was mined, and with another one. -/
theorem not_binds :
    ∃ h s sig, Run (step pqcConfig) devState h s ∧ pqcConfig.pqcRequired = true ∧
      Function.Injective pqcConfig.hashOf ∧ s.blockHeaders 1 = some devBlock ∧
      devBlock.nonce ≠ (devChild devHeader 1).nonce ∧
      ¬Binds pqcConfig s 1 1 sig devBlock (devChild devHeader 1) := by
  obtain ⟨h, s, run, hcheck⟩ := exists_run_of_exec (step pqcConfig) devState
    [.dispatch (.signed 1) (.stake 1000000000000), .dispatch (.signed 1) (.registerPqcKey 7),
      .dispatch (.signed 2) (.submitBlock devBlock)]
    (fun r => decide (r.2.blockHeaders 1 = some devBlock ∧
      Validates pqcConfig (r.2.withHeader 1 devBlock) 1 1 ⟨12⟩ ∧
      Validates pqcConfig (r.2.withHeader 1 (devChild devHeader 1)) 1 1 ⟨12⟩)) (by decide +kernel)
  obtain ⟨hstored, hvalid, hvalid'⟩ := of_decide_eq_true hcheck
  exact ⟨h, s, ⟨12⟩, run, rfl, spell_injective, hstored, by decide, fun hbinds => hbinds hvalid hvalid'⟩

end GhostConsensus
