import GhostConsensus.Difficulty

/-!
# How hard a block is

The proof of work does not hash the difficulty that a header declares, and the declared difficulty
may be up to twice the stored one, so twice the stored difficulty is what the work of a block is
measured by. As long as the entropy of the producers stays below the threshold, every retarget takes
the stored difficulty down by a constant factor.
-/

namespace GhostConsensus

open Transition MachineInt

variable {α H B : Type} [AccountId α]

section Definitions

variable (T : Config α H B)

/-- What `verify_pow_enhanced` compares with the target. -/
def powValue (header : GhostBlockHeader H) : U64 :=
  T.leadingU64 (T.hashOf (.hash (T.hashOf (.pow header.number header.parentHash header.stateRoot
    header.extrinsicsRoot header.nonce))))

/-- The header with another declared difficulty. -/
def GhostBlockHeader.declaring (header : GhostBlockHeader H) (difficulty : U64) :
    GhostBlockHeader H :=
  { header with difficulty }

/-- What `submit_block` asks of a header apart from its work. -/
structure Follows (s : State α H B) (header parent : GhostBlockHeader H) : Prop where
  phase : s.currentPhase = .powMining
  positive : 0 < header.number
  parent_stored : s.blockHeaders (header.number - 1) = some parent
  next : addChecked T.overflowChecks parent.number 1 = some header.number
  parent_hash : header.parentHash = T.hashOf (.header parent)

/-- The action retargets the difficulty. -/
def Action.retargets : Action α H → Bool
  | .onInitialize n => n % 100 == 0
  | _ => false

/-- The number of retargets in a history. -/
def retargetCount (h : List (Record α H B)) : ℕ := h.countP fun e => e.2.retargets

/-- If the step retargets, the entropy it steers by is at most `E`. -/
def EntropyAtMost (E : ℕ) (e : Record α H B) : Prop :=
  e.2.retargets = true → ∀ entropy ∈ (calculateEntropy T e.1.recentBlockProducers.toList).toOption,
    entropy.toNat ≤ E

instance (E : ℕ) (e : Record α H B) : Decidable (EntropyAtMost T E e) :=
  inferInstanceAs (Decidable (_ → ∀ _ ∈ _, _))

end Definitions

variable {T : Config α H B}

/-! ## The work of one header -/

section Work

omit [AccountId α] in
theorem verifyPowEnhanced_eq_true {header : GhostBlockHeader H} {target : U64} :
    verifyPowEnhanced T header target = true ↔ powValue T header ≤ target := by
  unfold verifyPowEnhanced powValue
  exact decide_eq_true_iff

variable [DecidableEq H]

theorem accepts_iff {s : State α H B} {header parent : GhostBlockHeader H} :
    Accepts T s header parent ↔ Follows T s header parent ∧
      powValue T header ≤ header.difficulty ∧ s.difficulty / 2 ≤ header.difficulty ∧
        header.difficulty ≤ saturatingMul s.difficulty 2 := by
  constructor
  · intro h
    obtain ⟨hnext, hhash, hpow, hlow, hhigh⟩ := validateBlockHeader_eq_ok.1 h.valid
    exact ⟨⟨h.phase, h.positive, h.parent_stored, hnext, hhash⟩, verifyPowEnhanced_eq_true.1 hpow,
      hlow, hhigh⟩
  · rintro ⟨hfollows, hpow, hlow, hhigh⟩
    refine ⟨hfollows.phase, hfollows.positive, hfollows.parent_stored, ?_⟩
    apply validateBlockHeader_eq_ok.2
    exact ⟨hfollows.next, hfollows.parent_hash, verifyPowEnhanced_eq_true.2 hpow, hlow, hhigh⟩

theorem half_le_double (d : U64) : d / 2 ≤ saturatingMul d 2 := by
  have htwo : (2 : U64).toNat = 2 := rfl
  have := d.isLt
  rw [BitVec.le_def, BitVec.toNat_udiv, toNat_saturatingMul, htwo]
  omega

/-- The miner chooses the difficulty it declares: some choice gets a header accepted if and only if
its hash is within twice the stored difficulty. -/
theorem exists_declaring_iff (s : State α H B) (header : GhostBlockHeader H) (miner : α) :
    (∃ difficulty s', submitBlock T s (.signed miner) (header.declaring difficulty) = .ok s') ↔
      (∃ parent, Follows T s header parent) ∧
        powValue T header ≤ saturatingMul s.difficulty 2 := by
  constructor
  · rintro ⟨difficulty, s', hok⟩
    obtain ⟨_, parent, -, haccepts, -⟩ := submitBlock_eq_ok.1 hok
    obtain ⟨hfollows, hpow, -, hhigh⟩ := accepts_iff.1 haccepts
    refine ⟨⟨parent, ?_⟩, BitVec.le_trans hpow hhigh⟩
    exact ⟨hfollows.phase, hfollows.positive, hfollows.parent_stored, hfollows.next,
      hfollows.parent_hash⟩
  · rintro ⟨⟨parent, hfollows⟩, hpow⟩
    refine ⟨saturatingMul s.difficulty 2, _, submitBlock_eq_ok.2 ⟨miner, parent, rfl, ?_, rfl⟩⟩
    apply accepts_iff.2
    refine ⟨?_, hpow, half_le_double s.difficulty, BitVec.le_refl _⟩
    exact ⟨hfollows.phase, hfollows.positive, hfollows.parent_stored, hfollows.next,
      hfollows.parent_hash⟩

end Work

/-! ## The decay of the difficulty -/

/-- A retarget on target time multiplies the difficulty by at most `(4000000 + E) / 8000000`, down to
a floor of `1`. -/
theorem steeredTarget_mul_le {current entropy E : ℕ} (hE : E ≤ 4000000) (hentropy : entropy ≤ E) :
    steeredTarget (baseTarget current 5 5) entropy * 8000000 ≤
      max 8000000 (current * (4000000 + E)) := by
  have hbase : baseTarget current 5 5 ≤ max current 1 := by
    unfold baseTarget
    omega
  have hle : baseTarget current 5 5 * (4000000 + entropy) ≤ max current 1 * (4000000 + E) :=
    Nat.mul_le_mul hbase (Nat.add_le_add_left hentropy _)
  have hfloor : max current 1 * (4000000 + E) ≤ max 8000000 (current * (4000000 + E)) := by
    rw [← Nat.mul_max_mul_right]
    omega
  unfold steeredTarget
  split
  · omega
  · rename_i hhigh
    have heq : 4000000 + entropy = 8000000 := by omega
    rw [heq] at hle
    omega

theorem toNat_retarget_mul_le {current entropy : U64} {E : ℕ} (hE : E ≤ 4000000)
    (hentropy : entropy.toNat ≤ E) :
    (calculateDifficultyAdjustment current 5 5 entropy).toNat * 8000000 ≤
      max 8000000 (current.toNat * (4000000 + E)) := by
  rw [toNat_calculateDifficultyAdjustment (by decide) (by decide)]
  exact steeredTarget_mul_le hE hentropy

variable [DecidableEq H]

/-- The difficulty changes by a retarget only. -/
theorem step_difficulty {s s' : State α H B} {a : Action α H} (h : step T s a = some s') :
    (a.retargets = false → s'.difficulty = s.difficulty) ∧
      (a.retargets = true → ∃ entropy, calculateEntropy T s.recentBlockProducers.toList = .ok entropy ∧
        s'.difficulty = calculateDifficultyAdjustment s.difficulty 5 5 entropy) := by
  cases step_effect h with
  | rejected | submitted | staked | unstaked | validated | registered =>
    exact ⟨fun _ => rfl, fun hret => by cases hret⟩
  | @reported _ _ reason => exact ⟨fun _ => by cases reason <;> rfl, fun hret => by cases hret⟩
  | finalized => exact ⟨fun _ => by rw [onFinalize_eq], fun hret => by cases hret⟩
  | @initialized n _ hinit =>
    obtain ⟨hkept, hretarget⟩ := onInitialize_difficulty hinit
    constructor
    · intro hret
      exact hkept (by simpa [Action.retargets] using hret)
    · intro hret
      exact hretarget (by simpa [Action.retargets] using hret)

/-- After `k` retargets with entropies of at most `E` the difficulty has been multiplied by at most
`((4000000 + E) / 8000000) ^ k`, down to a floor of `1`. -/
theorem run_difficulty_decay {E : ℕ} (hE : E ≤ 4000000) {s₀ s : State α H B}
    {h : List (Record α H B)} (run : Run (step T) s₀ h s) (low : ∀ e ∈ h, EntropyAtMost T E e) :
    s.difficulty.toNat * 8000000 ^ retargetCount h ≤
      max (8000000 ^ retargetCount h) (s₀.difficulty.toNat * (4000000 + E) ^ retargetCount h) := by
  refine run.decay (by omega) (fun t => t.difficulty.toNat) (fun e => e.2.retargets) ?_ ?_
  · intro e he hret u hstep
    obtain ⟨entropy, hentropy, hafter⟩ := (step_difficulty hstep).2 hret
    have hle := low e he hret entropy (by rw [hentropy]; rfl)
    rw [hafter]
    exact toNat_retarget_mul_le hE hle
  · intro e _ hret u hstep
    rw [(step_difficulty hstep).1 hret]

/-- The work of a block accepted after `k` retargets with entropies of at most `E`: its hash is at
most twice the difficulty of the start, multiplied by `((4000000 + E) / 8000000) ^ k`, or `2`. -/
theorem run_hardness {E : ℕ} (hE : E ≤ 4000000) {s₀ s : State α H B} {h : List (Record α H B)}
    (run : Run (step T) s₀ h s) (low : ∀ e ∈ h, EntropyAtMost T E e) :
    ∀ post pre e, h = post ++ e :: pre → ∀ miner header, submission T e = some (miner, header) →
      (powValue T header).toNat * 8000000 ^ retargetCount pre ≤
        2 * max (8000000 ^ retargetCount pre)
          (s₀.difficulty.toNat * (4000000 + E) ^ retargetCount pre) := by
  rintro post pre ⟨t, a⟩ rfl miner header hsub
  obtain ⟨hpre, t', hstep, -⟩ := run.at_step
  have hdecay := run_difficulty_decay hE hpre fun e he =>
    low e (List.mem_append_right _ (List.mem_cons_of_mem _ he))
  have hwork : (powValue T header).toNat ≤ 2 * t.difficulty.toNat := by
    cases step_chain hstep with
    | accepted _ hsub' _ haccepts =>
      obtain ⟨-, rfl⟩ := Prod.mk.inj (Option.some.inj (hsub.symm.trans hsub'))
      obtain ⟨-, hpow, -, hhigh⟩ := accepts_iff.1 haccepts
      have htwice : (powValue T header).toNat ≤ (saturatingMul t.difficulty 2).toNat :=
        BitVec.le_def.1 (BitVec.le_trans hpow hhigh)
      rw [toNat_saturatingMul, show (2 : U64).toNat = 2 from rfl] at htwice
      omega
    | closed _ hsub' | reopened _ _ hsub' | unchanged hsub' =>
      rw [hsub] at hsub'
      cases hsub'
  calc (powValue T header).toNat * 8000000 ^ retargetCount pre
      ≤ 2 * t.difficulty.toNat * 8000000 ^ retargetCount pre := Nat.mul_le_mul_right _ hwork
    _ = 2 * (t.difficulty.toNat * 8000000 ^ retargetCount pre) := Nat.mul_assoc _ _ _
    _ ≤ _ := Nat.mul_le_mul_left _ hdecay

/-- The runtime with a fixed outcome of the work. -/
def devWorkConfig : Config ℕ (List ℕ) (Accounts ℕ) := { devConfig with leadingU64 := fun _ => 900 }

theorem run_hardness_devWork :
    ∃ pre e s, Run (step devWorkConfig) { devState with difficulty := 1000 } (e :: pre) s ∧
      (submission devWorkConfig e).isSome = true ∧ retargetCount pre = 1 ∧ e.1.difficulty = 500 ∧
      900 * 8000000 ^ 1 ≤ 2 * max (8000000 ^ 1) (1000 * 4000000 ^ 1) := by
  obtain ⟨h, s, run, hcheck⟩ := exists_run_of_exec (step devWorkConfig)
    { devState with difficulty := 1000 }
    [.onInitialize 100, .dispatch (.signed 2) (.submitBlock { devBlock with difficulty := 1000 })]
    (fun r => decide ((∀ e ∈ r.1, EntropyAtMost devWorkConfig 0 e) ∧
      ∃ e ∈ r.1.head?, submission devWorkConfig e = some (2, { devBlock with difficulty := 1000 }) ∧
        retargetCount r.1.tail = 1 ∧ e.1.difficulty = 500)) (by decide +kernel)
  obtain ⟨hlow, e, hhead, hsub, hcount, hdifficulty⟩ := of_decide_eq_true hcheck
  cases h with
  | nil => cases hhead
  | cons e' pre =>
    obtain rfl := Option.some.inj hhead
    have hhard := run_hardness (by decide) run hlow [] pre e' rfl _ _ hsub
    rw [show retargetCount pre = 1 from hcount] at hhard
    exact ⟨pre, e', s, run, by rw [hsub]; rfl, hcount, hdifficulty, hhard⟩

end GhostConsensus
