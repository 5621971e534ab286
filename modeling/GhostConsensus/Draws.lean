import Mathlib.Data.FinEnum
import GhostConsensus.Closing
import GhostConsensus.Mock

/-!
# Which validator is drawn

The seed draws a validator by weight. The draw goes through exactly when the weights, each of which
is a stake saturated to 64 bits, do not overflow together (`selects_iff`); then each staker is drawn
by its share of the seeds, up to the rounding of a remainder (`card_drawing`).
-/

namespace GhostConsensus

open MachineInt Transition

variable {α H B : Type}

/-! ## Overflow -/

section Selects

variable [AccountId α]

/-- The selection from the stakers of the state goes through, also where overflow panics, and is an
account with a stake. -/
def Selects (T : Config α H B) (s : State α H B) (seed : H) : Prop :=
  ∃ selection,
    selectPosValidator T.checked s.blockNumber s.stakers seed = .ok (some selection) ∧
      selectPosValidator T s.blockNumber s.stakers seed = .ok (some selection) ∧
      0 < (s.stakeOf selection.validator).toNat

/-- Where there is a stake, every seed selects an account with a stake, without overflow, if and only
if the saturated stakes sum up to less than `2 ^ 64`. -/
theorem selects_iff (T : Config α H B) {s : State α H B} (positive : 0 < s.totalStake) (seed : H) :
    Selects T s seed ↔ s.totalWeight < 2 ^ 64 := by
  have hpos := totalWeight_pos positive
  unfold Selects State.totalWeight at *
  constructor
  · rintro ⟨selection, hchecked, -, -⟩
    by_contra hge
    have hpanic := selectPosValidator_panic (T := T.checked) rfl (not_lt.1 hge) s.blockNumber seed
    rw [hpanic] at hchecked
    cases hchecked
  · intro hlt
    -- the selection does not depend on overflow checks
    have heq := selectPosValidator_eq (T := T) s.blockNumber seed hpos hlt
    have hchecked := selectPosValidator_eq (T := T.checked) s.blockNumber seed hpos hlt
    obtain ⟨staker, hstaker, hweight, hselect⟩ :=
      exists_selectPosValidator (T := T) s.blockNumber seed hpos hlt
    exact ⟨_, hchecked.trans (heq.symm.trans hselect), hselect, stakeOf_pos hstaker hweight⟩

/-- With 4, 6 and 8 tokens at stake every seed selects a validator. -/
theorem selects_iff_mock : ∃ h s, Run (step mockTest) mockState h s ∧ s.stakers.length = 3 ∧
    ∀ seed, Selects mockTest s seed := by
  obtain ⟨h, s, run, hcheck⟩ := exists_run_of_exec (step mockTest) mockState
    [.dispatch (.signed 1) (.stake 4000000000000000000),
      .dispatch (.signed 2) (.stake 6000000000000000000),
      .dispatch (.signed 3) (.stake 8000000000000000000)]
    (fun r => decide (r.2.stakers.length = 3 ∧ 0 < r.2.totalStake ∧ r.2.totalWeight < 2 ^ 64))
    (by decide +kernel)
  obtain ⟨hthree, hpos, hlt⟩ := of_decide_eq_true hcheck
  exact ⟨h, s, run, hthree, fun seed => (selects_iff mockTest hpos seed).2 hlt⟩

theorem not_selects_mockStakes : ∃ h s, Run (step mockTest) mockState h s ∧ 0 < s.totalStake ∧
    ∃ seed, ¬ Selects mockTest s seed := by
  obtain ⟨h, s, run, hcheck⟩ := exists_run_of_exec (step mockTest) mockState mockStakes
    (fun r => decide (0 < r.2.totalStake ∧ 2 ^ 64 ≤ r.2.totalWeight)) (by decide +kernel)
  obtain ⟨hpos, hle⟩ := of_decide_eq_true hcheck
  refine ⟨h, s, run, hpos, [], ?_⟩
  rintro ⟨selection, hchecked, -⟩
  rw [selectPosValidator_panic rfl hle] at hchecked
  cases hchecked

end Selects

/-! ## Shares of the seeds -/

section Drawing

open scoped Classical

variable (T : Config α H B) (runtimeBlock : ℕ) (stakers : List (ValidatorStake α))

/-- The values of the first eight bytes of the seed for which the account is selected, where
`seed r` is a seed with the value `r`. -/
noncomputable def drawing (seed : U64 → H) (account : α) : Finset U64 :=
  Finset.univ.filter fun r => ∃ selection,
    selectPosValidator T runtimeBlock stakers (seed r) = .ok (some selection) ∧
      selection.validator = account

/-- The total weight of a list of stakers. -/
def sumWeights : ℕ := (stakers.map ValidatorStake.natWeight).sum

variable {T runtimeBlock stakers}

/-- Stakers with distinct accounts are distinct. -/
theorem eq_of_account_eq (hnodup : (stakers.map ValidatorStake.account).Nodup)
    {staker other : ValidatorStake α} (hstaker : staker ∈ stakers) (hother : other ∈ stakers)
    (h : staker.account = other.account) : staker = other :=
  List.inj_on_of_nodup_map hnodup hstaker hother h

/-- The seeds that draw a staker are those whose remainder picks it. -/
theorem card_drawing_eq (hnodup : (stakers.map ValidatorStake.account).Nodup)
    (hpos : 0 < sumWeights stakers) (hlt : sumWeights stakers < 2 ^ 64) {seed : U64 → H}
    (hseed : ∀ r, T.leadingU64 (seed r) = r) {staker : ValidatorStake α} (hstaker : staker ∈ stakers) :
    (drawing T runtimeBlock stakers seed staker.account).card =
      ((Finset.range (2 ^ 64)).filter fun r =>
        Weights.pick ValidatorStake.natWeight (r % sumWeights stakers) stakers = some staker).card := by
  have hmem : ∀ r : U64, r ∈ drawing T runtimeBlock stakers seed staker.account ↔
      Weights.pick ValidatorStake.natWeight (r.toNat % sumWeights stakers) stakers =
        some staker := by
    intro r
    obtain ⟨other, hother, -, hpick⟩ := Weights.exists_pick (Nat.mod_lt r.toNat hpos)
    unfold drawing
    rw [Finset.mem_filter, selectPosValidator_eq runtimeBlock (seed r) hpos hlt, hseed]
    unfold sumWeights
    rw [hpick]
    simp only [Finset.mem_univ, true_and, Option.map_some, Except.ok.injEq, Option.some.injEq,
      exists_eq_left']
    exact ⟨eq_of_account_eq hnodup hother hstaker, fun h => congrArg ValidatorStake.account h⟩
  refine Finset.card_bij (fun r _ => r.toNat) ?_ ?_ ?_
  · intro r hr
    exact Finset.mem_filter.2 ⟨Finset.mem_range.2 r.isLt, (hmem r).1 hr⟩
  · intro r _ r' _ h
    exact BitVec.eq_of_toNat_eq h
  · intro r hr
    obtain ⟨hrange, hpick⟩ := Finset.mem_filter.1 hr
    have hval : (BitVec.ofNat 64 r).toNat = r := toNat_ofNat_of_lt (Finset.mem_range.1 hrange)
    exact ⟨BitVec.ofNat 64 r, (hmem _).2 (by rw [hval]; exact hpick), hval⟩

variable (T runtimeBlock stakers) in
/-- Every seed selects a staker of positive weight, with its own weight, and among the values of the
first eight bytes of the seed each staker is drawn in proportion to its weight. -/
theorem card_drawing (hnodup : (stakers.map ValidatorStake.account).Nodup)
    (hpos : 0 < sumWeights stakers) (hlt : sumWeights stakers < 2 ^ 64) {seed : U64 → H}
    (hseed : ∀ r, T.leadingU64 (seed r) = r) :
    (∀ anySeed, ∃ staker ∈ stakers, 0 < staker.natWeight ∧
      selectPosValidator T runtimeBlock stakers anySeed = .ok (some
        { validator := staker.account, weight := staker.weight
          round := saturatedInto 64 runtimeBlock })) ∧
      ∀ staker ∈ stakers,
        staker.natWeight * (2 ^ 64 / sumWeights stakers) ≤
            (drawing T runtimeBlock stakers seed staker.account).card ∧
          (drawing T runtimeBlock stakers seed staker.account).card ≤
            staker.natWeight * (2 ^ 64 / sumWeights stakers + 1) := by
  constructor
  · intro anySeed
    exact exists_selectPosValidator runtimeBlock anySeed hpos hlt
  · intro staker hstaker
    rw [card_drawing_eq hnodup hpos hlt hseed hstaker]
    exact Weights.card_filter_pick (2 ^ 64) (List.Nodup.of_map _ hnodup) hstaker

/-- Of the weights 3, 0 and 2, the first is drawn by three fifths of the seeds, the second never. -/
theorem card_drawing_mock :
    3 * 3689348814741910323 ≤ (drawing mockTest 0 [⟨1, 3, 3⟩, ⟨2, 0, 0⟩, ⟨3, 2, 2⟩]
        (fun r => [r.toNat]) 1).card ∧
      drawing mockTest 0 [⟨1, 3, 3⟩, ⟨2, 0, 0⟩, ⟨3, 2, 2⟩] (fun r => [r.toNat]) 2 = ∅ := by
  have hseed : ∀ r : U64, mockTest.leadingU64 [r.toNat] = r := fun r =>
    BitVec.eq_of_toNat_eq (toNat_ofNat_of_lt r.isLt)
  obtain ⟨-, hshares⟩ := card_drawing mockTest 0 [⟨1, 3, 3⟩, ⟨2, 0, 0⟩, ⟨3, 2, 2⟩] (by decide)
    (by decide) (by decide) hseed
  refine ⟨(hshares ⟨1, 3, 3⟩ (by decide)).1, ?_⟩
  have hnone := (hshares ⟨2, 0, 0⟩ (by decide)).2
  exact Finset.card_eq_zero.1 (Nat.le_zero.1 (hnone.trans (by decide)))

end Drawing

end GhostConsensus
