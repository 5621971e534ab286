import GhostConsensus.Draws
import Mathlib.Algebra.BigOperators.Ring.List

/-!
# Coalitions of validators

Some of the stakers may belong together. The seeds that draw one of them are as many as the weights
of all of them together call for, up to one seed for each unit of weight, so that it makes no
difference whether the stake is held by one account or spread over many (`coalition_split`).
-/

namespace GhostConsensus

open scoped Classical

variable {α H B : Type} (T : Config α H B) (runtimeBlock : ℕ) (stakers : List (ValidatorStake α))

/-- The values of the first eight bytes of the seed for which a member of the coalition is selected,
where `seed r` is a seed with the value `r`. -/
noncomputable def coalitionDraws (seed : U64 → H) (members : Set α) : Finset U64 :=
  Finset.univ.filter fun r => ∃ selection,
    selectPosValidator T runtimeBlock stakers (seed r) = .ok (some selection) ∧
      selection.validator ∈ members

/-- The stakers of the coalition. -/
noncomputable def coalitionOf (members : Set α) : List (ValidatorStake α) :=
  stakers.filter fun staker => decide (staker.account ∈ members)

/-- The total weight of the coalition. -/
noncomputable def coalitionWeight (members : Set α) : ℕ := sumWeights (coalitionOf stakers members)

variable {T runtimeBlock stakers} {seed : U64 → H}

theorem mem_drawing {r : U64} {account : α} : r ∈ drawing T runtimeBlock stakers seed account ↔
    ∃ selection, selectPosValidator T runtimeBlock stakers (seed r) = .ok (some selection) ∧
      selection.validator = account := by
  unfold drawing
  rw [Finset.mem_filter]
  exact and_iff_right (Finset.mem_univ r)

theorem nodup_coalitionOf (hnodup : (stakers.map ValidatorStake.account).Nodup) (members : Set α) :
    ((coalitionOf stakers members).map ValidatorStake.account).Nodup :=
  (List.filter_sublist.map _).nodup hnodup

/-- A seed draws one account at most. -/
theorem disjoint_drawing {v w : α} (hne : v ≠ w) :
    Disjoint (drawing T runtimeBlock stakers seed v) (drawing T runtimeBlock stakers seed w) := by
  rw [Finset.disjoint_left]
  intro r hv hw
  obtain ⟨selection, hselect, rfl⟩ := mem_drawing.1 hv
  obtain ⟨selection', hselect', rfl⟩ := mem_drawing.1 hw
  rw [hselect] at hselect'
  obtain rfl := Option.some.inj (Except.ok.inj hselect')
  exact hne rfl

/-- The seeds that draw a coalition are those that draw one of its stakers. -/
theorem coalitionDraws_eq (hpos : 0 < sumWeights stakers) (hlt : sumWeights stakers < 2 ^ 64)
    (members : Set α) : coalitionDraws T runtimeBlock stakers seed members =
      ((coalitionOf stakers members).map ValidatorStake.account).toFinset.biUnion
        (drawing T runtimeBlock stakers seed) := by
  ext r
  rw [coalitionDraws, Finset.mem_filter, Finset.mem_biUnion]
  constructor
  · rintro ⟨-, selection, hselect, hmember⟩
    obtain ⟨staker, hstaker, -, hselect'⟩ :=
      exists_selectPosValidator (T := T) runtimeBlock (seed r) hpos hlt
    rw [hselect] at hselect'
    obtain rfl := Option.some.inj (Except.ok.inj hselect')
    refine ⟨staker.account, ?_, mem_drawing.2 ⟨_, hselect, rfl⟩⟩
    rw [List.mem_toFinset]
    apply List.mem_map_of_mem
    exact List.mem_filter.2 ⟨hstaker, decide_eq_true hmember⟩
  · rintro ⟨account, haccount, hdraws⟩
    obtain ⟨selection, hselect, rfl⟩ := mem_drawing.1 hdraws
    obtain ⟨staker, hstaker, heq⟩ := List.mem_map.1 (List.mem_toFinset.1 haccount)
    refine ⟨Finset.mem_univ r, selection, hselect, ?_⟩
    rw [← heq]
    exact of_decide_eq_true (List.mem_filter.1 hstaker).2

theorem card_coalitionDraws (hnodup : (stakers.map ValidatorStake.account).Nodup)
    (hpos : 0 < sumWeights stakers) (hlt : sumWeights stakers < 2 ^ 64) (members : Set α) :
    (coalitionDraws T runtimeBlock stakers seed members).card =
      ((coalitionOf stakers members).map fun staker =>
        (drawing T runtimeBlock stakers seed staker.account).card).sum := by
  calc (coalitionDraws T runtimeBlock stakers seed members).card
      = (((coalitionOf stakers members).map ValidatorStake.account).toFinset.biUnion
          (drawing T runtimeBlock stakers seed)).card :=
        congrArg Finset.card (coalitionDraws_eq hpos hlt members)
    _ = ((coalitionOf stakers members).map ValidatorStake.account).toFinset.sum fun account =>
          (drawing T runtimeBlock stakers seed account).card :=
        Finset.card_biUnion fun _ _ _ _ => disjoint_drawing
    _ = (((coalitionOf stakers members).map ValidatorStake.account).map fun account =>
          (drawing T runtimeBlock stakers seed account).card).sum :=
        List.sum_toFinset _ (nodup_coalitionOf hnodup members)
    _ = _ := by simp only [List.map_map, Function.comp_def]

variable (T runtimeBlock) in
/-- A coalition is drawn in proportion to its weight. -/
theorem card_coalitionDraws_bounds (hnodup : (stakers.map ValidatorStake.account).Nodup)
    (hpos : 0 < sumWeights stakers) (hlt : sumWeights stakers < 2 ^ 64)
    (hseed : ∀ r, T.leadingU64 (seed r) = r) (members : Set α) :
    coalitionWeight stakers members * (2 ^ 64 / sumWeights stakers) ≤
        (coalitionDraws T runtimeBlock stakers seed members).card ∧
      (coalitionDraws T runtimeBlock stakers seed members).card ≤
        coalitionWeight stakers members * (2 ^ 64 / sumWeights stakers + 1) := by
  have hshare : ∀ staker ∈ coalitionOf stakers members,
      staker.natWeight * (2 ^ 64 / sumWeights stakers) ≤
          (drawing T runtimeBlock stakers seed staker.account).card ∧
        (drawing T runtimeBlock stakers seed staker.account).card ≤
          staker.natWeight * (2 ^ 64 / sumWeights stakers + 1) := by
    intro staker hstaker
    have hmem : staker ∈ stakers := (List.mem_filter.1 hstaker).1
    rw [card_drawing_eq hnodup hpos hlt hseed hmem]
    exact Weights.card_filter_pick (2 ^ 64) (List.Nodup.of_map _ hnodup) hmem
  rw [card_coalitionDraws hnodup hpos hlt, coalitionWeight, sumWeights, ← List.sum_map_mul_right,
    ← List.sum_map_mul_right]
  exact ⟨List.sum_le_sum fun staker hstaker => (hshare staker hstaker).1,
    List.sum_le_sum fun staker hstaker => (hshare staker hstaker).2⟩

variable (T runtimeBlock stakers) in
/-- A coalition is drawn in proportion to its weight, and by as many seeds as any other coalition of
that weight would be among other stakers of the same total weight, up to one seed for each unit of
weight: splitting a stake over several accounts, or pooling it, gains nothing. -/
theorem coalition_split (hnodup : (stakers.map ValidatorStake.account).Nodup)
    (hpos : 0 < sumWeights stakers) (hlt : sumWeights stakers < 2 ^ 64)
    (hseed : ∀ r, T.leadingU64 (seed r) = r) (members : Set α) :
    (coalitionWeight stakers members * (2 ^ 64 / sumWeights stakers) ≤
        (coalitionDraws T runtimeBlock stakers seed members).card ∧
      (coalitionDraws T runtimeBlock stakers seed members).card ≤
        coalitionWeight stakers members * (2 ^ 64 / sumWeights stakers + 1)) ∧
      ∀ (stakers' : List (ValidatorStake α)) (members' : Set α),
        (stakers'.map ValidatorStake.account).Nodup → sumWeights stakers' = sumWeights stakers →
        coalitionWeight stakers' members' = coalitionWeight stakers members →
        (coalitionDraws T runtimeBlock stakers' seed members').card ≤
          (coalitionDraws T runtimeBlock stakers seed members).card +
            coalitionWeight stakers members := by
  have hbounds := card_coalitionDraws_bounds T runtimeBlock hnodup hpos hlt hseed members
  refine ⟨hbounds, fun stakers' members' hnodup' htotal hweight => ?_⟩
  have hupper := (card_coalitionDraws_bounds T runtimeBlock hnodup' (htotal ▸ hpos) (htotal ▸ hlt)
    hseed members').2
  rw [htotal, hweight, Nat.mul_add, Nat.mul_one] at hupper
  exact hupper.trans (Nat.add_le_add_right hbounds.1 _)

/-- A weight of five held by one account, or by two with an account of somebody else in between. -/
theorem coalition_split_mock :
    (coalitionDraws mockTest 0 [⟨1, 3, 3⟩, ⟨2, 4, 4⟩, ⟨3, 2, 2⟩] (fun r => [r.toNat])
        {1, 3}).card ≤
      (coalitionDraws mockTest 0 [⟨1, 5, 5⟩, ⟨2, 4, 4⟩] (fun r => [r.toNat]) {1}).card + 5 := by
  have hseed : ∀ r : U64, mockTest.leadingU64 [r.toNat] = r := fun r =>
    BitVec.eq_of_toNat_eq (MachineInt.toNat_ofNat_of_lt r.isLt)
  have hone : coalitionWeight [(⟨1, 5, 5⟩ : ValidatorStake ℕ), ⟨2, 4, 4⟩] {1} = 5 := by
    simp [coalitionWeight, coalitionOf, sumWeights, ValidatorStake.natWeight]
  have htwo : coalitionWeight [(⟨1, 3, 3⟩ : ValidatorStake ℕ), ⟨2, 4, 4⟩, ⟨3, 2, 2⟩] {1, 3} = 5 := by
    simp [coalitionWeight, coalitionOf, sumWeights, ValidatorStake.natWeight]
  have hsplit := (coalition_split mockTest 0 [⟨1, 5, 5⟩, ⟨2, 4, 4⟩] (by decide) (by decide) (by decide)
    hseed {1}).2 [⟨1, 3, 3⟩, ⟨2, 4, 4⟩, ⟨3, 2, 2⟩] {1, 3} (by decide) (by decide) (htwo.trans hone.symm)
  rwa [hone] at hsplit

end GhostConsensus
