import Mathlib.Algebra.BigOperators.Group.List.Basic
import Mathlib.Algebra.GroupWithZero.Nat
import Mathlib.Algebra.Order.BigOperators.Group.Finset
import Mathlib.Algebra.Order.BigOperators.Group.List
import Mathlib.Algebra.Group.Action.Defs
import Mathlib.Algebra.Order.Group.Nat
import Mathlib.Data.Int.CardIntervalMod
import Mathlib.Tactic.Common

/-!
# Choosing and splitting by weight

Two ways to treat the elements of a list in proportion to natural weights: `pick` chooses the
element in whose interval of the cumulative weights a number falls, and `share` is the part of an
amount that a weight is entitled to, rounded down. Between them, what a sum of truncated weights
says about the weights.
-/

namespace Weights

variable {β : Type*}

/-! ## Choosing -/

/-- The first element of the list at which the cumulative weight exceeds `r`. -/
def pick (weight : β → ℕ) : ℕ → List β → Option β
  | _, [] => none
  | r, b :: l => if r < weight b then some b else pick weight (r - weight b) l

/-- A number below the total weight falls in the interval of an element of positive weight. -/
theorem exists_pick {weight : β → ℕ} :
    ∀ {l : List β} {r : ℕ}, r < (l.map weight).sum →
      ∃ b ∈ l, 0 < weight b ∧ pick weight r l = some b
  | [], r, h => absurd h (Nat.not_lt_zero r)
  | b :: l, r, h => by
      rw [List.map_cons, List.sum_cons] at h
      by_cases hb : r < weight b
      · exact ⟨b, List.mem_cons_self, by omega, if_pos hb⟩
      · have hrest : r - weight b < (l.map weight).sum := by omega
        obtain ⟨c, hc, hpos, hpick⟩ := exists_pick hrest
        exact ⟨c, List.mem_cons_of_mem _ hc, hpos, (if_neg hb).trans hpick⟩

theorem mem_of_pick {weight : β → ℕ} {b : β} :
    ∀ {l : List β} {r : ℕ}, pick weight r l = some b → b ∈ l
  | c :: l, r, h => by
      unfold pick at h
      split_ifs at h
      · exact Option.some.inj h ▸ List.mem_cons_self
      · exact List.mem_cons_of_mem _ (mem_of_pick h)

/-- The numbers for which an element is picked are an interval, as long as its weight. -/
theorem exists_pick_eq_some_iff (weight : β → ℕ) {b : β} :
    ∀ {l : List β}, l.Nodup → b ∈ l →
      ∃ start, start + weight b ≤ (l.map weight).sum ∧
        ∀ r, pick weight r l = some b ↔ start ≤ r ∧ r < start + weight b
  | c :: l, hnodup, hb => by
      obtain ⟨hc, hnodup⟩ := List.nodup_cons.1 hnodup
      rw [List.map_cons, List.sum_cons]
      rcases List.mem_cons.1 hb with rfl | hb
      · refine ⟨0, by omega, fun r => ?_⟩
        unfold pick
        split_ifs with hr
        · simp [hr]
        · simp only [Nat.zero_le, Nat.zero_add, hr, and_false, iff_false]
          exact fun hpick => hc (mem_of_pick hpick)
      · obtain ⟨start, hle, hiff⟩ := exists_pick_eq_some_iff weight hnodup hb
        refine ⟨weight c + start, by omega, fun r => ?_⟩
        unfold pick
        split_ifs with hr
        · have hne : c ≠ b := fun h => hc (h ▸ hb)
          simp only [Option.some.injEq, hne, false_iff]
          omega
        · rw [hiff]
          omega

/-! ## Counting -/

/-- Among the first `n` numbers, `n / m` or one more have a given remainder. -/
theorem card_filter_mod_eq {m v : ℕ} (n : ℕ) (hv : v < m) :
    n / m ≤ ((Finset.range n).filter fun r => r % m = v).card ∧
      ((Finset.range n).filter fun r => r % m = v).card ≤ n / m + 1 := by
  have hcount : ((Finset.range n).filter fun r => r % m = v).card =
      n / m + if v % m < n % m then 1 else 0 := by
    rw [← Nat.count_modEq_card n (by omega) v, Nat.count_eq_card_filter_range]
    apply congrArg Finset.card
    apply Finset.filter_congr
    intro r _
    rw [Nat.ModEq, Nat.mod_eq_of_lt hv]
  rw [hcount]
  split_ifs <;> omega

/-- Among the first `n` numbers, the remainders in an interval of length `w`. -/
theorem card_filter_mod_mem {m start w : ℕ} (n : ℕ) (h : start + w ≤ m) :
    w * (n / m) ≤ ((Finset.range n).filter fun r => start ≤ r % m ∧ r % m < start + w).card ∧
      ((Finset.range n).filter fun r => start ≤ r % m ∧ r % m < start + w).card ≤
        w * (n / m + 1) := by
  have hfiber : ∀ v ∈ Finset.Ico start (start + w),
      ((Finset.range n).filter fun r => start ≤ r % m ∧ r % m < start + w).filter (· % m = v) =
        (Finset.range n).filter fun r => r % m = v := by
    intro v hv
    rw [Finset.filter_filter]
    apply Finset.filter_congr
    intro r _
    have := Finset.mem_Ico.1 hv
    omega
  have hsum : ((Finset.range n).filter fun r => start ≤ r % m ∧ r % m < start + w).card =
      ∑ v ∈ Finset.Ico start (start + w), ((Finset.range n).filter fun r => r % m = v).card := by
    rw [Finset.card_eq_sum_card_fiberwise (f := (· % m)) (t := Finset.Ico start (start + w))]
    · exact Finset.sum_congr rfl fun v hv => congrArg Finset.card (hfiber v hv)
    · intro r hr
      exact Finset.mem_Ico.2 (Finset.mem_filter.1 hr).2
  have hcard : (Finset.Ico start (start + w)).card = w := by simp
  have hbounds : ∀ v ∈ Finset.Ico start (start + w), _ := fun v hv =>
    card_filter_mod_eq (m := m) (v := v) n (lt_of_lt_of_le (Finset.mem_Ico.1 hv).2 h)
  rw [hsum]
  constructor
  · calc w * (n / m) = (Finset.Ico start (start + w)).card • (n / m) := by rw [hcard, smul_eq_mul]
      _ ≤ _ := Finset.card_nsmul_le_sum _ _ _ fun v hv => (hbounds v hv).1
  · calc _ ≤ (Finset.Ico start (start + w)).card • (n / m + 1) :=
          Finset.sum_le_card_nsmul _ _ _ fun v hv => (hbounds v hv).2
      _ = w * (n / m + 1) := by rw [hcard, smul_eq_mul]

/-- Of the first `n` numbers, taken modulo the total weight, each element of the list is picked for
its share: its weight times the `n / total` full rounds, and at most once more for each unit. -/
theorem card_filter_pick [DecidableEq β] {weight : β → ℕ} {l : List β} {b : β} (n : ℕ)
    (hnodup : l.Nodup) (hb : b ∈ l) :
    weight b * (n / (l.map weight).sum) ≤
        ((Finset.range n).filter fun r => pick weight (r % (l.map weight).sum) l = some b).card ∧
      ((Finset.range n).filter fun r => pick weight (r % (l.map weight).sum) l = some b).card ≤
        weight b * (n / (l.map weight).sum + 1) := by
  obtain ⟨start, hle, hiff⟩ := exists_pick_eq_some_iff weight hnodup hb
  simp only [hiff]
  exact card_filter_mod_mem n hle

/-! ## Truncating -/

theorem sum_eq_zero_of_sum_min {m : ℕ} (hm : 0 < m) {l : List ℕ}
    (h : (l.map (min · m)).sum = 0) : l.sum = 0 := by
  induction l with
  | nil => rfl
  | cons x l ih =>
    rw [List.map_cons, List.sum_cons] at h
    have hl := ih (by omega)
    rw [List.sum_cons]
    omega

/-- When the numbers truncated at `m` sum up to at most `m`, they sum up to at most `m` without the
truncation, or only one of them is not zero. -/
theorem sum_lt_of_sum_min_le {m n : ℕ} {l : List ℕ} (hm : 0 < m) (hmn : m < n)
    (hlt : ∀ x ∈ l, x < n) (hsum : (l.map (min · m)).sum ≤ m) : l.sum < n := by
  by_cases hlarge : ∃ x ∈ l, m ≤ x
  · obtain ⟨x, hx, hmx⟩ := hlarge
    obtain ⟨l₁, l₂, rfl⟩ := List.append_of_mem hx
    simp only [List.map_append, List.map_cons, List.sum_append, List.sum_cons] at hsum ⊢
    have h₁ := sum_eq_zero_of_sum_min hm (l := l₁) (by omega)
    have h₂ := sum_eq_zero_of_sum_min hm (l := l₂) (by omega)
    have := hlt x hx
    omega
  · have hmap : l.map (min · m) = l := by
      refine (List.map_congr_left fun x hx => ?_).trans (List.map_id l)
      exact min_eq_left (le_of_lt (not_le.1 fun hle => hlarge ⟨x, hx, hle⟩))
    rw [hmap] at hsum
    omega

/-! ## Splitting -/

/-- The part of `amount` a weight `w` out of `total` is entitled to, rounded down. -/
def share (amount total w : ℕ) : ℕ := amount * w / total

theorem sum_share_le_div (amount total : ℕ) (l : List ℕ) :
    (l.map (share amount total)).sum ≤ amount * l.sum / total := by
  induction l with
  | nil => exact Nat.zero_le _
  | cons w l ih =>
    rw [List.map_cons, List.sum_cons, List.sum_cons, Nat.mul_add]
    calc share amount total w + (l.map (share amount total)).sum
        ≤ amount * w / total + amount * l.sum / total := Nat.add_le_add_left ih _
      _ ≤ (amount * w + amount * l.sum) / total := Nat.div_add_div_le_add_div

/-- The shares of all weights together do not exceed the amount. -/
theorem sum_share_le (amount : ℕ) (l : List ℕ) : (l.map (share amount l.sum)).sum ≤ amount := by
  refine (sum_share_le_div amount l.sum l).trans ?_
  rcases Nat.eq_zero_or_pos l.sum with h | h
  · rw [h, Nat.div_zero]
    exact Nat.zero_le _
  · rw [Nat.mul_div_cancel _ h]

/-- Each positive weight loses less than one unit of the amount to the rounding. -/
theorem mul_sum_add_countP_le (amount : ℕ) {total : ℕ} (htotal : 0 < total) (l : List ℕ) :
    amount * l.sum + l.countP (0 < ·) ≤
      total * ((l.map (share amount total)).sum + l.countP (0 < ·)) := by
  induction l with
  | nil => exact Nat.zero_le _
  | cons w l ih =>
    have hdiv := Nat.div_add_mod (amount * w) total
    have hmod := Nat.mod_lt (amount * w) htotal
    rw [List.map_cons, List.sum_cons, List.sum_cons, List.countP_cons, share]
    rcases Nat.eq_zero_or_pos w with rfl | hw
    · simpa using ih
    · rw [if_pos (decide_eq_true hw)]
      simp only [Nat.mul_add, Nat.mul_one] at ih ⊢
      omega

/-- The shares of `k` positive weights leave at most `k - 1` of the amount. -/
theorem le_sum_share_add (amount : ℕ) {l : List ℕ} (hl : 0 < l.sum) :
    amount ≤ (l.map (share amount l.sum)).sum + (l.countP (0 < ·) - 1) := by
  have h := mul_sum_add_countP_le amount hl l
  rw [Nat.mul_comm amount] at h
  rcases Nat.eq_zero_or_pos (l.countP (0 < ·)) with hk | hk
  · rw [hk, Nat.add_zero, Nat.add_zero] at h
    exact le_add_right (Nat.le_of_mul_le_mul_left h hl)
  · have hlt : l.sum * amount <
        l.sum * ((l.map (share amount l.sum)).sum + l.countP (0 < ·)) := by omega
    have := Nat.lt_of_mul_lt_mul_left hlt
    omega

end Weights
