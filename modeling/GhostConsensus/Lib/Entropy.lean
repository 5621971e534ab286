import GhostConsensus.Lib.LinLog
import Mathlib.Algebra.BigOperators.Group.Finset.Basic

/-!
# The entropy of a list

How evenly the elements of a list are spread over their distinct values: the Shannon entropy
`shannon`, and its rounded version `approx` with the interpolated logarithm of `LinLog`, in units
of `1 / scale`. The two are close (`abs_approx_sub_shannon_lt`); `approx` depends on the counts
only (`approx_perm`, `approx_map`), and never grows when two elements are identified (`approx_merge_le`).
-/

open LinLog

namespace Entropy

/-- The contribution of an element that occurs `count` times in a list of length `total`. -/
def part (scale total count : ℕ) : ℕ := count * (linLog scale total - linLog scale count) / total

section Nat

variable {K : Type*} [DecidableEq K] (scale : ℕ) (l : List K)

/-- The entropy, with the interpolated logarithm and each contribution rounded down. -/
def approx : ℕ := ∑ x ∈ l.toFinset, part scale l.length (l.count x)

/-! ## Counts -/

theorem count_pos {l : List K} {x : K} (hx : x ∈ l.toFinset) : 0 < l.count x :=
  List.count_pos_iff.2 (List.mem_toFinset.1 hx)

theorem count_add_count_le {a b : K} (hne : a ≠ b) : l.count a + l.count b ≤ l.length := by
  induction l with
  | nil => simp
  | cons x l ih =>
    rw [List.count_cons, List.count_cons, List.length_cons]
    by_cases ha : x = a
    · have hb : x ≠ b := fun hb => hne (ha.symm.trans hb)
      simp only [ha, beq_self_eq_true, if_true, beq_iff_eq, hne, if_false]
      omega
    · simp only [beq_iff_eq, ha, if_false]
      split_ifs <;> omega

/-! ## Size -/

theorem approx_le : approx scale l ≤ linLog scale l.length := by
  rcases eq_or_ne l [] with rfl | hne
  · simp [approx]
  have hpos : 0 < l.length := List.length_pos_of_ne_nil hne
  refine Nat.le_of_mul_le_mul_left ?_ hpos
  calc l.length * approx scale l
      = ∑ x ∈ l.toFinset, l.length * part scale l.length (l.count x) := Finset.mul_sum _ _ _
    _ ≤ ∑ x ∈ l.toFinset, l.count x * linLog scale l.length := by
        apply Finset.sum_le_sum
        intro x _
        exact (Nat.mul_div_le _ _).trans (Nat.mul_le_mul_left _ (Nat.sub_le _ _))
    _ = l.length * linLog scale l.length := by
        rw [← Finset.sum_mul, List.sum_toFinset_count_eq_length]

theorem approx_eq_zero_of_card_eq_one (h : l.toFinset.card = 1) : approx scale l = 0 := by
  obtain ⟨x, hx⟩ := Finset.card_eq_one.1 h
  have hcount : l.count x = l.length := by
    have hsum := List.sum_toFinset_count_eq_length l
    rwa [hx, Finset.sum_singleton] at hsum
  rw [approx, hx, Finset.sum_singleton, hcount, part, Nat.sub_self]
  simp

/-- An element that fills at most half of a list that is not too long contributes. -/
theorem part_pos {total count : ℕ} (hcount : 0 < count) (hhalf : 2 * count ≤ total)
    (hscale : total ≤ scale) : 0 < part scale total count := by
  have hlog : linLog scale count + 1 * scale ≤ linLog scale total :=
    linLog_add_le scale hcount.ne' hhalf
  have hprod : 1 * total ≤ count * (linLog scale total - linLog scale count) :=
    Nat.mul_le_mul hcount (by omega)
  apply Nat.div_pos
  · omega
  · omega

/-- The entropy vanishes for a single distinct element only. -/
theorem approx_eq_zero_iff (hne : l ≠ []) (hscale : l.length ≤ scale) :
    approx scale l = 0 ↔ l.toFinset.card = 1 := by
  constructor
  · intro hzero
    by_contra hcard
    have htwo : 1 < l.toFinset.card := by
      have : 0 < l.toFinset.card := Finset.card_pos.2 ((List.toFinset_nonempty_iff l).2 hne)
      omega
    obtain ⟨a, ha, b, hb, hab⟩ := Finset.one_lt_card.1 htwo
    have hboth := count_add_count_le l hab
    have hall : ∀ x ∈ l.toFinset, part scale l.length (l.count x) = 0 :=
      Finset.sum_eq_zero_iff.1 hzero
    -- one of the two fills at most half of the list
    rcases Nat.le_total (l.count a) (l.count b) with h | h
    · exact (part_pos scale (count_pos ha) (by omega) hscale).ne' (hall a ha)
    · exact (part_pos scale (count_pos hb) (by omega) hscale).ne' (hall b hb)
  · exact approx_eq_zero_of_card_eq_one scale l

/-! ## Even lists -/

/-- Where every element occurs equally often, only the number of distinct elements and the growth
of the logarithm matter. -/
theorem approx_of_even {c : ℕ} (hc : 0 < c) (heven : ∀ x ∈ l, l.count x = c) :
    approx scale l = l.toFinset.card *
      ((linLog scale (l.toFinset.card * c) - linLog scale c) / l.toFinset.card) := by
  have hcounts : ∀ x ∈ l.toFinset, l.count x = c := fun x hx => heven x (List.mem_toFinset.1 hx)
  have hlen : l.length = l.toFinset.card * c := by
    rw [← List.sum_toFinset_count_eq_length l, Finset.sum_const_nat hcounts]
  have hpart : ∀ x ∈ l.toFinset, part scale l.length (l.count x) =
      (linLog scale (l.toFinset.card * c) - linLog scale c) / l.toFinset.card := by
    intro x hx
    rw [hcounts x hx, part, hlen, Nat.mul_comm _ c, Nat.mul_div_mul_left _ _ hc]
  rw [approx, Finset.sum_const_nat hpart]

/-! ## Invariance -/

theorem approx_perm {l l' : List K} (h : l.Perm l') : approx scale l = approx scale l' := by
  rw [approx, approx, List.toFinset_eq_of_perm l l' h, h.length_eq]
  refine Finset.sum_congr rfl fun x _ => ?_
  rw [h.count_eq]

theorem approx_map {K' : Type*} [DecidableEq K'] {f : K → K'} (hf : Function.Injective f) :
    approx scale (l.map f) = approx scale l := by
  have himage : (l.map f).toFinset = l.toFinset.image f := by
    ext y
    simp
  rw [approx, approx, himage, Finset.sum_image fun x _ y _ h => hf h, List.length_map]
  refine Finset.sum_congr rfl fun x _ => ?_
  rw [List.count_map_of_injective _ _ hf]

/-! ## Identifying two elements -/

/-- The list with `b` in the place of every `a`. -/
def merge (a b : K) : List K := l.map fun x => if x = a then b else x

theorem length_merge (a b : K) : (merge l a b).length = l.length :=
  List.length_map _

theorem count_merge_self {a b : K} (hne : a ≠ b) :
    (merge l a b).count b = l.count a + l.count b := by
  induction l with
  | nil => rfl
  | cons x l ih =>
    rw [merge, List.map_cons, List.count_cons, ← merge, ih]
    by_cases ha : x = a
    · subst ha
      simp [hne]
      omega
    · by_cases hb : x = b
      · subst hb
        simp [ha]
        omega
      · simp [ha, hb]

theorem count_merge_of_ne {a b x : K} (ha : x ≠ a) (hb : x ≠ b) :
    (merge l a b).count x = l.count x := by
  induction l with
  | nil => rfl
  | cons y l ih =>
    rw [merge, List.map_cons, List.count_cons, ← merge, ih, List.count_cons]
    by_cases hy : y = a
    · simp [hy, ha.symm, hb.symm]
    · rw [if_neg hy]

theorem toFinset_merge {a b : K} (hne : a ≠ b) (hb : b ∈ l) :
    (merge l a b).toFinset = l.toFinset.erase a := by
  ext y
  rw [List.mem_toFinset, Finset.mem_erase, List.mem_toFinset, merge, List.mem_map]
  constructor
  · rintro ⟨x, hx, rfl⟩
    by_cases hxa : x = a
    · rw [if_pos hxa]
      exact ⟨hne.symm, hb⟩
    · rw [if_neg hxa]
      exact ⟨hxa, hx⟩
  · rintro ⟨hya, hy⟩
    exact ⟨y, hy, if_neg hya⟩

theorem add_div_le (m n t : ℕ) (ht : 0 < t) : (m + n) / t ≤ m / t + n / t + 1 := by
  rw [Nat.add_div ht]
  split_ifs <;> omega

/-- What two elements contribute together is at most what they contribute apart: the logarithm of
the smaller count grows by a unit, and makes up for the rounding. -/
theorem part_add_le {total m n : ℕ} (hm : 0 < m) (hle : m ≤ n) (htotal : m + n ≤ total)
    (hscale : total ≤ scale) :
    part scale total (m + n) ≤ part scale total m + part scale total n := by
  have hgain : linLog scale m + 1 * scale ≤ linLog scale (m + n) :=
    linLog_add_le scale hm.ne' (by omega)
  have hn : linLog scale n ≤ linLog scale (m + n) := linLog_mono scale (by omega)
  have hsum : linLog scale (m + n) ≤ linLog scale total := linLog_mono scale htotal
  have hunit : total ≤ m * scale := hscale.trans (Nat.le_mul_of_pos_left scale hm)
  have hnum : (m + n) * (linLog scale total - linLog scale (m + n)) + total ≤
      m * (linLog scale total - linLog scale m) + n * (linLog scale total - linLog scale n) := by
    have hfirst : m * (linLog scale total - linLog scale (m + n)) + m * scale ≤
        m * (linLog scale total - linLog scale m) := by
      rw [← Nat.mul_add]
      exact Nat.mul_le_mul_left m (by omega)
    have hsecond : n * (linLog scale total - linLog scale (m + n)) ≤
        n * (linLog scale total - linLog scale n) := Nat.mul_le_mul_left n (by omega)
    rw [Nat.add_mul]
    omega
  have hpos : 0 < total := by omega
  have hdiv := Nat.div_le_div_right (c := total) hnum
  rw [Nat.add_div_right _ hpos] at hdiv
  have hround := add_div_le (m * (linLog scale total - linLog scale m))
    (n * (linLog scale total - linLog scale n)) total hpos
  unfold part
  omega

theorem approx_merge_le {a b : K} (hne : a ≠ b) (ha : a ∈ l) (hb : b ∈ l)
    (hscale : l.length ≤ scale) : approx scale (merge l a b) ≤ approx scale l := by
  have hmem : b ∈ l.toFinset.erase a := Finset.mem_erase.2 ⟨hne.symm, List.mem_toFinset.2 hb⟩
  have hrest : ∑ x ∈ (l.toFinset.erase a).erase b, part scale l.length ((merge l a b).count x) =
      ∑ x ∈ (l.toFinset.erase a).erase b, part scale l.length (l.count x) := by
    refine Finset.sum_congr rfl fun x hx => ?_
    rw [Finset.mem_erase, Finset.mem_erase] at hx
    rw [count_merge_of_ne l hx.2.1 hx.1]
  have hpart : part scale l.length (l.count a + l.count b) ≤
      part scale l.length (l.count a) + part scale l.length (l.count b) := by
    have hapos := List.count_pos_iff.2 ha
    have hbpos := List.count_pos_iff.2 hb
    have hlen := count_add_count_le l hne
    rcases Nat.le_total (l.count a) (l.count b) with h | h
    · exact part_add_le scale hapos h hlen hscale
    · rw [Nat.add_comm] at hlen ⊢
      rw [Nat.add_comm (part scale l.length (l.count a))]
      exact part_add_le scale hbpos h hlen hscale
  rw [approx, approx, toFinset_merge l hne hb, length_merge,
    ← Finset.add_sum_erase _ _ (List.mem_toFinset.2 ha), ← Finset.add_sum_erase _ _ hmem,
    ← Finset.add_sum_erase _ _ hmem, count_merge_self l hne, hrest]
  omega

end Nat

/-! ## Against the Shannon entropy -/

section Real

variable {K : Type*} [DecidableEq K] (scale : ℕ) (l : List K)

/-- The Shannon entropy of the list, in bits. -/
noncomputable def shannon : ℝ :=
  ∑ x ∈ l.toFinset, (l.count x : ℝ) / l.length * Real.logb 2 ((l.length : ℝ) / l.count x)

/-- The entropy with the interpolated logarithm, before rounding. -/
noncomputable def unrounded : ℝ :=
  ∑ x ∈ l.toFinset,
    (l.count x : ℝ) / l.length * (linLog scale l.length - linLog scale (l.count x))

theorem sum_frequency (hne : l ≠ []) : ∑ x ∈ l.toFinset, (l.count x : ℝ) / l.length = 1 := by
  have hpos : (l.length : ℝ) ≠ 0 := by
    exact_mod_cast (List.length_pos_of_ne_nil hne).ne'
  have hsum : ∑ x ∈ l.toFinset, (l.count x : ℝ) = l.length := by
    exact_mod_cast List.sum_toFinset_count_eq_length l
  rw [← Finset.sum_div, hsum, div_self hpos]

theorem frequency_pos {l : List K} {x : K} (hx : x ∈ l.toFinset) :
    0 < (l.count x : ℝ) / l.length := by
  have hcount : (0 : ℝ) < l.count x := by exact_mod_cast count_pos hx
  have hlen : (0 : ℝ) < l.length := hcount.trans_le (by exact_mod_cast List.count_le_length)
  exact div_pos hcount hlen

/-- The cast of one contribution, before rounding. -/
theorem cast_numerator {total count : ℕ} (h : count ≤ total) :
    ((count * (linLog scale total - linLog scale count) : ℕ) : ℝ) / total =
      (count : ℝ) / total * (linLog scale total - linLog scale count) := by
  rw [Nat.cast_mul, Nat.cast_sub (linLog_mono scale h)]
  ring

theorem approx_le_unrounded : (approx scale l : ℝ) ≤ unrounded scale l := by
  rw [approx, unrounded, Nat.cast_sum]
  refine Finset.sum_le_sum fun x _ => ?_
  rw [← cast_numerator scale List.count_le_length]
  exact Nat.cast_div_le

/-- Each distinct element loses less than one to rounding. -/
theorem unrounded_le : unrounded scale l ≤ approx scale l + l.toFinset.card := by
  have hsum : (approx scale l : ℝ) + l.toFinset.card =
      ∑ x ∈ l.toFinset, ((part scale l.length (l.count x) : ℝ) + 1) := by
    rw [approx, Nat.cast_sum, Finset.sum_add_distrib, Finset.sum_const, nsmul_eq_mul, mul_one]
  rw [hsum, unrounded]
  refine Finset.sum_le_sum fun x _ => ?_
  rw [← cast_numerator scale List.count_le_length]
  exact (div_lt_cast_div_add_one _ _).le

/-- One difference of interpolated logarithms is off by less than the error of a logarithm. -/
theorem abs_linLog_sub_lt {total count : ℕ} (hcount : count ≠ 0) (htotal : total ≠ 0) :
    |((linLog scale total : ℝ) - linLog scale count) -
      scale * Real.logb 2 ((total : ℝ) / count)| < 0.088 * scale + 1 := by
  have htotalHigh := linLog_le_logb scale htotal
  have htotalLow := logb_lt_linLog scale htotal
  have hcountHigh := linLog_le_logb scale hcount
  have hcountLow := logb_lt_linLog scale hcount
  rw [Real.logb_div (by exact_mod_cast htotal) (by exact_mod_cast hcount), abs_lt]
  constructor
  · linarith
  · linarith

theorem abs_unrounded_sub_lt (hne : l ≠ []) :
    |unrounded scale l - scale * shannon l| < 0.088 * scale + 1 := by
  have hlen : l.length ≠ 0 := (List.length_pos_of_ne_nil hne).ne'
  have hdiff : unrounded scale l - scale * shannon l = ∑ x ∈ l.toFinset,
      (l.count x : ℝ) / l.length * ((linLog scale l.length - linLog scale (l.count x)) -
        scale * Real.logb 2 ((l.length : ℝ) / l.count x)) := by
    rw [unrounded, shannon, Finset.mul_sum, ← Finset.sum_sub_distrib]
    refine Finset.sum_congr rfl fun x _ => ?_
    ring
  rw [hdiff]
  calc |∑ x ∈ l.toFinset, (l.count x : ℝ) / l.length *
        ((linLog scale l.length - linLog scale (l.count x)) -
          scale * Real.logb 2 ((l.length : ℝ) / l.count x))|
      ≤ ∑ x ∈ l.toFinset, |(l.count x : ℝ) / l.length *
        ((linLog scale l.length - linLog scale (l.count x)) -
          scale * Real.logb 2 ((l.length : ℝ) / l.count x))| := Finset.abs_sum_le_sum_abs _ _
    _ < ∑ x ∈ l.toFinset, (l.count x : ℝ) / l.length * (0.088 * scale + 1) := by
        apply Finset.sum_lt_sum_of_nonempty ((List.toFinset_nonempty_iff l).2 hne)
        intro x hx
        rw [abs_mul, abs_of_pos (frequency_pos hx)]
        exact mul_lt_mul_of_pos_left (abs_linLog_sub_lt scale (count_pos hx).ne' hlen)
          (frequency_pos hx)
    _ = 0.088 * scale + 1 := by rw [← Finset.sum_mul, sum_frequency l hne, one_mul]

theorem abs_approx_sub_shannon_lt (hne : l ≠ []) :
    |(approx scale l : ℝ) - scale * shannon l| < 0.088 * scale + 1 + l.toFinset.card := by
  have hclose := abs_lt.1 (abs_unrounded_sub_lt scale l hne)
  have hlow := approx_le_unrounded scale l
  have hhigh := unrounded_le scale l
  rw [abs_lt]
  constructor
  · linarith
  · have : (0 : ℝ) ≤ l.toFinset.card := Nat.cast_nonneg _
    linarith

/-! ## The number of distinct elements -/

/-- The Shannon entropy is largest where all elements are equally frequent. -/
theorem shannon_le (hne : l ≠ []) : shannon l ≤ Real.logb 2 l.toFinset.card := by
  have hcard : (0 : ℝ) < l.toFinset.card := by
    exact_mod_cast Finset.card_pos.2 ((List.toFinset_nonempty_iff l).2 hne)
  have hlen : (0 : ℝ) < l.length := by exact_mod_cast List.length_pos_of_ne_nil hne
  have hlog2 : 0 < Real.log 2 := Real.log_pos one_lt_two
  have hterm : ∀ x ∈ l.toFinset,
      (l.count x : ℝ) / l.length * Real.log ((l.length : ℝ) / l.count x) ≤
        (l.count x : ℝ) / l.length * Real.log l.toFinset.card +
          (1 / l.toFinset.card - (l.count x : ℝ) / l.length) := by
    intro x hx
    have hcount : (0 : ℝ) < l.count x := by exact_mod_cast count_pos hx
    have hratio : 0 < (l.length : ℝ) / l.count x / l.toFinset.card := by positivity
    have htangent := mul_le_mul_of_nonneg_left (Real.log_le_sub_one_of_pos hratio)
      (frequency_pos hx).le
    rw [Real.log_div (by positivity) hcard.ne'] at htangent
    have hright : (l.count x : ℝ) / l.length * ((l.length : ℝ) / l.count x / l.toFinset.card - 1) =
        1 / l.toFinset.card - (l.count x : ℝ) / l.length := by
      field_simp
    linarith
  have hsum := Finset.sum_le_sum hterm
  rw [Finset.sum_add_distrib, Finset.sum_sub_distrib, ← Finset.sum_mul, sum_frequency l hne,
    Finset.sum_const, nsmul_eq_mul, mul_one_div_cancel hcard.ne'] at hsum
  have hshannon : shannon l = (∑ x ∈ l.toFinset,
      (l.count x : ℝ) / l.length * Real.log ((l.length : ℝ) / l.count x)) / Real.log 2 := by
    rw [shannon, Finset.sum_div]
    refine Finset.sum_congr rfl fun x _ => ?_
    rw [Real.logb, mul_div_assoc]
  rw [hshannon, Real.logb, div_le_div_iff_of_pos_right hlog2]
  linarith

theorem approx_lt (hne : l ≠ []) :
    (approx scale l : ℝ) < scale * Real.logb 2 l.toFinset.card + (0.088 * scale + 1) := by
  have hclose := (abs_lt.1 (abs_unrounded_sub_lt scale l hne)).2
  have hlow := approx_le_unrounded scale l
  have hmax := mul_le_mul_of_nonneg_left (shannon_le l hne) (Nat.cast_nonneg (α := ℝ) scale)
  linarith

/-- Just above a power of two the logarithm has grown enough to make up for the rounding of as many
contributions as there are up to the next power. -/
theorem lt_linLog_of_two_pow_lt {j k c : ℕ} (hscale : 2 ^ (j + 1) * (2 ^ j + 1) ≤ scale)
    (hc : c ≠ 0) (hk : 2 ^ j < k) :
    j * scale + 2 ^ (j + 1) < linLog scale (k * c) - linLog scale c + 1 := by
  have hpow : 2 ^ j * c ≠ 0 := Nat.mul_ne_zero (by positivity) hc
  have hgrowth := linLog_growth scale hpow (Nat.mul_le_mul_right c (Nat.le_succ (2 ^ j)))
  have hmono : linLog scale ((2 ^ j).succ * c) ≤ linLog scale (k * c) :=
    linLog_mono scale (Nat.mul_le_mul_right c hk)
  rw [linLog_two_pow_mul scale j hc] at hgrowth
  have hratio : 1 - ((2 ^ j * c : ℕ) : ℝ) / ((2 ^ j).succ * c : ℕ) = 1 / (2 ^ j + 1) := by
    push_cast
    field_simp
    ring
  have hslope : (2 ^ (j + 1) : ℝ) ≤ scale * (1 / (2 ^ j + 1)) := by
    rw [mul_one_div, le_div_iff₀ (by positivity)]
    exact_mod_cast hscale
  rw [hratio] at hgrowth
  have hreal : ((j * scale + 2 ^ (j + 1) : ℕ) : ℝ) + linLog scale c <
      linLog scale (k * c) + 1 := by
    have : (linLog scale ((2 ^ j).succ * c) : ℝ) ≤ linLog scale (k * c) := by
      exact_mod_cast hmono
    push_cast at hgrowth ⊢
    linarith
  have hnat : j * scale + 2 ^ (j + 1) + linLog scale c < linLog scale (k * c) + 1 := by
    exact_mod_cast hreal
  omega

/-- From `2 ^ j` equally frequent elements on, the entropy is at least `j`. -/
theorem le_approx_of_even {j c : ℕ} (hdvd : 2 ^ j ∣ scale)
    (hscale : 2 ^ (j + 1) * (2 ^ j + 1) ≤ scale) (hlen : l.length ≤ scale)
    (hcard : 2 ^ j ≤ l.toFinset.card) (hc : 0 < c) (heven : ∀ x ∈ l, l.count x = c) :
    j * scale ≤ approx scale l := by
  have hle : l.toFinset.card ≤ scale := (List.toFinset_card_le l).trans hlen
  rw [approx_of_even scale l hc heven]
  generalize l.toFinset.card = k at hcard hle
  have hkpos : 0 < k := (Nat.two_pow_pos j).trans_le hcard
  have hround : linLog scale (k * c) - linLog scale c <
      k * ((linLog scale (k * c) - linLog scale c) / k) + k := Nat.lt_mul_div_self_add hkpos
  rcases Nat.lt_or_eq_of_le hcard with hlt | rfl
  · rcases Nat.lt_or_ge k (2 ^ (j + 1)) with hnext | hnext
    · have := lt_linLog_of_two_pow_lt scale hscale hc.ne' hlt
      omega
    · -- one more unit makes up for all rounding
      have hgrowth : linLog scale c + (j + 1) * scale ≤ linLog scale (k * c) :=
        linLog_add_le scale hc.ne' (Nat.mul_le_mul_right c hnext)
      rw [Nat.succ_mul] at hgrowth
      omega
  · -- nothing is rounded
    rw [linLog_two_pow_mul scale j hc.ne', Nat.add_sub_cancel_left,
      Nat.mul_div_cancel' (hdvd.mul_left j)]

end Real

end Entropy
