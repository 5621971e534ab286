import Mathlib.Data.BitVec
import Mathlib.Tactic.Common

/-!
# Fixed-width unsigned arithmetic

`BitVec w` with the operations a systems language offers on `w`-bit unsigned integers: plain
`+`, `-`, `*`, which wrap past the width, or panic in a build with overflow checks
(`addChecked checks`, …, `none` being the panic); division and remainder, which panic at zero in
every build; the saturating operations; the saturating conversion `saturatedInto`; and the sum of a
list as an iterator computes it (`sumChecked`). Each comes with its value in `ℕ`.
-/

namespace MachineInt

variable {w : ℕ}

section Decidable

variable {σ : Type*} {p : σ → Prop} [DecidablePred p] (o : Option σ)

-- These come before the instances that decide a statement about all `w`-bit values by running
-- through them.
instance (priority := 2000) decidableForallMem : Decidable (∀ a ∈ o, p a) :=
  Option.decidableForallMem o

instance (priority := 2000) decidableExistsMem : Decidable (∃ a ∈ o, p a) :=
  Option.decidableExistsMem o

end Decidable

/-! ## Operations that wrap or panic -/

/-- `a + b`; with overflow checks, a sum past the width panics. -/
def addChecked (checks : Bool) (a b : BitVec w) : Option (BitVec w) :=
  if checks && decide (2 ^ w ≤ a.toNat + b.toNat) then none else some (a + b)

/-- `a - b`; with overflow checks, a difference below zero panics. -/
def subChecked (checks : Bool) (a b : BitVec w) : Option (BitVec w) :=
  if checks && decide (a.toNat < b.toNat) then none else some (a - b)

/-- `a * b`; with overflow checks, a product past the width panics. -/
def mulChecked (checks : Bool) (a b : BitVec w) : Option (BitVec w) :=
  if checks && decide (2 ^ w ≤ a.toNat * b.toNat) then none else some (a * b)

theorem addChecked_eq_some {checks : Bool} {a b r : BitVec w} (h : addChecked checks a b = some r) :
    r = a + b := by
  unfold addChecked at h
  split at h
  · cases h
  · exact (Option.some.inj h).symm

theorem mulChecked_eq_some {checks : Bool} {a b r : BitVec w} (h : mulChecked checks a b = some r) :
    r = a * b := by
  unfold mulChecked at h
  split at h
  · cases h
  · exact (Option.some.inj h).symm

theorem subChecked_eq_some {checks : Bool} {a b r : BitVec w} (h : subChecked checks a b = some r) :
    r = a - b := by
  unfold subChecked at h
  split at h
  · cases h
  · exact (Option.some.inj h).symm

theorem addChecked_of_lt (checks : Bool) {a b : BitVec w} (h : a.toNat + b.toNat < 2 ^ w) :
    addChecked checks a b = some (a + b) := by
  unfold addChecked
  rw [if_neg]
  simp only [Bool.and_eq_true, decide_eq_true_eq, not_and, not_le]
  exact fun _ => h

theorem mulChecked_of_lt (checks : Bool) {a b : BitVec w} (h : a.toNat * b.toNat < 2 ^ w) :
    mulChecked checks a b = some (a * b) := by
  unfold mulChecked
  rw [if_neg]
  simp only [Bool.and_eq_true, decide_eq_true_eq, not_and, not_le]
  exact fun _ => h

theorem subChecked_of_le (checks : Bool) {a b : BitVec w} (h : b.toNat ≤ a.toNat) :
    subChecked checks a b = some (a - b) := by
  unfold subChecked
  rw [if_neg]
  simp only [Bool.and_eq_true, decide_eq_true_eq, not_and, not_lt]
  exact fun _ => h

/-- A sum that overflow checks let through fits the width. -/
theorem lt_of_addChecked_true {a b r : BitVec w} (h : addChecked true a b = some r) :
    a.toNat + b.toNat < 2 ^ w := by
  by_contra hge
  rw [addChecked, Bool.true_and, if_pos (decide_eq_true (not_lt.1 hge))] at h
  cases h

/-- A difference that overflow checks let through is not below zero. -/
theorem le_of_subChecked_true {a b r : BitVec w} (h : subChecked true a b = some r) :
    b.toNat ≤ a.toNat := by
  by_contra hlt
  rw [subChecked, Bool.true_and, if_pos (decide_eq_true (not_le.1 hlt))] at h
  cases h

/-- A product that overflow checks let through fits the width. -/
theorem lt_of_mulChecked_true {a b r : BitVec w} (h : mulChecked true a b = some r) :
    a.toNat * b.toNat < 2 ^ w := by
  by_contra hge
  rw [mulChecked, Bool.true_and, if_pos (decide_eq_true (not_lt.1 hge))] at h
  cases h

/-- What overflow checks let through is computed without them, too. -/
theorem addChecked_of_true (checks : Bool) {a b r : BitVec w} (h : addChecked true a b = some r) :
    addChecked checks a b = some r := by
  rw [addChecked_of_lt checks (lt_of_addChecked_true h), addChecked_eq_some h]

theorem mulChecked_of_true (checks : Bool) {a b r : BitVec w} (h : mulChecked true a b = some r) :
    mulChecked checks a b = some r := by
  rw [mulChecked_of_lt checks (lt_of_mulChecked_true h), mulChecked_eq_some h]

theorem toNat_ofNat_of_lt {n : ℕ} (h : n < 2 ^ w) : (BitVec.ofNat w n).toNat = n := by
  rw [BitVec.toNat_ofNat, Nat.mod_eq_of_lt h]

theorem toNat_add_of_lt {a b : BitVec w} (h : a.toNat + b.toNat < 2 ^ w) :
    (a + b).toNat = a.toNat + b.toNat := by
  rw [BitVec.toNat_add, Nat.mod_eq_of_lt h]

theorem toNat_mul_of_lt {a b : BitVec w} (h : a.toNat * b.toNat < 2 ^ w) :
    (a * b).toNat = a.toNat * b.toNat := by
  rw [BitVec.toNat_mul, Nat.mod_eq_of_lt h]

theorem toNat_add_le (a b : BitVec w) : (a + b).toNat ≤ a.toNat + b.toNat := by
  rw [BitVec.toNat_add]
  exact Nat.mod_le _ _

/-! ## Division -/

/-- `a / b`, which panics when `b` is zero. -/
def divChecked (a b : BitVec w) : Option (BitVec w) := if b = 0 then none else some (a / b)

/-- `a % b`, which panics when `b` is zero. -/
def remChecked (a b : BitVec w) : Option (BitVec w) := if b = 0 then none else some (a % b)

/-- `a / b` in a function that cannot panic: it has made sure that `b` is not zero. -/
def divNonzero (a b : BitVec w) (_nonzero : b ≠ 0) : BitVec w := a / b

@[simp]
theorem divNonzero_eq (a b : BitVec w) (h : b ≠ 0) : divNonzero a b h = a / b := rfl

theorem divChecked_of_ne (a : BitVec w) {b : BitVec w} (h : b ≠ 0) : divChecked a b = some (a / b) :=
  if_neg h

theorem remChecked_of_ne (a : BitVec w) {b : BitVec w} (h : b ≠ 0) : remChecked a b = some (a % b) :=
  if_neg h

theorem divChecked_eq_some {a b r : BitVec w} : divChecked a b = some r ↔ b ≠ 0 ∧ r = a / b := by
  by_cases hb : b = 0
  · rw [divChecked, if_pos hb]
    constructor
    · intro h
      cases h
    · intro h
      exact absurd hb h.1
  · rw [divChecked, if_neg hb, Option.some.injEq]
    exact ⟨fun h => ⟨hb, h.symm⟩, fun h => h.2.symm⟩

/-! ## Saturating operations -/

/-- The nearest `w`-bit value to `n`. -/
def saturatedInto (w n : ℕ) : BitVec w :=
  BitVec.ofNat w (min n (2 ^ w - 1))

def saturatingAdd (a b : BitVec w) : BitVec w := saturatedInto w (a.toNat + b.toNat)

def saturatingSub (a b : BitVec w) : BitVec w := saturatedInto w (a.toNat - b.toNat)

def saturatingMul (a b : BitVec w) : BitVec w := saturatedInto w (a.toNat * b.toNat)

@[simp]
theorem toNat_saturatedInto (w n : ℕ) : (saturatedInto w n).toNat = min n (2 ^ w - 1) := by
  have hpos := Nat.two_pow_pos w
  rw [saturatedInto, toNat_ofNat_of_lt]
  omega

@[simp]
theorem toNat_saturatingAdd (a b : BitVec w) :
    (saturatingAdd a b).toNat = min (a.toNat + b.toNat) (2 ^ w - 1) :=
  toNat_saturatedInto _ _

@[simp]
theorem toNat_saturatingMul (a b : BitVec w) :
    (saturatingMul a b).toNat = min (a.toNat * b.toNat) (2 ^ w - 1) :=
  toNat_saturatedInto _ _

@[simp]
theorem toNat_saturatingSub (a b : BitVec w) :
    (saturatingSub a b).toNat = a.toNat - b.toNat := by
  have ha := a.isLt
  rw [saturatingSub, toNat_saturatedInto]
  omega

/-- What overflow checks let through does not saturate. -/
theorem saturatingAdd_of_addChecked {a b r : BitVec w} (h : addChecked true a b = some r) :
    saturatingAdd a b = r := by
  have hlt := lt_of_addChecked_true h
  apply BitVec.eq_of_toNat_eq
  rw [addChecked_eq_some h, toNat_saturatingAdd, toNat_add_of_lt hlt]
  omega

theorem saturatingSub_of_subChecked {a b r : BitVec w} (h : subChecked true a b = some r) :
    saturatingSub a b = r := by
  have hle := le_of_subChecked_true h
  apply BitVec.eq_of_toNat_eq
  rw [subChecked_eq_some h, toNat_saturatingSub, BitVec.toNat_sub_of_le (BitVec.le_def.2 hle)]

/-- `Ord::max`. -/
def maximum (a b : BitVec w) : BitVec w := if a.toNat ≤ b.toNat then b else a

@[simp]
theorem toNat_maximum (a b : BitVec w) : (maximum a b).toNat = max a.toNat b.toNat := by
  unfold maximum
  split_ifs with h
  · exact (max_eq_right h).symm
  · exact (max_eq_left (le_of_not_ge h)).symm

/-- `Ord::min`. -/
def minimum (a b : BitVec w) : BitVec w := if a.toNat ≤ b.toNat then a else b

@[simp]
theorem toNat_minimum (a b : BitVec w) : (minimum a b).toNat = min a.toNat b.toNat := by
  unfold minimum
  split_ifs with h
  · exact (min_eq_left h).symm
  · exact (min_eq_right (le_of_not_ge h)).symm

theorem toNat_saturatingSub_le (a b : BitVec w) : (saturatingSub a b).toNat ≤ a.toNat := by
  rw [toNat_saturatingSub]
  exact Nat.sub_le _ _

/-! ## The sum of a list -/

/-- The running sum of a list, each addition being `addChecked`. -/
def sumChecked (checks : Bool) (l : List (BitVec w)) : Option (BitVec w) :=
  l.foldlM (addChecked checks) 0

theorem foldlM_addChecked_of_lt (checks : Bool) :
    ∀ (l : List (BitVec w)) (init : BitVec w),
      init.toNat + (l.map BitVec.toNat).sum < 2 ^ w →
        ∃ r, l.foldlM (addChecked checks) init = some r ∧
          r.toNat = init.toNat + (l.map BitVec.toNat).sum
  | [], init, _ => ⟨init, rfl, by simp⟩
  | a :: l, init, h => by
      simp only [List.map_cons, List.sum_cons] at h
      have ha : init.toNat + a.toNat < 2 ^ w := by omega
      have hval := toNat_add_of_lt ha
      obtain ⟨r, hr, hrval⟩ := foldlM_addChecked_of_lt checks l (init + a) (by omega)
      refine ⟨r, ?_, ?_⟩
      · rw [List.foldlM_cons, addChecked_of_lt checks ha]
        exact hr
      · rw [hrval, hval, List.map_cons, List.sum_cons]
        omega

/-- A sum that fits the width is computed exactly, whether or not overflow is checked. -/
theorem sumChecked_of_lt (checks : Bool) {l : List (BitVec w)}
    (h : (l.map BitVec.toNat).sum < 2 ^ w) :
    ∃ r, sumChecked checks l = some r ∧ r.toNat = (l.map BitVec.toNat).sum := by
  obtain ⟨r, hr, hval⟩ := foldlM_addChecked_of_lt checks l 0 (by simpa using h)
  exact ⟨r, hr, by simpa using hval⟩

theorem foldlM_addChecked_true :
    ∀ {l : List (BitVec w)} {init r : BitVec w}, l.foldlM (addChecked true) init = some r →
      r.toNat = init.toNat + (l.map BitVec.toNat).sum
  | [], init, r, h => by
      obtain rfl := Option.some.inj h
      simp
  | a :: l, init, r, h => by
      rw [List.foldlM_cons] at h
      obtain ⟨c, hc, h⟩ := Option.bind_eq_some_iff.1 h
      have hlt := lt_of_addChecked_true hc
      obtain rfl := addChecked_eq_some hc
      rw [foldlM_addChecked_true h, toNat_add_of_lt hlt, List.map_cons, List.sum_cons, Nat.add_assoc]

/-- A sum that overflow checks let through is exact, and so is one that fits the width. -/
theorem toNat_of_sumChecked_eq_some {checks : Bool} {l : List (BitVec w)} {r : BitVec w}
    (hfits : checks = true ∨ (l.map BitVec.toNat).sum < 2 ^ w) (h : sumChecked checks l = some r) :
    r.toNat = (l.map BitVec.toNat).sum := by
  rcases hfits with rfl | hlt
  · simpa using foldlM_addChecked_true h
  · obtain ⟨r', hr', hval⟩ := sumChecked_of_lt checks hlt
    obtain rfl := Option.some.inj (h.symm.trans hr')
    exact hval

end MachineInt
