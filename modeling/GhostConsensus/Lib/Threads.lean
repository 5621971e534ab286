import GhostConsensus.Lib.Transition
import Mathlib.Algebra.BigOperators.Group.List.Basic

/-!
# Threads kept in a list

The local states of the threads of a program are a list, and a step of thread `i` replaces entry
`i`. Here is what such a step does to a property of every thread and to a sum over the threads,
and the bound that a measure sets to the number of steps of a run.
-/

namespace Transition

section Threads

variable {β : Type*} {l : List β} {i : ℕ} {x y : β}

/-- A property of every thread, when thread `i` moves to `y` and the others stay. -/
theorem forall_getElem?_set {P : ℕ → β → Prop}
    (others : ∀ j z, j ≠ i → l[j]? = some z → P j z) (moved : P i y) :
    ∀ j z, (l.set i y)[j]? = some z → P j z := by
  intro j z hz
  by_cases hji : j = i
  · subst hji
    rw [List.getElem?_set_self'] at hz
    obtain ⟨_, _, rfl⟩ := Option.map_eq_some_iff.1 hz
    exact moved
  · rw [List.getElem?_set_ne (Ne.symm hji)] at hz
    exact others j z hji hz

/-- A property of every thread, when a new one is spawned. -/
theorem forall_getElem?_concat {P : ℕ → β → Prop} (others : ∀ j z, l[j]? = some z → P j z)
    (spawned : P l.length y) : ∀ j z, (l ++ [y])[j]? = some z → P j z := by
  intro j z hz
  by_cases hlt : j < l.length
  · rw [List.getElem?_append_left hlt] at hz
    exact others j z hz
  · rw [List.getElem?_append_right (not_lt.1 hlt)] at hz
    have hj := (List.getElem?_eq_some_iff.1 hz).1
    rw [List.length_singleton] at hj
    obtain rfl : j = l.length := by omega
    rw [Nat.sub_self] at hz
    exact Option.some.inj hz ▸ spawned

/-- A sum over the threads changes by what the moving thread changes. -/
theorem sum_map_set (f : β → ℕ) (h : l[i]? = some x) :
    ((l.set i y).map f).sum + f x = (l.map f).sum + f y := by
  induction l generalizing i with
  | nil => cases h
  | cons z l ih =>
    cases i with
    | zero =>
      obtain rfl := Option.some.inj h
      simp only [List.set_cons_zero, List.map_cons, List.sum_cons]
      omega
    | succ i =>
      have := ih (i := i) (by simpa using h)
      simp only [List.set_cons_succ, List.map_cons, List.sum_cons]
      omega

end Threads

/-! ## The number of steps of a run -/

variable {S A : Type*} {step : S → A → Option S}

/-- A measure that pays for every counted step, as long as `I` holds, bounds their number. -/
theorem Run.countP_add_le {I : S → Prop} {μ : S → ℕ} {p : S × A → Bool} {s₀ s : S}
    {h : List (S × A)} (run : Run step s₀ h s) (init : I s₀)
    (preserved : ∀ t a t', I t → step t a = some t' → I t')
    (paid : ∀ t a t', I t → step t a = some t' → (if p (t, a) then 1 else 0) + μ t' ≤ μ t) :
    h.countP p + μ s ≤ μ s₀ := by
  induction run with
  | nil => exact (Nat.zero_add _).le
  | cons run hstep ih =>
    have hcost := paid _ _ _ (run.invariant init preserved) hstep
    rw [List.countP_cons]
    omega

end Transition
