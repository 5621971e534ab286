import Mathlib.Data.List.Basic
import Mathlib.Data.List.Count
import Mathlib.Data.List.Induction
import Mathlib.Algebra.Group.Nat.Even
import Mathlib.Algebra.GroupWithZero.Nat
import Mathlib.Order.MinMax
import Mathlib.Tactic.Common

/-!
# Runs of a transition system

A transition system is a partial step function `step : S → A → Option S`. A run from `s₀` is
recorded with its history, the list of pairs (state before the step, action), newest first, so
that properties of the past are recursive functions of the history and prefixes of a run are
suffixes of its history. `Run.invariant` and its variants package the induction once.

The last part is about two labels that alternate (`Alternates`).
-/

namespace Transition

variable {S A : Type*} {step : S → A → Option S}

/-- `Run step s₀ h s`: the steps recorded in `h`, newest first, lead from `s₀` to `s`. -/
inductive Run (step : S → A → Option S) (s₀ : S) : List (S × A) → S → Prop
  | nil : Run step s₀ [] s₀
  | cons {h : List (S × A)} {s s' : S} {a : A} :
      Run step s₀ h s → step s a = some s' → Run step s₀ ((s, a) :: h) s'

/-! ## Invariants -/

/-- What holds at the start and survives every step allowed by `C` holds after every run whose
steps are all allowed by `C`. -/
theorem Run.invariant_of {C : S → A → Prop} {I : S → Prop} {s₀ s : S} {h : List (S × A)}
    (run : Run step s₀ h s) (init : I s₀) (allowed : ∀ e ∈ h, C e.1 e.2)
    (preserved : ∀ t a t', I t → C t a → step t a = some t' → I t') : I s := by
  induction run with
  | nil => exact init
  | cons _ hstep ih =>
    exact preserved _ _ _ (ih fun e he => allowed e (List.mem_cons_of_mem _ he))
      (allowed _ List.mem_cons_self) hstep

/-- What holds at the start and survives every step holds after every run. -/
theorem Run.invariant {I : S → Prop} {s₀ s : S} {h : List (S × A)} (run : Run step s₀ h s)
    (init : I s₀) (preserved : ∀ t a t', I t → step t a = some t' → I t') : I s :=
  run.invariant_of (C := fun _ _ => True) init (fun _ _ => trivial)
    fun t a t' ht _ hstep => preserved t a t' ht hstep

/-- The same for a property of the state and the history leading to it. -/
theorem Run.history_invariant {C : S → A → Prop} {I : List (S × A) → S → Prop} {s₀ s : S}
    {h : List (S × A)} (run : Run step s₀ h s) (init : I [] s₀) (allowed : ∀ e ∈ h, C e.1 e.2)
    (preserved : ∀ h t a t', Run step s₀ h t → I h t → C t a → step t a = some t' →
      I ((t, a) :: h) t') : I h s := by
  induction run with
  | nil => exact init
  | cons run hstep ih =>
    exact preserved _ _ _ _ run (ih fun e he => allowed e (List.mem_cons_of_mem _ he))
      (allowed _ List.mem_cons_self) hstep

/-- What a run adds to a growing set was added by one of its steps. -/
theorem Run.added {K : Type*} {s₀ s : S} {h : List (S × A)} (run : Run step s₀ h s)
    (has : S → K → Prop) (adds : S × A → Option K)
    (grow : ∀ t a u, step t a = some u → ∀ k, has u k → has t k ∨ adds (t, a) = some k) {k : K}
    (hk : has s k) : has s₀ k ∨ ∃ e ∈ h, adds e = some k := by
  induction run with
  | nil => exact .inl hk
  | @cons h t u a _ hstep ih =>
    rcases grow t a u hstep k hk with hk | hadds
    · rcases ih hk with hk | ⟨e, he, hadds⟩
      · exact .inl hk
      · exact .inr ⟨e, List.mem_cons_of_mem _ he, hadds⟩
    · exact .inr ⟨(t, a), List.mem_cons_self, hadds⟩

/-- Double entry: what every step puts in and takes out adds up over a run. -/
theorem Run.balanced {s₀ s : S} {h : List (S × A)} (run : Run step s₀ h s) {f : S → ℕ}
    {gain loss : S × A → ℕ}
    (balance : ∀ e ∈ h, ∀ u, step e.1 e.2 = some u → f u + loss e = f e.1 + gain e) :
    f s + (h.map loss).sum = f s₀ + (h.map gain).sum := by
  induction run with
  | nil => rfl
  | @cons h t u a _ hstep ih =>
    have hold := ih fun e he => balance e (List.mem_cons_of_mem _ he)
    have hnew : f u + loss (t, a) = f t + gain (t, a) := balance _ List.mem_cons_self u hstep
    rw [List.map_cons, List.map_cons, List.sum_cons, List.sum_cons]
    omega

/-! ## Cutting runs -/

theorem Run.split {s₀ s' : S} {h h' : List (S × A)} (run : Run step s₀ (h' ++ h) s') :
    ∃ s, Run step s₀ h s ∧ Run step s h' s' := by
  induction h' generalizing s' with
  | nil => exact ⟨s', run, Run.nil⟩
  | cons e h' ih =>
    cases run with
    | cons run hstep =>
      obtain ⟨s, hs, hs'⟩ := ih run
      exact ⟨s, hs, hs'.cons hstep⟩

/-- The step recorded on top of a prefix of the history was taken from the state recorded. -/
theorem Run.at_step {s₀ s' t : S} {a : A} {h h' : List (S × A)}
    (run : Run step s₀ (h' ++ (t, a) :: h) s') :
    Run step s₀ h t ∧ ∃ t', step t a = some t' ∧ Run step t' h' s' := by
  obtain ⟨t', hpre, hpost⟩ := run.split
  cases hpre with
  | cons hpre hstep => exact ⟨hpre, t', hstep, hpost⟩

theorem Run.append {s₀ s s' : S} {h h' : List (S × A)} (run : Run step s₀ h s)
    (run' : Run step s h' s') : Run step s₀ (h' ++ h) s' := by
  induction run' with
  | nil => exact run
  | cons _ hstep ih => exact ih.cons hstep

/-! ## Changing the system -/

/-- Forward simulation: where every step is matched by a run of another system over the actions
`acts`, every run is. -/
theorem Run.simulate {S' A' : Type*} {step' : S' → A' → Option S'} {s₀ s : S} {h : List (S × A)}
    {s₀' : S'} (run : Run step s₀ h s) (R : S → S' → Prop) (acts : S → A → List A')
    (start : R s₀ s₀')
    (sim : ∀ t a u t', step t a = some u → R t t' →
      ∃ h' u', Run step' t' h' u' ∧ R u u' ∧ h'.map Prod.snd = acts t a) :
    ∃ h' s', Run step' s₀' h' s' ∧ R s s' ∧
      h'.map Prod.snd = h.flatMap fun e => acts e.1 e.2 := by
  induction run with
  | nil => exact ⟨[], s₀', .nil, start, rfl⟩
  | @cons h t u a _ hstep ih =>
    obtain ⟨h₁, t', run₁, hR, hacts₁⟩ := ih
    obtain ⟨h₂, u', run₂, hR', hacts₂⟩ := sim t a u t' hstep hR
    refine ⟨h₂ ++ h₁, u', run₁.append run₂, hR', ?_⟩
    rw [List.map_append, List.flatMap_cons, hacts₁, hacts₂]

/-! ## Replaying labels -/

theorem foldlM_concat_eq_some {X L : Type*} {f : X → L → Option X} {l : List L} {e : L} {x y z : X}
    (h : l.foldlM f x = some y) (he : f y e = some z) : (l ++ [e]).foldlM f x = some z := by
  rw [List.foldlM_append, h]
  simp [he]

/-- What every step's label tells of the change of a view, the labels of a run tell of the view at
its end. -/
theorem Run.replay {X L : Type*} {s₀ s : S} {h : List (S × A)} (run : Run step s₀ h s) (view : S → X)
    (label : S × A → L) (follow : X → L → Option X)
    (sound : ∀ t a u, step t a = some u → follow (view t) (label (t, a)) = some (view u)) :
    (h.map label).reverse.foldlM follow (view s₀) = some (view s) := by
  induction run with
  | nil => rfl
  | cons _ hstep ih =>
    rw [List.map_cons, List.reverse_cons]
    exact foldlM_concat_eq_some ih (sound _ _ _ hstep)

/-! ## Decay -/

/-- A measure that some steps multiply by at most `p / q`, down to a floor of `1`, and that the others
do not raise, decays geometrically. -/
theorem Run.decay {p q : ℕ} (hpq : p ≤ q) {s₀ s : S} {h : List (S × A)} (run : Run step s₀ h s)
    (φ : S → ℕ) (hit : S × A → Bool)
    (lower : ∀ e ∈ h, hit e = true → ∀ u, step e.1 e.2 = some u → φ u * q ≤ max q (φ e.1 * p))
    (keep : ∀ e ∈ h, hit e = false → ∀ u, step e.1 e.2 = some u → φ u ≤ φ e.1) :
    φ s * q ^ h.countP hit ≤ max (q ^ h.countP hit) (φ s₀ * p ^ h.countP hit) := by
  induction run with
  | nil => simp
  | @cons h t u a _ hstep ih =>
    have hrest := ih (fun e he => lower e (List.mem_cons_of_mem _ he))
      fun e he => keep e (List.mem_cons_of_mem _ he)
    rw [List.countP_cons]
    cases hhit : hit (t, a) with
    | false =>
      have hle := keep (t, a) List.mem_cons_self hhit u hstep
      simp only [Bool.false_eq_true, if_false, Nat.add_zero]
      exact le_trans (Nat.mul_le_mul_right _ hle) hrest
    | true =>
      have hle := lower (t, a) List.mem_cons_self hhit u hstep
      simp only [if_true]
      generalize h.countP hit = k at hrest ⊢
      calc φ u * q ^ (k + 1) = φ u * q * q ^ k := by rw [pow_succ', Nat.mul_assoc]
        _ ≤ max q (φ t * p) * q ^ k := Nat.mul_le_mul_right _ hle
        _ = max (q * q ^ k) (φ t * q ^ k * p) := by
          rw [← Nat.mul_max_mul_right, Nat.mul_right_comm]
        _ ≤ max (q * q ^ k) (max (q ^ k) (φ s₀ * p ^ k) * p) :=
          max_le_max le_rfl (Nat.mul_le_mul_right _ hrest)
        _ = max (q ^ (k + 1)) (max (q ^ k * p) (φ s₀ * p ^ (k + 1))) := by
          rw [← Nat.mul_max_mul_right, pow_succ', pow_succ p, Nat.mul_assoc]
        _ ≤ max (q ^ (k + 1)) (φ s₀ * p ^ (k + 1)) := by
          rw [← max_assoc]
          refine max_le_max (max_le le_rfl ?_) le_rfl
          rw [pow_succ]
          exact Nat.mul_le_mul_left _ hpq

/-! ## Executing a list of actions -/

/-- The history and the final state of executing `as`, oldest action first, after `h`. -/
def exec (step : S → A → Option S) : List (S × A) → S → List A → Option (List (S × A) × S)
  | h, s, [] => some (h, s)
  | h, s, a :: as =>
    match step s a with
    | none => none
    | some s' => exec step ((s, a) :: h) s' as

theorem run_of_exec {s₀ : S} :
    ∀ {as : List A} {h h' : List (S × A)} {s s' : S}, Run step s₀ h s →
      exec step h s as = some (h', s') → Run step s₀ h' s'
  | [], h, h', s, s', run, hexec => by
      obtain ⟨rfl, rfl⟩ := Prod.mk.inj (Option.some.inj hexec)
      exact run
  | a :: as, h, h', s, s', run, hexec => by
      rw [exec] at hexec
      split at hexec
      · cases hexec
      · rename_i t hstep
        exact run_of_exec (run.cons hstep) hexec

/-- A loop whose body is a step is a run. -/
theorem run_of_foldlM {X : Type*} (f : X → A) :
    ∀ {l : List X} {s s' : S}, l.foldlM (fun s x => step s (f x)) s = some s' →
      ∃ h, Run step s h s' ∧ h.map Prod.snd = (l.map f).reverse
  | [], s, s', hfold => by
      obtain rfl := Option.some.inj hfold
      exact ⟨[], .nil, rfl⟩
  | x :: l, s, s', hfold => by
      rw [List.foldlM_cons] at hfold
      obtain ⟨t, hstep, hfold⟩ := Option.bind_eq_some_iff.1 hfold
      obtain ⟨h, run, hacts⟩ := run_of_foldlM f hfold
      refine ⟨h ++ [(s, f x)], (Run.nil.cons hstep).append run, ?_⟩
      rw [List.map_append, hacts, List.map_cons (f := f), List.reverse_cons]
      rfl

/-- A check of the outcome of an execution that succeeds is a fact about a run. -/
theorem exists_run_of_exec (step : S → A → Option S) (s₀ : S) (as : List A)
    (p : List (S × A) × S → Bool) (h : (exec step [] s₀ as).any p = true) :
    ∃ h s, Run step s₀ h s ∧ p (h, s) = true := by
  cases hexec : exec step [] s₀ as with
  | none =>
    rw [hexec] at h
    cases h
  | some r =>
    rw [hexec] at h
    exact ⟨r.1, r.2, run_of_exec Run.nil hexec, h⟩

/-! ## Alternating labels -/

variable {E : Type*}

/-- `a` and `b` take turns in the list, `a` first. -/
def Alternates (a b : E) : List E → Prop
  | [] => True
  | x :: l => x = a ∧ Alternates b a l

theorem alternates_concat (x : E) :
    ∀ (a b : E) (l : List E),
      Alternates a b (l ++ [x]) ↔ Alternates a b l ∧ x = if Even l.length then a else b
  | a, b, [] => by simp [Alternates]
  | a, b, y :: l => by
      simp only [List.cons_append, Alternates, alternates_concat x b a l, List.length_cons,
        and_assoc, Nat.even_add_one]
      by_cases h : Even l.length <;> simp [h]

variable [DecidableEq E]

/-- In an alternating list the second label is never ahead, and at most one behind. -/
theorem Alternates.count_eq {a b : E} (hab : a ≠ b) :
    ∀ {l : List E}, Alternates a b l →
      l.count a = l.count b + if Even l.length then 0 else 1 := by
  intro l
  induction l using List.reverseRecOn with
  | nil => simp
  | append_singleton l x ih =>
    intro h
    obtain ⟨hl, hx⟩ := (alternates_concat x a b l).1 h
    have := ih hl
    by_cases heven : Even l.length
    · rw [if_pos heven] at hx this
      subst hx
      simp [List.count_append, heven, Nat.even_add_one, hab, this]
    · rw [if_neg heven] at hx this
      subst hx
      simp [List.count_append, heven, Nat.even_add_one, hab.symm, this]

end Transition
