import Mathlib.Data.List.Basic
import Mathlib.Data.List.Perm.Basic
import Mathlib.Tactic.Common

/-!
# Loops whose order does not matter

`Agree R x y` relates two computations that fail with the same error, or succeed with values related
by `R`. If the body of a loop respects `R`, and any two of its iterations commute up to `R`, the loop
over a permutation of the list agrees with the loop over the list (`foldlM_perm`).
-/

namespace Diamond

universe u v

variable {ε : Type u} {σ τ : Type v} {χ : Type*}

/-- The two computations fail in the same way, or succeed with values related by `R`. -/
inductive Agree (R : σ → σ → Prop) : Except ε σ → Except ε σ → Prop
  | ok {s t : σ} : R s t → Agree R (.ok s) (.ok t)
  | error (e : ε) : Agree R (.error e) (.error e)

variable {R : σ → σ → Prop}

theorem Agree.refl (hR : ∀ s, R s s) (x : Except ε σ) : Agree R x x := by
  cases x with
  | ok s => exact .ok (hR s)
  | error e => exact .error e

theorem Agree.trans (hR : ∀ s t u, R s t → R t u → R s u) {x y z : Except ε σ}
    (hxy : Agree R x y) (hyz : Agree R y z) : Agree R x z := by
  cases hxy with
  | ok hst =>
    cases hyz with
    | ok htu => exact .ok (hR _ _ _ hst htu)
  | error e => exact hyz

theorem Agree.bind {Q : τ → τ → Prop} {x y : Except ε σ} {f g : σ → Except ε τ}
    (hxy : Agree R x y) (hfg : ∀ s t, R s t → Agree Q (f s) (g t)) :
    Agree Q (x >>= f) (y >>= g) := by
  cases hxy with
  | ok hst => exact hfg _ _ hst
  | error e => exact .error e

theorem Agree.exists_ok {x y : Except ε σ} {s : σ} (h : Agree R x y) (hs : x = .ok s) :
    ∃ t, y = .ok t ∧ R s t := by
  cases h with
  | ok hst =>
    obtain rfl := Except.ok.inj hs
    exact ⟨_, rfl, hst⟩
  | error e => cases hs

/-! ## Loops -/

variable {f : σ → χ → Except ε σ}

theorem agree_foldlM (congr : ∀ s t x, R s t → Agree R (f s x) (f t x)) (l : List χ) {s t : σ}
    (h : R s t) : Agree R (l.foldlM f s) (l.foldlM f t) := by
  induction l generalizing s t with
  | nil => exact .ok h
  | cons x l ih =>
    rw [List.foldlM_cons, List.foldlM_cons]
    exact (congr s t x h).bind fun _ _ => ih

/-- A loop any two iterations of which commute does not depend on the order of the iterations. -/
theorem foldlM_perm (refl : ∀ s, R s s) (trans : ∀ s t u, R s t → R t u → R s u)
    (congr : ∀ s t x, R s t → Agree R (f s x) (f t x)) {l l' : List χ} (perm : l.Perm l')
    (comm : ∀ x ∈ l, ∀ y ∈ l, x ≠ y → ∀ s, Agree R (f s x >>= (f · y)) (f s y >>= (f · x)))
    (s : σ) : Agree R (l.foldlM f s) (l'.foldlM f s) := by
  induction perm generalizing s with
  | nil => exact .refl refl _
  | cons x _ ih =>
    rw [List.foldlM_cons, List.foldlM_cons]
    refine (Agree.refl refl (f s x)).bind fun t u htu => ?_
    refine (agree_foldlM congr _ htu).trans trans (ih (fun y hy z hz => ?_) u)
    exact comm y (List.mem_cons_of_mem _ hy) z (List.mem_cons_of_mem _ hz)
  | swap x y l =>
    by_cases hxy : y = x
    · subst hxy
      exact .refl refl _
    · have hswap := comm y List.mem_cons_self x (List.mem_cons_of_mem _ List.mem_cons_self) hxy s
      simp only [List.foldlM_cons, ← bind_assoc]
      exact hswap.bind fun _ _ => agree_foldlM congr l
  | trans hl _ ih₁ ih₂ =>
    refine (ih₁ comm s).trans trans (ih₂ (fun x hx y hy => ?_) s)
    exact comm x (hl.mem_iff.2 hx) y (hl.mem_iff.2 hy)

end Diamond
