import Mathlib.Tactic.Common

/-!
# Two versions of a program of which one may abort

`Guards e never x y`: the guarded version `x` of a computation either aborts with `e` or does what
the plain version `y` does, and `y` fails with none of the errors in `never`. The rules follow the
program: sequences, branches and loops of guarded computations are guarded.
-/

namespace Abort

variable {ε σ τ : Type} {e : ε} {never : ε → Prop}

structure Guards (e : ε) (never : ε → Prop) (x y : Except ε σ) : Prop where
  agree : x = .error e ∨ x = y
  fails : ∀ f, y = .error f → ¬never f

theorem Guards.refl {x : Except ε σ} (h : ∀ f, x = .error f → ¬never f) : Guards e never x x :=
  ⟨.inr rfl, h⟩

theorem guards_ok (a : σ) : Guards e never (.ok a) (.ok a) := .refl fun _ h => by cases h

theorem guards_pure (a : σ) : Guards e never (pure a : Except ε σ) (pure a) := guards_ok a

/-- A guarded computation that does not abort is the plain one. -/
theorem Guards.eq {x y : Except ε σ} (h : Guards e never x y) (hx : x ≠ .error e) : x = y :=
  h.agree.resolve_left hx

theorem Guards.bind {x y : Except ε σ} {f g : σ → Except ε τ} (h : Guards e never x y)
    (hf : ∀ a, Guards e never (f a) (g a)) : Guards e never (x >>= f) (y >>= g) := by
  cases y with
  | error e' =>
    refine ⟨?_, fun e'' heq => ?_⟩
    · rcases h.agree with rfl | rfl
      · exact .inl rfl
      · exact .inr rfl
    · obtain rfl := Except.error.inj heq
      exact h.fails _ rfl
  | ok a =>
    refine ⟨?_, (hf a).fails⟩
    rcases h.agree with rfl | rfl
    · exact .inl rfl
    · exact (hf a).agree

/-- The rule for a branch that relies on its test. -/
theorem Guards.ite_of {c : Prop} [Decidable c] {x y x' y' : Except ε σ}
    (h : c → Guards e never x y) (h' : ¬c → Guards e never x' y') :
    Guards e never (if c then x else x') (if c then y else y') := by
  by_cases hc : c
  · rw [if_pos hc, if_pos hc]
    exact h hc
  · rw [if_neg hc, if_neg hc]
    exact h' hc

theorem Guards.ite {c : Prop} [Decidable c] {x y x' y' : Except ε σ} (h : Guards e never x y)
    (h' : Guards e never x' y') :
    Guards e never (if c then x else x') (if c then y else y') :=
  .ite_of (fun _ => h) fun _ => h'

theorem Guards.foldlM {f g : σ → τ → Except ε σ} (hf : ∀ s x, Guards e never (f s x) (g s x)) :
    ∀ (l : List τ) (s : σ), Guards e never (l.foldlM f s) (l.foldlM g s)
  | [], s => guards_pure s
  | x :: l, s => by
      rw [List.foldlM_cons, List.foldlM_cons]
      exact (hf s x).bind fun t => Guards.foldlM hf l t

end Abort
