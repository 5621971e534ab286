import GhostConsensus.Lib.Transition
import Mathlib.Data.List.Chain

/-!
# Logs with a pending entry

A log grows in two steps: an entry is proposed on top of the last one, and then settled, in the form
in which it stays. What is settled never changes (`settled_prefix`), and as every entry is
proposed as a child of the last settled one the log is a chain (`chained`).
-/

/-- The settled entries, oldest first, and the entry that is proposed. -/
structure Log (E : Type*) where
  settled : List E
  pending : Option E

namespace Log

open Transition

variable {E : Type*}

inductive Action (E : Type*) where
  | propose (e : E)
  | settle (e : E)

/-- All entries, with the pending one last. -/
def entries (L : Log E) : List E := L.settled ++ L.pending.toList

variable (child seals : E → E → Prop)

/-- No entry is pending, and `e` is a child of the last settled one. -/
def CanPropose (L : Log E) (e : E) : Prop :=
  L.pending = none ∧ ∀ top ∈ L.settled.getLast?, child e top

/-- `e` is the settled form of the pending entry. -/
def CanSettle (L : Log E) (e : E) : Prop := ∃ p ∈ L.pending, seals e p

open Classical in
/-- An entry is proposed or settled. -/
noncomputable def step (L : Log E) : Action E → Option (Log E)
  | .propose e => if L.CanPropose child e then some { L with pending := some e } else none
  | .settle e =>
    if L.CanSettle seals e then some { settled := L.settled ++ [e], pending := none } else none

variable {child seals} {L L' : Log E} {e : E} {h : List (Log E × Action E)}

theorem step_propose_eq_some : step child seals L (.propose e) = some L' ↔
    L.CanPropose child e ∧ L' = { L with pending := some e } := by
  rw [step, Option.ite_none_right_eq_some, Option.some.injEq, eq_comm (a := L')]

theorem step_settle_eq_some : step child seals L (.settle e) = some L' ↔
    L.CanSettle seals e ∧ L' = { settled := L.settled ++ [e], pending := none } := by
  rw [step, Option.ite_none_right_eq_some, Option.some.injEq, eq_comm (a := L')]

/-- What is settled stays settled. -/
theorem settled_prefix (run : Run (step child seals) L h L') : L.settled <+: L'.settled := by
  refine run.invariant (I := fun M => L.settled <+: M.settled) (List.prefix_refl _) ?_
  intro M a M' hM hstep
  cases a with
  | propose e =>
    obtain ⟨-, rfl⟩ := step_propose_eq_some.1 hstep
    exact hM
  | settle e =>
    obtain ⟨-, rfl⟩ := step_settle_eq_some.1 hstep
    exact hM.trans (List.prefix_append _ _)

/-- Every entry is a child of the one before. -/
def Chained (child : E → E → Prop) (L : Log E) : Prop :=
  L.entries.IsChain fun parent e => child e parent

theorem Chained.step (sealed : ∀ e p top, seals e p → child p top → child e top)
    (hL : Chained child L) {a : Action E} (h : step child seals L a = some L') :
    Chained child L' := by
  unfold Chained entries at hL ⊢
  rw [List.isChain_append] at hL ⊢
  cases a with
  | propose e =>
    obtain ⟨⟨-, hchild⟩, rfl⟩ := step_propose_eq_some.1 h
    refine ⟨hL.1, List.isChain_singleton _, fun top htop e' he' => ?_⟩
    obtain rfl := Option.some.inj he'
    exact hchild top htop
  | settle e =>
    obtain ⟨⟨p, hp, hseals⟩, rfl⟩ := step_settle_eq_some.1 h
    rw [Option.mem_def] at hp
    refine ⟨?_, List.isChain_nil, fun _ _ _ he' => by cases he'⟩
    rw [List.isChain_append]
    refine ⟨hL.1, List.isChain_singleton _, fun top htop e' he' => ?_⟩
    obtain rfl := Option.some.inj he'
    exact sealed e p top hseals (hL.2.2 top htop p (hp ▸ rfl))

theorem chained (sealed : ∀ e p top, seals e p → child p top → child e top)
    (run : Run (step child seals) L h L') (start : Chained child L) : Chained child L' :=
  run.invariant (I := Chained child) start fun _ _ _ hM hstep => hM.step sealed hstep

end Log
