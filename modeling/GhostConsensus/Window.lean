import GhostConsensus.Runtime
import Mathlib.Data.List.DropRight

/-!
# The window of recent producers

`RecentBlockProducers` is a bounded vector from which the first entry is removed before a push when it
is full. It holds the last hundred entries of the list of all miners so far, and the push, whose
failure the source discards, never fails.
-/

namespace GhostConsensus

open Transition

/-! ## Bounded vectors as windows -/

/-- Making room in a window of the last `bound` entries of a list leaves the last `bound - 1`. -/
theorem BoundedVec.toList_makeRoom {α : Type} {bound : ℕ} [NeZero bound] {v : BoundedVec α bound}
    {l : List α} (h : v.toList = l.rtake bound) : v.makeRoom.toList = l.rtake (bound - 1) := by
  have hbound := Nat.pos_of_neZero bound
  have hlength : v.toList.length = l.length - (l.length - bound) := by
    rw [h, List.rtake, List.length_drop]
  rw [makeRoom, List.rtake]
  split
  · show v.toList.drop 1 = _
    rw [h, List.rtake, List.drop_drop]
    congr 1
    omega
  · rw [h, List.rtake]
    congr 1
    omega

variable {α H B : Type} [AccountId α] [DecidableEq H]

section Definitions

variable (T : Config α H B)

/-- The accounts whose submissions have succeeded, oldest first. -/
def miners (h : List (Record α H B)) : List α :=
  (h.filterMap fun e => (submission T e).map Prod.fst).reverse

/-- A step changes the window by a submission only, which finds room for the miner. -/
structure WindowStep (s : State α H B) (a : Action α H) (s' : State α H B) : Prop where
  pushed : ∀ miner header, submission T (s, a) = some (miner, header) →
    s.recentBlockProducers.makeRoom.toList.length < 100 ∧
      s'.recentBlockProducers.toList = s.recentBlockProducers.makeRoom.toList ++ [miner]
  kept : submission T (s, a) = none → s'.recentBlockProducers = s.recentBlockProducers

end Definitions

variable {T : Config α H B}

theorem step_window {s s' : State α H B} {a : Action α H} (h : step T s a = some s') :
    WindowStep T s a s' := by
  have hroom := s.recentBlockProducers.length_makeRoom_lt
  cases step_chain h with
  | @accepted miner header _ _ hsub =>
    refine ⟨fun miner' header' hsub' => ⟨hroom, ?_⟩, fun hnone => ?_⟩
    · obtain ⟨rfl, -⟩ := Prod.mk.inj (Option.some.inj (hsub.symm.trans hsub'))
      exact acceptBlock_recentBlockProducers s miner header
    · rw [hnone] at hsub
      cases hsub
  | closed _ hsub =>
    exact ⟨fun _ _ hsub' => (by rw [hsub] at hsub'; cases hsub'), fun _ => rfl⟩
  | reopened _ _ hsub =>
    exact ⟨fun _ _ hsub' => (by rw [hsub] at hsub'; cases hsub'), fun _ => rfl⟩
  | unchanged hsub _ _ hsame =>
    exact ⟨fun _ _ hsub' => (by rw [hsub] at hsub'; cases hsub'), fun _ => hsame.recentBlockProducers⟩

/-- A step keeps the window at the last hundred miners. -/
theorem WindowStep.rtake_miners {h : List (Record α H B)} {s s' : State α H B} {a : Action α H}
    (hwindow : WindowStep T s a s')
    (inv : s.recentBlockProducers.toList = (miners T h).rtake 100) :
    s'.recentBlockProducers.toList = (miners T ((s, a) :: h)).rtake 100 := by
  rw [miners, List.filterMap_cons]
  cases hsub : submission T (s, a) with
  | none => rw [hwindow.kept hsub, inv]; rfl
  | some c =>
    rw [(hwindow.pushed c.1 c.2 hsub).2, BoundedVec.toList_makeRoom inv, Option.map_some,
      List.reverse_cons, List.rtake_concat_succ, miners]

/-- Starting with an empty window, in every run it holds the last hundred miners, a push never
fails, and nothing but a submission changes it. -/
theorem run_window {s₀ s : State α H B} {h : List (Record α H B)} (run : Run (step T) s₀ h s)
    (start : s₀.recentBlockProducers.toList = []) :
    s.recentBlockProducers.toList = (miners T h).rtake 100 ∧
      ∀ post pre t a t', h = post ++ (t, a) :: pre → step T t a = some t' → WindowStep T t a t' := by
  refine ⟨?_, fun _ _ _ _ _ _ hstep => step_window hstep⟩
  refine run.history_invariant (C := fun _ _ => True)
    (I := fun h s => s.recentBlockProducers.toList = (miners T h).rtake 100) ?_ (fun _ _ => trivial)
    fun _ _ _ _ _ inv _ hstep => (step_window hstep).rtake_miners inv
  rw [start]
  rfl

/-- In each of the runtime blocks `first`, `first + 1`, .. account `1` mines block 1 once more, and
validates it. -/
def devRounds (first count : ℕ) : List (Action ℕ (List ℕ)) :=
  (List.range' first count).flatMap fun n => [.onInitialize n,
    .dispatch (.signed 1) (.submitBlock devBlock), .dispatch (.signed 1) (.validateBlock 1 ⟨0⟩),
    .onFinalize n]

/-- After the block of `2` and 102 of `1`, the window is full of `1`'s. -/
theorem run_window_devRound :
    ∃ h s, Run (step devConfig) devState h s ∧ miners devConfig h = 2 :: List.replicate 102 1 ∧
      s.recentBlockProducers.toList = (miners devConfig h).rtake 100 := by
  obtain ⟨h, s, run, hcheck⟩ := exists_run_of_exec (step devConfig) devState
    (devRound ++ devRounds 2 102)
    (fun r => decide (miners devConfig r.1 = 2 :: List.replicate 102 1)) (by decide +kernel)
  exact ⟨h, s, run, of_decide_eq_true hcheck, (run_window run rfl).1⟩

end GhostConsensus
