/-
**Transition systems and what they show.**

A step of a `System` shows an event or nothing, and a run what its steps show. A simulation relates the
states of two systems so that every step of the first one is a run of the second one that shows the same.

* `System.Run.append`: runs compose;
* `System.Invariant.run`: what every step keeps holds along a run;
* `Simulation.run`: runs of the first system are simulated by runs of the second one, which show the same.
-/

import Mathlib.Logic.Basic

namespace Library

/-- A transition system; a step shows an event or nothing. -/
structure System (σ ε : Type*) where
  start : σ → Prop
  step : σ → Option ε → σ → Prop

namespace System

variable {σ ε : Type*} {M : System σ ε} {s t u : σ} {first second : List ε}

/-- A run, with the events that it shows. -/
inductive Run (M : System σ ε) (s : σ) : List ε → σ → Prop where
  | refl : Run M s [] s
  | tail {t u : σ} {events : List ε} {shown : Option ε} :
      Run M s events t → M.step t shown u → Run M s (events ++ shown.toList) u

theorem Run.single {shown : Option ε} (step : M.step s shown t) : M.Run s shown.toList t := by
  simpa using Run.tail .refl step

/-- **Runs compose.** -/
theorem Run.append (before : M.Run s first t) (after : M.Run t second u) :
    M.Run s (first ++ second) u := by
  induction after with
  | refl => simpa using before
  | tail _ step ih =>
      rw [← List.append_assoc]
      exact .tail ih step

/-- A property that holds at every start and that every step keeps. -/
structure Invariant (M : System σ ε) (I : σ → Prop) : Prop where
  start : ∀ s, M.start s → I s
  step : ∀ s shown t, I s → M.step s shown t → I t

theorem Invariant.run {I : σ → Prop} (invariant : M.Invariant I) (holds : I s)
    (run : M.Run s first t) : I t := by
  induction run with
  | refl => exact holds
  | tail _ step ih => exact invariant.step _ _ _ ih step

end System

/-- A relation that steps of the first system keep, by runs of the second one that show the same. -/
structure Simulation {σ τ ε : Type*} (C : System σ ε) (A : System τ ε) (R : σ → τ → Prop) : Prop where
  start : ∀ s, C.start s → ∃ a, A.start a ∧ R s a
  step : ∀ s a shown t, R s a → C.step s shown t → ∃ b, A.Run a shown.toList b ∧ R t b

namespace Simulation

variable {σ τ ε : Type*} {C : System σ ε} {A : System τ ε} {R : σ → τ → Prop} {s t : σ} {a : τ}
  {events : List ε}

/-- **Runs are simulated.** -/
theorem run (simulation : Simulation C A R) (related : R s a) (run : C.Run s events t) :
    ∃ b, A.Run a events b ∧ R t b := by
  induction run with
  | refl => exact ⟨a, .refl, related⟩
  | tail _ step ih =>
      obtain ⟨b, before, related⟩ := ih
      obtain ⟨c, after, related⟩ := simulation.step _ _ _ _ related step
      exact ⟨c, before.append after, related⟩

end Simulation

end Library
