/-
**Runs of a set of numbers.**

A run is a maximal interval inside a finite set; `IsNextRun` is the first run at or after a position,
`Runs` is the list of runs found one after the other.

* `Runs.mem_covered`, `Runs.nodup`: every element from the position on is covered, exactly once;
* `Runs.length_le`: how many runs there can be;
* `Runs.mem_iff`: from the start of the set, the list holds all its runs and nothing else;
* `IsNextRun.of_rest`: what lies before the position does not matter.
-/

import Mathlib.Data.Finset.Basic
import Mathlib.Order.Interval.Finset.Nat
import Mathlib.Order.Bounds.Basic
import Mathlib.Data.List.Range

namespace Library

variable {s : Finset Nat} {idx i n k : Nat} {runs : List (Nat × Nat)}

/-- A maximal interval of the set. -/
structure IsRun (s : Finset Nat) (i n : Nat) : Prop where
  positive : 0 < n
  inside : Finset.Ico i (i + n) ⊆ s
  stops : i + n ∉ s
  starts : ∀ j, j + 1 = i → j ∉ s

/-- The first run at or after `idx`. -/
structure IsNextRun (s : Finset Nat) (idx i n : Nat) : Prop where
  least : IsLeast {k | k ∈ s ∧ idx ≤ k} i
  positive : 0 < n
  inside : Finset.Ico i (i + n) ⊆ s
  stops : i + n ∉ s

/-- The runs from `idx` on, each looked for at the end of the one before. -/
inductive Runs (s : Finset Nat) : Nat → List (Nat × Nat) → Prop where
  | done {idx : Nat} (none : ∀ k ∈ s, k < idx) : Runs s idx []
  | next {idx i n : Nat} {rest : List (Nat × Nat)} (run : IsNextRun s idx i n)
      (after : Runs s (i + n) rest) : Runs s idx ((i, n) :: rest)

/-- The numbers of the intervals, in their order. -/
def covered (runs : List (Nat × Nat)) : List Nat := runs.flatMap fun run => List.range' run.1 run.2

theorem mem_covered : k ∈ covered runs ↔ ∃ run ∈ runs, run.1 ≤ k ∧ k < run.1 + run.2 := by
  unfold covered
  rw [List.mem_flatMap]
  refine exists_congr fun run => and_congr_right fun _ => ?_
  rw [List.mem_range'_1]

namespace IsNextRun

/-- Nothing lies between the position and the run. -/
theorem before (run : IsNextRun s idx i n) (member : k ∈ s) (lower : idx ≤ k) : i ≤ k :=
  run.least.2 ⟨member, lower⟩

/-- Two runs found from one position are the same. -/
theorem unique {i' n' : Nat} (run : IsNextRun s idx i n) (other : IsNextRun s idx i' n') :
    i = i' ∧ n = n' := by
  obtain rfl := run.least.unique other.least
  refine ⟨rfl, ?_⟩
  by_contra differs
  rcases Nat.lt_or_gt_of_ne differs with shorter | longer
  · exact run.stops (other.inside (Finset.mem_Ico.mpr ⟨by omega, by omega⟩))
  · exact other.stops (run.inside (Finset.mem_Ico.mpr ⟨by omega, by omega⟩))

/-- The run is maximal, if the position is not in the middle of one. -/
theorem isRun (run : IsNextRun s idx i n) (edge : ∀ j ∈ s, j + 1 = idx → idx ∉ s) : IsRun s i n := by
  refine ⟨run.positive, run.inside, run.stops, fun j next member => ?_⟩
  have lower := run.least.1.2
  by_cases inner : idx ≤ j
  · have := run.before member inner
    omega
  · obtain rfl : i = idx := by omega
    exact edge j member next run.least.1.1

/-- **What lies before the position does not matter.** -/
theorem of_rest {cut : Nat} (early : idx ≤ cut)
    (run : IsNextRun (s.filter (cut ≤ ·)) idx i n) : IsNextRun s cut i n := by
  obtain ⟨⟨member, lower⟩, least⟩ := run.least
  rw [Finset.mem_filter] at member
  refine ⟨⟨⟨member.1, member.2⟩, fun k inside => ?_⟩, run.positive, fun k inside => ?_, fun ends => ?_⟩
  · exact least ⟨Finset.mem_filter.mpr ⟨inside.1, inside.2⟩, early.trans inside.2⟩
  · exact (Finset.mem_filter.mp (run.inside inside)).1
  · exact run.stops (Finset.mem_filter.mpr ⟨ends, by omega⟩)

end IsNextRun

namespace Runs

/-- **Every element from the position on is covered**, and nothing else. -/
theorem mem_covered (list : Runs s idx runs) : k ∈ covered runs ↔ k ∈ s ∧ idx ≤ k := by
  induction list with
  | done none =>
      rw [Library.mem_covered]
      constructor
      · rintro ⟨_, member, _⟩
        cases member
      · rintro ⟨member, lower⟩
        have := none k member
        omega
  | @next idx i n rest run after ih =>
      have split : k ∈ covered ((i, n) :: rest) ↔ (i ≤ k ∧ k < i + n) ∨ k ∈ covered rest := by
        rw [Library.mem_covered, Library.mem_covered]
        simp only [List.mem_cons, exists_eq_or_imp]
      rw [split, ih]
      have lower := run.least.1.2
      constructor
      · rintro (⟨atLeast, below⟩ | ⟨member, later⟩)
        · exact ⟨run.inside (Finset.mem_Ico.mpr ⟨atLeast, below⟩), by omega⟩
        · exact ⟨member, by omega⟩
      · rintro ⟨member, later⟩
        have := run.before member later
        by_cases inRun : k < i + n
        · exact .inl ⟨this, inRun⟩
        · exact .inr ⟨member, by omega⟩

/-- **No element is covered twice.** -/
theorem nodup (list : Runs s idx runs) : (covered runs).Nodup := by
  induction list with
  | done => exact List.nodup_nil
  | @next idx i n rest run after ih =>
      have shape : covered ((i, n) :: rest) = List.range' i n ++ covered rest := rfl
      rw [shape, List.nodup_append]
      refine ⟨List.nodup_range', ih, fun j inRun k later => ?_⟩
      rw [List.mem_range'_1] at inRun
      have := (after.mem_covered.mp later).2
      omega

/-- Every run takes at least one element below the bound. -/
theorem length_le {bound : Nat} (list : Runs s idx runs) (below : ∀ k ∈ s, k < bound) :
    runs.length ≤ bound - idx := by
  induction list with
  | done => exact Nat.zero_le _
  | @next idx i n rest run after ih =>
      have lower := run.least.1.2
      have positive := run.positive
      have last := below (i + n - 1) (run.inside (Finset.mem_Ico.mpr ⟨by omega, by omega⟩))
      rw [List.length_cons]
      omega

/-- The list is determined by the set and the position. -/
theorem unique {other : List (Nat × Nat)} (list : Runs s idx runs) (second : Runs s idx other) :
    runs = other := by
  induction list generalizing other with
  | done none =>
      cases second with
      | done => rfl
      | next run =>
          have := none _ run.least.1.1
          have := run.least.1.2
          omega
  | next run after ih =>
      cases second with
      | done none =>
          have := none _ run.least.1.1
          have := run.least.1.2
          omega
      | next run' after' =>
          obtain ⟨rfl, rfl⟩ := run.unique run'
          rw [ih after']

/-- **The list holds the runs of the set**, if the position is not in the middle of one. -/
theorem mem_iff (list : Runs s idx runs) (edge : ∀ j ∈ s, j + 1 = idx → idx ∉ s) :
    (i, n) ∈ runs ↔ IsRun s i n ∧ idx ≤ i := by
  induction list with
  | done none =>
      refine ⟨fun member => (nomatch member), fun run => ?_⟩
      have member := run.1.inside (Finset.mem_Ico.mpr ⟨le_rfl, by have := run.1.positive; omega⟩)
      have := none i member
      omega
  | @next idx i' n' rest run after ih =>
      have lower := run.least.1.2
      have whole := run.isRun edge
      rw [List.mem_cons, ih fun j _ _ => run.stops]
      constructor
      · rintro (same | ⟨other, later⟩)
        · cases same
          exact ⟨whole, lower⟩
        · exact ⟨other, by omega⟩
      · rintro ⟨other, later⟩
        have member := other.inside (Finset.mem_Ico.mpr ⟨le_rfl, by have := other.positive; omega⟩)
        have start := run.before member later
        by_cases inRun : i < i' + n'
        · left
          -- a run that starts inside another one is that run
          obtain rfl : i = i' := by
            by_contra differs
            exact other.starts (i - 1) (by omega)
              (whole.inside (Finset.mem_Ico.mpr ⟨by omega, by omega⟩))
          have same := run.unique
            ⟨⟨⟨member, later⟩, run.least.2⟩, other.positive, other.inside, other.stops⟩
          rw [same.2]
        · exact .inr ⟨other, by omega⟩

/-- **No run is listed twice.** -/
theorem runs_nodup (list : Runs s idx runs) : runs.Nodup := by
  induction list with
  | done => exact List.nodup_nil
  | @next idx i n rest run after ih =>
      refine List.nodup_cons.mpr ⟨fun again => ?_, ih⟩
      have later := ((after.mem_iff fun _ _ _ => run.stops).mp again).2
      have := run.positive
      omega

end Runs

end Library
