/-
**Commit masks refine finite sets.**

A mask is the set of the slices whose bits are set; every operation on masks is the operation on sets
it stands for, and `next_run` finds the runs of the set.

* `slices`: the set of a mask;
* `nextRun_none`, `nextRun_some`: the two results of `next_run`;
* `runsFrom_runs`: calling `next_run` again and again lists the runs of the mask;
* `masks_refine_sets`.
-/

import VerusMimalloc.Model.CommitMask
import VerusMimalloc.Library.Runs

namespace VerusMimalloc

open Library

namespace CommitMask

variable {m other : CommitMask} {idx i n : Nat}

/-- The set of the slices in a mask. -/
def slices (m : CommitMask) : Finset Nat := (Finset.range commitMaskBits).filter fun k => m.bit k = true

theorem mem_slices {k : Nat} : k ∈ m.slices ↔ m.bit k = true := by
  unfold slices
  rw [Finset.mem_filter, Finset.mem_range]
  exact ⟨fun member => member.2, fun set => ⟨lt_of_bit set, set⟩⟩

theorem not_mem_slices {k : Nat} : k ∉ m.slices ↔ m.bit k = false := by
  rw [mem_slices, Bool.not_eq_true]

/-- A mask is determined by its set. -/
theorem slices_inj (same : m.slices = other.slices) : m = other := by
  apply ext_bit
  intro k
  have member : k ∈ m.slices ↔ k ∈ other.slices := by rw [same]
  rw [mem_slices, mem_slices] at member
  exact Bool.eq_iff_iff.mpr member

theorem slices_eq_empty : m.slices = ∅ ↔ ∀ k, m.bit k = false := by
  rw [Finset.eq_empty_iff_forall_notMem]
  exact forall_congr' fun k => not_mem_slices

/-! ### Runs -/

/-- `(512, 0)` is the result exactly when no bit is set from the position on. -/
theorem nextRun_none : m.nextRun idx = (commitMaskBits, 0) ↔ ∀ k ∈ m.slices, k < idx := by
  show m.nextRun idx = (512, 0) ↔ _
  rcases nextRun_spec m idx with ⟨result, clear⟩ | ⟨i, n, result, positive, lower, _, _, ones, _⟩
  · refine ⟨fun _ k member => ?_, fun _ => result⟩
    by_contra late
    rw [mem_slices, clear k (Nat.le_of_not_lt late)] at member
    cases member
  · rw [result]
    constructor
    · intro same
      cases same
      omega
    · intro early
      have := early i (mem_slices.mpr (ones i le_rfl (by omega)))
      omega

/-- Any other result is the first run at or after the position. -/
theorem nextRun_some (result : m.nextRun idx = (i, n)) (some : n ≠ 0) :
    IsNextRun m.slices idx i n ∧ i + n ≤ commitMaskBits := by
  rcases nextRun_spec m idx with ⟨none, _⟩ | ⟨i', n', found, positive, lower, bound, before, ones, ends⟩
  · rw [result] at none
    cases none
    exact absurd rfl some
  · rw [result] at found
    cases found
    refine ⟨⟨⟨⟨?_, lower⟩, fun k inside => ?_⟩, positive, fun k inside => ?_, ?_⟩, bound⟩
    · exact mem_slices.mpr (ones i le_rfl (by omega))
    · obtain ⟨member, later⟩ := inside
      by_contra early
      rw [mem_slices, before k later (Nat.lt_of_not_le early)] at member
      cases member
    · obtain ⟨atLeast, below⟩ := Finset.mem_Ico.mp inside
      exact mem_slices.mpr (ones k atLeast below)
    · exact not_mem_slices.mpr ends

/-- A run of length zero is reported at the end of the mask only. -/
theorem nextRun_last (result : m.nextRun idx = (i, 0)) : m.nextRun idx = (commitMaskBits, 0) := by
  rcases nextRun_spec m idx with ⟨none, _⟩ | ⟨i', n', found, positive, _⟩
  · exact none
  · rw [result] at found
    cases found
    omega

/-- Calling `next_run` again at the end of every run; `none` when the calls are cut off. -/
def runsFrom (m : CommitMask) : Nat → Nat → Option (List (Nat × Nat))
  | 0, _ => none
  | calls + 1, idx =>
      let (i, n) := m.nextRun idx
      if n = 0 then some [] else (runsFrom m calls (i + n)).map ((i, n) :: ·)

theorem runsFrom_done {calls : Nat} (none : ∀ k ∈ m.slices, k < idx) :
    m.runsFrom (calls + 1) idx = some [] ∧ Runs m.slices idx [] := by
  refine ⟨?_, .done none⟩
  unfold runsFrom
  rw [nextRun_none.mpr none]
  rfl

/-- **The calls end, and list the runs.** -/
theorem runsFrom_runs {calls : Nat} (enough : commitMaskBits ≤ calls + idx) :
    ∃ runs, m.runsFrom (calls + 1) idx = some runs ∧ Runs m.slices idx runs := by
  induction calls generalizing idx with
  | zero =>
      refine ⟨[], runsFrom_done fun k member => ?_⟩
      have inside := lt_of_bit (mem_slices.mp member)
      simp only [commitMaskBits, slicesPerSegment] at enough
      omega
  | succ calls ih =>
      cases result : m.nextRun idx with
      | mk i n =>
          by_cases last : n = 0
          · subst last
            exact ⟨[], runsFrom_done (nextRun_none.mp (nextRun_last result))⟩
          · obtain ⟨run, _⟩ := nextRun_some result last
            have lower := run.least.1.2
            obtain ⟨rest, found, after⟩ := ih (show commitMaskBits ≤ calls + (i + n) by omega)
            refine ⟨(i, n) :: rest, ?_, .next run after⟩
            rw [runsFrom, result]
            simp only [if_neg last, found, Option.map_some]

/-! ### The refinement -/

/-- **Masks refine sets**: the operations, the interval, the tests and the runs. -/
theorem masks_refine_sets :
    (∀ m other : CommitMask,
      (m.allSet other = true ↔ other.slices ⊆ m.slices) ∧
      (m.anySet other = true ↔ (m.slices ∩ other.slices).Nonempty) ∧
      (m.createIntersect other).slices = m.slices ∩ other.slices ∧
      (m.clear other).slices = m.slices \ other.slices ∧
      (m.set other).slices = m.slices ∪ other.slices) ∧
    (∀ (m : CommitMask) (idx count : Nat), m.slices = ∅ → idx + count ≤ commitMaskBits →
      (m.create idx count).slices = Finset.Ico idx (idx + count)) ∧
    (∀ m : CommitMask, (m.isEmpty = true ↔ m.slices = ∅) ∧
      (m.isFull = true ↔ m.slices = Finset.range commitMaskBits)) ∧
    (∀ (m : CommitMask) (idx : Nat),
      (m.nextRun idx = (commitMaskBits, 0) ↔ ∀ k ∈ m.slices, k < idx) ∧
      ∀ i n, m.nextRun idx = (i, n) → (i, n) ≠ (commitMaskBits, 0) →
        IsNextRun m.slices idx i n ∧ i + n ≤ commitMaskBits) ∧
    ∀ (m : CommitMask) (calls : Nat), commitMaskBits < calls →
      ∃ runs, m.runsFrom calls 0 = some runs ∧ (covered runs).Nodup ∧
        (∀ k, k ∈ covered runs ↔ k ∈ m.slices) ∧ ∀ i n, (i, n) ∈ runs ↔ IsRun m.slices i n := by
  refine ⟨fun m other => ⟨?_, ?_, ?_, ?_, ?_⟩, fun m idx count empty bound => ?_, fun m => ⟨?_, ?_⟩,
    fun m idx => ⟨nextRun_none, fun i n result differs => ?_⟩, fun m calls enough => ?_⟩
  · rw [allSet_iff]
    exact forall_congr' fun k => by rw [mem_slices, mem_slices]
  · rw [anySet_iff]
    exact exists_congr fun k => by rw [Finset.mem_inter, mem_slices, mem_slices]
  · ext k
    rw [Finset.mem_inter, mem_slices, mem_slices, mem_slices, bit_createIntersect, Bool.and_eq_true]
  · ext k
    rw [Finset.mem_sdiff, mem_slices, mem_slices, mem_slices, bit_clear, Bool.and_eq_true,
      Bool.not_eq_true', Bool.not_eq_true]
  · ext k
    rw [Finset.mem_union, mem_slices, mem_slices, mem_slices, bit_set, Bool.or_eq_true]
  · obtain rfl : m = .empty := slices_inj (by
      rw [empty, eq_comm, slices_eq_empty]
      exact fun k => bit_empty)
    ext k
    rw [mem_slices, bit_create bound, decide_eq_true_eq, Finset.mem_Ico]
  · rw [isEmpty_iff, slices_eq_empty]
  · rw [isFull_iff]
    constructor
    · intro all
      ext k
      rw [mem_slices, Finset.mem_range]
      exact ⟨lt_of_bit, all k⟩
    · intro same k inside
      rw [← mem_slices, same]
      exact Finset.mem_range.mpr inside
  · refine nextRun_some result fun last => ?_
    subst last
    exact differs (result.symm.trans (nextRun_last result))
  · obtain ⟨calls, rfl⟩ : ∃ more, calls = more + 1 := ⟨calls - 1, by omega⟩
    have listed : ∃ runs, m.runsFrom (calls + 1) 0 = some runs ∧ Runs m.slices 0 runs :=
      runsFrom_runs (by omega)
    obtain ⟨runs, result, list⟩ := listed
    refine ⟨runs, result, list.nodup, fun k => ?_, fun i n => ?_⟩
    · rw [list.mem_covered]
      exact ⟨fun inside => inside.1, fun member => ⟨member, Nat.zero_le k⟩⟩
    · rw [list.mem_iff fun j _ next => absurd next (Nat.succ_ne_zero j)]
      exact ⟨fun run => run.1, fun run => ⟨run, Nat.zero_le i⟩⟩

/-- A run across the edge of a word. -/
theorem masks_refine_sets_across :
    (empty.create 62 4).slices = Finset.Ico 62 66 ∧
      ∃ runs, (empty.create 62 4).runsFrom 513 0 = some runs ∧ (covered runs).Nodup :=
  ⟨masks_refine_sets.2.1 empty 62 4 (slices_eq_empty.mpr fun _ => bit_empty) (by decide), by
    obtain ⟨runs, result, nodup, _⟩ :=
      masks_refine_sets.2.2.2.2 (empty.create 62 4) 513 (by decide)
    exact ⟨runs, result, nodup⟩⟩

end CommitMask

end VerusMimalloc
