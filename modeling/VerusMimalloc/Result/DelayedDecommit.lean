/-
**The forced decommit of a segment.**

Every round of `segment_delayed_decommit` looks for a run in a mask that the round before has made
smaller, always from the start of the run before.

* `decommit_run`: one round clears its run in both masks and asks for its bytes once;
* `decommitLoop_spec`: the rounds decommit the runs of the mask one after the other, and stop;
* `delayed_decommit`.
-/

import VerusMimalloc.Proof.Runs
import VerusMimalloc.Result.Masks

namespace VerusMimalloc

open Library

variable {l : Local} {s i n : Nat}

/-- The call on the operating system for a run of slices. -/
def decommitRange (s : Nat) (run : Nat × Nat) : Nat × Nat × Bool :=
  (s + run.1 * commitSize, run.2 * commitSize, false)

/-- A segment header whose masks may be decommitted: what to decommit is committed. -/
structure MayDecommit (m : SegmentHeader) : Prop where
  allowed : m.allowDecommit = true
  contained : m.decommitMask.slices ⊆ m.commitMask.slices

/-- **One round**: a run of committed slices is decommitted with one call. -/
theorem decommit_run (aligned : segmentSize ∣ s) (nonzero : 0 < s) (bound : s + segmentSize < 2 ^ 64)
    (allowed : (l.segs s).allowDecommit = true) (positive : 0 < n) (inside : i + n ≤ 512)
    (committed : (l.segs s).commitMask.bit i = true) :
    ∃ l', segmentCommitx l s false (s + i * commitSize) (n * commitSize) = (true, l') ∧
      Commitx l l' s i n false ∧ l'.os.protections = decommitRange s (i, n) :: l.os.protections := by
  unfold decommitRange
  simp only [commitSize, sliceSize]
  obtain ⟨l', result, change⟩ :=
    segmentCommitx_spec (l := l) false aligned nonzero bound positive inside
  refine ⟨l', result, change, ?_⟩
  have any : (l.segs s).commitMask.anySet (CommitMask.empty.create i n) = true := by
    refine CommitMask.anySet_iff.mpr ⟨i, committed, ?_⟩
    rw [CommitMask.bit_create inside]
    exact decide_eq_true ⟨le_rfl, by omega⟩
  have decommitted : osDecommit l (s + i * 65536) (n * 65536) =
      (true, l.protect (s + i * 65536) (n * 65536) false) :=
    osCommitx_slices l false true aligned nonzero bound positive inside
  have protect : segmentCommitxProtect l s false (s + i * 65536) (n * 65536) _ = _ :=
    segmentCommitxProtect_decommit any
  rw [if_pos allowed, decommitted] at protect
  have steps := segmentCommitx_eq (segmentCommitMask_slices _ positive inside)
    (create_nonempty positive inside) (by omega) protect
  rw [result] at steps
  rw [(Prod.mk.inj steps).2, Local.modifySeg_os, commitTimer, Bool.false_and, if_neg (by decide),
    Local.modifySeg_os, Local.protect_protections]

/-- The mask after the runs below `pos` are decommitted. -/
def Rest (old : CommitMask) (pos : Nat) (m : CommitMask) : Prop :=
  m.slices = old.slices.filter (pos ≤ ·)

/-- Clearing the next run leaves what lies behind it. -/
theorem Rest.next {old m m' : CommitMask} {pos : Nat} (rest : Rest old pos m)
    (run : IsNextRun old.slices pos i n) (cleared : ∀ j, m'.bit j = (m.bit j && !inRange i n j)) :
    Rest old (i + n) m' := by
  ext j
  have lower := run.least.1.2
  have before : j ∈ m.slices ↔ j ∈ old.slices ∧ pos ≤ j := by rw [rest, Finset.mem_filter]
  rw [Finset.mem_filter, CommitMask.mem_slices, cleared j, Bool.and_eq_true, ← CommitMask.mem_slices,
    before, Bool.not_eq_true', inRange, decide_eq_false_iff_not]
  constructor
  · rintro ⟨⟨member, later⟩, outside⟩
    have := run.before member later
    exact ⟨member, by omega⟩
  · rintro ⟨member, later⟩
    exact ⟨⟨member, by omega⟩, by omega⟩

/-- **The loop.** From a mask that holds the runs in `runs`, each of them is decommitted, and more
rounds change nothing. -/
theorem decommitLoop_spec {old : CommitMask} {pos idx : Nat} {runs : List (Nat × Nat)}
    (aligned : segmentSize ∣ s) (nonzero : 0 < s) (bound : s + segmentSize < 2 ^ 64)
    (list : Runs old.slices pos runs) (ok : MayDecommit (l.segs s))
    (rest : Rest old pos (l.segs s).decommitMask) (early : idx ≤ pos) :
    ∃ l', (∀ rounds, runs.length < rounds → segmentDelayedDecommitLoop s rounds l idx = l') ∧
      (l'.segs s).decommitMask = .empty ∧
      (l'.segs s).commitMask.slices =
        (l.segs s).commitMask.slices \ (l.segs s).decommitMask.slices ∧
      l'.os.protections = (runs.map (decommitRange s)).reverse ++ l.os.protections ∧
      (∀ r, r ≠ s → l'.segs r = l.segs r) ∧ CommitFrame l l' := by
  induction list generalizing l idx with
  | @done pos none =>
      have nothing : (l.segs s).decommitMask.slices = ∅ := by
        rw [rest]
        refine Finset.filter_false_of_mem fun k member => ?_
        exact Nat.not_le.mpr (none k member)
      have empty : (l.segs s).decommitMask = .empty := by
        apply CommitMask.slices_inj
        rw [nothing, eq_comm, CommitMask.slices_eq_empty]
        exact fun k => CommitMask.bit_empty
      refine ⟨l, fun rounds more => ?_, empty, ?_, rfl, fun _ _ => rfl, .refl l⟩
      · obtain ⟨rounds, rfl⟩ : ∃ r, rounds = r + 1 := ⟨rounds - 1, by simp at more; omega⟩
        have last : (l.segs s).decommitMask.nextRun idx = (commitMaskBits, 0) := by
          refine CommitMask.nextRun_none.mpr fun k member => ?_
          rw [nothing] at member
          exact absurd member (Finset.notMem_empty k)
        rw [segmentDelayedDecommitLoop, last]
        rfl
      · rw [nothing, Finset.sdiff_empty]
  | @next pos i n runs run after ih =>
      -- the run that is found is the first one that is left
      have first : (l.segs s).decommitMask.nextRun idx = (i, n) := by
        cases result : (l.segs s).decommitMask.nextRun idx with
        | mk i' n' =>
            have member : i ∈ (l.segs s).decommitMask.slices := by
              rw [rest]
              exact Finset.mem_filter.mpr run.least.1
            by_cases zero : n' = 0
            · subst zero
              have all := CommitMask.nextRun_none.mp (CommitMask.nextRun_last result) i member
              have := run.least.1.2
              omega
            · obtain ⟨found, _⟩ := CommitMask.nextRun_some result zero
              rw [rest] at found
              obtain ⟨rfl, rfl⟩ := (found.of_rest early).unique run
              rfl
      have positive := run.positive
      have lower := run.least.1.2
      obtain ⟨found, inside⟩ := CommitMask.nextRun_some first (by omega)
      have committed := CommitMask.mem_slices.mp (ok.contained found.least.1.1)
      obtain ⟨l₁, result, change, asked⟩ :=
        decommit_run aligned nonzero bound ok.allowed positive inside committed
      have committed₁ : (l₁.segs s).commitMask.slices =
          (l.segs s).commitMask.slices \ Finset.Ico i (i + n) := by
        ext j
        rw [CommitMask.mem_slices, change.commitMask, if_neg (by decide), Finset.mem_sdiff,
          CommitMask.mem_slices, Finset.mem_Ico, Bool.and_eq_true, Bool.not_eq_true', inRange,
          decide_eq_false_iff_not]
      have decommit₁ : (l₁.segs s).decommitMask.slices =
          (l.segs s).decommitMask.slices \ Finset.Ico i (i + n) := by
        ext j
        rw [CommitMask.mem_slices, change.decommitMask, Finset.mem_sdiff, CommitMask.mem_slices,
          Finset.mem_Ico, Bool.and_eq_true, Bool.not_eq_true', inRange, decide_eq_false_iff_not]
      have ok₁ : MayDecommit (l₁.segs s) := by
        refine ⟨(change.frame.segs s).allowDecommit.trans ok.allowed, ?_⟩
        rw [committed₁, decommit₁]
        exact Finset.sdiff_subset_sdiff ok.contained subset_rfl
      obtain ⟨l', loop, empty, masks, calls, others, frame⟩ :=
        ih ok₁ (rest.next run change.decommitMask) (Nat.le_add_right i n)
      refine ⟨l', fun rounds more => ?_, empty, ?_, ?_, fun r differs => ?_, change.frame.trans frame⟩
      · obtain ⟨rounds, rfl⟩ : ∃ r, rounds = r + 1 := ⟨rounds - 1, by simp at more; omega⟩
        have nonempty : ¬n = 0 := by omega
        rw [segmentDelayedDecommitLoop, first]
        simp only [if_neg nonempty, result]
        exact loop rounds (by rw [List.length_cons] at more; omega)
      · rw [masks, committed₁, decommit₁]
        ext j
        have inRun := @found.inside j
        simp only [Finset.mem_sdiff]
        constructor
        · rintro ⟨⟨member, outside⟩, kept⟩
          exact ⟨member, fun masked => kept ⟨masked, outside⟩⟩
        · rintro ⟨member, unmasked⟩
          exact ⟨⟨member, fun within => unmasked (inRun within)⟩, fun both => unmasked both.1⟩
      · rw [calls, asked, List.map_cons, List.reverse_cons, List.append_assoc]
        rfl
      · rw [others r differs, change.others r differs]

/-- With `force`, the time does not matter. -/
theorem segmentDelayedDecommit_force (allowed : (l.segs s).allowDecommit = true)
    (some : (l.segs s).decommitMask.isEmpty = false) : segmentDelayedDecommit l s true =
      segmentDelayedDecommitLoop s (commitMaskBits + 1) (clockNow l).2 0 := by
  unfold segmentDelayedDecommit
  rw [allowed, some, if_neg (by decide)]
  simp only [Bool.not_true, Bool.false_and, Bool.false_eq_true, if_false]

/-- **The forced decommit.** The loop ends, the mask is empty and gone from the commit mask, and the
operating system is asked for the runs of the mask, each once. -/
theorem delayed_decommit (aligned : segmentSize ∣ s) (nonzero : 0 < s)
    (bound : s + segmentSize < 2 ^ 64) (allowed : (l.segs s).allowDecommit = true)
    (contained : (l.segs s).decommitMask.slices ⊆ (l.segs s).commitMask.slices) :
    ∃ (l' : Local) (runs : List (Nat × Nat)), segmentDelayedDecommit l s true = l' ∧
      (∀ rounds, commitMaskBits < rounds →
        segmentDelayedDecommitLoop s rounds (clockNow l).2 0 =
          segmentDelayedDecommitLoop s (commitMaskBits + 1) (clockNow l).2 0) ∧
      (l'.segs s).decommitMask.slices = ∅ ∧
      (l'.segs s).commitMask.slices =
        (l.segs s).commitMask.slices \ (l.segs s).decommitMask.slices ∧
      l'.os.protections = (runs.map (decommitRange s)).reverse ++ l.os.protections ∧
      runs.Nodup ∧ (∀ i n, (i, n) ∈ runs ↔ IsRun (l.segs s).decommitMask.slices i n) ∧
      (∀ r, r ≠ s → l'.segs r = l.segs r) ∧ l'.pages = l.pages := by
  have listed : ∃ runs, CommitMask.runsFrom (l.segs s).decommitMask (commitMaskBits + 1) 0 = some runs ∧
      Runs (l.segs s).decommitMask.slices 0 runs := CommitMask.runsFrom_runs le_rfl
  obtain ⟨runs, _, list⟩ := listed
  have short : runs.length ≤ commitMaskBits := list.length_le fun k member =>
    CommitMask.lt_of_bit (CommitMask.mem_slices.mp member)
  have all : Rest (l.segs s).decommitMask 0 (l.segs s).decommitMask := by
    rw [Rest, Finset.filter_true_of_mem fun k _ => Nat.zero_le k]
  have ok : MayDecommit ((clockNow l).2.segs s) := ⟨allowed, contained⟩
  obtain ⟨l', loop, empty, masks, calls, others, frame⟩ :=
    decommitLoop_spec aligned nonzero bound list ok all le_rfl
  have runsOf : ∀ i n, (i, n) ∈ runs ↔ IsRun (l.segs s).decommitMask.slices i n := by
    intro i n
    rw [list.mem_iff fun j _ next => absurd next (Nat.succ_ne_zero j)]
    exact ⟨fun run => run.1, fun run => ⟨run, Nat.zero_le i⟩⟩
  have ends : ∀ rounds, commitMaskBits < rounds →
      segmentDelayedDecommitLoop s rounds (clockNow l).2 0 =
        segmentDelayedDecommitLoop s (commitMaskBits + 1) (clockNow l).2 0 := by
    intro rounds more
    rw [loop rounds (short.trans_lt more), loop _ (Nat.lt_succ_of_le short)]
  by_cases nothing : (l.segs s).decommitMask.isEmpty = true
  · -- nothing is to be decommitted, and the clock is not read
    have clear : (l.segs s).decommitMask.slices = ∅ :=
      CommitMask.slices_eq_empty.mpr (CommitMask.isEmpty_iff.mp nothing)
    have none : runs = [] := by
      refine list.unique (.done fun k member => ?_)
      rw [clear] at member
      exact absurd member (Finset.notMem_empty k)
    refine ⟨l, runs, ?_, ends, clear, ?_, ?_, list.runs_nodup, runsOf, fun _ _ => rfl, rfl⟩
    · rw [segmentDelayedDecommit, nothing, Bool.or_true, if_pos rfl]
    · rw [clear, Finset.sdiff_empty]
    · rw [none]
      rfl
  · refine ⟨l', runs, ?_, ends, ?_, masks, calls, list.runs_nodup, runsOf, others, frame.pages⟩
    · rw [Bool.not_eq_true] at nothing
      rw [segmentDelayedDecommit_force allowed nothing]
      exact loop (commitMaskBits + 1) (Nat.lt_succ_of_le short)
    · rw [empty, CommitMask.slices_eq_empty]
      exact fun k => CommitMask.bit_empty

/-- A segment with four slices to decommit, across the edge of a word of the mask. -/
def fourQueued : Local :=
  (freshLocal plainOracle 1).modifySeg segmentSize fun m =>
    { m with
      allowDecommit := true
      commitMask := CommitMask.empty.create 60 10
      decommitMask := CommitMask.empty.create 62 4 }

theorem fourQueued_may : MayDecommit (fourQueued.segs segmentSize) := by
  rw [fourQueued, Local.modifySeg_segs, if_pos rfl]
  refine ⟨rfl, ?_⟩
  intro k member
  rw [CommitMask.mem_slices, CommitMask.bit_create (by decide), decide_eq_true_eq] at member ⊢
  omega

theorem delayed_decommit_four :
    ∃ (l' : Local) (runs : List (Nat × Nat)), segmentDelayedDecommit fourQueued segmentSize true = l' ∧
      (l'.segs segmentSize).decommitMask.slices = ∅ ∧
      l'.os.protections =
        (runs.map (decommitRange segmentSize)).reverse ++ fourQueued.os.protections := by
  obtain ⟨l', runs, result, _, empty, _, calls, _⟩ :=
    delayed_decommit (dvd_refl segmentSize) (by decide) (by decide) fourQueued_may.allowed
      fourQueued_may.contained
  exact ⟨l', runs, result, empty, calls⟩

end VerusMimalloc
