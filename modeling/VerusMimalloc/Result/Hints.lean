/-
**Hints do not overlap.**

* `HintsOk`: every returned range lies below the base, and the calls between their two additions
  observed the first use;
* `HintsOk.step`: a step keeps this while no base above `hintMax` was observed, since the base never
  falls: a compare-exchange succeeds on a base of at most one segment only;
* `hints_disjoint`: the ranges of different calls, in every run.
-/

import VerusMimalloc.Model.Hints
import Mathlib.Logic.Relation
import Mathlib.Order.Interval.Set.Basic

namespace VerusMimalloc

namespace HintReturn

/-- The addresses that a returned hint stands for. -/
def range (r : HintReturn) : Set Nat := Set.Ico r.hint (r.hint + alignUp r.size segmentSize)

/-- Two hints do not share an address. -/
def Apart (r t : HintReturn) : Prop := r.hint ≠ 0 → t.hint ≠ 0 →
  ∀ a ∈ r.range, a ∉ t.range

/-- The range of a hint ends at or below `base`. -/
def Below (r : HintReturn) (base : Nat) : Prop :=
  r.hint ≠ 0 → r.hint + alignUp r.size segmentSize ≤ base

end HintReturn

/-- **What holds while no base above `hintMax` was observed.** -/
structure HintsOk (s : HintState) : Prop where
  below : ∀ r ∈ s.returned, r.Below s.alignedBase
  aligned : ∀ r ∈ s.returned, r.hint ≠ 0 → r.tryAlignment ∣ r.hint
  apart : s.returned.Pairwise HintReturn.Apart
  small : ∀ c ∈ s.calls, c.size ≤ segmentSize
  first : ∀ c ∈ s.calls, ∀ hint, c.pc = .cas hint → hint = 0

/-- No base above `hintMax` was observed. -/
def HintState.Fresh (s : HintState) : Prop := ∀ hint ∈ s.observed, hint ≤ hintMax

namespace HintState

variable {s : HintState} {before after : List HintCall} {c : HintCall} {size hint base : Nat}

/-- A request takes nothing or a segment. -/
theorem alignUp_small (small : size ≤ segmentSize) : alignUp size segmentSize ≤ segmentSize := by
  rw [segmentSize] at small ⊢
  rw [alignUp_eq (by decide) (by decide) (by omega)]
  omega

/-- The base after an addition. -/
theorem alignedBaseAdd_base (small : size ≤ segmentSize) (low : s.alignedBase ≤ hintMax) :
    (s.alignedBaseAdd (alignUp size segmentSize)).2.alignedBase =
      s.alignedBase + alignUp size segmentSize := by
  have segment : alignUp size segmentSize ≤ 33554432 := alignUp_small small
  show (s.alignedBase + alignUp size segmentSize) % 2 ^ 64 = _
  apply Nat.mod_eq_of_lt
  rw [hintMax] at low
  omega

/-- The ranges below a base are below a later one. -/
theorem below_mono {r : HintReturn} (below : r.Below s.alignedBase) (later : s.alignedBase ≤ base) :
    r.Below base := fun valid => (below valid).trans later

/-! ### Steps -/

/-- A call ends with the range it added to the base, or with no hint. -/
theorem finish_ok {t : HintState} {others : List HintCall} (ok : HintsOk s)
    (returned : t.returned = s.returned)
    (grown : t.alignedBase = s.alignedBase + alignUp c.size segmentSize)
    (calls : ∀ d ∈ others, d ∈ s.calls) : HintsOk (t.finish others c s.alignedBase) := by
  have later : s.alignedBase ≤ t.alignedBase := by
    rw [grown]
    exact Nat.le_add_right _ _
  refine ⟨?_, ?_, ?_, fun d mem => ok.small d (calls d mem), fun d mem => ok.first d (calls d mem)⟩
  · intro r mem
    rcases List.mem_cons.mp mem with rfl | mem
    · show HintReturn.Below _ t.alignedBase
      by_cases divides : s.alignedBase % c.tryAlignment ≠ 0
      · rw [if_pos divides]
        exact fun zero => absurd rfl zero
      · rw [if_neg divides]
        exact fun _ => grown.ge
    · rw [returned] at mem
      exact below_mono (ok.below r mem) later
  · intro r mem
    rcases List.mem_cons.mp mem with rfl | mem
    · by_cases divides : s.alignedBase % c.tryAlignment ≠ 0
      · rw [if_pos divides]
        exact fun zero => absurd rfl zero
      · rw [if_neg divides]
        exact fun _ => Nat.dvd_of_mod_eq_zero (Decidable.not_not.mp divides)
    · rw [returned] at mem
      exact ok.aligned r mem
  · refine List.pairwise_cons.mpr ⟨fun r mem => ?_, ?_⟩
    · rw [returned] at mem
      intro valid other
      have end_le := ok.below r mem other
      have start : (if s.alignedBase % c.tryAlignment ≠ 0 then 0 else s.alignedBase) =
          s.alignedBase := by
        by_cases divides : s.alignedBase % c.tryAlignment ≠ 0
        · rw [if_pos divides] at valid
          exact absurd rfl valid
        · exact if_neg divides
      intro a one two
      have lower : s.alignedBase ≤ a := start ▸ one.1
      exact absurd (two.2.trans_le end_le) (Nat.not_lt.mpr lower)
    · rw [returned]
      exact ok.apart

theorem enter_ok {tryAlignment : Nat} (ok : HintsOk s) (small : size ≤ segmentSize) :
    HintsOk (s.enter tryAlignment size) := by
  unfold enter
  split
  · refine ⟨?_, ?_, ?_, ok.small, ok.first⟩
    · intro r mem
      rcases List.mem_cons.mp mem with rfl | mem
      · exact fun zero => absurd rfl zero
      · exact ok.below r mem
    · intro r mem
      rcases List.mem_cons.mp mem with rfl | mem
      · exact fun zero => absurd rfl zero
      · exact ok.aligned r mem
    · exact List.pairwise_cons.mpr ⟨fun r _ zero => absurd rfl zero, ok.apart⟩
  · refine ⟨ok.below, ok.aligned, ok.apart, ?_, ?_⟩
    · intro d mem
      rcases List.mem_cons.mp mem with rfl | mem
      · exact small
      · exact ok.small d mem
    · intro d mem hint pc
      rcases List.mem_cons.mp mem with rfl | mem
      · exact nomatch pc
      · exact ok.first d mem hint pc

/-- The state with a base that is not lower and one call moved on. -/
theorem moved_ok {t : HintState} {d : HintCall} (ok : HintsOk s)
    (flight : s.calls = before ++ c :: after) (returned : t.returned = s.returned)
    (later : s.alignedBase ≤ t.alignedBase) (size : d.size = c.size)
    (first : ∀ hint, d.pc = .cas hint → hint = 0) :
    HintsOk { t with calls := before ++ d :: after } := by
  have others : ∀ e ∈ before ++ d :: after, e = d ∨ e ∈ s.calls := by
    intro e mem
    rw [flight]
    rcases List.mem_append.mp mem with mem | mem
    · exact .inr (List.mem_append_left _ mem)
    · rcases List.mem_cons.mp mem with same | mem
      · exact .inl same
      · exact .inr (List.mem_append_right _ (List.mem_cons_of_mem c mem))
  have atHand : c ∈ s.calls := by
    rw [flight]
    exact List.mem_append_right _ List.mem_cons_self
  refine ⟨?_, ?_, ?_, ?_, ?_⟩
  · intro r mem
    exact below_mono (ok.below r (returned ▸ mem)) later
  · intro r mem
    exact ok.aligned r (returned ▸ mem)
  · show t.returned.Pairwise HintReturn.Apart
    rw [returned]
    exact ok.apart
  · intro e mem
    rcases others e mem with rfl | mem
    · rw [size]
      exact ok.small c atHand
    · exact ok.small e mem
  · intro e mem hint pc
    rcases others e mem with rfl | mem
    · exact first hint pc
    · exact ok.first e mem hint pc

theorem others_mem (flight : s.calls = before ++ c :: after) : ∀ d ∈ before ++ after, d ∈ s.calls := by
  intro d mem
  rw [flight]
  rcases List.mem_append.mp mem with mem | mem
  · exact List.mem_append_left _ mem
  · exact List.mem_append_right _ (List.mem_cons_of_mem c mem)

theorem call_mem (flight : s.calls = before ++ c :: after) : c ∈ s.calls := by
  rw [flight]
  exact List.mem_append_right _ List.mem_cons_self

theorem firstAdd_ok (ok : HintsOk s) (flight : s.calls = before ++ c :: after)
    (fresh : (s.firstAdd before after c).Fresh) : HintsOk (s.firstAdd before after c) := by
  have small := ok.small c (call_mem flight)
  have seen : s.alignedBase ∈ (s.firstAdd before after c).observed := by
    unfold firstAdd
    dsimp only
    split <;> exact List.mem_cons_self
  have low := fresh s.alignedBase seen
  have grown := alignedBaseAdd_base small low
  unfold firstAdd
  dsimp only
  split
  next start =>
    refine moved_ok ok flight rfl ?_ rfl fun hint pc => ?_
    · rw [grown]
      exact Nat.le_add_right _ _
    · have same : s.alignedBase = hint := HintPc.cas.inj pc
      rcases start with zero | above
      · exact same.symm.trans zero
      · exact absurd low (Nat.not_le.mpr above)
  next => exact finish_ok ok rfl grown (others_mem flight)

theorem reset_ok (ok : HintsOk s) (flight : s.calls = before ++ c :: after) (pc : c.pc = .cas hint) :
    HintsOk (s.reset before after c hint) := by
  have small := alignUp_small (ok.small c (call_mem flight))
  have zero := ok.first c (call_mem flight) hint pc
  subst zero
  unfold reset alignedBaseCas
  dsimp only
  split
  next equal =>
    refine moved_ok ok flight rfl ?_ rfl fun hint pc => nomatch pc
    show s.alignedBase ≤ hintBase
    rw [equal, Nat.zero_add]
    rw [segmentSize] at small ⊢
    rw [hintBase]
    omega
  next => exact moved_ok ok flight rfl le_rfl rfl fun hint pc => nomatch pc

theorem secondAdd_ok (ok : HintsOk s) (flight : s.calls = before ++ c :: after)
    (fresh : (s.secondAdd before after c).Fresh) : HintsOk (s.secondAdd before after c) := by
  have low := fresh s.alignedBase List.mem_cons_self
  exact finish_ok ok rfl (alignedBaseAdd_base (ok.small c (call_mem flight)) low) (others_mem flight)

end HintState

/-! ### Runs -/

/-- What was observed stays observed. -/
theorem HintStep.observed {s t : HintState} (step : HintStep s t) : ∀ h ∈ s.observed, h ∈ t.observed := by
  intro h mem
  cases step with
  | enter small =>
      unfold HintState.enter
      split <;> exact mem
  | add flight pc =>
      unfold HintState.firstAdd
      dsimp only
      split <;> exact List.mem_cons_of_mem _ mem
  | cas flight pc =>
      unfold HintState.reset HintState.alignedBaseCas
      dsimp only
      split <;> exact mem
  | addAgain flight pc => exact List.mem_cons_of_mem _ mem

/-- **A step keeps the ranges apart.** -/
theorem HintsOk.step {s t : HintState} (ok : HintsOk s) (step : HintStep s t) (fresh : t.Fresh) :
    HintsOk t := by
  cases step with
  | enter small => exact HintState.enter_ok ok small
  | add flight pc => exact HintState.firstAdd_ok ok flight fresh
  | cas flight pc => exact HintState.reset_ok ok flight pc
  | addAgain flight pc => exact HintState.secondAdd_ok ok flight fresh

theorem HintsOk.run {s : HintState} (run : Relation.ReflTransGen HintStep .initial s)
    (fresh : s.Fresh) : HintsOk s := by
  induction run with
  | refl =>
      exact ⟨fun r mem => absurd mem List.not_mem_nil, fun r mem => absurd mem List.not_mem_nil,
        .nil, fun c mem => absurd mem List.not_mem_nil, fun c mem => absurd mem List.not_mem_nil⟩
  | tail _ step ih => exact (ih fun h mem => fresh h (step.observed h mem)).step step fresh

/-- **Hint disjointness.** In every run in which no call has observed a base above `hintMax`, the
hints are multiples of their alignments, and those of different calls share no address. -/
theorem hints_disjoint {s : HintState} (run : Relation.ReflTransGen HintStep .initial s)
    (fresh : ∀ hint ∈ s.observed, hint ≤ hintMax) :
    (∀ r ∈ s.returned, r.hint ≠ 0 → r.tryAlignment ∣ r.hint) ∧
    s.returned.Pairwise fun r t => r.hint ≠ 0 → t.hint ≠ 0 → ∀ a ∈ r.range, a ∉ t.range := by
  have ok := HintsOk.run run fresh
  exact ⟨ok.aligned, ok.apart⟩

/-! ### Two first calls -/

def hintCall (pc : HintPc) : HintCall := { tryAlignment := segmentSize, size := segmentSize, pc }

def hintEntered : HintState :=
  (HintState.initial.enter segmentSize segmentSize).enter segmentSize segmentSize

/-- Both calls have added to the base; the first of them observed zero. -/
def hintAdded : HintState :=
  (hintEntered.firstAdd [hintCall .add] [] (hintCall .add)).firstAdd [] [hintCall (.cas 0)]
    (hintCall .add)

/-- The first call has lost its compare-exchange and returned as well. -/
def hintRace : HintState :=
  (hintAdded.reset [] [] (hintCall (.cas 0)) 0).secondAdd [] [] (hintCall .addAgain)

theorem hintRace_run : Relation.ReflTransGen HintStep .initial hintRace := by
  have entered : Relation.ReflTransGen HintStep .initial hintEntered :=
    .tail (.single (.enter le_rfl)) (.enter le_rfl)
  have flight : hintEntered.calls = [hintCall .add] ++ hintCall .add :: [] := by decide
  have one : Relation.ReflTransGen HintStep .initial
      (hintEntered.firstAdd [hintCall .add] [] (hintCall .add)) := .tail entered (.add flight rfl)
  have added : Relation.ReflTransGen HintStep .initial hintAdded := .tail one (.add (by decide) rfl)
  have reset : Relation.ReflTransGen HintStep .initial
      (hintAdded.reset [] [] (hintCall (.cas 0)) 0) := .tail added (.cas (by decide) rfl)
  exact .tail reset (.addAgain (by decide) rfl)

theorem hints_disjoint_race :
    hintRace.returned = [⟨33554432, 33554432, 67108864⟩, ⟨33554432, 33554432, 33554432⟩] ∧
    (∀ r ∈ hintRace.returned, r.hint ≠ 0 → r.tryAlignment ∣ r.hint) ∧
    hintRace.returned.Pairwise fun r t => r.hint ≠ 0 → t.hint ≠ 0 → ∀ a ∈ r.range, a ∉ t.range :=
  ⟨by decide, hints_disjoint hintRace_run (by decide)⟩

end VerusMimalloc
