/-
**The rounding of `segment_commit_mask`.**

* `alignedRange`: the bytes between two slice boundaries of a segment;
* `segmentCommitMask_eq`: the boundaries that the two modes choose;
* `commit_range`: the least range of slices that covers the bytes, or the greatest one inside them.
-/

import VerusMimalloc.Model.Checked
import VerusMimalloc.Result.Masks
import Mathlib.Order.Interval.Set.Basic

namespace VerusMimalloc

open Library

variable {segment p size : Nat}

/-- The bytes of the slices from `a` up to `b`. -/
def alignedRange (segment a b : Nat) : Set Nat := Set.Ico (segment + a * sliceSize) (segment + b * sliceSize)

/-- The bytes of one slice. -/
def sliceBytes (segment k : Nat) : Set Nat := alignedRange segment k (k + 1)

/-- The slice at which the range of `segment_commit_mask` starts. -/
def firstSlice (conservative : Bool) (offset : Nat) : Nat :=
  if conservative then (offset + 65535) / 65536 else offset / 65536

/-- The slice at which it ends. -/
def endSlice (conservative : Bool) (stop : Nat) : Nat :=
  if conservative then stop / 65536 else (stop + 65535) / 65536

/-- The roundings of the two modes. -/
theorem rounded_start (conservative : Bool) {offset : Nat} (small : offset ≤ 33554432) :
    (if conservative then alignUpChecked offset commitSize else alignDownChecked offset commitSize) =
        some (firstSlice conservative offset * 65536) ∧
      (if conservative then alignUp offset commitSize else alignDown offset commitSize) =
        firstSlice conservative offset * 65536 := by
  simp only [commitSize, sliceSize]
  rw [alignUpChecked_eq (by decide) (by omega), alignDownChecked_eq (by decide) (by omega),
    alignUp_eq (by decide) (by decide) (by omega), alignDown_eq (by omega) (by decide) (by decide)]
  cases conservative
  · rw [firstSlice, if_neg Bool.false_ne_true, if_neg Bool.false_ne_true, if_neg Bool.false_ne_true]
    exact ⟨rfl, rfl⟩
  · rw [firstSlice, if_pos rfl, if_pos rfl, if_pos rfl]
    exact ⟨rfl, rfl⟩

theorem rounded_stop (conservative : Bool) {stop : Nat} (small : stop ≤ 33554432) :
    (if conservative then alignDownChecked stop commitSize else alignUpChecked stop commitSize) =
        some (endSlice conservative stop * 65536) ∧
      (if conservative then alignDown stop commitSize else alignUp stop commitSize) =
        endSlice conservative stop * 65536 := by
  simp only [commitSize, sliceSize]
  rw [alignUpChecked_eq (by decide) (by omega), alignDownChecked_eq (by decide) (by omega),
    alignUp_eq (by decide) (by decide) (by omega), alignDown_eq (by omega) (by decide) (by decide)]
  cases conservative
  · rw [endSlice, if_neg Bool.false_ne_true, if_neg Bool.false_ne_true, if_neg Bool.false_ne_true]
    exact ⟨rfl, rfl⟩
  · rw [endSlice, if_pos rfl, if_pos rfl, if_pos rfl]
    exact ⟨rfl, rfl⟩

theorem slices_bound (conservative : Bool) {offset stop : Nat} (order : offset ≤ stop)
    (small : stop ≤ 33554432) :
    (65536 ≤ offset → 1 ≤ firstSlice conservative offset) ∧ firstSlice conservative offset ≤ 512 ∧
      endSlice conservative stop ≤ 512 := by
  unfold firstSlice endSlice
  cases conservative <;> simp only [if_true, Bool.false_eq_true, if_false] <;> omega

/-- **The range of `segment_commit_mask`**, with every operation in range. -/
theorem segmentCommitMask_eq (conservative : Bool) (bound : segment + segmentSize < 2 ^ 64)
    (above : segment ≤ p) (inside : p + size ≤ segment + segmentSize) (nonempty : size ≠ 0) :
    segmentCommitMaskChecked segment conservative p size .empty =
        some (segmentCommitMask segment conservative p size .empty) ∧
      segmentCommitMask segment conservative p size .empty =
        (segment + firstSlice conservative (p - segment) * sliceSize,
          (endSlice conservative (p - segment + size) - firstSlice conservative (p - segment)) * sliceSize,
          CommitMask.empty.create (firstSlice conservative (p - segment))
            (endSlice conservative (p - segment + size) - firstSlice conservative (p - segment))) := by
  obtain ⟨offset, rfl⟩ := Nat.exists_eq_add_of_le above
  have back : segment + offset - segment = offset := Nat.add_sub_cancel_left _ _
  have room := bound
  simp only [segmentSize] at bound inside
  obtain ⟨startChecked, start⟩ := rounded_start conservative (show offset ≤ 33554432 by omega)
  obtain ⟨stopChecked, stop⟩ := rounded_stop conservative (show offset + size ≤ 33554432 by omega)
  obtain ⟨low, first, last⟩ := slices_bound conservative (Nat.le_add_right offset size)
    (by omega)
  simp only [back]
  generalize firstSlice conservative offset = a at *
  generalize endSlice conservative (offset + size) = b at *
  have keepStart : ¬(offset ≥ sliceSize ∧ a * 65536 < sliceSize) := by
    simp only [sliceSize]
    omega
  have keepStop : ¬b * 65536 > segmentSize := by
    simp only [segmentSize]
    omega
  have width : (if b * 65536 > a * 65536 then b * 65536 - a * 65536 else 0) = (b - a) * sliceSize := by
    simp only [sliceSize]
    split <;> omega
  have mask : (if (b - a) * sliceSize = 0 then (segment + a * 65536, (b - a) * sliceSize, CommitMask.empty)
      else (segment + a * 65536, (b - a) * sliceSize,
        CommitMask.empty.create (a * 65536 / commitSize) ((b - a) * sliceSize / commitSize))) =
      (segment + a * sliceSize, (b - a) * sliceSize, CommitMask.empty.create a (b - a)) := by
    simp only [sliceSize, commitSize, Nat.mul_div_cancel _ (show 0 < 65536 by decide)]
    by_cases none : (b - a) * 65536 = 0
    · have : b - a = 0 := by omega
      rw [if_pos none, this, CommitMask.create, if_neg (by decide), if_pos rfl]
    · rw [if_neg none]
  have short : ¬(size = 0 ∨ size > segmentSize) := by
    simp only [segmentSize]
    omega
  have within : ¬segment + offset ≥ segment + segmentSize := by
    simp only [segmentSize]
    omega
  have result : segmentCommitMask segment conservative (segment + offset) size .empty =
      (segment + a * sliceSize, (b - a) * sliceSize, CommitMask.empty.create a (b - a)) := by
    unfold segmentCommitMask
    rw [if_neg short, if_neg within]
    simp only [back, start, stop, if_neg keepStart, if_neg keepStop, width]
    exact mask
  refine ⟨?_, result⟩
  have checkedWidth : (if b * 65536 > a * 65536 then subWord (b * 65536) (a * 65536) else some 0) =
      some ((b - a) * sliceSize) := by
    rw [← width]
    split
    · exact subWord_eq (by omega)
    · rfl
  unfold segmentCommitMaskChecked
  rw [if_neg short, bind_of_some (addWord_eq room), if_neg within, bind_of_some (subWord_eq above),
    back, bind_of_some (addWord_eq (show offset + size < 2 ^ 64 by omega)), bind_of_some startChecked,
    bind_of_some stopChecked, if_neg keepStart, if_neg keepStop,
    bind_of_some (addWord_eq (show segment + a * 65536 < 2 ^ 64 by omega)), bind_of_some checkedWidth,
    result, ← mask]
  by_cases none : (b - a) * sliceSize = 0
  · rw [if_pos none, if_pos none]
    rfl
  · rw [if_neg none, if_neg none]
    rfl

/-! ### The range as a set of bytes -/

theorem mem_alignedRange {a b byte : Nat} : byte ∈ alignedRange segment a b ↔
    segment + a * 65536 ≤ byte ∧ byte < segment + b * 65536 := Set.mem_Ico

theorem sliceBytes_subset {k lo hi : Nat} : sliceBytes segment k ⊆ Set.Ico lo hi ↔
    lo ≤ segment + k * 65536 ∧ segment + (k + 1) * 65536 ≤ hi := by
  constructor
  · intro sub
    have first := sub (mem_alignedRange.mpr ⟨le_rfl, by omega⟩)
    have last := sub (a := segment + k * 65536 + 65535) (mem_alignedRange.mpr ⟨by omega, by omega⟩)
    rw [Set.mem_Ico] at first last
    omega
  · rintro ⟨lower, upper⟩ byte member
    rw [sliceBytes, mem_alignedRange] at member
    exact Set.mem_Ico.mpr ⟨by omega, by omega⟩

theorem alignedRange_eq (a b : Nat) :
    Set.Ico (segment + a * sliceSize) (segment + a * sliceSize + (b - a) * sliceSize) =
      alignedRange segment a b := by
  ext byte
  rw [mem_alignedRange, Set.mem_Ico]
  simp only [sliceSize]
  omega

/-- The ranges of slices that cover the bytes of a request. -/
def covering (segment p size : Nat) : Set (Set Nat) :=
  {range | (∃ a b, range = alignedRange segment a b) ∧ Set.Ico p (p + size) ⊆ range}

/-- The ranges of slices inside the bytes of a request. -/
def contained (segment p size : Nat) : Set (Set Nat) :=
  {range | (∃ a b, range = alignedRange segment a b) ∧ range ⊆ Set.Ico p (p + size)}

/-- The slices that a request concerns: those it touches, or those that lie in it. -/
def Concerns (segment : Nat) (conservative : Bool) (p size k : Nat) : Prop :=
  if conservative then sliceBytes segment k ⊆ Set.Ico p (p + size)
  else (sliceBytes segment k ∩ Set.Ico p (p + size)).Nonempty

/-- What a range of bytes and a mask have to be, for a request. -/
structure Rounded (segment : Nat) (conservative : Bool) (p size : Nat) (range : Set Nat)
    (mask : CommitMask) : Prop where
  least : conservative = false → IsLeast (covering segment p size) range
  greatest : conservative = true → IsGreatest (contained segment p size) range
  clamped : range ⊆ Set.Ico segment (segment + segmentSize)
  header : segment + sliceSize ≤ p → ∀ byte ∈ sliceBytes segment 0, byte ∉ range
  mask : ∀ k, k ∈ mask.slices ↔ sliceBytes segment k ⊆ range
  empty : range = ∅ ↔ ∀ k, ¬Concerns segment conservative p size k

theorem covering_least {a b : Nat} (above : segment ≤ p) (nonempty : size ≠ 0)
    (start : a = firstSlice false (p - segment)) (stop : b = endSlice false (p - segment + size)) :
    IsLeast (covering segment p size) (alignedRange segment a b) := by
  obtain ⟨offset, rfl⟩ := Nat.exists_eq_add_of_le above
  simp only [firstSlice, endSlice, Bool.false_eq_true, if_false, Nat.add_sub_cancel_left] at start stop
  refine ⟨⟨⟨a, b, rfl⟩, fun byte member => ?_⟩, ?_⟩
  · rw [Set.mem_Ico] at member
    exact mem_alignedRange.mpr ⟨by omega, by omega⟩
  · rintro _ ⟨⟨a', b', rfl⟩, covers⟩ byte member
    have first := covers (Set.mem_Ico.mpr ⟨le_rfl, by omega⟩)
    have last := covers (a := segment + offset + size - 1) (Set.mem_Ico.mpr ⟨by omega, by omega⟩)
    rw [mem_alignedRange] at first last member
    have low : a' ≤ a := by omega
    have high : b ≤ b' := by omega
    exact mem_alignedRange.mpr ⟨by omega, by omega⟩

theorem contained_greatest {a b : Nat} (above : segment ≤ p)
    (start : a = firstSlice true (p - segment)) (stop : b = endSlice true (p - segment + size)) :
    IsGreatest (contained segment p size) (alignedRange segment a b) := by
  obtain ⟨offset, rfl⟩ := Nat.exists_eq_add_of_le above
  simp only [firstSlice, endSlice, if_true, Nat.add_sub_cancel_left] at start stop
  refine ⟨⟨⟨a, b, rfl⟩, fun byte member => ?_⟩, ?_⟩
  · rw [mem_alignedRange] at member
    exact Set.mem_Ico.mpr ⟨by omega, by omega⟩
  · rintro _ ⟨⟨a', b', rfl⟩, inside⟩ byte member
    rw [mem_alignedRange] at member
    have first := inside (a := segment + a' * 65536) (mem_alignedRange.mpr ⟨le_rfl, by omega⟩)
    have last := inside (a := segment + b' * 65536 - 1) (mem_alignedRange.mpr ⟨by omega, by omega⟩)
    rw [Set.mem_Ico] at first last
    exact mem_alignedRange.mpr ⟨by omega, by omega⟩

theorem sliceBytes_nonempty (k : Nat) : segment + k * 65536 ∈ sliceBytes segment k :=
  mem_alignedRange.mpr ⟨le_rfl, by omega⟩

/-- No slice is concerned exactly when the range is empty. -/
theorem empty_iff {conservative : Bool} {a b : Nat} (above : segment ≤ p) (nonempty : size ≠ 0)
    (start : a = firstSlice conservative (p - segment))
    (stop : b = endSlice conservative (p - segment + size)) :
    alignedRange segment a b = ∅ ↔ ∀ k, ¬Concerns segment conservative p size k := by
  cases conservative with
  | true =>
      obtain ⟨⟨_, inside⟩, greatest⟩ := contained_greatest above start stop
      constructor
      · intro empty k concerned
        have := greatest ⟨⟨k, k + 1, rfl⟩, concerned⟩ (sliceBytes_nonempty k)
        rw [empty] at this
        exact this
      · intro none
        by_contra some
        obtain ⟨byte, member⟩ := Set.nonempty_iff_ne_empty.mpr some
        rw [mem_alignedRange] at member
        refine none a ((sliceBytes_subset.mpr ⟨le_rfl, ?_⟩).trans inside)
        simp only [sliceSize]
        omega
  | false =>
      obtain ⟨⟨_, covers⟩, _⟩ := covering_least above nonempty start stop
      have member := covers (Set.mem_Ico.mpr ⟨le_rfl, by omega⟩)
      refine ⟨fun empty => ?_, fun none => ?_⟩
      · rw [empty] at member
        exact member.elim
      · refine absurd ⟨p, ?_, Set.mem_Ico.mpr ⟨le_rfl, by omega⟩⟩ (none a)
        simp only [firstSlice, Bool.false_eq_true, if_false] at start
        exact mem_alignedRange.mpr ⟨by omega, by omega⟩

/-- **`segment_commit_mask` rounds to slices**: outwards to the least range, or inwards to the greatest
one, with no operation out of range. -/
theorem commit_range (conservative : Bool) (bound : segment + segmentSize < 2 ^ 64)
    (above : segment ≤ p) (inside : p + size ≤ segment + segmentSize) :
    ∃ start fullSize mask,
      segmentCommitMaskChecked segment conservative p size .empty = some (start, fullSize, mask) ∧
      segmentCommitMask segment conservative p size .empty = (start, fullSize, mask) ∧
      Rounded segment conservative p size (Set.Ico start (start + fullSize)) mask := by
  by_cases nonempty : size = 0
  · subst nonempty
    refine ⟨0, 0, .empty, if_pos (.inl rfl), if_pos (.inl rfl), ?_⟩
    have none : Set.Ico p (p + 0) = ∅ := Set.Ico_self p
    have range : Set.Ico 0 (0 + 0) = (∅ : Set Nat) := Set.Ico_self 0
    rw [range]
    have aligned : ∃ a b, ∅ = alignedRange segment a b := ⟨0, 0, (Set.Ico_self _).symm⟩
    refine ⟨fun _ => ⟨⟨aligned, none.subset⟩, fun _ _ => Set.empty_subset _⟩,
      fun _ => ⟨⟨aligned, Set.empty_subset _⟩, fun _ member => member.2.trans none.subset⟩,
      Set.empty_subset _, fun _ _ _ => Set.notMem_empty _, fun k => ?_, ?_⟩
    · rw [CommitMask.mem_slices, CommitMask.bit_empty]
      exact ⟨fun no => (nomatch no), fun sub => (sub (sliceBytes_nonempty k)).elim⟩
    · refine ⟨fun _ k concerned => ?_, fun _ => rfl⟩
      unfold Concerns at concerned
      rw [none] at concerned
      cases conservative with
      | true => exact (concerned (sliceBytes_nonempty k)).elim
      | false =>
          obtain ⟨byte, both⟩ := concerned
          exact both.2
  · obtain ⟨checked, result⟩ := segmentCommitMask_eq conservative bound above inside nonempty
    refine ⟨_, _, _, checked.trans (congrArg some result), result, ?_⟩
    rw [alignedRange_eq]
    simp only [segmentSize] at inside
    obtain ⟨low, first, last⟩ := slices_bound conservative (Nat.le_add_right (p - segment) size)
      (by omega)
    refine ⟨fun mode => ?_, fun mode => ?_, fun byte member => ?_, fun behind => ?_, fun k => ?_,
      empty_iff above nonempty rfl rfl⟩
    · subst mode
      exact covering_least above nonempty rfl rfl
    · subst mode
      exact contained_greatest above rfl rfl
    · rw [mem_alignedRange] at member
      simp only [segmentSize]
      exact Set.mem_Ico.mpr ⟨by omega, by omega⟩
    · simp only [sliceSize] at behind
      have := low (by omega)
      intro byte inHeader inside'
      rw [sliceBytes, mem_alignedRange] at inHeader
      rw [mem_alignedRange] at inside'
      omega
    · rw [CommitMask.mem_slices, CommitMask.bit_create (by omega), decide_eq_true_eq]
      refine Iff.trans ?_ sliceBytes_subset.symm
      simp only [sliceSize]
      omega

/-- A request that ends in the middle of a slice, in both modes. -/
theorem commit_range_middle :
    (segmentCommitMask 33554432 false (33554432 + 65536) 100000 .empty).2.1 = 131072 ∧
      (segmentCommitMask 33554432 true (33554432 + 65536) 100000 .empty).2.1 = 65536 ∧
      ∃ start fullSize mask,
        segmentCommitMask 33554432 true (33554432 + 65536) 100000 .empty = (start, fullSize, mask) ∧
        Rounded 33554432 true (33554432 + 65536) 100000 (Set.Ico start (start + fullSize)) mask := by
  obtain ⟨start, fullSize, mask, _, result, rounded⟩ :=
    commit_range true (show 33554432 + segmentSize < 2 ^ 64 by decide)
      (show 33554432 ≤ 33554432 + 65536 by decide)
      (show 33554432 + 65536 + 100000 ≤ 33554432 + segmentSize by decide)
  exact ⟨by decide, by decide, start, fullSize, mask, result, rounded⟩

end VerusMimalloc
