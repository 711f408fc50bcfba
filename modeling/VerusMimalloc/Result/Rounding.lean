/-
**The roundings of addresses and sizes.**

`align_down` and `align_up` choose between a mask and a division; both are the mathematical rounding.

* `multiple_greatest`, `multiple_least`: the rounding by a division;
* `RoundsDown`, `RoundsUp`: one rounding, with every operation checked;
* `CallersInRange`: the three callers keep inside the words;
* `rounding`: all of it, for every word and every divisor.
-/

import VerusMimalloc.Model.Checked
import VerusMimalloc.Proof.Span.Create
import Mathlib.Order.Bounds.Basic

namespace VerusMimalloc

variable {x y : Nat}

/-! ### Multiples -/

/-- The greatest multiple that is not above a number. -/
theorem multiple_greatest (positive : 0 < y) : IsGreatest {m | y ∣ m ∧ m ≤ x} (x / y * y) := by
  refine ⟨⟨Nat.dvd_mul_left y _, Nat.div_mul_le_self x y⟩, ?_⟩
  rintro _ ⟨⟨k, rfl⟩, below⟩
  have quotient : k ≤ x / y := (Nat.le_div_iff_mul_le positive).mpr (by rwa [Nat.mul_comm])
  calc y * k = k * y := Nat.mul_comm y k
    _ ≤ x / y * y := Nat.mul_le_mul_right y quotient

/-- The least multiple that is not below a number. -/
theorem multiple_least (positive : 0 < y) :
    IsLeast {m | y ∣ m ∧ x ≤ m} ((x + (y - 1)) / y * y) := by
  have rest := Nat.mod_lt (x + (y - 1)) positive
  have split := Nat.div_add_mod' (x + (y - 1)) y
  refine ⟨⟨Nat.dvd_mul_left y _, by omega⟩, ?_⟩
  rintro _ ⟨⟨k, rfl⟩, above⟩
  have quotient : (x + (y - 1)) / y ≤ k := by
    rw [← Nat.lt_succ_iff, Nat.div_lt_iff_lt_mul positive, Nat.succ_mul, Nat.mul_comm k y]
    omega
  calc (x + (y - 1)) / y * y ≤ k * y := Nat.mul_le_mul_right y quotient
    _ = y * k := Nat.mul_comm k y

/-! ### One rounding -/

/-- `align_down` on both code paths. -/
structure RoundsDown (x y : Nat) : Prop where
  inRange : alignDownChecked x y = some (alignDown x y)
  mask : y.isPowerOfTwo → alignDown x y = x &&& complement (y - 1)
  division : alignDown x y = x / y * y
  greatest : IsGreatest {m | y ∣ m ∧ m ≤ x} (alignDown x y)

/-- `align_up` on both code paths. -/
structure RoundsUp (x y : Nat) : Prop where
  inRange : alignUpChecked x y = some (alignUp x y)
  mask : y.isPowerOfTwo → alignUp x y = (x + (y - 1)) &&& complement (y - 1)
  division : alignUp x y = (x + (y - 1)) / y * y
  least : IsLeast {m | y ∣ m ∧ x ≤ m} (alignUp x y)
  word : alignUp x y < 2 ^ 64

theorem roundsDown (word : x < 2 ^ 64) (positive : 0 < y) (divisor : y < 2 ^ 64) : RoundsDown x y := by
  have division := alignDown_eq word positive divisor.le
  refine ⟨alignDownChecked_eq positive word, fun power => ?_, division, ?_⟩
  · exact if_pos ((Nat.and_sub_one_eq_zero_iff_isPowerOfTwo (by omega)).mpr power)
  · rw [division]
    exact multiple_greatest positive

theorem roundsUp (positive : 0 < y) (divisor : y < 2 ^ 64) (bound : x + y - 1 < 2 ^ 64) :
    RoundsUp x y := by
  have division := alignUp_eq positive divisor.le bound
  refine ⟨alignUpChecked_eq positive (by omega), fun power => ?_, division, ?_, ?_⟩
  · exact if_pos ((Nat.and_sub_one_eq_zero_iff_isPowerOfTwo (by omega)).mpr power)
  · rw [division]
    exact multiple_least positive
  · rw [division]
    exact (Nat.div_mul_le_self _ y).trans_lt (by omega)

/-- Past the bound, the sum of `align_up` leaves the word. -/
theorem alignUpChecked_none (positive : 0 < y) (past : 2 ^ 64 ≤ x + y - 1) :
    alignUpChecked x y = none := by
  unfold alignUpChecked
  rw [bind_of_some (subWord_eq positive), addWord, if_neg (by omega)]
  rfl

/-! ### The callers -/

/-- What `os_page_align_areax` asks of its arguments. -/
def AreaxBound (addr size : Nat) : Prop :=
  size ≠ 0 → addr ≠ 0 → osPageSize ∣ addr ∧ osPageSize ∣ size ∧ addr + size + osPageSize - 1 < 2 ^ 64

/-- What `segment_commit_mask` asks of its arguments. -/
def CommitBound (segment p size : Nat) : Prop :=
  segment + segmentSize + osPageSize - 1 < 2 ^ 64 ∧ osPageSize ∣ segment ∧
    (size ≠ 0 → size ≤ segmentSize → segment ≤ p)

/-- What `segments_page_alloc` asks of its arguments. -/
def RequestBound (required blockSize : Nat) : Prop :=
  intptrSize ≤ blockSize ∧ blockSize ≤ mediumObjSizeMax ∧ 0 < required ∧ required ≤ mediumPageSize ∧
    (required = blockSize ∨ required = mediumPageSize) ∧
    (required = mediumPageSize → smallObjSizeMax < blockSize)

/-- Whole pages are not rounded. -/
theorem osPageAlignAreax_eq (conservative : Bool) {addr size : Nat} (bound : AreaxBound addr size) :
    osPageAlignAreaxChecked conservative addr size = some (osPageAlignAreax conservative addr size) ∧
      osPageAlignAreax conservative addr size = if size = 0 ∨ addr = 0 then (0, 0) else (addr, size) := by
  by_cases nothing : size = 0 ∨ addr = 0
  · have value : osPageAlignAreax conservative addr size = (0, 0) := if_pos nothing
    rw [value, if_pos nothing]
    exact ⟨if_pos nothing, rfl⟩
  · obtain ⟨nonempty, nonnull⟩ := not_or.mp nothing
    obtain ⟨starts, whole, room⟩ := bound nonempty nonnull
    simp only [osPageSize] at starts whole room
    have stops : 4096 ∣ addr + size := Nat.dvd_add starts whole
    have upStart := alignUp_of_dvd (by decide) (by decide) (by omega) starts
    have downStart := alignDown_of_dvd (by omega) (by decide) (by decide) starts
    have upStop := alignUp_of_dvd (by decide) (by decide) (by omega) stops
    have downStop := alignDown_of_dvd (by omega) (by decide) (by decide) stops
    have value : osPageAlignAreax conservative addr size = (addr, size) := by
      simp only [osPageAlignAreax, osPageSize, upStart, downStart, upStop, downStop, ite_self]
      rw [if_neg nothing, Nat.add_sub_cancel_left, if_neg (by omega)]
    rw [value, if_neg nothing]
    refine ⟨?_, rfl⟩
    have start : (if conservative then alignUpChecked addr osPageSize
        else alignDownChecked addr osPageSize) = some addr := by
      rw [osPageSize, alignUpChecked_eq (by decide) (by omega), alignDownChecked_eq (by decide) (by omega),
        upStart, downStart, ite_self]
    have stop : (if conservative then alignDownChecked (addr + size) osPageSize
        else alignUpChecked (addr + size) osPageSize) = some (addr + size) := by
      rw [osPageSize, alignUpChecked_eq (by decide) (by omega), alignDownChecked_eq (by decide) (by omega),
        upStop, downStop, ite_self]
    unfold osPageAlignAreaxChecked
    rw [if_neg nothing, bind_of_some start, bind_of_some (addWord_eq (by omega)), bind_of_some stop,
      bind_of_some (subWord_eq (Nat.le_add_right addr size)), Nat.add_sub_cancel_left, if_neg (by omega)]
    rfl

/-- The two roundings of `segment_commit_mask`. -/
theorem rounded_offset {offset : Nat} (small : offset ≤ 2 * segmentSize) :
    alignUpChecked offset commitSize = some (alignUp offset commitSize) ∧
      alignDownChecked offset commitSize = some (alignDown offset commitSize) := by
  simp only [segmentSize, commitSize, sliceSize] at small ⊢
  exact ⟨alignUpChecked_eq (by decide) (by omega), alignDownChecked_eq (by decide) (by omega)⟩

/-- An offset inside the segment is rounded to one that is not past its end. -/
theorem rounded_offset_le (up : Bool) {offset : Nat} (inside : offset ≤ segmentSize) :
    (if up then alignUp offset commitSize else alignDown offset commitSize) ≤ segmentSize := by
  simp only [segmentSize, commitSize, sliceSize] at inside ⊢
  rw [alignUp_eq (by decide) (by decide) (by omega), alignDown_eq (by omega) (by decide) (by decide)]
  cases up <;> simp only [Bool.false_eq_true, if_false, if_true] <;> omega

/-- **`segment_commit_mask` keeps inside the word**, also when the bytes end past the segment. -/
theorem segmentCommitMask_inRange (conservative : Bool) (cm : CommitMask) {segment p size : Nat}
    (bound : CommitBound segment p size) :
    segmentCommitMaskChecked segment conservative p size cm =
      some (segmentCommitMask segment conservative p size cm) := by
  obtain ⟨room, _, above⟩ := bound
  unfold segmentCommitMaskChecked segmentCommitMask
  by_cases short : size = 0 ∨ size > segmentSize
  · rw [if_pos short, if_pos short]
  · rw [if_neg short, if_neg short]
    obtain ⟨nonempty, fits⟩ := not_or.mp short
    have inWord : segment + segmentSize < 2 ^ 64 := by
      simp only [osPageSize] at room
      omega
    rw [bind_of_some (addWord_eq inWord)]
    by_cases outside : p ≥ segment + segmentSize
    · rw [if_pos outside, if_pos outside]
      rfl
    · rw [if_neg outside, if_neg outside]
      have below : p - segment ≤ segmentSize := by omega
      have sum : p - segment + size < 2 ^ 64 := by
        simp only [segmentSize] at below fits
        omega
      obtain ⟨upStart, downStart⟩ := rounded_offset (show p - segment ≤ 2 * segmentSize by omega)
      obtain ⟨upStop, downStop⟩ := rounded_offset (show p - segment + size ≤ 2 * segmentSize by omega)
      have inside := rounded_offset_le conservative below
      rw [bind_of_some (subWord_eq (above nonempty (by omega))), bind_of_some (addWord_eq sum), upStart,
        downStart, upStop, downStop, ← apply_ite some, ← apply_ite some, bind_of_some rfl, bind_of_some rfl]
      simp only
      generalize (if conservative then alignUp (p - segment) commitSize
        else alignDown (p - segment) commitSize) = start at inside ⊢
      generalize (if conservative then alignDown (p - segment + size) commitSize
        else alignUp (p - segment + size) commitSize) = stop
      have kept : (if p - segment ≥ sliceSize ∧ start < sliceSize then sliceSize else start) ≤
          segmentSize := by
        split
        · decide
        · exact inside
      generalize (if p - segment ≥ sliceSize ∧ start < sliceSize then sliceSize else start) = start at kept ⊢
      generalize (if stop > segmentSize then segmentSize else stop) = stop
      have width : (if stop > start then subWord stop start else some 0) =
          some (if stop > start then stop - start else 0) := by
        split
        · next more => exact subWord_eq (Nat.le_of_lt more)
        · rfl
      rw [bind_of_some (addWord_eq (by omega)), bind_of_some width, apply_ite some]
      rfl

/-- A rounded offset is a multiple of the slice size. -/
theorem rounded_offset_dvd (up : Bool) {offset : Nat} (small : offset ≤ 2 * segmentSize) :
    commitSize ∣ if up then alignUp offset commitSize else alignDown offset commitSize := by
  simp only [segmentSize, commitSize, sliceSize] at small ⊢
  rw [alignUp_eq (by decide) (by decide) (by omega), alignDown_eq (by omega) (by decide) (by decide)]
  cases up
  · exact Nat.dvd_mul_left 65536 _
  · exact Nat.dvd_mul_left 65536 _

/-- The range of `segment_commit_mask` is one that `os_page_align_areax` accepts. -/
theorem segmentCommitMask_areax (conservative : Bool) (cm : CommitMask) {segment p size : Nat}
    (bound : CommitBound segment p size) :
    AreaxBound (segmentCommitMask segment conservative p size cm).1
      (segmentCommitMask segment conservative p size cm).2.1 := by
  obtain ⟨room, aligned, _⟩ := bound
  unfold segmentCommitMask
  by_cases short : size = 0 ∨ size > segmentSize
  · rw [if_pos short]
    exact fun no => absurd rfl no
  · rw [if_neg short]
    by_cases outside : p ≥ segment + segmentSize
    · rw [if_pos outside]
      exact fun no => absurd rfl no
    · rw [if_neg outside]
      have sum : p - segment + size ≤ 2 * segmentSize := by omega
      have starts := rounded_offset_dvd conservative (show p - segment ≤ 2 * segmentSize by omega)
      have stops := rounded_offset_dvd (!conservative) sum
      have swap : (if !conservative then alignUp (p - segment + size) commitSize
          else alignDown (p - segment + size) commitSize) = if conservative
          then alignDown (p - segment + size) commitSize
          else alignUp (p - segment + size) commitSize := by
        cases conservative
        · exact (if_pos rfl).trans (if_neg Bool.false_ne_true).symm
        · exact (if_neg Bool.false_ne_true).trans (if_pos rfl).symm
      rw [swap] at stops
      simp only
      generalize (if conservative then alignUp (p - segment) commitSize
        else alignDown (p - segment) commitSize) = start at starts ⊢
      generalize (if conservative then alignDown (p - segment + size) commitSize
        else alignUp (p - segment + size) commitSize) = stop at stops ⊢
      have starts' : commitSize ∣
          if p - segment ≥ sliceSize ∧ start < sliceSize then sliceSize else start := by
        split
        · exact dvd_rfl
        · exact starts
      have stops' : commitSize ∣ (if stop > segmentSize then segmentSize else stop) ∧
          (if stop > segmentSize then segmentSize else stop) ≤ segmentSize := by
        split
        · exact ⟨by decide, le_rfl⟩
        · next inside => exact ⟨stops, Nat.le_of_not_lt inside⟩
      generalize (if p - segment ≥ sliceSize ∧ start < sliceSize then sliceSize else start) = start at starts' ⊢
      generalize (if stop > segmentSize then segmentSize else stop) = stop at stops' ⊢
      rw [apply_ite Prod.fst, apply_ite Prod.snd, apply_ite Prod.fst, ite_self, ite_self]
      intro nonempty _
      have more : stop > start := by
        by_contra none
        exact nonempty (if_neg none)
      rw [if_pos more]
      simp only [osPageSize, commitSize, sliceSize, segmentSize] at room aligned starts' stops' ⊢
      exact ⟨by omega, by omega, by omega⟩

/-- The slices of a page of `segments_page_alloc`. -/
theorem slicesNeeded_inRange {required blockSize : Nat} (bound : RequestBound required blockSize) :
    slicesNeededChecked required = some (slicesNeeded required) ∧
      IsLeast {n | required ≤ n * sliceSize} (slicesNeeded required) := by
  obtain ⟨_, _, positive, medium, _, _⟩ := bound
  have small : ¬required > mediumPageSize := Nat.not_lt.mpr medium
  simp only [mediumPageSize] at medium
  unfold slicesNeededChecked slicesNeeded
  simp only [if_neg small]
  have room : required + sliceSize - 1 < 2 ^ 64 := by
    simp only [sliceSize]
    omega
  rw [bind_of_some (alignUpChecked_eq (by decide) (by simp only [sliceSize]; omega))]
  refine ⟨rfl, ?_⟩
  rw [alignUp_eq (by decide) (by decide) room, Nat.mul_div_cancel _ (by decide)]
  obtain ⟨⟨_, above⟩, least⟩ := multiple_least (x := required) (y := sliceSize) (by decide)
  refine ⟨above, fun n enough => ?_⟩
  exact Nat.le_of_mul_le_mul_right (least ⟨Nat.dvd_mul_left _ n, enough⟩) (by decide)

/-- **The callers keep inside the word** on every argument that they accept. -/
structure CallersInRange : Prop where
  areax : ∀ conservative addr size, AreaxBound addr size →
    osPageAlignAreaxChecked conservative addr size = some (osPageAlignAreax conservative addr size) ∧
      osPageAlignAreax conservative addr size = if size = 0 ∨ addr = 0 then (0, 0) else (addr, size)
  mask : ∀ conservative cm segment p size, CommitBound segment p size →
    segmentCommitMaskChecked segment conservative p size cm =
        some (segmentCommitMask segment conservative p size cm) ∧
      AreaxBound (segmentCommitMask segment conservative p size cm).1
        (segmentCommitMask segment conservative p size cm).2.1
  slices : ∀ required blockSize, RequestBound required blockSize →
    slicesNeededChecked required = some (slicesNeeded required) ∧
      IsLeast {n | required ≤ n * sliceSize} (slicesNeeded required)

/-- The model's `segments_page_alloc` looks for that many slices. -/
theorem segmentsPageAlloc_slices (fuel : Nat) (l : Local) (required : Nat) :
    segmentsPageAlloc (fuel + 1) l required = (do
      let (page, l) ← segmentsPageFindAndAllocate fuel l (slicesNeeded required)
      if page = 0 then
        let (segment, l) ← segmentAlloc l 0 0
        if segment = 0 then return (0, l) else segmentsPageAlloc fuel l required
      else return (page, l)) := rfl

/-- **The two roundings, for all words**: the mask is taken at the powers of two, both paths are the
mathematical rounding, `align_up` leaves the word only past its bound, and no caller reaches that. -/
theorem rounding {x y : Nat} (word : x < 2 ^ 64) (positive : 0 < y) (divisor : y < 2 ^ 64) :
    (y &&& (y - 1) = 0 ↔ y.isPowerOfTwo) ∧ RoundsDown x y ∧ (x + y - 1 < 2 ^ 64 → RoundsUp x y) ∧
      (2 ^ 64 ≤ x + y - 1 → alignUpChecked x y = none) ∧ CallersInRange := by
  refine ⟨Nat.and_sub_one_eq_zero_iff_isPowerOfTwo (by omega), roundsDown word positive divisor,
    roundsUp positive divisor, alignUpChecked_none positive, ?_, ?_, ?_⟩
  · exact fun conservative _ _ bound => osPageAlignAreax_eq conservative bound
  · exact fun conservative cm _ _ _ bound =>
      ⟨segmentCommitMask_inRange conservative cm bound, segmentCommitMask_areax conservative cm bound⟩
  · exact fun _ _ bound => slicesNeeded_inRange bound

/-- A divisor on each path, a sum just past the bound, and one call of each caller. -/
theorem rounding_paths :
    alignUp 100000 4096 = 102400 ∧ alignUp 100000 48 = 100032 ∧ RoundsUp 100000 4096 ∧
      RoundsUp 100000 48 ∧ RoundsDown 100000 48 ∧ alignUpChecked (2 ^ 64 - 47) 48 = none ∧
      osPageAlignAreaxChecked true 33554432 65536 = some (33554432, 65536) ∧
      (segmentCommitMaskChecked 33554432 true (33554432 + 65537) 33554432 .empty).isSome = true ∧
      slicesNeededChecked 131072 = some 2 := by
  obtain ⟨_, _, up, _, callers⟩ := rounding (x := 100000) (y := 4096) (by decide) (by decide) (by decide)
  obtain ⟨_, down, up', _⟩ := rounding (x := 100000) (y := 48) (by decide) (by decide) (by decide)
  obtain ⟨_, _, _, past, _⟩ := rounding (x := 2 ^ 64 - 47) (y := 48) (by decide) (by decide) (by decide)
  obtain ⟨areax, kept⟩ := callers.areax true 33554432 65536 fun _ _ => by decide
  obtain ⟨mask, _⟩ := callers.mask true .empty 33554432 (33554432 + 65537) 33554432
    ⟨by decide, by decide, fun _ _ => by decide⟩
  obtain ⟨slices, _⟩ := callers.slices 131072 131072 (by unfold RequestBound; decide)
  refine ⟨by decide, by decide, up (by decide), up' (by decide), down, past (by decide), ?_, ?_, ?_⟩
  · rw [areax, kept]
    rfl
  · rw [mask]
    rfl
  · rw [slices]
    decide +kernel

end VerusMimalloc
