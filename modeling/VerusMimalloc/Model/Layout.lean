/-
**Addresses of segments, page headers and blocks.**

The address arithmetic of `layout.rs` and of the pointer methods in `types.rs`: a segment starts at
a multiple of its size, its page headers follow the segment header, and a block's page is found
from the block's address and the stored offset of its slice.

* `alignDown_eq`, `alignUp_eq`: both code paths of the roundings are the mathematical ones;
* `ptrSegment_header`, `headerIndex_header`: a page header's address determines segment and slice;
* `segmentOfBlock_eq`, `slicePageOfBlock_eq`: the same for an address inside a slice.
-/

import VerusMimalloc.Model.Config

namespace VerusMimalloc

/-! ### Rounding -/

/-- `align_down`. -/
def alignDown (x y : Nat) : Nat :=
  let mask := y - 1
  if y &&& mask = 0 then x &&& complement mask else x / y * y

/-- `align_up`. -/
def alignUp (x y : Nat) : Nat :=
  let mask := y - 1
  if y &&& mask = 0 then (x + mask) &&& complement mask else (x + mask) / y * y

/-- Masking off the low bits of a word rounds it down. -/
theorem and_complement_mask {x k : Nat} (word : x < 2 ^ 64) (small : k ≤ 64) :
    x &&& complement (2 ^ k - 1) = x / 2 ^ k * 2 ^ k := by
  have below : 2 ^ k - 1 < 2 ^ 64 := by
    have := Nat.pow_le_pow_right (n := 2) (by decide) small
    have := Nat.two_pow_pos k
    omega
  apply Nat.eq_of_testBit_eq
  intro i
  have shape : complement (2 ^ k - 1) = 2 ^ 64 - (2 ^ k - 1 + 1) := by
    simp only [complement]
    omega
  rw [Nat.testBit_and, shape, Nat.testBit_two_pow_sub_succ below, Nat.testBit_two_pow_sub_one,
    Nat.testBit_mul_two_pow, Nat.testBit_div_two_pow]
  by_cases high : k ≤ i
  · by_cases inWord : i < 64
    · simp [high, inWord]
    · have : x.testBit i = false := Nat.testBit_lt_two_pow (word.trans_le
        (Nat.pow_le_pow_right (by decide) (Nat.le_of_not_lt inWord)))
      simp [high, this]
  · simp [high, Nat.lt_of_not_le high]

/-- **Rounding down**, on both code paths. -/
theorem alignDown_eq {x y : Nat} (word : x < 2 ^ 64) (positive : 0 < y) (bound : y ≤ 2 ^ 64) :
    alignDown x y = x / y * y := by
  unfold alignDown
  by_cases power : y &&& (y - 1) = 0
  · rw [if_pos power]
    obtain ⟨k, rfl⟩ := (Nat.and_sub_one_eq_zero_iff_isPowerOfTwo (by omega)).mp power
    exact and_complement_mask word ((Nat.pow_le_pow_iff_right (by decide)).mp bound)
  · rw [if_neg power]

/-- **Rounding up**, on both code paths. -/
theorem alignUp_eq {x y : Nat} (positive : 0 < y) (bound : y ≤ 2 ^ 64)
    (word : x + y - 1 < 2 ^ 64) : alignUp x y = (x + (y - 1)) / y * y := by
  unfold alignUp
  by_cases power : y &&& (y - 1) = 0
  · rw [if_pos power]
    obtain ⟨k, rfl⟩ := (Nat.and_sub_one_eq_zero_iff_isPowerOfTwo (by omega)).mp power
    exact and_complement_mask (by omega) ((Nat.pow_le_pow_iff_right (by decide)).mp bound)
  · rw [if_neg power]

/-- A multiple is rounded to itself. -/
theorem alignDown_of_dvd {x y : Nat} (word : x < 2 ^ 64) (positive : 0 < y) (bound : y ≤ 2 ^ 64)
    (divides : y ∣ x) : alignDown x y = x := by
  rw [alignDown_eq word positive bound]
  exact Nat.div_mul_cancel divides

theorem alignUp_of_dvd {x y : Nat} (positive : 0 < y) (bound : y ≤ 2 ^ 64)
    (word : x + y - 1 < 2 ^ 64) (divides : y ∣ x) : alignUp x y = x := by
  obtain ⟨k, rfl⟩ := divides
  rw [alignUp_eq positive bound word, Nat.mul_add_div positive, Nat.div_eq_of_lt (by omega),
    Nat.add_zero, Nat.mul_comm]

/-! ### Segments and page headers -/

/-- `SegmentPtr::ptr_segment`. -/
def ptrSegment (page : Nat) : Nat := page / segmentSize * segmentSize

/-- `SegmentPtr::get_page_header_ptr`. -/
def getPageHeaderPtr (segment : Nat) (idx : Nat) : Nat :=
  segment + sizeofSegmentHeader + idx * sizeofPageHeader

/-- `SegmentPtr::get_page_after_end`. -/
def getPageAfterEnd (segment : Nat) : Nat :=
  segment + sizeofSegmentHeader + slicesPerSegment * sizeofPageHeader

/-- `PagePtr::add_offset`. -/
def addOffset (page : Nat) (count : Nat) : Nat := page + count * sizeofPageHeader

/-- `PagePtr::sub_offset`. -/
def subOffset (page : Nat) (count : Nat) : Nat := page - count * sizeofPageHeader

/-- `PagePtr::is_gt_0th_slice`. -/
def isGt0thSlice (page segment : Nat) : Bool := getPageHeaderPtr segment 0 < page

/-- `PagePtr::get_index`. -/
def getIndex (page : Nat) : Nat :=
  (page - ptrSegment page - sizeofSegmentHeader) / sizeofPageHeader

/-- `PagePtr::slice_start`. -/
def sliceStart (page : Nat) : Nat :=
  let s := ptrSegment page
  s + (page - s - sizeofSegmentHeader) / sizeofPageHeader * sliceSize

/-- `PagePtr::add_offset_and_check`. -/
def addOffsetAndCheck (page : Nat) (count : Nat) (segment : Nat) : Nat × Bool :=
  let q := page + count * sizeofPageHeader
  (q, q < getPageAfterEnd segment)

/-! ### Blocks -/

/-- `calculate_start_offset`. -/
def calculateStartOffset (blockSize : Nat) : Nat :=
  if 8 ≤ blockSize ∧ blockSize ≤ 1024 then 3 * maxAlignGuarantee else 0

/-- `segment_page_start_from_slice`. -/
def segmentPageStartFromSlice (segment slice : Nat) (xblockSize : Nat) : Nat :=
  let idxx := slice - (segment + sizeofSegmentHeader)
  let idx := idxx / sizeofPageHeader
  let startOffset :=
    if intptrSize ≤ xblockSize ∧ xblockSize ≤ 1024 then 3 * maxAlignGuarantee else 0
  segment + idx * sliceSize + startOffset

/-- `calculate_page_start`. -/
def calculatePageStart (page : Nat) (blockSize : Nat) : Nat :=
  segmentPageStartFromSlice (ptrSegment page) page blockSize

/-- `calculate_page_block_at`. -/
def calculatePageBlockAt (pageStart blockSize idx : Nat) : Nat := pageStart + blockSize * idx

/-- `calculate_segment_ptr_from_block`. -/
def calculateSegmentPtrFromBlock (ptr : Nat) : Nat :=
  (ptr - 1) &&& complement (segmentSize - 1)

/-- `calculate_slice_page_ptr_from_block`. -/
def calculateSlicePagePtrFromBlock (ptr segment : Nat) : Nat :=
  let q := (ptr - segment) / sliceSize
  segment + sizeofSegmentHeader + q * sizeofPageHeader

/-- `calculate_page_ptr_subtract_offset`. -/
def calculatePagePtrSubtractOffset (page : Nat) (offset : Nat) : Nat := page - offset

/-! ### The addresses of one segment -/

section Segment

variable {segment : Nat} {k count : Nat}

/-- The page header of a slice. -/
theorem getPageHeaderPtr_eq : getPageHeaderPtr segment k = segment + 264 + k * 80 := rfl

theorem getPageHeaderPtr_inj {j : Nat} :
    getPageHeaderPtr segment k = getPageHeaderPtr segment j ↔ k = j := by
  simp only [getPageHeaderPtr_eq]
  omega

theorem addOffset_header :
    addOffset (getPageHeaderPtr segment k) count = getPageHeaderPtr segment (k + count) := by
  simp only [addOffset, getPageHeaderPtr_eq, sizeofPageHeader]
  omega

theorem subOffset_header (inside : count ≤ k) :
    subOffset (getPageHeaderPtr segment k) count = getPageHeaderPtr segment (k - count) := by
  simp only [subOffset, getPageHeaderPtr_eq, sizeofPageHeader]
  omega

theorem calculatePagePtrSubtractOffset_header (inside : count ≤ k) :
    calculatePagePtrSubtractOffset (getPageHeaderPtr segment k) (count * 80) =
      getPageHeaderPtr segment (k - count) := by
  simp only [calculatePagePtrSubtractOffset, getPageHeaderPtr_eq]
  omega

theorem isGt0thSlice_header : isGt0thSlice (getPageHeaderPtr segment k) segment = decide (0 < k) := by
  simp only [isGt0thSlice, getPageHeaderPtr_eq]
  congr 1
  apply propext
  omega

theorem addOffsetAndCheck_header :
    addOffsetAndCheck (getPageHeaderPtr segment k) count segment =
      (getPageHeaderPtr segment (k + count), decide (k + count < slicesPerSegment)) := by
  simp only [addOffsetAndCheck, getPageAfterEnd, getPageHeaderPtr_eq, sizeofSegmentHeader,
    sizeofPageHeader, slicesPerSegment, Prod.mk.injEq]
  exact ⟨by omega, by congr 1; apply propext; omega⟩

theorem segmentPageStartFromSlice_header (xblockSize : Nat) :
    segmentPageStartFromSlice segment (getPageHeaderPtr segment k) xblockSize =
      segment + k * sliceSize + calculateStartOffset xblockSize := by
  have index : (getPageHeaderPtr segment k - (segment + sizeofSegmentHeader)) / sizeofPageHeader = k := by
    simp only [getPageHeaderPtr_eq, sizeofSegmentHeader, sizeofPageHeader]
    omega
  simp only [segmentPageStartFromSlice, index]
  rfl

/-- The header of the slice an address lies in. -/
theorem slicePageOfBlock_eq {ptr : Nat} (above : segment + k * sliceSize ≤ ptr)
    (below : ptr < segment + (k + 1) * sliceSize) :
    calculateSlicePagePtrFromBlock ptr segment = getPageHeaderPtr segment k := by
  simp only [sliceSize] at above below
  have index : (ptr - segment) / sliceSize = k := by
    simp only [sliceSize]
    omega
  simp only [calculateSlicePagePtrFromBlock, index, getPageHeaderPtr]

variable (aligned : segmentSize ∣ segment)
include aligned

theorem ptrSegment_header (inside : k ≤ slicesPerSegment) :
    ptrSegment (getPageHeaderPtr segment k) = segment := by
  obtain ⟨n, rfl⟩ := aligned
  simp only [slicesPerSegment] at inside
  simp only [ptrSegment, getPageHeaderPtr_eq, segmentSize]
  omega

/-- Headers of different segments or slices are different. -/
theorem header_inj {other : Nat} {j : Nat} (otherAligned : segmentSize ∣ other)
    (inside : k ≤ slicesPerSegment) (otherInside : j ≤ slicesPerSegment) :
    getPageHeaderPtr segment k = getPageHeaderPtr other j ↔ segment = other ∧ k = j := by
  constructor
  · intro same
    have sameSegment : segment = other := by
      rw [← ptrSegment_header aligned inside, same, ptrSegment_header otherAligned otherInside]
    subst sameSegment
    exact ⟨rfl, getPageHeaderPtr_inj.mp same⟩
  · rintro ⟨rfl, rfl⟩
    rfl

theorem getIndex_header (inside : k ≤ slicesPerSegment) :
    getIndex (getPageHeaderPtr segment k) = k := by
  rw [getIndex, ptrSegment_header aligned inside]
  simp only [getPageHeaderPtr_eq, sizeofSegmentHeader, sizeofPageHeader]
  omega

theorem sliceStart_header (inside : k ≤ slicesPerSegment) :
    sliceStart (getPageHeaderPtr segment k) = segment + k * sliceSize := by
  have index := getIndex_header aligned inside
  simp only [getIndex, ptrSegment_header aligned inside] at index
  simp only [sliceStart, ptrSegment_header aligned inside, index]

theorem calculatePageStart_header (inside : k ≤ slicesPerSegment) (blockSize : Nat) :
    calculatePageStart (getPageHeaderPtr segment k) blockSize =
      segment + k * sliceSize + calculateStartOffset blockSize := by
  rw [calculatePageStart, ptrSegment_header aligned inside,
    segmentPageStartFromSlice_header]

/-- The segment of an address inside it. The segment's own first byte is excluded: the code
subtracts one. -/
theorem segmentOfBlock_eq {ptr : Nat} (word : ptr < 2 ^ 64) (above : segment < ptr)
    (below : ptr ≤ segment + segmentSize) : calculateSegmentPtrFromBlock ptr = segment := by
  obtain ⟨n, rfl⟩ := aligned
  have power : segmentSize - 1 = 2 ^ 25 - 1 := by decide
  rw [calculateSegmentPtrFromBlock, power, and_complement_mask (by omega) (by decide)]
  simp only [segmentSize] at above below ⊢
  omega

end Segment

end VerusMimalloc
