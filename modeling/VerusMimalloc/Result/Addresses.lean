/-
**From a block back to its page.**

* `blockPtr`: the address of a block, as `calculate_page_start` and `calculate_page_block_at` compute
  it; `OffsetsSet`: the offsets that `segment_span_allocate` stores;
* `segmentSpanAllocate_offsets`: it stores them;
* `block_leads_back`: the address computation of `free` undoes that of `malloc`, except at the first
  byte of a segment.
-/

import VerusMimalloc.Proof.Runs

namespace VerusMimalloc

variable {l l' : Local} {segment start count blockSize i : Nat}

/-- The address of block `i` of a span whose blocks have the size `blockSize`. -/
def blockPtr (segment start blockSize i : Nat) : Nat :=
  calculatePageBlockAt (calculatePageStart (getPageHeaderPtr segment start) blockSize) blockSize i

/-- The offsets of the slices of a span, as `segment_span_allocate` sets them. -/
def OffsetsSet (l : Local) (segment start count : Nat) : Prop :=
  ∀ j < count, (l.pages (getPageHeaderPtr segment (start + j))).offset = j * sizeofPageHeader

/-- **`segment_span_allocate`** sets the offsets. -/
theorem segmentSpanAllocate_offsets (positive : 0 < count) (inside : count ≤ slicesPerSegment)
    (success : segmentSpanAllocate l segment (getPageHeaderPtr segment start) count = (true, l')) :
    OffsetsSet l' segment start count := by
  simp only [slicesPerSegment] at inside
  unfold segmentSpanAllocate at success
  simp only [segmentPageStartFromSlice_header] at success
  generalize segmentEnsureCommitted _ _ _ _ = committed at success
  obtain ⟨done, l₀⟩ := committed
  cases done with
  | false => cases success
  | true =>
      have block : (if count * sliceSize ≥ hugeBlockSize then hugeBlockSize
          else asU32 (count * sliceSize)) = asU32 (count * 65536) :=
        if_neg (by simp only [sliceSize, hugeBlockSize]; omega)
      simp only [Bool.not_true, Bool.false_eq_true, if_false, block, Prod.mk.injEq, true_and]
        at success
      intro j small
      obtain ⟨first, later, _⟩ := allocate_pages l₀ positive (s := segment) (k := start)
        (getPageHeaderPtr segment (start + j))
      rw [← success, Local.modifySeg_pages]
      by_cases zero : j = 0
      · subst zero
        obtain ⟨flags0, _, header⟩ := first rfl
        rw [header]
        exact (Nat.zero_mul _).symm
      · have fits : asU32 j = j := asU32_of_lt (by omega)
        rw [later j (by omega) small rfl, fits]
        rfl

/-- What `free` computes from a block's address: the segment, and the page's header, from which
`ptr_segment` gives the segment again. -/
structure LeadsBack (l : Local) (segment start p : Nat) : Prop where
  found : calculateSegmentPtrFromBlock p = segment
  page : calculatePagePtrSubtractOffset (calculateSlicePagePtrFromBlock p segment)
    (l.pages (calculateSlicePagePtrFromBlock p segment)).offset = getPageHeaderPtr segment start
  header : ptrSegment (getPageHeaderPtr segment start) = segment

/-- **`free` undoes the address computation of `malloc`**, for every block that does not start at the
first byte of the segment, where the segment header lies. -/
theorem block_leads_back (aligned : segmentSize ∣ segment) (bound : segment + segmentSize < 2 ^ 64 - 1)
    (inside : start + count ≤ slicesPerSegment) (offsets : OffsetsSet l segment start count)
    (positive : 0 < blockSize)
    (within : blockPtr segment start blockSize i + blockSize ≤ segment + (start + count) * sliceSize)
    (behind : blockPtr segment start blockSize i ≠ segment) :
    LeadsBack l segment start (blockPtr segment start blockSize i) := by
  have small : start ≤ slicesPerSegment := (Nat.le_add_right _ _).trans inside
  have address : segment + start * sliceSize ≤ blockPtr segment start blockSize i := by
    rw [blockPtr, calculatePageBlockAt, calculatePageStart_header aligned small]
    omega
  generalize blockPtr segment start blockSize i = p at *
  simp only [segmentSize, slicesPerSegment, sliceSize] at bound inside within address
  obtain ⟨found, page⟩ := pageOfBlock_of_offsets aligned inside offsets (by omega) address
    (show p < segment + (start + count) * 65536 by omega) (by omega)
  refine ⟨found, ?_, ptrSegment_header aligned small⟩
  rw [pageOfBlock, found] at page
  exact page

/-- The segment of `plainServed` with eight slices more in use. -/
def plainSpan : Local :=
  (segmentSpanAllocate plainServed.st.loc (5 * 2 ^ 27) (getPageHeaderPtr (5 * 2 ^ 27) 100) 8).2

theorem plainSpan_eq : segmentSpanAllocate plainServed.st.loc (5 * 2 ^ 27)
    (getPageHeaderPtr (5 * 2 ^ 27) 100) 8 = (true, plainSpan) :=
  Prod.ext (by decide +kernel) (by simp only [plainSpan])

/-- A block that crosses from the third slice of its span to the fourth. -/
theorem block_leads_back_crossing :
    LeadsBack plainSpan (5 * 2 ^ 27) 100 (blockPtr (5 * 2 ^ 27) 100 40960 4) ∧
      blockPtr (5 * 2 ^ 27) 100 40960 4 = 5 * 2 ^ 27 + 102 * sliceSize + 32768 := by
  have offsets : OffsetsSet plainSpan (5 * 2 ^ 27) 100 8 :=
    segmentSpanAllocate_offsets (by decide) (by decide) plainSpan_eq
  exact ⟨block_leads_back (by decide) (by decide) (by decide) offsets (by decide) (by decide)
    (by decide), by decide⟩

/-- At the first byte of a segment the code finds the segment before it. -/
theorem first_byte_leads_astray :
    segmentSize ∣ 5 * 2 ^ 27 ∧ 5 * 2 ^ 27 + segmentSize < 2 ^ 64 - 1 ∧
      OffsetsSet plainServed.st.loc (5 * 2 ^ 27) 0 1 ∧ queueBlockSize (bin 2048) = 2048 ∧
      blockPtr (5 * 2 ^ 27) 0 2048 0 + 2048 ≤ 5 * 2 ^ 27 + (0 + 1) * sliceSize ∧
      calculateSegmentPtrFromBlock (blockPtr (5 * 2 ^ 27) 0 2048 0) = 5 * 2 ^ 27 - segmentSize := by
  refine ⟨by decide, by decide, fun j small => ?_, by decide, by decide, by decide⟩
  obtain rfl : j = 0 := by omega
  decide +kernel

end VerusMimalloc
