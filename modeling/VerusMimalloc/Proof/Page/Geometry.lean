/-
**Blocks of a page.**

* `PageAt`: where a page lies, as its headers say; `PageOk`: its block size and its block counts;
* `blocksOf`: the blocks of a page, up to its capacity;
* `PageAt.block_bounds`: a block lies in the page's slices; `PageAt.pageOfBlock_eq`: the page that
  the code computes for an address in these slices;
* `pageExtendFree_exact`, `pageExtendFree_eq`: the blocks that growing a page adds.
-/

import VerusMimalloc.Model.Page
import VerusMimalloc.Proof.Span.Create

namespace VerusMimalloc

open Library

variable {l l' : Local} {spans : Nat → List Span} {s k c a p i j : Nat}

/-! ### Pages -/

/-- A page of blocks, as the headers say: a block size, and not the header slice. -/
def InUse (l : Local) (a : Nat) : Prop :=
  (l.pages a).xblockSize ≠ 0 ∧ ∀ s ∈ l.segments, a ≠ getPageHeaderPtr s 0

/-- The page `a` has `c` slices of the segment `s`, from slice `k` on. -/
structure PageAt (l : Local) (s k c a : Nat) : Prop where
  member : s ∈ l.segments
  base : segmentSize ∣ s ∧ 0 < s ∧ s + segmentSize < 2 ^ 64
  behind : 0 < k
  positive : 0 < c
  inside : k + c ≤ 512
  header : a = getPageHeaderPtr s k
  count : (l.pages a).count = c
  offset : ∀ i < c, (l.pages (getPageHeaderPtr s (k + i))).offset = i * 80

/-- The block size, the number of slices and of blocks, and the heap of a page. -/
structure PageOk (heapPtr : Nat) (p : Page) : Prop where
  queue : ∃ pq, 1 ≤ pq ∧ pq ≤ 52 ∧ p.xblockSize = queueBlockSize pq
  slices : p.count = pageSlices p.xblockSize
  reserved : p.reserved = (p.count * sliceSize - calculateStartOffset p.xblockSize) / p.xblockSize
  capacity : p.capacity ≤ p.reserved
  xheap : p.xheap = heapPtr
  flags0 : p.flags0 = 0

namespace SegmentsWf

/-- The pages of the headers are those of the layout. -/
theorem inUse_iff (wf : SegmentsWf l spans) : InUse l a ↔ IsPage l.segments spans a := by
  constructor
  · rintro ⟨nonzero, notHeader⟩
    obtain ⟨s, member, span, inSpans, used, rfl⟩ := wf.span.layout.xblock a nonzero
    refine ⟨s, member, span, inSpans, used, ?_, rfl⟩
    by_contra zero
    have start : span.start = 0 := by omega
    exact notHeader s member (by simp only [Span.header, start])
  · rintro ⟨s, member, span, inSpans, used, behind, rfl⟩
    have segment := wf.span.layout.segment s member
    have bounds := segment.bounds inSpans
    have ok := segment.ok span inSpans
    simp only [SpanOk, used] at ok
    refine ⟨ok.2.1, fun r rMember same => ?_⟩
    have := (header_inj (wf.span.layout.aligned member) (wf.span.layout.aligned rMember)
      (by simp only [slicesPerSegment]; omega) (by decide)).mp same
    omega

theorem pageAt (wf : SegmentsWf l spans) (member : s ∈ l.segments) (behind : 0 < k)
    (piece : ⟨k, c, .used⟩ ∈ spans s) : PageAt l s k c (getPageHeaderPtr s k) := by
  have segment := wf.span.layout.segment s member
  have bounds := segment.bounds piece
  have ok := segment.ok _ piece
  simp only [SpanOk, Span.header, Nat.add_zero] at ok
  exact ⟨member, wf.span.layout.base s member, behind, bounds.1, bounds.2, rfl, ok.1, ok.2.2⟩

/-- A page in use lies somewhere. -/
theorem exists_pageAt (wf : SegmentsWf l spans) (page : InUse l a) :
    ∃ s k c, PageAt l s k c a ∧ ⟨k, c, .used⟩ ∈ spans s := by
  obtain ⟨s, member, ⟨k, c, kind⟩, inSpans, used, behind, rfl⟩ := wf.inUse_iff.mp page
  simp only at used
  subst used
  exact ⟨s, k, c, wf.pageAt member behind inSpans, inSpans⟩

theorem pageEmptyPtr_not_inUse (wf : SegmentsWf l spans) : ¬InUse l l.heap.pageEmptyPtr :=
  fun page => wf.empty_not_page (wf.inUse_iff.mp page)

end SegmentsWf

/-- An address behind the first byte of a segment, in a span whose slices have their offsets, leads
back to the segment and to the header of the span. -/
theorem pageOfBlock_of_offsets (aligned : segmentSize ∣ s) (inside : k + c ≤ 512)
    (offset : ∀ i < c, (l.pages (getPageHeaderPtr s (k + i))).offset = i * 80)
    (behind : s < p) (lower : s + k * 65536 ≤ p) (upper : p < s + (k + c) * 65536)
    (word : p < 2 ^ 64) :
    calculateSegmentPtrFromBlock p = s ∧ pageOfBlock l p = getPageHeaderPtr s k := by
  obtain ⟨d, rfl⟩ := Nat.exists_eq_add_of_lt behind
  obtain ⟨j, low, high, first, last⟩ : ∃ j, s + j * 65536 ≤ s + d + 1 ∧
      s + d + 1 < s + (j + 1) * 65536 ∧ k ≤ j ∧ j < k + c := ⟨(d + 1) / 65536, by omega⟩
  have segment : calculateSegmentPtrFromBlock (s + d + 1) = s :=
    segmentOfBlock_eq aligned word (by omega) (by simp only [segmentSize]; omega)
  refine ⟨segment, ?_⟩
  obtain ⟨i, rfl⟩ : ∃ i, j = k + i := ⟨j - k, by omega⟩
  have small : i < c := by omega
  simp only [pageOfBlock, segment, slicePageOfBlock_eq low high, offset i small]
  rw [calculatePagePtrSubtractOffset_header (by omega), Nat.add_sub_cancel]

namespace PageAt

theorem nonzero (page : PageAt l s k c a) : a ≠ 0 := by
  rw [page.header, getPageHeaderPtr_eq]
  omega

theorem lt_word (page : PageAt l s k c a) : a < 2 ^ 64 := by
  have := page.base.2.2
  have := page.inside
  simp only [segmentSize] at *
  rw [page.header, getPageHeaderPtr_eq]
  omega

/-- An address in the slices of a page leads back to the page. -/
theorem pageOfBlock_eq (page : PageAt l s k c a) (lower : s + k * 65536 ≤ p)
    (upper : p < s + (k + c) * 65536) :
    calculateSegmentPtrFromBlock p = s ∧ pageOfBlock l p = a := by
  obtain ⟨aligned, positive, bound⟩ := page.base
  have behind := page.behind
  have inside := page.inside
  simp only [segmentSize] at bound
  rw [page.header]
  exact pageOfBlock_of_offsets aligned inside page.offset (by omega) lower upper (by omega)

end PageAt

namespace PageOk

variable {heapPtr : Nat} {q : Page}

theorem size_bounds (ok : PageOk heapPtr q) :
    8 ≤ q.xblockSize ∧ q.xblockSize ≤ 131072 ∧ 8 ∣ q.xblockSize := by
  obtain ⟨pq, lower, upper, size⟩ := ok.queue
  rw [size]
  exact queueBlockSize_bounds pq upper lower

/-- The queue of the page's block size. -/
theorem bin_bounds (ok : PageOk heapPtr q) :
    1 ≤ bin q.xblockSize ∧ bin q.xblockSize ≤ 52 ∧ q.xblockSize = queueBlockSize (bin q.xblockSize) := by
  obtain ⟨pq, lower, upper, size⟩ := ok.queue
  rw [size, bin_queueBlockSize pq upper lower]
  exact ⟨lower, upper, rfl⟩

theorem startOffset_bounds (blockSize : Nat) :
    calculateStartOffset blockSize ≤ 384 ∧ 8 ∣ calculateStartOffset blockSize := by
  unfold calculateStartOffset
  split
  · exact ⟨Nat.le_refl _, by decide⟩
  · exact ⟨Nat.zero_le _, by decide⟩

/-- The reserved blocks fit. -/
theorem fits (ok : PageOk heapPtr q) :
    calculateStartOffset q.xblockSize + q.reserved * q.xblockSize ≤ q.count * 65536 := by
  have slices : 0 < q.count := by
    rw [ok.slices, pageSlices]
    split <;> decide
  have offset := (startOffset_bounds q.xblockSize).1
  have quotient := Nat.div_mul_le_self (q.count * 65536 - calculateStartOffset q.xblockSize) q.xblockSize
  rw [ok.reserved, sliceSize]
  omega

end PageOk

/-! ### Blocks -/

/-- Block `i` of a page. -/
def blockAt (l : Local) (a i : Nat) : Nat :=
  calculatePageBlockAt (calculatePageStart a (l.pages a).xblockSize) (l.pages a).xblockSize i

/-- The blocks of a page, up to its capacity. -/
def blocksOf (l : Local) (a : Nat) : List Nat :=
  (List.range (l.pages a).capacity).map (blockAt l a)

theorem mem_blocksOf : p ∈ blocksOf l a ↔ ∃ i < (l.pages a).capacity, blockAt l a i = p := by
  simp only [blocksOf, List.mem_map, List.mem_range]

theorem blockAt_congr (xblockSize : (l'.pages a).xblockSize = (l.pages a).xblockSize) :
    blockAt l' a = blockAt l a := by
  funext i
  simp only [blockAt, xblockSize]

theorem blocksOf_congr (xblockSize : (l'.pages a).xblockSize = (l.pages a).xblockSize)
    (capacity : (l'.pages a).capacity = (l.pages a).capacity) : blocksOf l' a = blocksOf l a := by
  rw [blocksOf, blocksOf, capacity, blockAt_congr xblockSize]

namespace PageAt

theorem blockAt_eq (page : PageAt l s k c a) :
    blockAt l a i = s + k * 65536 + calculateStartOffset (l.pages a).xblockSize +
      (l.pages a).xblockSize * i := by
  have inside := page.inside
  rw [blockAt, calculatePageBlockAt, page.header, calculatePageStart_header page.base.1
    (by simp only [slicesPerSegment]; omega)]
  rfl

variable {heapPtr : Nat} (page : PageAt l s k c a) (ok : PageOk heapPtr (l.pages a))
include page ok

/-- **A block lies in the slices of its page.** -/
theorem block_bounds (reserved : i < (l.pages a).reserved) :
    s + k * 65536 ≤ blockAt l a i ∧
      blockAt l a i + (l.pages a).xblockSize ≤ s + (k + c) * 65536 := by
  have fits := ok.fits
  rw [page.count] at fits
  have last : (i + 1) * (l.pages a).xblockSize ≤ (l.pages a).reserved * (l.pages a).xblockSize :=
    Nat.mul_le_mul_right _ reserved
  rw [Nat.add_mul, Nat.one_mul, Nat.mul_comm i] at last
  rw [page.blockAt_eq]
  omega

omit ok in
/-- **Different blocks do not overlap.** -/
theorem block_apart (order : i < j) :
    blockAt l a i + (l.pages a).xblockSize ≤ blockAt l a j := by
  have next : (l.pages a).xblockSize * (i + 1) ≤ (l.pages a).xblockSize * j :=
    Nat.mul_le_mul_left _ order
  rw [Nat.mul_add, Nat.mul_one] at next
  rw [page.blockAt_eq, page.blockAt_eq]
  omega

theorem blockAt_injective : Function.Injective (blockAt l a) := by
  have positive := ok.size_bounds.1
  intro i j same
  rcases Nat.lt_trichotomy i j with less | equal | greater
  · have := page.block_apart less
    omega
  · exact equal
  · have := page.block_apart greater
    omega

theorem block_aligned : 8 ∣ blockAt l a i := by
  obtain ⟨⟨m, rfl⟩, _⟩ := page.base
  have offset := (PageOk.startOffset_bounds (l.pages a).xblockSize).2
  have size := Dvd.dvd.mul_right ok.size_bounds.2.2 i
  rw [page.blockAt_eq]
  simp only [segmentSize]
  omega

theorem blocksOf_nodup : (blocksOf l a).Nodup :=
  List.nodup_range.map (page.blockAt_injective ok)

/-- What a block of the page is like. -/
theorem of_mem_blocksOf (member : p ∈ blocksOf l a) :
    s + k * 65536 ≤ p ∧ p + (l.pages a).xblockSize ≤ s + (k + c) * 65536 ∧ 8 ∣ p ∧ 0 < p ∧
      calculateSegmentPtrFromBlock p = s ∧ pageOfBlock l p = a := by
  obtain ⟨i, small, rfl⟩ := mem_blocksOf.mp member
  have capacity := ok.capacity
  obtain ⟨lower, upper⟩ := page.block_bounds ok (i := i) (by omega)
  have positive := ok.size_bounds.1
  have base := page.base.2.1
  exact ⟨lower, upper, page.block_aligned ok, by omega,
    page.pageOfBlock_eq lower (by omega)⟩

end PageAt

/-! ### Growing a page -/

/-- The nodes that `prepend_contiguous_blocks` writes. -/
theorem contiguousBlocks_eq {bsize : Nat} (positive : 0 < bsize) (m : Nat) {rounds block : Nat}
    (enough : m ≤ rounds) :
    contiguousBlocks (block + bsize * m) bsize rounds block =
      (List.range (m + 1)).map fun i => block + bsize * i := by
  induction m generalizing rounds block with
  | zero =>
      cases rounds with
      | zero => simp [contiguousBlocks]
      | succ rounds => simp [contiguousBlocks]
  | succ m ih =>
      obtain ⟨rounds, rfl⟩ : ∃ r, rounds = r + 1 := ⟨rounds - 1, by omega⟩
      have later : block < block + bsize * (m + 1) := by
        have := Nat.mul_pos positive (by omega : 0 < m + 1)
        omega
      have shifted : block + bsize * (m + 1) = block + bsize + bsize * m := by
        rw [Nat.mul_add, Nat.mul_one]
        omega
      rw [contiguousBlocks, if_pos later, shifted, ih (by omega), List.range_succ_eq_map (n := m + 1)]
      simp only [List.map_cons, List.map_map, Nat.mul_zero, Nat.add_zero, List.cons.injEq, true_and]
      refine List.map_congr_left fun i _ => ?_
      simp only [Function.comp, Nat.succ_eq_add_one, Nat.mul_add, Nat.mul_one]
      omega

/-- The blocks that `n` more blocks of capacity add. -/
def freshBlocks (l : Local) (a n : Nat) : List Nat :=
  (List.range n).map fun i => blockAt l a ((l.pages a).capacity + i)

theorem modifyPage_self (l : Local) (a : Nat) {f : Page → Page} (same : f (l.pages a) = l.pages a) :
    l.modifyPage a f = l := by
  have : (fun x => if x = a then f (l.pages x) else l.pages x) = l.pages := by
    funext x
    split
    · rename_i equal
      rw [equal, same]
    · rfl
  simp only [Local.modifyPage, this]

/-- The most blocks that one call of `page_extend_free` adds. -/
def extendLimit (bsize : Nat) : Nat :=
  max minExtend (if bsize ≥ maxExtendSize then minExtend else maxExtendSize / bsize)

/-- The blocks that one call of `page_extend_free` adds. -/
def extendCount (p : Page) : Nat := min (extendLimit p.xblockSize) (p.reserved - p.capacity)

theorem extendLimit_bounds (bsize : Nat) : 4 ≤ extendLimit bsize ∧ extendLimit bsize ≤ 4096 := by
  refine ⟨Nat.le_max_left _ _, Nat.max_le.mpr ⟨by decide, ?_⟩⟩
  by_cases large : bsize ≥ maxExtendSize
  · rw [if_pos large]
    decide
  · rw [if_neg large]
    exact Nat.div_le_self _ _

theorem extendCount_bounds (p : Page) : p.capacity + extendCount p ≤ max p.reserved p.capacity ∧
    (p.capacity < p.reserved → 0 < extendCount p) := by
  have limit := (extendLimit_bounds p.xblockSize).1
  unfold extendCount
  constructor
  · omega
  · omega

/-- **`page_extend_free`** adds the next blocks to the free list. -/
theorem pageExtendFree_exact (l : Local) (a : Nat) (positive : 0 < (l.pages a).xblockSize) :
    pageExtendFree l a = l.modifyPage a fun p =>
      { p with
        free := freshBlocks l a (extendCount (l.pages a)) ++ p.free
        capacity := p.capacity + extendCount (l.pages a) } := by
  unfold pageExtendFree
  simp only
  by_cases full : (l.pages a).capacity ≥ (l.pages a).reserved
  · have none : extendCount (l.pages a) = 0 := by
      rw [extendCount, Nat.sub_eq_zero_of_le full, Nat.min_zero]
    rw [if_pos full, none]
    exact (modifyPage_self l a rfl).symm
  · have limit : (if (if (l.pages a).xblockSize ≥ maxExtendSize then minExtend
        else maxExtendSize / (l.pages a).xblockSize) < minExtend then minExtend
        else if (l.pages a).xblockSize ≥ maxExtendSize then minExtend
        else maxExtendSize / (l.pages a).xblockSize) = extendLimit (l.pages a).xblockSize := by
      rw [extendLimit]
      generalize (if (l.pages a).xblockSize ≥ maxExtendSize then minExtend
        else maxExtendSize / (l.pages a).xblockSize) = most
      by_cases low : most < minExtend
      · rw [if_pos low, Nat.max_eq_left low.le]
      · rw [if_neg low, Nat.max_eq_right (Nat.le_of_not_lt low)]
    have count : (if (l.pages a).reserved - (l.pages a).capacity > extendLimit (l.pages a).xblockSize
        then extendLimit (l.pages a).xblockSize else (l.pages a).reserved - (l.pages a).capacity) =
        extendCount (l.pages a) := by
      rw [extendCount]
      by_cases many : (l.pages a).reserved - (l.pages a).capacity >
          extendLimit (l.pages a).xblockSize
      · rw [if_pos many, Nat.min_eq_left many.le]
      · rw [if_neg many, Nat.min_eq_right (Nat.le_of_not_lt many)]
    rw [if_neg full, limit, count]
    have some := (extendCount_bounds (l.pages a)).2 (Nat.lt_of_not_le full)
    have fewer : extendCount (l.pages a) ≤ 4096 :=
      (Nat.min_le_left _ _).trans (extendLimit_bounds _).2
    generalize extendCount (l.pages a) = n at *
    generalize sizeEq : (l.pages a).xblockSize = bsize at *
    have small : asU16 n = n := Nat.mod_eq_of_lt (by omega)
    obtain ⟨m, rfl⟩ : ∃ m, n = m + 1 := ⟨n - 1, by omega⟩
    have lastIndex : (l.pages a).capacity + (m + 1) - 1 = (l.pages a).capacity + m := by omega
    have last : calculatePageBlockAt (calculatePageStart a bsize) bsize ((l.pages a).capacity + m) =
        calculatePageBlockAt (calculatePageStart a bsize) bsize (l.pages a).capacity + bsize * m := by
      simp only [calculatePageBlockAt, Nat.mul_add]
      omega
    have enough : m ≤ bsize * m := Nat.le_mul_of_pos_left m positive
    have blocks : freshBlocks l a (m + 1) = (List.range (m + 1)).map fun i =>
        calculatePageBlockAt (calculatePageStart a bsize) bsize (l.pages a).capacity + bsize * i := by
      simp only [freshBlocks, blockAt, sizeEq, calculatePageBlockAt, Nat.mul_add, Nat.add_assoc]
    simp only [pageFreeListExtend, lastIndex, small]
    rw [blocks, last, Nat.add_sub_cancel_left, contiguousBlocks_eq positive m enough]

/-- At least one block is added when some are left. -/
theorem pageExtendFree_eq (l : Local) (a : Nat) (positive : 0 < (l.pages a).xblockSize) :
    ∃ n, (l.pages a).capacity + n ≤ max (l.pages a).reserved (l.pages a).capacity ∧
      ((l.pages a).capacity < (l.pages a).reserved → 0 < n) ∧
      pageExtendFree l a = l.modifyPage a fun p =>
        { p with free := freshBlocks l a n ++ p.free, capacity := p.capacity + n } :=
  ⟨_, (extendCount_bounds _).1, (extendCount_bounds _).2, pageExtendFree_exact l a positive⟩

/-- The fresh blocks come after the old ones. -/
theorem blocksOf_extend {n : Nat} (xblockSize : (l'.pages a).xblockSize = (l.pages a).xblockSize)
    (capacity : (l'.pages a).capacity = (l.pages a).capacity + n) :
    blocksOf l' a = blocksOf l a ++ freshBlocks l a n := by
  rw [blocksOf, blocksOf, capacity, blockAt_congr xblockSize, List.range_add, List.map_append,
    List.map_map]
  rfl

end VerusMimalloc
