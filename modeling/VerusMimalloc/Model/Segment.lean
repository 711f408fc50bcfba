/-
**Segments and spans of slices.**

`segment.rs`: searching, splitting, allocating, freeing and merging spans of slices, and creating
segments. The functions change `Local` only; what they do to a page's shared word is in `Page.lean`.
-/

import VerusMimalloc.Model.BinSizes
import VerusMimalloc.Model.CommitSegment

namespace VerusMimalloc

/-- `as u32`. -/
def asU32 (x : Nat) : Nat := x % 2 ^ 32

/-- `as u16`. -/
def asU16 (x : Nat) : Nat := x % 2 ^ 16

@[simp] theorem asU32_of_lt {x : Nat} (small : x < 2 ^ 32) : asU32 x = x := Nat.mod_eq_of_lt small

/-! ### Span queues -/

/-- `span_queue_delete`. -/
def spanQueueDelete (l : Local) (sbinIdx slice : Nat) : Local :=
  let prev := (l.pages slice).prev
  let next := (l.pages slice).next
  let l :=
    if prev = 0 then l.modifySpanQueue sbinIdx fun q => { q with first := next }
    else l.modifyPage prev fun p => { p with next := next }
  if next = 0 then l.modifySpanQueue sbinIdx fun q => { q with last := prev }
  else l.modifyPage next fun p => { p with prev := prev }

/-- Unlinking a span as both merging functions write it: the neighbours first, then the queue. -/
def spanQueueUnlink (l : Local) (sbinIdx slice : Nat) : Local :=
  let prev := (l.pages slice).prev
  let next := (l.pages slice).next
  let l := if prev ≠ 0 then l.modifyPage prev fun p => { p with next := next } else l
  let l := if next ≠ 0 then l.modifyPage next fun p => { p with prev := prev } else l
  l.modifySpanQueue sbinIdx fun q =>
    { first := if prev = 0 then next else q.first, last := if next = 0 then prev else q.last }

/-- The queue heads of a push to the front, and the old first span's `prev`. -/
def spanQueueLinkFront (l : Local) (sbinIdx slice : Nat) : Local :=
  let firstInQueue := (l.tld.spanQueueHeaders sbinIdx).first
  let l := l.modifySpanQueue sbinIdx fun q =>
    { first := slice, last := if firstInQueue = 0 then slice else q.last }
  if firstInQueue ≠ 0 then l.modifyPage firstInQueue fun p => { p with prev := slice } else l

/-! ### Splitting and allocating a span -/

/-- The header that `segment_slice_split` writes for the rest of the span. -/
def Page.toRest (p : Page) (sliceCount firstInQueue : Nat) : Page :=
  { p with
    xblockSize := 0
    prev := 0
    next := firstInQueue
    count := asU32 sliceCount
    offset := 0 }

/-- The header that `segment_slice_split` writes for the last slice of the rest. -/
def Page.toRestLast (p : Page) (sliceCount : Nat) : Page :=
  { p with
    xblockSize := 0
    count := asU32 sliceCount
    offset := asU32 (sliceCount - 1) * sizeofPageHeader }

/-- `segment_slice_split`. -/
def segmentSliceSplit (l : Local) (slice currentSliceCount targetSliceCount : Nat) : Local :=
  let nextSlice := addOffset slice targetSliceCount
  let binIdx := sliceBin (currentSliceCount - targetSliceCount)
  let firstInQueue := (l.tld.spanQueueHeaders binIdx).first
  let l := spanQueueLinkFront l binIdx nextSlice
  let l := l.modifyPage slice fun p => { p with count := asU32 targetSliceCount }
  let l := l.modifyPage nextSlice fun p =>
    p.toRest (currentSliceCount - targetSliceCount) firstInQueue
  if currentSliceCount > targetSliceCount + 1 then
    l.modifyPage (addOffset slice (currentSliceCount - 1)) fun p =>
      p.toRestLast (currentSliceCount - targetSliceCount)
  else l

/-- The loop of `segment_span_allocate` over the slices after the first. -/
def setOffsets (slice : Nat) : Nat → Local → Nat → Local
  | 0, l, _ => l
  | extra + 1, l, i =>
      setOffsets slice extra
        (l.modifyPage (addOffset slice i) fun p => { p with offset := asU32 i * sizeofPageHeader })
        (i + 1)

/-- `segment_span_allocate`. -/
def segmentSpanAllocate (l : Local) (segment slice sliceCount : Nat) : Bool × Local :=
  let p := segmentPageStartFromSlice segment slice 0
  let (success, l) := segmentEnsureCommitted l segment p (sliceCount * sliceSize)
  if !success then (false, l)
  else
    let bsize := sliceCount * sliceSize
    let l := l.modifyPage slice fun page =>
      { page with
        offset := 0
        count := asU32 sliceCount
        xblockSize := if bsize ≥ hugeBlockSize then hugeBlockSize else asU32 bsize }
    let l := setOffsets slice (sliceCount - 1) l 1
    let l := l.modifyPage slice fun page => (page.setIsReset false).setIsCommitted false
    (true, l.modifySeg segment fun m => { m with used := m.used + 1 })

/-- The walk of `segments_page_find_and_allocate` along one queue. -/
def findInSpanQueue (l : Local) (sliceCount : Nat) : Nat → Nat → Except Abort (Option Nat)
  | 0, _ => .error .timeout
  | fuel + 1, slice =>
      if slice = 0 then .ok none
      else if (l.pages slice).count ≥ sliceCount then .ok (some slice)
      else findInSpanQueue l sliceCount fuel (l.pages slice).next

/-- The walk of `segments_page_find_and_allocate` over the queues, from `sbinIdx` up. -/
def findSpan (l : Local) (sliceCount fuel : Nat) : Nat → Nat → Except Abort (Option (Nat × Nat))
  | 0, _ => .ok none
  | queues + 1, sbinIdx =>
      if sbinIdx ≤ segmentBinMax then do
        match ← findInSpanQueue l sliceCount fuel (l.tld.spanQueueHeaders sbinIdx).first with
        | some slice => return some (sbinIdx, slice)
        | none => findSpan l sliceCount fuel queues (sbinIdx + 1)
      else .ok none

/-- `segments_page_find_and_allocate`. -/
def segmentsPageFindAndAllocate (fuel : Nat) (l : Local) (sliceCount0 : Nat) :
    Except Abort (Nat × Local) := do
  let sliceCount := if sliceCount0 = 0 then 1 else sliceCount0
  match ← findSpan l sliceCount fuel (segmentBinMax + 1) (sliceBin sliceCount0) with
  | none => return (0, l)
  | some (sbinIdx, slice) =>
      let foundSliceCount := (l.pages slice).count
      let segment := ptrSegment slice
      let l := spanQueueDelete l sbinIdx slice
      let l :=
        if foundSliceCount > sliceCount then segmentSliceSplit l slice foundSliceCount sliceCount
        else l
      let (success, l) := segmentSpanAllocate l segment slice sliceCount
      if !success then throw .todo
      return (slice, l)

/-! ### Freeing and merging spans -/

/-- `segment_span_free`. -/
def segmentSpanFree (l : Local) (segment sliceIndex sliceCount : Nat) (allowDecommit : Bool) :
    Except Abort Local := do
  let binIdx := sliceBin sliceCount
  let slice := getPageHeaderPtr segment sliceIndex
  let l := l.modifyPage slice fun p => { p with count := asU32 sliceCount, offset := 0 }
  let l :=
    if sliceCount > 1 then
      l.modifyPage (getPageHeaderPtr segment (sliceIndex + sliceCount - 1)) fun p =>
        { p with offset := (asU32 sliceCount - 1) * sizeofPageHeader }
    else l
  let l ←
    if allowDecommit then
      segmentPerhapsDecommit l segment (sliceStart slice) (sliceCount * sliceSize)
    else pure l
  let firstInQueue := (l.tld.spanQueueHeaders binIdx).first
  let l := spanQueueLinkFront l binIdx slice
  return l.modifyPage slice fun p => { p with prev := 0, next := firstInQueue, xblockSize := 0 }

/-- `segment_span_free_coalesce_before`: the first slice of the merged span and its length. -/
def segmentSpanFreeCoalesceBefore (l : Local) (segment slice sliceCount : Nat) :
    (Nat × Nat) × Local :=
  if isGt0thSlice slice segment then
    let last := subOffset slice 1
    let page := calculatePagePtrSubtractOffset last (l.pages last).offset
    if (l.pages page).xblockSize = 0 then
      let nCount := (l.pages page).count
      ((page, sliceCount + nCount), spanQueueUnlink l (sliceBin nCount) page)
    else ((slice, sliceCount), l)
  else ((slice, sliceCount), l)

/-- The part of `segment_span_free_coalesce` that merges with the span after: the new length. -/
def segmentSpanFreeCoalesceAfter (l : Local) (segment slice : Nat) : Nat × Local :=
  let sliceCount := (l.pages slice).count
  let (page, lessThanEnd) := addOffsetAndCheck slice sliceCount segment
  if lessThanEnd ∧ (l.pages page).xblockSize = 0 then
    let nCount := (l.pages page).count
    (sliceCount + nCount, spanQueueUnlink l (sliceBin nCount) page)
  else (sliceCount, l)

/-- `segment_span_free_coalesce`. -/
def segmentSpanFreeCoalesce (l : Local) (slice : Nat) : Except Abort Local :=
  let segment := ptrSegment slice
  if (l.segs segment).threadId = 0 then .error .todo
  else if (l.segs segment).kind = .huge then .error .todo
  else
    let (sliceCount, l) := segmentSpanFreeCoalesceAfter l segment slice
    let ((slice, sliceCount), l) := segmentSpanFreeCoalesceBefore l segment slice sliceCount
    segmentSpanFree l segment (getIndex slice) sliceCount true

/-! ### Creating a segment -/

/-- `segment_calculate_slices`: the slices of the segment and those of its header. -/
def segmentCalculateSlices (required : Nat) : Nat × Nat :=
  let iSize := alignUp sizeofSegmentHeader osPageSize
  let guardsize := 0
  let jSize := alignUp (iSize + guardsize) sliceSize
  let infoSlices := jSize / sliceSize
  let size := if required = 0 then segmentSize else alignUp (required + jSize + guardsize) sliceSize
  (size / sliceSize, infoSlices)

/-- What `segment_os_alloc` returns. -/
structure SegmentMemory where
  segment : Nat
  commitMask : CommitMask
  memLarge : Bool
  isPinned : Bool

/-- `segment_os_alloc`. -/
def segmentOsAlloc (l : Local) (pageAlignment : Nat) (eagerDelay : Bool)
    (segmentSlices infoSlices : Nat) (requestCommit : Bool) :
    Except Abort (SegmentMemory × Local) := do
  if pageAlignment > 0 then throw .todo
  let size := segmentSlices * sliceSize
  let ((segment, commit, memLarge, isPinned), l) ←
    arenaAllocAligned l size segmentAlign 0 requestCommit (!eagerDelay)
  if segment = 0 then
    return ({ segment, commitMask := .empty, memLarge, isPinned }, l)
  let mask : CommitMask := if commit then .createFull else .createEmpty
  let needed := CommitMask.empty.create 0 infoSlices
  if !mask.allSet needed then
    let (success, l) := osCommit l segment (infoSlices * commitSize)
    if !success then
      return ({ segment := 0, commitMask := .empty, memLarge := false, isPinned := false }, l)
    return ({ segment, commitMask := mask.set needed, memLarge, isPinned }, l)
  return ({ segment, commitMask := mask, memLarge, isPinned }, l)

/-- The loop of `segment_alloc` that writes the page headers, one more than there are slices. -/
def initPageHeaders (segment : Nat) : Nat → Local → Local
  | 0, l => l
  | n + 1, l => initPageHeaders segment n (l.modifyPage (getPageHeaderPtr segment n) fun _ => {})

/-- The part of `segment_alloc` that writes the segment header and the page headers. -/
def segmentInit (l : Local) (memory : SegmentMemory) (required : Nat) : Local :=
  let segment := memory.segment
  let allowDecommit := optionAllowDecommit && !memory.isPinned && !memory.memLarge
  let l := l.modifySeg segment fun _ =>
    { memIsPinned := memory.isPinned
      allowDecommit
      decommitExpire := 0
      decommitMask := .empty
      commitMask := memory.commitMask
      abandoned := 0
      used := 0
      kind := if required = 0 then .normal else .huge
      threadId := l.heap.threadId }
  let l := { l with segments := segment :: l.segments }
  initPageHeaders segment (slicesPerSegment + 1) l

/-- `segment_alloc`. -/
def segmentAlloc (l : Local) (required pageAlignment : Nat) : Except Abort (Nat × Local) := do
  let (segmentSlices, infoSlices) := segmentCalculateSlices required
  let (threads, l) := currentThreadCount l
  let eagerDelay := decide (threads > 1) && decide (l.tld.count < optionEagerCommitDelay)
  let eager := !eagerDelay && optionEagerCommit
  let commit := eager || decide (required > 0)
  let (memory, l) ← segmentOsAlloc l pageAlignment eagerDelay segmentSlices infoSlices commit
  let segment := memory.segment
  if segment = 0 then return (0, l)
  let l := segmentInit l memory required
  let (success, l) := segmentSpanAllocate l segment (getPageHeaderPtr segment 0) 1
  if !success then throw .todo
  if (l.segs segment).used = 0 then throw .underflow
  let l := l.modifySeg segment fun m => { m with used := m.used - 1 }
  if required = 0 then
    let l ← segmentSpanFree l segment 1 (slicesPerSegment - 1) false
    return (segment, l)
  else throw .todo

/-! ### Allocating the span of a page -/

/-- `segments_page_alloc`, with `segment_reclaim_or_alloc`. -/
def segmentsPageAlloc : Nat → Local → Nat → Except Abort (Nat × Local)
  | 0, _, _ => .error .timeout
  | fuel + 1, l, required => do
      let alignment := if required > mediumPageSize then mediumPageSize else sliceSize
      let pageSize := alignUp required alignment
      let slicesNeeded := pageSize / sliceSize
      let (page, l) ← segmentsPageFindAndAllocate fuel l slicesNeeded
      if page = 0 then
        let (segment, l) ← segmentAlloc l 0 0
        if segment = 0 then return (0, l) else segmentsPageAlloc fuel l required
      else return (page, l)

/-- `segment_page_alloc`. -/
def segmentPageAlloc (fuel : Nat) (l : Local) (blockSize pageAlignment : Nat) :
    Except Abort (Nat × Local) :=
  if pageAlignment > alignmentMax then .error .todo
  else if blockSize ≤ smallObjSizeMax then segmentsPageAlloc fuel l blockSize
  else if blockSize ≤ mediumObjSizeMax then segmentsPageAlloc fuel l mediumPageSize
  else if blockSize ≤ largeObjSizeMax then segmentsPageAlloc fuel l blockSize
  else .error .todo

end VerusMimalloc
