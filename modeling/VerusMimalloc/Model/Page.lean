/-
**Pages: finding a free one, the full queue, and giving one back.**

`page.rs`, and `segment_page_free` and `segment_page_clear` of `segment.rs`, which end the life of a
page.
-/

import VerusMimalloc.Model.AllocGeneric
import VerusMimalloc.Model.Queues

namespace VerusMimalloc

open Library

/-! ### Fresh pages -/

/-- `page_init`. The word of the page is null already, so that enabling it writes nothing. -/
def pageInit (l : Local) (page blockSize : Nat) : Local :=
  let count := (l.pages page).count
  let startOffs := calculateStartOffset blockSize
  let pageSize := count * sliceSize - startOffs
  let l := l.modifyPage page fun p =>
    { p with
      xheap := l.heap.heapPtr
      xblockSize := asU32 blockSize
      reserved := asU16 (pageSize / blockSize) }
  pageExtendFree l page

/-- `page_fresh`, with `page_fresh_alloc`. -/
def pageFresh (fuel : Nat) (l : Local) (pq : Nat) : Except Abort (Nat × Local) := do
  let blockSize := (l.heap.pages pq).blockSize
  let (page, l) ← segmentPageAlloc fuel l blockSize 0
  if page = 0 then return (0, l)
  else return (page, pageQueuePush (pageInit l page blockSize) pq page)

/-! ### The full queue -/

/-- `page_to_full`. -/
def pageToFull (page pq : Nat) : P Unit := do
  localUpdate fun l => pageQueueEnqueueFrom l binFull pq page
  pageFreeCollect page false

/-- `page_unfull`. -/
def pageUnfull (l : Local) (page : Nat) : Local :=
  pageQueueEnqueueFrom l (bin (l.pages page).xblockSize) binFull page

/-! ### Finding a page -/

/-- One page of the walk of `page_queue_find_free_ex`. -/
def findFreeRound (pq page : Nat) : P (Nat ⊕ Nat) :=
  if page = 0 then pure (.inr 0)
  else do
    let next ← localRead fun l => (l.pages page).next
    pageFreeCollect page false
    let found ← localStep fun l =>
      if (l.pages page).free ≠ [] then .ok (true, l)
      else if (l.pages page).capacity < (l.pages page).reserved then .ok (true, pageExtendFree l page)
      else .ok (false, l)
    if found then pure (.inr page)
    else do
      pageToFull page pq
      pure (.inl next)

/-- `page_queue_find_free_ex` with what it does when no page is found and none can be made. -/
def pageQueueFindFree (fuel pq : Nat) (again : P Nat) : P Nat := do
  let first ← localRead fun l => (l.heap.pages pq).first
  let page ← .loop .timeout (findFreeRound pq) fuel first
  if page = 0 then do
    let fresh ← osStep fun l => pageFresh fuel l pq
    if fresh = 0 then again else pure fresh
  else do
    localUpdate fun l => l.modifyPage page fun p => p.setRetireExpire 0
    pure page

/-- `page_queue_find_free_ex`. -/
def pageQueueFindFreeEx (fuel pq : Nat) (firstTry : Bool) : P Nat :=
  pageQueueFindFree fuel pq (if firstTry then pageQueueFindFree fuel pq (pure 0) else pure 0)

/-- `find_free_page`. -/
def findFreePage (fuel size : Nat) : P Nat := do
  let pq := bin size
  let page ← localRead fun l => (l.heap.pages pq).first
  if page = 0 then pageQueueFindFreeEx fuel pq true
  else do
    pageFreeCollect page false
    let nonempty ← localRead fun l => decide ((l.pages page).free ≠ [])
    if nonempty then pure page else pageQueueFindFreeEx fuel pq true

/-- `find_page`. -/
def findPage (fuel size hugeAlignment : Nat) : P Nat :=
  if size > mediumObjSizeMax ∨ hugeAlignment > 0 then
    if size > maxAllocSize then pure 0 else .fail .todo
  else findFreePage fuel size

/-! ### Giving a page back -/

/-- The part of `segment_page_clear` before `check_is_good`. -/
def segmentPageClearHeader (l : Local) (page : Nat) : Except Abort Local :=
  let segment := ptrSegment page
  if !(l.segs segment).memIsPinned && !(l.pages page).getIsReset && optionPageReset then
    .error .todo
  else
    .ok (l.modifyPage page fun p =>
      { p.setIsZeroInit false with
        capacity := 0
        reserved := 0
        free := []
        flags1 := 0
        flags2 := 0
        used := 0
        xblockSize := 0
        localFree := [] })

/-- The end of `segment_page_clear`. -/
def segmentPageClearSpan (l : Local) (page : Nat) : Except Abort Local := do
  let segment := ptrSegment page
  let l ← segmentSpanFreeCoalesce l page
  if (l.segs segment).used = 0 then throw .underflow
  return l.modifySeg segment fun m => { m with used := m.used - 1 }

/-- `segment_page_clear`. Its `disable` of the page's word writes null; that of `xheap` writes nothing. -/
def segmentPageClear (fuel page : Nat) : P Unit := do
  localStep fun l => do
    let l ← segmentPageClearHeader l page
    return ((), { l with held := .destroying page })
  checkIsGood fuel page
  .act fun s => .ok ((), s.setThreadFree page { list := [], delay := .useDelayedFree })
  osStep fun l => do
    let l ← segmentPageClearSpan l page
    return ((), { l with held := .nothing })

/-- `segment_page_free`; `segment_free` is one `todo()`. -/
def segmentPageFree (fuel page : Nat) : P Unit := do
  let segment := ptrSegment page
  segmentPageClear fuel page
  localStep fun l =>
    if (l.segs segment).used = 0 then .error .segmentFree
    else if (l.segs segment).used = (l.segs segment).abandoned then .error .todo
    else .ok ((), l)

/-- `page_free` up to its call of `segment_page_free`. -/
def pageFree (l : Local) (page pq : Nat) : Local :=
  { pageQueueRemove (l.modifyPage page fun p => p.setHasAligned false) pq page with
    held := .unlinked page }

/-- `page_free`, to its end. -/
def pageFreeCall (fuel page pq : Nat) : P Unit := do
  localUpdate fun l => pageFree l page pq
  segmentPageFree fuel page

def retireCycles : Nat := 8

/-- The part of `page_retire` that keeps the only page of its queue. -/
def retireOnly (l : Local) (page pq : Nat) : Local :=
  let cycles := if (l.pages page).xblockSize ≤ smallObjSizeMax then retireCycles else retireCycles / 4
  let l := l.modifyPage page fun p => p.setRetireExpire (.ofNat 8 (1 + cycles))
  { l with
    heap := { l.heap with
      pageRetiredMin := if pq < l.heap.pageRetiredMin then pq else l.heap.pageRetiredMin
      pageRetiredMax := if pq > l.heap.pageRetiredMax then pq else l.heap.pageRetiredMax } }

def maxRetireSize : Nat := mediumObjSizeMax

/-- `page_retire`, and whether the page is freed: then `segment_page_free` is still to be called. -/
def pageRetire (l : Local) (page : Nat) : Bool × Local :=
  let pq := pageQueueOf l page
  if ((l.pages page).xblockSize ≤ maxRetireSize ∧ ¬(l.heap.pages pq).blockSize > mediumObjSizeMax) ∧
      (l.heap.pages pq).last = page ∧ (l.heap.pages pq).first = page then
    (false, retireOnly l page pq)
  else (true, pageFree l page pq)

end VerusMimalloc
