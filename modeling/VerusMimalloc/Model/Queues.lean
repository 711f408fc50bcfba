/-
**Page queues of the heap.**

`queues.rs`: linking and unlinking pages, and the table for small sizes.
-/

import VerusMimalloc.Model.BinSizes
import VerusMimalloc.Model.Types

namespace VerusMimalloc

/-- `HeapPtr::set_page_count`. -/
def setPageCount (l : Local) (count : Nat) : Local :=
  { l with heap := { l.heap with pageCount := count } }

/-- The loop of `heap_queue_first_update`, over `n` entries from `start` on. -/
def setDirect (pagePtr start : Nat) : Nat → Local → Local
  | 0, l => l
  | n + 1, l =>
      let l := setDirect pagePtr start n l
      { l with heap := { l.heap with
          pagesFreeDirect := fun i => if i = start + n then pagePtr else l.heap.pagesFreeDirect i } }

/-- `heap_queue_first_update`. -/
def heapQueueFirstUpdate (l : Local) (pq : Nat) : Local :=
  let size := (l.heap.pages pq).blockSize
  if size > smallSizeMax then l
  else
    let first := (l.heap.pages pq).first
    let pagePtr := if first = 0 then l.heap.pageEmptyPtr else first
    let idx := size / 8
    if l.heap.pagesFreeDirect idx = pagePtr then l
    else
      let start := if idx ≤ 1 then 0 else 1 + (l.heap.pages (pq - 1)).blockSize / 8
      setDirect pagePtr start (idx + 1 - start) l

/-- `page_queue_remove`. -/
def pageQueueRemove (l : Local) (pq page : Nat) : Local :=
  let prev := (l.pages page).prev
  let next := (l.pages page).next
  let l := if prev ≠ 0 then l.modifyPage prev fun p => { p with next := next } else l
  let l := if next ≠ 0 then l.modifyPage next fun p => { p with prev := prev } else l
  let l := l.modifyQueue pq fun q =>
    { q with
      last := if next = 0 then prev else q.last
      first := if prev = 0 then next else q.first }
  let l := if prev = 0 then heapQueueFirstUpdate l pq else l
  setPageCount l ((l.heap.pageCount + 2 ^ 64 - 1) % 2 ^ 64)

/-- `page_queue_push`. -/
def pageQueuePush (l : Local) (pq page : Nat) : Local :=
  let l := l.modifyPage page fun p => p.setInFull (pq == binFull)
  let firstInQueue := (l.heap.pages pq).first
  let l := l.modifyQueue pq fun q =>
    { q with first := page, last := if firstInQueue = 0 then page else q.last }
  let l :=
    if firstInQueue ≠ 0 then l.modifyPage firstInQueue fun p => { p with prev := page } else l
  let l := l.modifyPage page fun p => { p with prev := 0, next := firstInQueue }
  let l := heapQueueFirstUpdate l pq
  setPageCount l ((l.heap.pageCount + 1) % 2 ^ 64)

/-- `page_queue_push_back`. -/
def pageQueuePushBack (l : Local) (pq page : Nat) : Local :=
  let l := l.modifyPage page fun p => p.setInFull (pq == binFull)
  let lastInQueue := (l.heap.pages pq).last
  let l := l.modifyQueue pq fun q =>
    { q with last := page, first := if lastInQueue = 0 then page else q.first }
  let l := l.modifyPage page fun p => { p with next := 0, prev := lastInQueue }
  let l :=
    if lastInQueue ≠ 0 then l.modifyPage lastInQueue fun p => { p with next := page } else l
  let l := if lastInQueue = 0 then heapQueueFirstUpdate l pq else l
  setPageCount l ((l.heap.pageCount + 1) % 2 ^ 64)

/-- `page_queue_enqueue_from`. -/
def pageQueueEnqueueFrom (l : Local) (target source page : Nat) : Local :=
  pageQueuePushBack (pageQueueRemove l source page) target page

/-- `page_queue_of`: the queue of the page's own heap. -/
def pageQueueOf (l : Local) (page : Nat) : Nat :=
  if (l.pages page).getInFull then binFull else bin (l.pages page).xblockSize

end VerusMimalloc
