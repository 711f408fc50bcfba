/-
**Collecting and extending the free list of a page.**

`page_free_collect` and `page_extend_free` of `alloc_generic.rs`, and the page a block belongs to.
-/

import VerusMimalloc.Model.Atomics
import VerusMimalloc.Model.Segment

namespace VerusMimalloc

open Library

/-- The page of a block, as `free` and `free_delayed_block` compute it. -/
def pageOfBlock (l : Local) (ptr : Nat) : Nat :=
  let segment := calculateSegmentPtrFromBlock ptr
  let slicePage := calculateSlicePagePtrFromBlock ptr segment
  calculatePagePtrSubtractOffset slicePage (l.pages slicePage).offset

/-! ### Collecting -/

/-- The page's word is empty, or its list was taken: the claimed block may go back. -/
def noteCollected (l : Local) (page : Nat) : Local :=
  { l with held := l.held.collect page (pageOfBlock l) }

/-- The load of `page_free_collect`: whether there is anything to take. -/
def loadNonempty (page : Nat) : P Bool :=
  .act fun s =>
    if (s.sh.xthreadFree page).word = 0 then .ok (false, { s with loc := noteCollected s.loc page })
    else .ok (true, s)

/-- `page_thread_free_collect`, with the `fetch_and(3)` of `ThreadLLWithDelayBits::take`. -/
def pageThreadFreeCollect (page : Nat) : P Unit :=
  .act fun s =>
    let ll := (s.sh.xthreadFree page).list
    let s := s.setThreadFree page { s.sh.xthreadFree page with list := [] }
    let l := noteCollected s.loc page
    if ll = [] then .ok ((), { s with loc := l })
    else if (l.pages page).used < ll.length then .error .underflow
    else
      .ok ((), { s with loc := l.modifyPage page fun p =>
        { p with localFree := ll ++ p.localFree, used := p.used - ll.length } })

/-- The part of `page_free_collect` that moves `local_free` to `free`. -/
def collectLocalFree (l : Local) (page : Nat) (force : Bool) : Local :=
  if (l.pages page).localFree = [] then l
  else if (l.pages page).free = [] then
    l.modifyPage page fun p => { p with free := p.localFree, localFree := [] }
  else if force then
    l.modifyPage page fun p => { p with free := p.localFree ++ p.free, localFree := [] }
  else l

/-- `page_free_collect`. -/
def pageFreeCollect (page : Nat) (force : Bool) : P Unit := do
  let nonempty ← if force then pure true else loadNonempty page
  if nonempty then pageThreadFreeCollect page else pure ()
  localUpdate fun l => collectLocalFree l page force

/-! ### Extending -/

/-- The nodes `prepend_contiguous_blocks` writes, from `block` up to the first one not below `last`. -/
def contiguousBlocks (last bsize : Nat) : Nat → Nat → List Nat
  | 0, block => [block]
  | n + 1, block =>
      if block < last then block :: contiguousBlocks last bsize n (block + bsize) else [block]

/-- `page_free_list_extend`. -/
def pageFreeListExtend (l : Local) (page bsize extend : Nat) : Local :=
  let capacity := (l.pages page).capacity
  let pagStart := calculatePageStart page bsize
  let start := calculatePageBlockAt pagStart bsize capacity
  let last := calculatePageBlockAt pagStart bsize (capacity + extend - 1)
  l.modifyPage page fun p =>
    { p with
      free := contiguousBlocks last bsize (last - start) start ++ p.free
      capacity := p.capacity + asU16 extend }

def minExtend : Nat := 4

def maxExtendSize : Nat := 4096

/-- `page_extend_free`. -/
def pageExtendFree (l : Local) (page : Nat) : Local :=
  let reserved := (l.pages page).reserved
  let capacity := (l.pages page).capacity
  if capacity ≥ reserved then l
  else
    let bsize := (l.pages page).xblockSize
    let maxExtend := if bsize ≥ maxExtendSize then minExtend else maxExtendSize / bsize
    let maxExtend := if maxExtend < minExtend then minExtend else maxExtend
    let extend := reserved - capacity
    let extend := if extend > maxExtend then maxExtend else extend
    pageFreeListExtend l page bsize extend

end VerusMimalloc
