/-
**Freeing.**

`free.rs`: a free by the owner, the delayed frees, and `free_block_mt` as the steps of a freeing
thread.
-/

import VerusMimalloc.Model.Page

namespace VerusMimalloc

open Library

/-! ### Frees by the owner -/

/-- `free.insert_block(ptr)` and the decrement of `used`: the new `used`. -/
def insertFree (l : Local) (page ptr : Nat) : Except Abort (Nat × Local) :=
  if (l.pages page).used = 0 then .error .underflow
  else
    let used := (l.pages page).used - 1
    let l := l.modifyPage page fun p => { p with free := ptr :: p.free, used := used }
    .ok (used, { l with held := .nothing })

/-- The last part of `page_free`, where the page is freed. -/
def pageFreeRest (fuel page : Nat) (freed : Bool) : P Unit :=
  if freed then segmentPageFree fuel page else pure ()

/-- `free_block` with `is_local`, and whether the page is freed. -/
def freeBlockLocal (l : Local) (page ptr : Nat) : Except Abort (Bool × Local) := do
  let (used, l) ← insertFree l page ptr
  if used = 0 then return pageRetire l page
  else if (l.pages page).getInFull then return (false, pageUnfull l page)
  else return (false, l)

/-- `free_block` with `is_local`. -/
def freeBlock (fuel page ptr : Nat) : P Unit := do
  let freed ← localStep fun l => freeBlockLocal l page ptr
  pageFreeRest fuel page freed

/-- `free_block_mt` called by the owner itself: the call goes on as one more freeing call. -/
def freeBlockMt (page ptr : Nat) : P Unit :=
  .act fun s => .ok ((),
    { loc := { s.loc with held := .nothing }
      sh := { s.sh with threads := { page, ptr, pc := .top } :: s.sh.threads } })

/-- `free_generic`. -/
def freeGeneric (fuel page : Nat) (isLocal : Bool) (ptr : Nat) : P Unit :=
  if isLocal then freeBlock fuel page ptr else freeBlockMt page ptr

/-- `free`. -/
def free (fuel ptr : Nat) : P Unit :=
  if ptr = 0 then pure ()
  else do
    let (page, isLocal, plain) ← localRead fun l =>
      let segment := calculateSegmentPtrFromBlock ptr
      let page := pageOfBlock l ptr
      (page, decide (l.heap.threadId = (l.segs segment).threadId), (l.pages page).notFullNorAligned)
    if isLocal then
      if plain then do
        let freed ← localStep fun l => do
          let (used, l) ← insertFree l page ptr
          if used = 0 then return pageRetire l page else return (false, l)
        pageFreeRest fuel page freed
      else freeGeneric fuel page true ptr
    else freeGeneric fuel page false ptr

/-! ### Delayed frees -/

/-- `page_try_use_delayed_free`. -/
def pageTryUseDelayedFree (fuel page : Nat) (delay : DelayState) (overrideNever : Bool) : P Bool :=
  tryUseDelayedFree fuel page delay overrideNever

/-- `free_delayed_block`. -/
def freeDelayedBlock (fuel ptr : Nat) : P Bool := do
  let page ← localRead fun l => pageOfBlock l ptr
  let ok ← pageTryUseDelayedFree fuel page .useDelayedFree false
  if ok then do
    pageFreeCollect page false
    freeBlock fuel page ptr
    pure true
  else pure false

/-- `ll.pop_block()` of `heap_delayed_free_partial`. -/
def popTaken (l : Local) : Option Nat × Local :=
  match l.taken with
  | [] => (none, l)
  | block :: rest => (some block, { l with taken := rest, held := .popped block })

/-- One round of the loop of `heap_delayed_free_partial`. -/
def delayedRound (fuel heap : Nat) (allFreed : Bool) : P (Bool ⊕ Bool) := do
  let popped ← localStep fun l => .ok (popTaken l)
  match popped with
  | none => pure (.inr allFreed)
  | some ptr => do
      let success ← freeDelayedBlock fuel ptr
      if success then pure (.inl allFreed)
      else do
        atomicInsertBlock fuel heap ptr
        pure (.inl false)

/-- `heap_delayed_free_partial`. -/
def heapDelayedFreePartial (fuel : Nat) : P Bool := do
  let heap ← localRead fun l => l.heap.heapPtr
  takeDelayed heap
  .loop .timeout (delayedRound fuel heap) fuel true

/-! ### Frees by other threads -/

/-- A weak compare-exchange of a freeing thread may fail whatever the word is, so that `casFail` and
`delayedCasFail` have no condition. -/
inductive RemoteStep (l : Local) : Shared → Shared → Prop where
  /-- `free(ptr)` by another thread: it takes a live block and computes its page. -/
  | begin (sh : Shared) (before after : List (Nat × Nat)) (ptr size : Nat) :
      sh.live = before ++ (ptr, size) :: after →
      RemoteStep l sh { sh with
        live := before ++ after
        threads := { page := pageOfBlock l ptr, ptr, pc := .top } :: sh.threads }
  /-- `pag.xthread_free.atomic.load()`. -/
  | load (sh : Shared) (before after : List RemoteFree) (page ptr : Nat) :
      sh.threads = before ++ { page, ptr, pc := .top } :: after →
      RemoteStep l sh { sh with
        threads := before ++ { page, ptr, pc := .loaded (sh.xthreadFree page).word } :: after }
  | casFail (sh : Shared) (before after : List RemoteFree) (page ptr mask : Nat) :
      sh.threads = before ++ { page, ptr, pc := .loaded mask } :: after →
      RemoteStep l sh { sh with threads := before ++ { page, ptr, pc := .top } :: after }
  /-- The compare-exchange to `masked_ptr_delay_set_freeing(mask)`. -/
  | casFreeing (sh : Shared) (before after : List RemoteFree) (page ptr mask : Nat) :
      sh.threads = before ++ { page, ptr, pc := .loaded mask } :: after →
      (sh.xthreadFree page).word = mask → mask % 4 = 0 →
      RemoteStep l sh { sh with
        xthreadFree := fun a =>
          if a = page then { sh.xthreadFree page with delay := .freeing } else sh.xthreadFree a
        threads := before ++ { page, ptr, pc := .freeing } :: after }
  /-- The compare-exchange to `masked_ptr_delay_set_ptr(mask, ptr)`: the call returns. -/
  | casPush (sh : Shared) (before after : List RemoteFree) (page ptr mask : Nat) :
      sh.threads = before ++ { page, ptr, pc := .loaded mask } :: after →
      (sh.xthreadFree page).word = mask → mask % 4 ≠ 0 →
      RemoteStep l sh { sh with
        xthreadFree := fun a =>
          if a = page then
            { sh.xthreadFree page with list := ptr :: (sh.xthreadFree page).list }
          else sh.xthreadFree a
        threads := before ++ after }
  /-- `pag.xheap.atomic.load()`. -/
  | loadHeap (sh : Shared) (before after : List RemoteFree) (page ptr : Nat) :
      sh.threads = before ++ { page, ptr, pc := .freeing } :: after →
      RemoteStep l sh { sh with
        threads := before ++ { page, ptr, pc := .gotHeap (l.pages page).xheap } :: after }
  /-- The load of `atomic_insert_block`. -/
  | delayedLoad (sh : Shared) (before after : List RemoteFree) (page ptr heap : Nat) :
      sh.threads = before ++ { page, ptr, pc := .gotHeap heap } :: after →
      RemoteStep l sh { sh with
        threads := before ++
          { page, ptr, pc := .inserting heap ((sh.threadDelayedFree heap).headD 0) } :: after }
  | delayedCasFail (sh : Shared) (before after : List RemoteFree) (page ptr heap next : Nat) :
      sh.threads = before ++ { page, ptr, pc := .inserting heap next } :: after →
      RemoteStep l sh { sh with threads := before ++ { page, ptr, pc := .gotHeap heap } :: after }
  /-- The compare-exchange of `atomic_insert_block`. -/
  | delayedCasPush (sh : Shared) (before after : List RemoteFree) (page ptr heap next : Nat) :
      sh.threads = before ++ { page, ptr, pc := .inserting heap next } :: after →
      (sh.threadDelayedFree heap).headD 0 = next →
      RemoteStep l sh { sh with
        threadDelayedFree := fun a =>
          if a = heap then ptr :: sh.threadDelayedFree heap else sh.threadDelayedFree a
        threads := before ++ { page, ptr, pc := .pushed } :: after }
  /-- `pag.xthread_free.atomic.fetch_xor(3)`: the call returns. -/
  | leave (sh : Shared) (before after : List RemoteFree) (page ptr : Nat) :
      sh.threads = before ++ { page, ptr, pc := .pushed } :: after →
      RemoteStep l sh { sh with
        xthreadFree := fun a =>
          if a = page then
            { sh.xthreadFree page with delay := (sh.xthreadFree page).delay.xorThree }
          else sh.xthreadFree a
        threads := before ++ after }

end VerusMimalloc
