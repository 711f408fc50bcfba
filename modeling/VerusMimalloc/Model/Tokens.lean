/-
**The token machine.**

`tokens.rs`: the state of the machine `Mim`, whose tokens the threads hold, and its transitions and
properties, statement by statement. `remove` and `have` ask for tokens, `require` for what the
caller promises; `add`, `deposit`, `withdraw`, `guard`, `assert` and an index seen by bird's eye are
what the machine has to keep. What is stored for sharing is compared and never looked into.
-/

import VerusMimalloc.Library.Tokens
import VerusMimalloc.Model.Ids
import VerusMimalloc.Model.Types
import Mathlib.Data.Finset.Fold
import Mathlib.Order.Interval.Finset.Nat

namespace VerusMimalloc.Mim

open Library (FMap Action Field)

/-! ### Identifiers -/

structure HeapId (P : Type) where
  id : Nat
  provenance : P
  uniq : Int
  deriving DecidableEq

/-- `slice_idx` is the slice that the block starts in, counted in the segment. -/
structure BlockId (P : Type) where
  pageId : PageId P
  idx : Nat
  sliceIdx : Nat
  blockSize : Nat
  deriving DecidableEq

structure ThreadId where
  threadId : UInt64
  deriving DecidableEq

/-- `PageId::range_from`. -/
def rangeFrom {P : Type} [DecidableEq P] (pageId : PageId P) (lo hi : Int) : Finset (PageId P) :=
  (Finset.range (hi - lo).toNat).image fun k : Nat =>
    ⟨pageId.segmentId, (pageId.idx + lo + k).toNat⟩

namespace BlockId

variable {P : Type}

def pageIdForSlice (b : BlockId P) : PageId P := ⟨b.pageId.segmentId, b.sliceIdx⟩

def getSliceIdx (pageId : PageId P) (idx blockSize : Nat) : Nat :=
  pageId.idx + (calculateStartOffset blockSize + idx * blockSize) / sliceSize

def sliceIdxIsRight (b : BlockId P) : Prop :=
  b.sliceIdx = getSliceIdx b.pageId b.idx b.blockSize

end BlockId

/-- `range_block_ids`. -/
def rangeBlockIds {P : Type} [DecidableEq P] (lo hi : Nat) (pageId : PageId P) (blockSize : Nat) :
    Finset (BlockId P) :=
  (Finset.Ico lo hi).image fun idx => ⟨pageId, idx, BlockId.getSliceIdx pageId idx blockSize, blockSize⟩

/-- `segment_u_max`. -/
def segmentUMax {P : Type} (s : Finset (SegmentId P)) : Int := s.fold max 0 SegmentId.uniq

/-- `segment_get_unused_uniq_field`. -/
def segmentGetUnusedUniqField {P : Type} (s : Finset (SegmentId P)) : Int := segmentUMax s + 1

/-- `heap_u_max`. -/
def heapUMax {P : Type} (s : Finset (HeapId P)) : Int := s.fold max 0 HeapId.uniq

/-- `heap_get_unused_uniq_field`. -/
def heapGetUnusedUniqField {P : Type} (s : Finset (HeapId P)) : Int := heapUMax s + 1

/-! ### Contents of the tokens -/

/-- What the machine stores or compares, and `HeapSharedAccess::wf2`. -/
structure Accesses where
  Provenance : Type
  InstanceId : Type
  SegmentSharedAccess : Type
  PageSharedAccess : Type
  HeapSharedAccess : Type
  null : Provenance
  wf2 : HeapSharedAccess → HeapId Provenance → InstanceId → Bool
  decProvenance : DecidableEq Provenance
  decInstanceId : DecidableEq InstanceId
  decSegment : DecidableEq SegmentSharedAccess
  decPage : DecidableEq PageSharedAccess
  decHeap : DecidableEq HeapSharedAccess

variable {A : Accesses}

instance : DecidableEq A.Provenance := A.decProvenance
instance : DecidableEq A.InstanceId := A.decInstanceId
instance : DecidableEq A.SegmentSharedAccess := A.decSegment
instance : DecidableEq A.PageSharedAccess := A.decPage
instance : DecidableEq A.HeapSharedAccess := A.decHeap

structure PageState (A : Accesses) where
  offset : Int
  blockSize : Nat
  numBlocks : Nat
  sharedAccess : A.PageSharedAccess
  isEnabled : Bool
  deriving DecidableEq

structure SegmentState (A : Accesses) where
  sharedAccess : A.SegmentSharedAccess
  isEnabled : Bool
  deriving DecidableEq

/-- The shared accesses that the block guards, and the heap once it is known. -/
structure BlockState (A : Accesses) where
  segmentSharedAccess : A.SegmentSharedAccess
  pageSharedAccess : A.PageSharedAccess
  pageSliceSharedAccess : A.PageSharedAccess
  heapId : Option (HeapId A.Provenance)
  deriving DecidableEq

structure HeapState (A : Accesses) where
  sharedAccess : A.HeapSharedAccess
  deriving DecidableEq

structure ThreadState (A : Accesses) where
  heapId : HeapId A.Provenance
  heap : HeapState A
  segments : FMap (SegmentId A.Provenance) (SegmentState A)
  pages : FMap (PageId A.Provenance) (PageState A)

structure ThreadCheckedState (A : Accesses) where
  pages : Finset (PageId A.Provenance)

inductive Actor where
  | idle
  | abandoned
  deriving DecidableEq

inductive DelayFreeingActor (A : Accesses) where
  | heapUnknown
  | heap (heapId : HeapId A.Provenance) (hsa : A.HeapSharedAccess) (psa : A.PageSharedAccess)

/-! ### The state -/

/-- The shards of `Mim`. `right_to_use_thread` starts as the set of all threads, so it is given by
its membership test. -/
structure State (A : Accesses) where
  rightToSetInst : Bool
  myInst : Option A.InstanceId
  threadLocalState : FMap ThreadId (ThreadState A)
  rightToUseThread : ThreadId → Bool
  block : FMap (BlockId A.Provenance) (BlockState A)
  threadOfSegment : FMap (SegmentId A.Provenance) ThreadId
  delay : FMap (PageId A.Provenance) DelayState
  heapOfPage : FMap (PageId A.Provenance) (HeapId A.Provenance)
  actor : FMap ThreadId Actor
  delayActor : FMap (PageId A.Provenance) (DelayFreeingActor A)
  segmentSharedAccess : FMap (SegmentId A.Provenance) A.SegmentSharedAccess
  pageSharedAccess : FMap (PageId A.Provenance) A.PageSharedAccess
  heapSharedAccess : FMap (HeapId A.Provenance) A.HeapSharedAccess
  reservedUniq : Finset (HeapId A.Provenance)
  threadCheckedState : FMap ThreadId (ThreadCheckedState A)
  heapToThread : FMap (HeapId A.Provenance) ThreadId

namespace Shard

def threadLocalState : Field (State A) (FMap ThreadId (ThreadState A)) :=
  ⟨State.threadLocalState, fun m s => { s with threadLocalState := m }⟩

def block : Field (State A) (FMap (BlockId A.Provenance) (BlockState A)) :=
  ⟨State.block, fun m s => { s with block := m }⟩

def threadOfSegment : Field (State A) (FMap (SegmentId A.Provenance) ThreadId) :=
  ⟨State.threadOfSegment, fun m s => { s with threadOfSegment := m }⟩

def delay : Field (State A) (FMap (PageId A.Provenance) DelayState) :=
  ⟨State.delay, fun m s => { s with delay := m }⟩

def heapOfPage : Field (State A) (FMap (PageId A.Provenance) (HeapId A.Provenance)) :=
  ⟨State.heapOfPage, fun m s => { s with heapOfPage := m }⟩

def actor : Field (State A) (FMap ThreadId Actor) :=
  ⟨State.actor, fun m s => { s with actor := m }⟩

def delayActor : Field (State A) (FMap (PageId A.Provenance) (DelayFreeingActor A)) :=
  ⟨State.delayActor, fun m s => { s with delayActor := m }⟩

def segmentSharedAccess :
    Field (State A) (FMap (SegmentId A.Provenance) A.SegmentSharedAccess) :=
  ⟨State.segmentSharedAccess, fun m s => { s with segmentSharedAccess := m }⟩

def pageSharedAccess : Field (State A) (FMap (PageId A.Provenance) A.PageSharedAccess) :=
  ⟨State.pageSharedAccess, fun m s => { s with pageSharedAccess := m }⟩

def heapSharedAccess : Field (State A) (FMap (HeapId A.Provenance) A.HeapSharedAccess) :=
  ⟨State.heapSharedAccess, fun m s => { s with heapSharedAccess := m }⟩

def threadCheckedState : Field (State A) (FMap ThreadId (ThreadCheckedState A)) :=
  ⟨State.threadCheckedState, fun m s => { s with threadCheckedState := m }⟩

def rightToSetInst : Field (State A) Bool :=
  ⟨State.rightToSetInst, fun b s => { s with rightToSetInst := b }⟩

def myInst : Field (State A) (Option A.InstanceId) :=
  ⟨State.myInst, fun inst s => { s with myInst := inst }⟩

def rightToUseThread : Field (State A) (ThreadId → Bool) :=
  ⟨State.rightToUseThread, fun f s => { s with rightToUseThread := f }⟩

def reservedUniq : Field (State A) (Finset (HeapId A.Provenance)) :=
  ⟨State.reservedUniq, fun u s => { s with reservedUniq := u }⟩

def heapToThread : Field (State A) (FMap (HeapId A.Provenance) ThreadId) :=
  ⟨State.heapToThread, fun m s => { s with heapToThread := m }⟩

end Shard

/-- `initialize`. -/
def initialState : State A where
  rightToSetInst := true
  myInst := none
  threadLocalState := ∅
  rightToUseThread := fun _ => true
  block := ∅
  threadOfSegment := ∅
  delay := ∅
  heapOfPage := ∅
  actor := ∅
  delayActor := ∅
  segmentSharedAccess := ∅
  pageSharedAccess := ∅
  heapSharedAccess := ∅
  reservedUniq := ∅
  threadCheckedState := ∅
  heapToThread := ∅

/-! ### What transitions and properties share -/

/-- `have my_inst >= Some(let inst)`. -/
def haveInst : Action (State A) A.InstanceId := do
  let pre ← Action.pre
  match pre.myInst with
  | some inst => pure inst
  | none => throw .notEnabled

/-- `have delay_actor >= [page_id => let DelayFreeingActor::Heap(heap_id, hsa, psa)]`. -/
def haveHeapActor (pageId : PageId A.Provenance) :
    Action (State A) (HeapId A.Provenance × A.HeapSharedAccess × A.PageSharedAccess) := do
  match ← Action.holds Shard.delayActor pageId with
  | .heap heapId hsa psa => pure (heapId, hsa, psa)
  | .heapUnknown => throw .notEnabled

/-- `mk_fresh_segment_id`. -/
def mkFreshSegmentId (tos : FMap (SegmentId A.Provenance) ThreadId) (sid : SegmentId A.Provenance) :
    SegmentId A.Provenance :=
  { id := sid.id, provenance := sid.provenance, uniq := segmentGetUnusedUniqField tos.keys }

/-- `okay_to_add_block`. -/
def okayToAddBlock (ts : ThreadState A) (pageId : PageId A.Provenance) (idx blockSize : Nat) : Bool :=
  let sliceId : PageId A.Provenance :=
    ⟨pageId.segmentId, BlockId.getSliceIdx pageId idx blockSize⟩
  (ts.pages.lookup sliceId).any fun slice =>
    slice.isEnabled && slice.offset == (sliceId.idx : Int) - pageId.idx

/-- `block_properties`. -/
def blockProperties (ts : ThreadState A) (blockId : BlockId A.Provenance) (blockState : BlockState A) :
    Bool :=
  let sliceId := blockId.pageIdForSlice
  ((ts.pages.lookup blockId.pageId).any fun page =>
      page.isEnabled && page.offset == 0 && page.blockSize == blockId.blockSize
        && page.sharedAccess == blockState.pageSharedAccess && blockId.idx < page.numBlocks)
    && ((ts.pages.lookup sliceId).any fun slice =>
      slice.isEnabled && slice.sharedAccess == blockState.pageSliceSharedAccess
        && (sliceId.idx : Int) - blockId.pageId.idx == slice.offset)
    && ((ts.segments.lookup blockId.pageId.segmentId).any fun segment =>
      segment.isEnabled && segment.sharedAccess == blockState.segmentSharedAccess)
    && blockState.heapId.all fun heapId => heapId == ts.heapId

/-! ### Transitions -/

open Library.Action

def setInst (inst : A.InstanceId) : Action (State A) Unit := do
  let pre ← pre
  require (pre.rightToSetInst = true)
  replace Shard.rightToSetInst false
  assert (pre.myInst = none ∨ pre.myInst = some inst)
  replace Shard.myInst (some inst)

def actorMakeIdle (threadId : ThreadId) : Action (State A) Unit := do
  let actor ← remove Shard.actor threadId
  require (actor ≠ .abandoned)
  add Shard.actor threadId .idle

def actorAbandon (threadId : ThreadId) : Action (State A) Unit := do
  let _ ← remove Shard.actor threadId
  add Shard.actor threadId .abandoned

def setUseDelayedFree (pageId : PageId A.Provenance) : Action (State A) Unit := do
  let state ← remove Shard.delay pageId
  require (state = .noDelayedFree)
  add Shard.delay pageId .useDelayedFree

def delayEnterFreeing (pageId : PageId A.Provenance) (blockId : BlockId A.Provenance) :
    Action (State A) Unit := do
  let state ← remove Shard.delay pageId
  require (state = .useDelayedFree)
  add Shard.delay pageId .freeing
  require (blockId.pageId = pageId)
  let _ ← holds Shard.block blockId
  add Shard.delayActor pageId .heapUnknown

def delayLeaveFreeing (pageId : PageId A.Provenance) : Action (State A) Unit := do
  let prevState ← remove Shard.delay pageId
  add Shard.delay pageId .noDelayedFree
  let _ ← remove Shard.delayActor pageId
  assert (prevState = .freeing)

def delayLookupHeap (blockId : BlockId A.Provenance) : Action (State A) Unit := do
  let heapId ← holds Shard.heapOfPage blockId.pageId
  let blockState ← holds Shard.block blockId
  let inst ← haveInst
  let _ ← remove Shard.delayActor blockId.pageId
  let hsa ← index Shard.heapSharedAccess heapId
  let psa := blockState.pageSharedAccess
  add Shard.delayActor blockId.pageId (.heap heapId hsa psa)
  assert (A.wf2 hsa heapId inst = true)

def blockSetHeapId (blockId : BlockId A.Provenance) : Action (State A) Unit := do
  let (heapId, _, _) ← haveHeapActor blockId.pageId
  let blockState ← remove Shard.block blockId
  add Shard.block blockId { blockState with heapId := some heapId }

def reserveUniqIdentifier : Action (State A) Unit := do
  let pre ← pre
  let u := heapGetUnusedUniqField (pre.heapSharedAccess.keys ∪ pre.reservedUniq)
  assert (⟨0, A.null, u⟩ ∉ pre.reservedUniq)
  replace Shard.reservedUniq (insert ⟨0, A.null, u⟩ pre.reservedUniq)

def createThreadMkTokens (threadId : ThreadId) (threadState : ThreadState A) :
    Action (State A) Unit := do
  let pre ← pre
  require (pre.rightToUseThread threadId = true)
  replace Shard.rightToUseThread (Function.update pre.rightToUseThread threadId false)
  require (⟨0, A.null, threadState.heapId.uniq⟩ ∈ pre.reservedUniq)
  replace Shard.reservedUniq (pre.reservedUniq.erase ⟨0, A.null, threadState.heapId.uniq⟩)
  require (threadState.pages.keys = ∅)
  require (threadState.segments.keys = ∅)
  let inst ← haveInst
  require (A.wf2 threadState.heap.sharedAccess threadState.heapId inst = true)
  add Shard.heapSharedAccess threadState.heapId threadState.heap.sharedAccess
  replace Shard.heapToThread (pre.heapToThread.insert threadState.heapId threadId)
  add Shard.threadLocalState threadId threadState
  add Shard.threadCheckedState threadId ⟨∅⟩

def createSegmentMkTokens (threadId : ThreadId) (preSegmentId : SegmentId A.Provenance)
    (segmentState : SegmentState A) : Action (State A) Unit := do
  let pre ← pre
  require (segmentState.isEnabled = false)
  let ts ← remove Shard.threadLocalState threadId
  let realSegmentId := mkFreshSegmentId pre.threadOfSegment preSegmentId
  assert (realSegmentId ∉ ts.segments)
  assert (preSegmentId.id = realSegmentId.id ∧ preSegmentId.provenance = realSegmentId.provenance)
  add Shard.threadLocalState threadId
    { ts with segments := ts.segments.insert realSegmentId segmentState }
  add Shard.threadOfSegment realSegmentId threadId

def segmentEnable (threadId : ThreadId) (segmentId : SegmentId A.Provenance)
    (sharedAccess : A.SegmentSharedAccess) : Action (State A) Unit := do
  let ts ← remove Shard.threadLocalState threadId
  let segment ← entry ts.segments segmentId
  require (segment.isEnabled = false)
  add Shard.threadLocalState threadId
    { ts with segments := ts.segments.insert segmentId ⟨sharedAccess, true⟩ }
  add Shard.segmentSharedAccess segmentId sharedAccess

def createPageMkTokens (threadId : ThreadId) (pageId : PageId A.Provenance) (nSlices blockSize : Nat)
    (pageMap : FMap (PageId A.Provenance) (PageState A)) : Action (State A) Unit := do
  let ts ← remove Shard.threadLocalState threadId
  let segment ← entry ts.segments pageId.segmentId
  require (segment.isEnabled = true)
  require (pageMap.keys = rangeFrom pageId 0 nSlices)
  require (FMap.All pageMap fun pid page => page.offset + pageId.idx = pid.idx)
  require (FMap.All pageMap fun _ page => page.isEnabled = false)
  require (FMap.All pageMap fun _ page => page.numBlocks = 0)
  let page ← entry pageMap pageId
  require (page.blockSize = blockSize)
  require (Disjoint ts.pages.keys pageMap.keys)
  add Shard.threadLocalState threadId { ts with pages := pageMap ∪ ts.pages }
  add Shard.heapOfPage pageId ts.heapId
  add Shard.delay pageId .useDelayedFree

def pageEnable (threadId : ThreadId) (pageId : PageId A.Provenance) (nSlices : Nat)
    (pageMap : FMap (PageId A.Provenance) (PageState A))
    (psaMap : FMap (PageId A.Provenance) A.PageSharedAccess) : Action (State A) Unit := do
  let ts ← remove Shard.threadLocalState threadId
  require (pageMap.keys = rangeFrom pageId 0 nSlices)
  require (pageMap.keys = psaMap.keys)
  require (FMap.All pageMap fun pid page => psaMap.lookup pid = some page.sharedAccess)
  require (FMap.All pageMap fun pid page => page.offset + pageId.idx = pid.idx)
  require (FMap.All pageMap fun pid _ =>
    (ts.pages.lookup pid).any fun old => old.isEnabled == false)
  require (FMap.All pageMap fun pid page =>
    (psaMap.lookup pid).all fun psa => (ts.pages.lookup pid).all fun old =>
      page == { old with isEnabled := true, sharedAccess := psa })
  add Shard.threadLocalState threadId { ts with pages := pageMap ∪ ts.pages }
  addAll Shard.pageSharedAccess psaMap

def pageMkBlockTokens (threadId : ThreadId) (pageId : PageId A.Provenance)
    (oldNumBlocks newNumBlocks blockSize : Nat) : Action (State A) Unit := do
  let ts ← remove Shard.threadLocalState threadId
  let cs ← remove Shard.threadCheckedState threadId
  let page ← entry ts.pages pageId
  require (page.isEnabled = true)
  require (page.numBlocks = oldNumBlocks)
  require (page.blockSize = blockSize)
  require (page.offset = 0)
  require (oldNumBlocks ≤ newNumBlocks)
  require (∀ idx ∈ Finset.Ico oldNumBlocks newNumBlocks, okayToAddBlock ts pageId idx blockSize = true)
  let ssa ← index Shard.segmentSharedAccess pageId.segmentId
  let blockMap := FMap.collect (rangeBlockIds oldNumBlocks newNumBlocks pageId blockSize)
    fun blockId => (ts.pages.lookup blockId.pageIdForSlice).map fun slice =>
      (⟨ssa, page.sharedAccess, slice.sharedAccess, none⟩ : BlockState A)
  addAll Shard.block blockMap
  add Shard.threadLocalState threadId
    { ts with pages := ts.pages.insert pageId { page with numBlocks := newNumBlocks } }
  add Shard.threadCheckedState threadId ⟨cs.pages.erase pageId⟩

def pageDestroyBlockTokens (threadId : ThreadId) (pageId : PageId A.Provenance)
    (blocks : FMap (BlockId A.Provenance) (BlockState A)) : Action (State A) Unit := do
  let ts ← remove Shard.threadLocalState threadId
  let page ← entry ts.pages pageId
  require (blocks.keys.card = page.numBlocks)
  require (FMap.All blocks fun blockId _ => blockId.pageId = pageId)
  removeAll Shard.block blocks
  add Shard.threadLocalState threadId
    { ts with pages := ts.pages.insert pageId { page with numBlocks := 0 } }

def pageCheckDelayState (threadId : ThreadId) (pageId : PageId A.Provenance) :
    Action (State A) Unit := do
  let ts ← holds Shard.threadLocalState threadId
  let cs ← remove Shard.threadCheckedState threadId
  let page ← entry ts.pages pageId
  require (page.numBlocks = 0)
  let delayState ← holds Shard.delay pageId
  require (delayState ≠ .freeing)
  add Shard.threadCheckedState threadId ⟨insert pageId cs.pages⟩

def pageDisable (threadId : ThreadId) (pageId : PageId A.Provenance) (nSlices : Nat) :
    Action (State A) Unit := do
  let ts ← remove Shard.threadLocalState threadId
  let cs ← holds Shard.threadCheckedState threadId
  let page ← entry ts.pages pageId
  require (page.isEnabled = true)
  require (pageId ∈ cs.pages)
  require (page.numBlocks = 0)
  let range := rangeFrom pageId 0 nSlices
  require (range ⊆ ts.pages.keys)
  require (∀ pid ∈ range, (ts.pages.lookup pid).any (fun p =>
    p.isEnabled && p.offset == (pid.idx : Int) - pageId.idx) = true)
  let newPages0 := FMap.collect range fun pid =>
    (ts.pages.lookup pid).map fun p => { p with isEnabled := false }
  add Shard.threadLocalState threadId { ts with pages := newPages0 ∪ ts.pages }
  let psaMap := FMap.collect range fun pid => (ts.pages.lookup pid).map PageState.sharedAccess
  withdrawAll Shard.pageSharedAccess psaMap

def pageDestroyTokens (threadId : ThreadId) (pageId : PageId A.Provenance) (nSlices : Nat) :
    Action (State A) Unit := do
  let _ ← remove Shard.heapOfPage pageId
  let _ ← remove Shard.delay pageId
  let ts ← remove Shard.threadLocalState threadId
  let range := rangeFrom pageId 0 nSlices
  require (range ⊆ ts.pages.keys)
  require (1 ≤ nSlices)
  require (∀ pid ∈ range, (ts.pages.lookup pid).all (fun p => p.isEnabled == false) = true)
  require (∀ pid ∈ range, pageId ≠ pid → (ts.pages.lookup pid).all (fun p => p.offset != 0) = true)
  add Shard.threadLocalState threadId { ts with pages := FMap.removeKeys ts.pages range }

def blockTokensDistinctRetain (blockId1 blockId2 : BlockId A.Provenance) :
    Action (State A) Unit := do
  require (blockId1.pageId = blockId2.pageId)
  require (blockId1.idx = blockId2.idx)
  let blockState1 ← remove Shard.block blockId1
  let blockState2 ← remove Shard.block blockId2
  assert False
  add Shard.block blockId1 blockState1
  add Shard.block blockId2 blockState2

def blockTokensDistinct (blockId1 blockId2 : BlockId A.Provenance) : Action (State A) Unit := do
  require (blockId1.pageId = blockId2.pageId)
  require (blockId1.idx = blockId2.idx)
  let _ ← remove Shard.block blockId1
  let _ ← remove Shard.block blockId2
  assert False

def blockInRange (threadId : ThreadId) (blockId : BlockId A.Provenance) : Action (State A) Unit := do
  let ts ← holds Shard.threadLocalState threadId
  let _ ← holds Shard.block blockId
  let page ← entry ts.pages blockId.pageId
  assert (blockId.idx < page.numBlocks)

/-! ### Properties -/

def blockOnTheLocalThread (threadId : ThreadId) (blockId : BlockId A.Provenance) :
    Action (State A) Unit := do
  let tid ← holds Shard.threadOfSegment blockId.pageId.segmentId
  let ts ← holds Shard.threadLocalState threadId
  let _ ← holds Shard.block blockId
  require (tid = threadId)
  assert (blockId.pageId.segmentId ∈ ts.segments)
  assert ((ts.pages.lookup blockId.pageId).any (fun page => page.blockSize == blockId.blockSize
    && page.offset == 0 && blockId.idx < page.numBlocks) = true)

def allocGuardsSegmentSharedAccess (blockId : BlockId A.Provenance) : Action (State A) Unit := do
  let blockState ← holds Shard.block blockId
  guarded Shard.segmentSharedAccess blockId.pageId.segmentId blockState.segmentSharedAccess

def allocGuardsPageSliceSharedAccess (blockId : BlockId A.Provenance) : Action (State A) Unit := do
  let blockState ← holds Shard.block blockId
  guarded Shard.pageSharedAccess blockId.pageIdForSlice blockState.pageSliceSharedAccess

def allocGuardsPageSharedAccess (blockId : BlockId A.Provenance) : Action (State A) Unit := do
  let blockState ← holds Shard.block blockId
  guarded Shard.pageSharedAccess blockId.pageId blockState.pageSharedAccess

def delayGuardsHeapSharedAccess (pageId : PageId A.Provenance) : Action (State A) Unit := do
  let (heapId, hsa, _) ← haveHeapActor pageId
  guarded Shard.heapSharedAccess heapId hsa

def delayGuardsPageSharedAccess (pageId : PageId A.Provenance) : Action (State A) Unit := do
  let (_, _, psa) ← haveHeapActor pageId
  guarded Shard.pageSharedAccess pageId psa

def threadLocalStateGuardsPage (threadId : ThreadId) (pageId : PageId A.Provenance) :
    Action (State A) Unit := do
  let threadState ← holds Shard.threadLocalState threadId
  let page ← entry threadState.pages pageId
  require (page.isEnabled = true)
  guarded Shard.pageSharedAccess pageId page.sharedAccess

def threadLocalStateGuardsHeap (threadId : ThreadId) : Action (State A) Unit := do
  let threadState ← holds Shard.threadLocalState threadId
  guarded Shard.heapSharedAccess threadState.heapId threadState.heap.sharedAccess

def threadLocalStateGuardsSegment (threadId : ThreadId) (segmentId : SegmentId A.Provenance) :
    Action (State A) Unit := do
  let threadState ← holds Shard.threadLocalState threadId
  let segment ← entry threadState.segments segmentId
  require (segment.isEnabled = true)
  guarded Shard.segmentSharedAccess segmentId segment.sharedAccess

def heapOfPageAgreeWithThreadState (pageId : PageId A.Provenance) (threadId : ThreadId) :
    Action (State A) Unit := do
  let ts ← holds Shard.threadLocalState threadId
  let heapId ← holds Shard.heapOfPage pageId
  require (pageId ∈ ts.pages)
  assert (ts.heapId = heapId)

def blockInHeapHasValidPage (threadId : ThreadId) (blockId : BlockId A.Provenance) :
    Action (State A) Unit := do
  let ts ← holds Shard.threadLocalState threadId
  let blockState ← holds Shard.block blockId
  require (blockState.heapId = some ts.heapId)
  assert ((ts.pages.lookup blockId.pageId).any (fun page => page.blockSize == blockId.blockSize
    && page.offset == 0) = true)

def getBlockProperties (threadId : ThreadId) (blockId : BlockId A.Provenance) :
    Action (State A) Unit := do
  let blockState ← holds Shard.block blockId
  let ts ← holds Shard.threadLocalState threadId
  require (blockId.pageId ∈ ts.pages)
  assert (blockProperties ts blockId blockState = true)

/-! ### Runs -/

inductive Transition (A : Accesses) where
  | setInst (inst : A.InstanceId)
  | actorMakeIdle (threadId : ThreadId)
  | actorAbandon (threadId : ThreadId)
  | setUseDelayedFree (pageId : PageId A.Provenance)
  | delayEnterFreeing (pageId : PageId A.Provenance) (blockId : BlockId A.Provenance)
  | delayLeaveFreeing (pageId : PageId A.Provenance)
  | delayLookupHeap (blockId : BlockId A.Provenance)
  | blockSetHeapId (blockId : BlockId A.Provenance)
  | reserveUniqIdentifier
  | createThreadMkTokens (threadId : ThreadId) (threadState : ThreadState A)
  | createSegmentMkTokens (threadId : ThreadId) (preSegmentId : SegmentId A.Provenance)
      (segmentState : SegmentState A)
  | segmentEnable (threadId : ThreadId) (segmentId : SegmentId A.Provenance)
      (sharedAccess : A.SegmentSharedAccess)
  | createPageMkTokens (threadId : ThreadId) (pageId : PageId A.Provenance) (nSlices blockSize : Nat)
      (pageMap : FMap (PageId A.Provenance) (PageState A))
  | pageEnable (threadId : ThreadId) (pageId : PageId A.Provenance) (nSlices : Nat)
      (pageMap : FMap (PageId A.Provenance) (PageState A))
      (psaMap : FMap (PageId A.Provenance) A.PageSharedAccess)
  | pageMkBlockTokens (threadId : ThreadId) (pageId : PageId A.Provenance)
      (oldNumBlocks newNumBlocks blockSize : Nat)
  | pageDestroyBlockTokens (threadId : ThreadId) (pageId : PageId A.Provenance)
      (blocks : FMap (BlockId A.Provenance) (BlockState A))
  | pageCheckDelayState (threadId : ThreadId) (pageId : PageId A.Provenance)
  | pageDisable (threadId : ThreadId) (pageId : PageId A.Provenance) (nSlices : Nat)
  | pageDestroyTokens (threadId : ThreadId) (pageId : PageId A.Provenance) (nSlices : Nat)
  | blockTokensDistinctRetain (blockId1 blockId2 : BlockId A.Provenance)
  | blockTokensDistinct (blockId1 blockId2 : BlockId A.Provenance)
  | blockInRange (threadId : ThreadId) (blockId : BlockId A.Provenance)

def Transition.action : Transition A → Action (State A) Unit
  | .setInst inst => Mim.setInst inst
  | .actorMakeIdle threadId => Mim.actorMakeIdle threadId
  | .actorAbandon threadId => Mim.actorAbandon threadId
  | .setUseDelayedFree pageId => Mim.setUseDelayedFree pageId
  | .delayEnterFreeing pageId blockId => Mim.delayEnterFreeing pageId blockId
  | .delayLeaveFreeing pageId => Mim.delayLeaveFreeing pageId
  | .delayLookupHeap blockId => Mim.delayLookupHeap blockId
  | .blockSetHeapId blockId => Mim.blockSetHeapId blockId
  | .reserveUniqIdentifier => Mim.reserveUniqIdentifier
  | .createThreadMkTokens threadId threadState => Mim.createThreadMkTokens threadId threadState
  | .createSegmentMkTokens threadId preSegmentId segmentState =>
      Mim.createSegmentMkTokens threadId preSegmentId segmentState
  | .segmentEnable threadId segmentId sharedAccess => Mim.segmentEnable threadId segmentId sharedAccess
  | .createPageMkTokens threadId pageId nSlices blockSize pageMap =>
      Mim.createPageMkTokens threadId pageId nSlices blockSize pageMap
  | .pageEnable threadId pageId nSlices pageMap psaMap =>
      Mim.pageEnable threadId pageId nSlices pageMap psaMap
  | .pageMkBlockTokens threadId pageId oldNumBlocks newNumBlocks blockSize =>
      Mim.pageMkBlockTokens threadId pageId oldNumBlocks newNumBlocks blockSize
  | .pageDestroyBlockTokens threadId pageId blocks =>
      Mim.pageDestroyBlockTokens threadId pageId blocks
  | .pageCheckDelayState threadId pageId => Mim.pageCheckDelayState threadId pageId
  | .pageDisable threadId pageId nSlices => Mim.pageDisable threadId pageId nSlices
  | .pageDestroyTokens threadId pageId nSlices => Mim.pageDestroyTokens threadId pageId nSlices
  | .blockTokensDistinctRetain blockId1 blockId2 => Mim.blockTokensDistinctRetain blockId1 blockId2
  | .blockTokensDistinct blockId1 blockId2 => Mim.blockTokensDistinct blockId1 blockId2
  | .blockInRange threadId blockId => Mim.blockInRange threadId blockId

inductive Property (A : Accesses) where
  | blockOnTheLocalThread (threadId : ThreadId) (blockId : BlockId A.Provenance)
  | allocGuardsSegmentSharedAccess (blockId : BlockId A.Provenance)
  | allocGuardsPageSliceSharedAccess (blockId : BlockId A.Provenance)
  | allocGuardsPageSharedAccess (blockId : BlockId A.Provenance)
  | delayGuardsHeapSharedAccess (pageId : PageId A.Provenance)
  | delayGuardsPageSharedAccess (pageId : PageId A.Provenance)
  | threadLocalStateGuardsPage (threadId : ThreadId) (pageId : PageId A.Provenance)
  | threadLocalStateGuardsHeap (threadId : ThreadId)
  | threadLocalStateGuardsSegment (threadId : ThreadId) (segmentId : SegmentId A.Provenance)
  | heapOfPageAgreeWithThreadState (pageId : PageId A.Provenance) (threadId : ThreadId)
  | blockInHeapHasValidPage (threadId : ThreadId) (blockId : BlockId A.Provenance)
  | getBlockProperties (threadId : ThreadId) (blockId : BlockId A.Provenance)

def Property.action : Property A → Action (State A) Unit
  | .blockOnTheLocalThread threadId blockId => Mim.blockOnTheLocalThread threadId blockId
  | .allocGuardsSegmentSharedAccess blockId => Mim.allocGuardsSegmentSharedAccess blockId
  | .allocGuardsPageSliceSharedAccess blockId => Mim.allocGuardsPageSliceSharedAccess blockId
  | .allocGuardsPageSharedAccess blockId => Mim.allocGuardsPageSharedAccess blockId
  | .delayGuardsHeapSharedAccess pageId => Mim.delayGuardsHeapSharedAccess pageId
  | .delayGuardsPageSharedAccess pageId => Mim.delayGuardsPageSharedAccess pageId
  | .threadLocalStateGuardsPage threadId pageId => Mim.threadLocalStateGuardsPage threadId pageId
  | .threadLocalStateGuardsHeap threadId => Mim.threadLocalStateGuardsHeap threadId
  | .threadLocalStateGuardsSegment threadId segmentId =>
      Mim.threadLocalStateGuardsSegment threadId segmentId
  | .heapOfPageAgreeWithThreadState pageId threadId =>
      Mim.heapOfPageAgreeWithThreadState pageId threadId
  | .blockInHeapHasValidPage threadId blockId => Mim.blockInHeapHasValidPage threadId blockId
  | .getBlockProperties threadId blockId => Mim.getBlockProperties threadId blockId

/-- The states after finitely many transitions, each one enabled. -/
inductive Reachable : State A → Prop where
  | start : Reachable initialState
  | next {s t : State A} (transition : Transition A) : Reachable s →
      transition.action s = .ok ((), t) → Reachable t

end VerusMimalloc.Mim
