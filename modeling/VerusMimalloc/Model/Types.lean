/-
**The data of a heap-owning thread and of the freeing threads.**

`Local` is what only the owner writes: page and segment headers, the heap, the span queues and the
state of the operating system as seen by the owner. `Shared` is what every thread touches: the
`xthread_free` words, the heap's list of delayed frees, the calls of freeing threads in flight, and
the blocks that are live. Headers are found by their address. Fields that no modelled function
reads are left out.
-/

import VerusMimalloc.Library.Program
import VerusMimalloc.Model.CommitMask
import VerusMimalloc.Model.Layout

namespace VerusMimalloc

open Library

/-! ### Page headers -/

/-- `Page` together with its `PageInner`. A block list is the sequence of its blocks, first block
first. -/
structure Page where
  count : Nat := 0
  offset : Nat := 0
  flags0 : BitVec 8 := 0
  capacity : Nat := 0
  reserved : Nat := 0
  flags1 : BitVec 8 := 0
  flags2 : BitVec 8 := 0
  free : List Nat := []
  used : Nat := 0
  xblockSize : Nat := 0
  localFree : List Nat := []
  xheap : Nat := 0
  prev : Nat := 0
  next : Nat := 0

namespace Page

variable (p : Page)

def getIsReset : Bool := p.flags0 &&& 1#8 != 0#8
def getInFull : Bool := p.flags1 &&& 1#8 != 0#8
def notFullNorAligned : Bool := p.flags1 == 0#8

def setRetireExpire (u : BitVec 8) : Page :=
  { p with flags2 := (p.flags2 &&& 1#8) ||| (u <<< 1) }

def setIsReset (b : Bool) : Page :=
  { p with flags0 := (p.flags0 &&& ~~~1#8) ||| (if b then 1#8 else 0#8) }

def setIsCommitted (b : Bool) : Page :=
  { p with flags0 := (p.flags0 &&& ~~~2#8) ||| ((if b then 1#8 else 0#8) <<< 1) }

def setIsZeroInit (b : Bool) : Page :=
  { p with flags0 := (p.flags0 &&& ~~~4#8) ||| ((if b then 1#8 else 0#8) <<< 2) }

def setInFull (b : Bool) : Page :=
  { p with flags1 := (p.flags1 &&& ~~~1#8) ||| (if b then 1#8 else 0#8) }

def setHasAligned (b : Bool) : Page :=
  { p with flags1 := (p.flags1 &&& ~~~2#8) ||| ((if b then 1#8 else 0#8) <<< 1) }

@[simp] theorem getInFull_setInFull (b : Bool) : (p.setInFull b).getInFull = b := by
  have cleared : ∀ x : BitVec 8, (x &&& ~~~1#8 ||| 0#8) &&& 1#8 = 0#8 := by decide +kernel
  have raised : ∀ x : BitVec 8, (x &&& ~~~1#8 ||| 1#8) &&& 1#8 = 1#8 := by decide +kernel
  cases b
  · simp only [getInFull, setInFull, Bool.false_eq_true, if_false, cleared]
    rfl
  · simp only [getInFull, setInFull, if_true, raised]
    rfl

@[simp] theorem getInFull_setHasAligned (b : Bool) :
    (p.setHasAligned b).getInFull = p.getInFull := by
  have keeps : ∀ x : BitVec 8, ∀ b : Bool,
      (x &&& ~~~2#8 ||| (if b then 1#8 else 0#8) <<< 1) &&& 1#8 = x &&& 1#8 := by decide +kernel
  simp only [getInFull, setHasAligned, keeps]

theorem getInFull_of_notFullNorAligned (plain : p.notFullNorAligned = true) :
    p.getInFull = false := by
  rw [notFullNorAligned, beq_iff_eq] at plain
  simp only [getInFull, plain]
  rfl

end Page

/-! ### Segments, heap, thread data -/

inductive SegmentKind where
  | normal
  | huge
  deriving DecidableEq

/-- `SegmentHeader` with its `main` and `main2` cells. -/
structure SegmentHeader where
  memIsPinned : Bool := false
  allowDecommit : Bool := false
  decommitExpire : Int := 0
  decommitMask : CommitMask := .empty
  commitMask : CommitMask := .empty
  abandoned : Nat := 0
  used : Nat := 0
  kind : SegmentKind := .normal
  threadId : Nat := 0

structure PageQueue where
  first : Nat
  last : Nat
  blockSize : Nat

structure SpanQueueHeader where
  first : Nat
  last : Nat

/-- `Heap`; `heapPtr` is its own address. -/
structure Heap where
  heapPtr : Nat
  pagesFreeDirect : Nat → Nat
  pages : Nat → PageQueue
  threadId : Nat
  pageCount : Nat
  pageRetiredMin : Nat
  pageRetiredMax : Nat
  pageEmptyPtr : Nat

/-- `Tld` with its `SegmentsTld`. -/
structure Tld where
  spanQueueHeaders : Nat → SpanQueueHeader
  count : Nat

/-! ### The operating system and the scheduler -/

/-- What the environment answers to the owner's calls, by the number of the call. `mmap` returns
unused address ranges only: two calls never return overlapping ranges. -/
structure Oracle where
  mmap : Nat → Nat → Option Nat
  clock : Nat → Int
  hint : Nat → Nat
  threadCount : Nat → Nat
  /-- A weak compare-exchange may fail although the word is as expected. -/
  spurious : Nat → Bool
  /-- Whether a protection change is granted, by the number of the change. -/
  mprotect : Nat → Bool
  mmap_bound : ∀ {i len p}, mmap i len = some p → p + len < 2 ^ 64
  mmap_disjoint : ∀ {i j len len' p q}, i ≠ j → mmap i len = some p → mmap j len' = some q →
    p + len ≤ q ∨ q + len' ≤ p

/-- Every protection change is granted. -/
def Oracle.Grants (oracle : Oracle) : Prop := ∀ n, oracle.mprotect n = true

/-- Some protection change is refused. -/
def Oracle.Refuses (oracle : Oracle) : Prop := ∃ n, oracle.mprotect n = false

theorem Oracle.Grants.not_refuses {oracle : Oracle} (grants : oracle.Grants) : ¬oracle.Refuses := by
  rintro ⟨n, refused⟩
  rw [grants n] at refused
  cases refused

/-- The operating system: the answers, how many have been used, which bytes may be read and written,
and the ranges whose protection was changed, the last one first. -/
structure Os where
  oracle : Oracle
  calls : Nat
  accessible : Nat → Bool
  protections : List (Nat × Nat × Bool) := []

/-! ### The owner -/

/-- What the owner holds while it processes a free: the block or page in its local variables. -/
inductive Held where
  | nothing
  /-- A block taken from the delayed list, its page not yet asked. -/
  | popped (block : Nat)
  /-- A block whose page now uses delayed frees again, the page not yet collected. -/
  | claimed (block : Nat)
  /-- A delayed block about to go back to its page. -/
  | ready (block : Nat)
  /-- A block passed to `free`. -/
  | given (block : Nat)
  /-- An empty page that is in no queue of the heap any more. -/
  | unlinked (page : Nat)
  /-- A page whose header is cleared and whose span is not yet queued. -/
  | destroying (page : Nat)
  deriving DecidableEq

/-- The block at hand is claimed. -/
def Held.claim : Held → Held
  | .popped block => .claimed block
  | held => held

/-- The page of the claimed block is collected. -/
def Held.collect (page : Nat) (pageOf : Nat → Nat) : Held → Held
  | .claimed block => if pageOf block = page then .ready block else .claimed block
  | held => held

/-- The state that only the owner writes. `segments`, `taken` and `held` name what the code keeps in
local variables: the segments it created, the rest of the list that `heap_delayed_free_partial`
walks, and the block or page at hand. -/
structure Local where
  pages : Nat → Page
  segs : Nat → SegmentHeader
  segments : List Nat
  heap : Heap
  tld : Tld
  os : Os
  taken : List Nat
  held : Held

/-! ### Shared state -/

inductive DelayState where
  | useDelayedFree
  | freeing
  | noDelayedFree
  | neverDelayedFree
  deriving DecidableEq

/-- The two low bits of the word. -/
def DelayState.toNat : DelayState → Nat
  | useDelayedFree => 0
  | freeing => 1
  | noDelayedFree => 2
  | neverDelayedFree => 3

/-- What `fetch_xor(3)` does to the two low bits. -/
def DelayState.xorThree : DelayState → DelayState
  | useDelayedFree => neverDelayedFree
  | freeing => noDelayedFree
  | noDelayedFree => freeing
  | neverDelayedFree => useDelayedFree

/-- `ThreadLLWithDelayBits`: the list whose first block and the delay state that share one word. -/
structure ThreadFree where
  list : List Nat
  delay : DelayState

/-- The word: the first block's address with the delay state in its low bits. -/
def ThreadFree.word (t : ThreadFree) : Nat := t.list.headD 0 + t.delay.toNat

/-- Where a call of `free_block_mt` stands. -/
inductive Pc where
  | top
  | loaded (mask : Nat)
  | freeing
  | gotHeap (heap : Nat)
  | inserting (heap next : Nat)
  | pushed
  deriving DecidableEq

/-- A call of `free_block_mt` in flight. -/
structure RemoteFree where
  page : Nat
  ptr : Nat
  pc : Pc

structure Shared where
  xthreadFree : Nat → ThreadFree
  threadDelayedFree : Nat → List Nat
  threads : List RemoteFree
  live : List (Nat × Nat)

structure State where
  loc : Local
  sh : Shared

/-- How a call ends without returning. -/
inductive Abort where
  /-- `todo()`. -/
  | todo
  /-- The `todo()` of `segment_free`. -/
  | segmentFree
  /-- A subtraction below zero. -/
  | underflow
  /-- The panic of a refused `mprotect`. -/
  | mprotect
  /-- The run was cut off inside a loop. -/
  | timeout
  deriving DecidableEq

/-- A program of the owner. -/
abbrev P := Prog State Abort

/-! ### Updates -/

namespace Local

variable (l : Local)

def modifyPage (page : Nat) (f : Page → Page) : Local :=
  { l with pages := fun a => if a = page then f (l.pages a) else l.pages a }

def modifySeg (segment : Nat) (f : SegmentHeader → SegmentHeader) : Local :=
  { l with segs := fun a => if a = segment then f (l.segs a) else l.segs a }

def modifyQueue (pq : Nat) (f : PageQueue → PageQueue) : Local :=
  { l with heap := { l.heap with
      pages := fun i => if i = pq then f (l.heap.pages i) else l.heap.pages i } }

def modifySpanQueue (sbin : Nat) (f : SpanQueueHeader → SpanQueueHeader) : Local :=
  { l with tld := { l.tld with
      spanQueueHeaders := fun i =>
        if i = sbin then f (l.tld.spanQueueHeaders i) else l.tld.spanQueueHeaders i } }

variable {l} {page segment pq sbin a i : Nat} {f : Page → Page}
  {g : SegmentHeader → SegmentHeader} {h : PageQueue → PageQueue}
  {k : SpanQueueHeader → SpanQueueHeader}

@[simp] theorem modifyPage_pages :
    (l.modifyPage page f).pages a = if a = page then f (l.pages a) else l.pages a := rfl
@[simp] theorem modifyPage_segs : (l.modifyPage page f).segs = l.segs := rfl
@[simp] theorem modifyPage_segments : (l.modifyPage page f).segments = l.segments := rfl
@[simp] theorem modifyPage_heap : (l.modifyPage page f).heap = l.heap := rfl
@[simp] theorem modifyPage_tld : (l.modifyPage page f).tld = l.tld := rfl
@[simp] theorem modifyPage_os : (l.modifyPage page f).os = l.os := rfl
@[simp] theorem modifyPage_taken : (l.modifyPage page f).taken = l.taken := rfl
@[simp] theorem modifyPage_held : (l.modifyPage page f).held = l.held := rfl

@[simp] theorem modifySeg_segs :
    (l.modifySeg segment g).segs a = if a = segment then g (l.segs a) else l.segs a := rfl
@[simp] theorem modifySeg_pages : (l.modifySeg segment g).pages = l.pages := rfl
@[simp] theorem modifySeg_segments : (l.modifySeg segment g).segments = l.segments := rfl
@[simp] theorem modifySeg_heap : (l.modifySeg segment g).heap = l.heap := rfl
@[simp] theorem modifySeg_tld : (l.modifySeg segment g).tld = l.tld := rfl
@[simp] theorem modifySeg_os : (l.modifySeg segment g).os = l.os := rfl
@[simp] theorem modifySeg_taken : (l.modifySeg segment g).taken = l.taken := rfl
@[simp] theorem modifySeg_held : (l.modifySeg segment g).held = l.held := rfl

@[simp] theorem modifyQueue_queue : (l.modifyQueue pq h).heap.pages i =
    if i = pq then h (l.heap.pages i) else l.heap.pages i := rfl
@[simp] theorem modifyQueue_direct :
    (l.modifyQueue pq h).heap.pagesFreeDirect = l.heap.pagesFreeDirect := rfl
@[simp] theorem modifyQueue_heapPtr : (l.modifyQueue pq h).heap.heapPtr = l.heap.heapPtr := rfl
@[simp] theorem modifyQueue_threadId : (l.modifyQueue pq h).heap.threadId = l.heap.threadId := rfl
@[simp] theorem modifyQueue_pageCount :
    (l.modifyQueue pq h).heap.pageCount = l.heap.pageCount := rfl
@[simp] theorem modifyQueue_pageEmptyPtr :
    (l.modifyQueue pq h).heap.pageEmptyPtr = l.heap.pageEmptyPtr := rfl
@[simp] theorem modifyQueue_pages : (l.modifyQueue pq h).pages = l.pages := rfl
@[simp] theorem modifyQueue_segs : (l.modifyQueue pq h).segs = l.segs := rfl
@[simp] theorem modifyQueue_segments : (l.modifyQueue pq h).segments = l.segments := rfl
@[simp] theorem modifyQueue_tld : (l.modifyQueue pq h).tld = l.tld := rfl
@[simp] theorem modifyQueue_os : (l.modifyQueue pq h).os = l.os := rfl
@[simp] theorem modifyQueue_taken : (l.modifyQueue pq h).taken = l.taken := rfl
@[simp] theorem modifyQueue_held : (l.modifyQueue pq h).held = l.held := rfl

@[simp] theorem modifySpanQueue_queue : (l.modifySpanQueue sbin k).tld.spanQueueHeaders i =
    if i = sbin then k (l.tld.spanQueueHeaders i) else l.tld.spanQueueHeaders i := rfl
@[simp] theorem modifySpanQueue_count : (l.modifySpanQueue sbin k).tld.count = l.tld.count := rfl
@[simp] theorem modifySpanQueue_pages : (l.modifySpanQueue sbin k).pages = l.pages := rfl
@[simp] theorem modifySpanQueue_segs : (l.modifySpanQueue sbin k).segs = l.segs := rfl
@[simp] theorem modifySpanQueue_segments : (l.modifySpanQueue sbin k).segments = l.segments := rfl
@[simp] theorem modifySpanQueue_heap : (l.modifySpanQueue sbin k).heap = l.heap := rfl
@[simp] theorem modifySpanQueue_os : (l.modifySpanQueue sbin k).os = l.os := rfl
@[simp] theorem modifySpanQueue_taken : (l.modifySpanQueue sbin k).taken = l.taken := rfl
@[simp] theorem modifySpanQueue_held : (l.modifySpanQueue sbin k).held = l.held := rfl

end Local

/-! ### Actions of the owner -/

/-- A stretch of the owner's code that touches `Local` only. -/
def localStep {α : Type} (f : Local → Except Abort (α × Local)) : P α :=
  .act fun s => (f s.loc).map fun (value, l) => (value, { s with loc := l })

/-- `f` with the panic of `os_mem.rs`: a change of protection on the way was refused. Nothing that `f` does
after the refusal is left, since a stretch that fails leaves the state as it was. -/
def panicking {α : Type} (f : Local → Except Abort (α × Local)) (l : Local) : Except Abort (α × Local) := do
  let (value, l') ← f l
  let changes := l'.os.protections.length - l.os.protections.length
  if (List.range' l.os.protections.length changes).all l.os.oracle.mprotect then return (value, l')
  else throw .mprotect

section Panicking

variable {α : Type} {f : Local → Except Abort (α × Local)} {l : Local}

theorem panicking_ok {answer : α × Local} (result : panicking f l = .ok answer) : f l = .ok answer := by
  unfold panicking at result
  cases outcome : f l with
  | error e =>
      rw [outcome] at result
      cases result
  | ok answer' =>
      rw [outcome] at result
      simp only [bind, Except.bind] at result
      split at result
      · exact result
      · cases result

/-- What `f` fails with, or a refused change. -/
theorem panicking_error {e : Abort} (result : panicking f l = .error e) :
    f l = .error e ∨ (e = .mprotect ∧ l.os.oracle.Refuses) := by
  unfold panicking at result
  cases outcome : f l with
  | error e' =>
      rw [outcome] at result
      exact .inl result
  | ok answer =>
      rw [outcome] at result
      simp only [bind, Except.bind] at result
      split at result
      · cases result
      · rename_i refused
        cases result
        obtain ⟨n, _, no⟩ : ∃ n ∈ List.range' _ _, l.os.oracle.mprotect n ≠ true := by
          simpa only [List.all_eq_true, not_forall, exists_prop] using refused
        exact .inr ⟨rfl, n, Bool.eq_false_of_not_eq_true no⟩

end Panicking

/-- A stretch of the owner's code that changes protections. -/
def osStep {α : Type} (f : Local → Except Abort (α × Local)) : P α := localStep (panicking f)

/-- A stretch of the owner's code that cannot fail. -/
def localUpdate (f : Local → Local) : P Unit := localStep fun l => .ok ((), f l)

/-- A stretch of the owner's code that only reads. -/
def localRead {α : Type} (f : Local → α) : P α := localStep fun l => .ok (f l, l)

end VerusMimalloc
