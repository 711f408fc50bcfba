/-
**The system: one heap-owning thread and any number of freeing threads.**

`heapInit` is `heap_init`. A system state is a state of the allocator and what the owner still has
to do; a step is one step of the owner, the start or the return of a call of the owner, or one step
of a freeing thread.
-/

import VerusMimalloc.Model.AllocFast
import Mathlib.Logic.Relation

namespace VerusMimalloc

open Library

/-! ### Initialisation -/

/-- `thread_data_alloc` and the mapping of `init_empty_page_ptr`. -/
def mapOnePage (l : Local) : Except Abort (Nat × Local) :=
  match mmap l osPageSize true with
  | (some p, l) => .ok (p, l)
  | (none, _) => .error .todo

/-- Memory before `heap_init`: nothing is mapped. -/
def freshLocal (oracle : Oracle) (threadId : Nat) : Local where
  pages := fun _ => {}
  segs := fun _ => {}
  segments := []
  heap :=
    { heapPtr := 0
      pagesFreeDirect := fun _ => 0
      pages := fun _ => { first := 0, last := 0, blockSize := 0 }
      threadId
      pageCount := 0
      pageRetiredMin := 0
      pageRetiredMax := 0
      pageEmptyPtr := 0 }
  tld := { spanQueueHeaders := fun _ => { first := 0, last := 0 }, count := 0 }
  os := { oracle, calls := 0, accessible := fun _ => false }
  taken := []
  held := .nothing

/-- `heap_init`; the address `0` when the heap could not be placed. -/
def heapInit (oracle : Oracle) (threadId : Nat) : Except Abort (Nat × Local) := do
  let (heapPtr, l) ← mapOnePage (freshLocal oracle threadId)
  if heapPtr = 0 then return (0, l)
  let (pageEmptyPtr, l) ← mapOnePage l
  return (heapPtr, { l with
    heap :=
      { heapPtr
        pagesFreeDirect := fun _ => pageEmptyPtr
        pages := fun pq => { first := 0, last := 0, blockSize := queueBlockSize pq }
        threadId
        pageCount := 0
        pageRetiredMin := 0
        pageRetiredMax := 0
        pageEmptyPtr }
    tld := { spanQueueHeaders := fun _ => { first := 0, last := 0 }, count := 0 } })

/-- No block exists yet. -/
def freshShared : Shared where
  xthreadFree := fun _ => { list := [], delay := .useDelayedFree }
  threadDelayedFree := fun _ => []
  threads := []
  live := []

/-! ### Steps -/

/-- A state of the allocator with what the owner still has to do; `none` between public calls. -/
structure Sys where
  st : State
  owner : Option (P Unit)

/-- The owner forgets the result of a call. -/
def call {α : Type} (p : P α) : P Unit := p.bind fun _ => .ret ()

/-- The owner passes a live block to `free`. -/
def State.giveBack (s : State) (before after : List (Nat × Nat)) (ptr : Nat) : State :=
  { loc := { s.loc with held := .given ptr }, sh := { s.sh with live := before ++ after } }

inductive Step : Sys → Sys → Prop where
  /-- `heap_malloc(size)` starts. -/
  | malloc (st : State) (fuel size : Nat) : size ≤ mediumObjSizeMax →
      Step { st, owner := none } { st, owner := some (call (heapMalloc fuel size)) }
  /-- `free(ptr)` starts, for a live block. -/
  | free (st : State) (fuel ptr size : Nat) (before after : List (Nat × Nat)) :
      st.sh.live = before ++ (ptr, size) :: after →
      Step { st, owner := none }
        { st := st.giveBack before after ptr, owner := some (free fuel ptr) }
  /-- The owner's next step. -/
  | own (st : State) (next : State → State) (rest : State → P Unit) :
      Step { st, owner := some (.step next rest) } { st := next st, owner := some (rest st) }
  /-- The owner's call returns. -/
  | finish (st : State) : Step { st, owner := some (.ret ()) } { st, owner := none }
  /-- A step of a freeing thread. -/
  | remote (st : State) (owner : Option (P Unit)) (sh : Shared) : RemoteStep st.loc st.sh sh →
      Step { st, owner } { st := { st with sh }, owner }

/-- The states of a freshly initialised heap. The thread's number is not null. -/
def Initial (sys : Sys) : Prop :=
  ∃ oracle threadId heapPtr loc, threadId ≠ 0 ∧
    heapInit oracle threadId = .ok (heapPtr, loc) ∧ heapPtr ≠ 0 ∧
    sys = { st := { loc, sh := freshShared }, owner := none }

/-- The states that a run reaches. -/
def Reachable (sys : Sys) : Prop := ∃ start, Initial start ∧ Relation.ReflTransGen Step start sys

end VerusMimalloc
