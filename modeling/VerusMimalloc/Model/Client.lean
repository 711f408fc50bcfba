/-
**A program that uses the allocator.**

`verus_mi_heap_malloc` and `verus_mi_free` of `lib.rs`, called by the owner, and `verus_mi_free` called
by other threads. The client passes to `free` only what it was given and has not passed to `free` since.
-/

import VerusMimalloc.Library.Simulation
import VerusMimalloc.Model.System

namespace VerusMimalloc

open Library

/-- What the client sees. -/
inductive Event where
  /-- The owner calls `malloc`. -/
  | malloc (size : Nat)
  /-- The owner's `malloc` returns. -/
  | returned (ptr : Nat)
  /-- The owner calls `free`. -/
  | free (ptr : Nat)
  /-- The owner's `free` returns. -/
  | freed
  /-- Another thread calls `free`. -/
  | threadFree (ptr : Nat)
  deriving DecidableEq

/-- The call of the owner, with what is left of it. -/
inductive Doing where
  | idle
  | allocating (size : Nat) (rest : P Nat)
  | freeing (rest : P Unit)

/-- The allocator and its client, with the blocks that the client has and the sizes it asked for. -/
structure Client where
  st : State
  doing : Doing
  given : List (Nat × Nat)

inductive ClientStep : Client → Option Event → Client → Prop where
  | malloc (st : State) (given : List (Nat × Nat)) (fuel size : Nat) : size ≤ mediumObjSizeMax →
      ClientStep ⟨st, .idle, given⟩ (some (.malloc size))
        ⟨st, .allocating size (heapMalloc fuel size), given⟩
  | allocate (st : State) (given : List (Nat × Nat)) (size : Nat) (next : State → State)
      (rest : State → P Nat) :
      ClientStep ⟨st, .allocating size (.step next rest), given⟩ none
        ⟨next st, .allocating size (rest st), given⟩
  | returned (st : State) (given : List (Nat × Nat)) (size ptr : Nat) :
      ClientStep ⟨st, .allocating size (.ret ptr), given⟩ (some (.returned ptr))
        ⟨st, .idle, (ptr, size) :: given⟩
  | free (st : State) (given : List (Nat × Nat)) (fuel ptr size : Nat) : (ptr, size) ∈ given →
      ClientStep ⟨st, .idle, given⟩ (some (.free ptr))
        ⟨{ loc := { st.loc with held := .given ptr }
           sh := { st.sh with live := st.sh.live.erase (ptr, size) } },
          .freeing (free fuel ptr), given.erase (ptr, size)⟩
  | release (st : State) (given : List (Nat × Nat)) (next : State → State) (rest : State → P Unit) :
      ClientStep ⟨st, .freeing (.step next rest), given⟩ none ⟨next st, .freeing (rest st), given⟩
  | freed (st : State) (given : List (Nat × Nat)) :
      ClientStep ⟨st, .freeing (.ret ()), given⟩ (some .freed) ⟨st, .idle, given⟩
  | threadFree (st : State) (doing : Doing) (given : List (Nat × Nat)) (ptr size : Nat) :
      (ptr, size) ∈ given →
      ClientStep ⟨st, doing, given⟩ (some (.threadFree ptr))
        ⟨{ st with sh := { st.sh with
            live := st.sh.live.erase (ptr, size)
            threads := { page := pageOfBlock st.loc ptr, ptr, pc := .top } :: st.sh.threads } },
          doing, given.erase (ptr, size)⟩
  /-- A thread goes on with its `free`. -/
  | thread (st : State) (doing : Doing) (given : List (Nat × Nat)) (sh : Shared) :
      RemoteStep st.loc st.sh sh → sh.live = st.sh.live →
      ClientStep ⟨st, doing, given⟩ none ⟨{ st with sh }, doing, given⟩

/-- A client with a freshly initialised heap. -/
def client : System Client Event where
  start c := ∃ sys, Initial sys ∧ c = ⟨sys.st, .idle, []⟩
  step := ClientStep

/-- `count_size_overflow` of `calloc`. -/
def countSizeOverflow (count size : Nat) : Nat × Bool :=
  if count = 1 then (size, false) else (count * size % 2 ^ 64, decide (2 ^ 64 ≤ count * size))

/-- The state without what the client has. -/
def Client.sys (c : Client) : Sys where
  st := c.st
  owner := match c.doing with
    | .idle => none
    | .allocating _ rest => some (call rest)
    | .freeing rest => some rest

end VerusMimalloc
