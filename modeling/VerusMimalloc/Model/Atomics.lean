/-
**The shared lists.**

`ThreadLLSimple` and `ThreadLLWithDelayBits` of `linked_list.rs`: the owner's loops of loads and
compare-exchanges on a page's `xthread_free` word and on the heap's `thread_delayed_free` list. Each
action is one access to shared memory.
-/

import VerusMimalloc.Model.Types

namespace VerusMimalloc

open Library

namespace State

/-- Writing a page's word. -/
def setThreadFree (s : State) (page : Nat) (value : ThreadFree) : State :=
  { s with sh := { s.sh with
      xthreadFree := fun a => if a = page then value else s.sh.xthreadFree a } }

/-- Writing the delayed list of a heap. -/
def setDelayed (s : State) (heap : Nat) (blocks : List Nat) : State :=
  { s with sh := { s.sh with
      threadDelayedFree := fun a => if a = heap then blocks else s.sh.threadDelayedFree a } }

/-- Whether a weak compare-exchange of the owner fails spuriously, and the state after asking. -/
def spurious (s : State) : Bool × State :=
  (s.loc.os.oracle.spurious s.loc.os.calls,
    { s with loc := { s.loc with os := { s.loc.os with calls := s.loc.os.calls + 1 } } })

end State

/-- `atomic.load()` of a page's word. -/
def loadThreadFree (page : Nat) : P Nat := .act fun s => .ok ((s.sh.xthreadFree page).word, s)

/-- `compare_exchange_weak(tfree, tfreex)` of `try_use_delayed_free`, where `tfreex` is `tfree` with
the delay state `delay`. On success the block at hand is claimed. -/
def casSetDelay (page tfree : Nat) (delay : DelayState) : P Bool :=
  .act fun s =>
    let (fails, s) := s.spurious
    if fails ∨ (s.sh.xthreadFree page).word ≠ tfree then .ok (false, s)
    else
      let s := s.setThreadFree page { s.sh.xthreadFree page with delay := delay }
      .ok (true, { s with loc := { s.loc with held := s.loc.held.claim } })

/-- One round of the loop of `try_use_delayed_free`. -/
def tryUseRound (page : Nat) (delay : DelayState) (overrideNever : Bool) (yieldCount : Nat) :
    P (Nat ⊕ Bool) := do
  let tfree ← loadThreadFree page
  let oldDelay := tfree % 4
  if oldDelay = 1 then
    if yieldCount ≥ 4 then return .inr false else return .inl (yieldCount + 1)
  else if delay.toNat = oldDelay then return .inr true
  else if !overrideNever && oldDelay == 3 then return .inr true
  else
    let ok ← casSetDelay page tfree delay
    return if ok then .inr true else .inl yieldCount

/-- `ThreadLLWithDelayBits::try_use_delayed_free`. -/
def tryUseDelayedFree (fuel page : Nat) (delay : DelayState) (overrideNever : Bool) : P Bool :=
  .loop .timeout (tryUseRound page delay overrideNever) fuel 0

/-- `ThreadLLWithDelayBits::check_is_good`. -/
def checkIsGood (fuel page : Nat) : P Unit :=
  .loop .timeout
    (fun _ => do
      let tfree ← loadThreadFree page
      return if tfree % 4 = 1 then .inl () else .inr ())
    fuel ()

/-- `ThreadLLSimple::take`. The blocks go to the owner's list `ll`. -/
def takeDelayed (heap : Nat) : P Unit := do
  let first ← .act fun s => .ok ((s.sh.threadDelayedFree heap).headD 0, s)
  if first = 0 then localUpdate fun l => { l with taken := [] }
  else
    .act fun s =>
      let blocks := s.sh.threadDelayedFree heap
      let s := s.setDelayed heap []
      .ok ((), { s with loc := { s.loc with taken := blocks } })

/-- `compare_exchange_weak(next_ptr, ptr)` of `atomic_insert_block`. On success the block is no
longer at hand. -/
def casInsertBlock (heap next block : Nat) : P Bool :=
  .act fun s =>
    let (fails, s) := s.spurious
    if fails ∨ (s.sh.threadDelayedFree heap).headD 0 ≠ next then .ok (false, s)
    else
      let s := s.setDelayed heap (block :: s.sh.threadDelayedFree heap)
      .ok (true, { s with loc := { s.loc with held := .nothing } })

/-- `ThreadLLSimple::atomic_insert_block`, called by the owner. -/
def atomicInsertBlock (fuel heap block : Nat) : P Unit :=
  .loop .timeout
    (fun _ => do
      let next ← .act fun s => .ok ((s.sh.threadDelayedFree heap).headD 0, s)
      let ok ← casInsertBlock heap next block
      return if ok then .inr () else .inl ())
    fuel ()

end VerusMimalloc
