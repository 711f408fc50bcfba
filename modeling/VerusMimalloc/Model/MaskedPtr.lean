/-
**A pointer and a delay state in one word.**

The `masked_ptr_delay` functions of `linked_list.rs` and the two read-modify-write steps on the
`xthread_free` word, on 64-bit words.
-/

import VerusMimalloc.Model.Types

namespace VerusMimalloc

/-- `DelayState::to_int`, as a word. -/
def DelayState.toWord (delay : DelayState) : BitVec 64 := BitVec.ofNat 64 delay.toNat

/-- The delay state that the low bits of a word name. -/
def DelayState.ofWord (v : BitVec 64) : DelayState :=
  match v.toNat % 4 with
  | 0 => .useDelayedFree
  | 1 => .freeing
  | 2 => .noDelayedFree
  | _ => .neverDelayedFree

/-- The word of `masked_ptr_delay_wf`: the pointer plus the state. -/
def maskedPtrDelay (ptr : BitVec 64) (delay : DelayState) : BitVec 64 := ptr + delay.toWord

/-- `masked_ptr_delay_get_is_use_delayed`. -/
def maskedPtrDelayGetIsUseDelayed (v : BitVec 64) : Bool := v % 4 == 0

/-- `masked_ptr_delay_get_delay`. -/
def maskedPtrDelayGetDelay (v : BitVec 64) : BitVec 64 := v % 4

/-- `masked_ptr_delay_get_ptr`. -/
def maskedPtrDelayGetPtr (v : BitVec 64) : BitVec 64 := v &&& ~~~3

/-- `masked_ptr_delay_set_ptr`. -/
def maskedPtrDelaySetPtr (v newPtr : BitVec 64) : BitVec 64 := (v &&& 3) ||| newPtr

/-- `masked_ptr_delay_set_freeing`. -/
def maskedPtrDelaySetFreeing (v : BitVec 64) : BitVec 64 := (v &&& ~~~3) ||| 1

/-- `masked_ptr_delay_set_delay`. -/
def maskedPtrDelaySetDelay (v newDelay : BitVec 64) : BitVec 64 := (v &&& ~~~3) ||| newDelay

/-- `fetch_xor(3)` of `free_block_mt`. -/
def fetchXorThree (v : BitVec 64) : BitVec 64 := v ^^^ 3

/-- `fetch_and(3)` of `ThreadLLWithDelayBits::take`. -/
def fetchAndThree (v : BitVec 64) : BitVec 64 := v &&& 3

end VerusMimalloc
