/-
**Allocating.**

`heap_malloc` and its callees in `alloc_fast.rs`, with `malloc_generic` of `alloc_generic.rs`. The
block that a call returns becomes live in the step that takes it from its page.
-/

import VerusMimalloc.Model.Free

namespace VerusMimalloc

open Library

/-- The test and the pop of `page_malloc`: nothing when the page has no free block. -/
def popFree (page size : Nat) : P (Option Nat) :=
  .act fun s =>
    match (s.loc.pages page).free with
    | [] => .ok (none, s)
    | ptr :: rest =>
        let l := s.loc.modifyPage page fun p => { p with free := rest, used := p.used + 1 }
        .ok (some ptr, { loc := l, sh := { s.sh with live := (ptr, size) :: s.sh.live } })

/-- `malloc_generic`, ending with `page_malloc` on the page found. -/
def mallocGenericWith (pageMalloc : Nat → P Nat) (fuel size : Nat) (zero : Bool)
    (hugeAlignment : Nat) : P Nat := do
  let _ ← heapDelayedFreePartial fuel
  let page ← findPage fuel size hugeAlignment
  if page = 0 then .fail .todo
  else do
    let blockSize ← localRead fun l => (l.pages page).xblockSize
    if zero = true ∧ blockSize = 0 then .fail .todo else pageMalloc page

/-- `page_malloc`. -/
def pageMalloc : Nat → Nat → Nat → Bool → P Nat
  | 0, _, _, _ => .fail .timeout
  | fuel + 1, page, size, zero => do
      match ← popFree page size with
      | some ptr => pure ptr
      | none =>
          mallocGenericWith (fun page => pageMalloc fuel page size zero) fuel size zero 0

/-- `malloc_generic`. -/
def mallocGeneric (fuel size : Nat) (zero : Bool) (hugeAlignment : Nat) : P Nat :=
  mallocGenericWith (fun page => pageMalloc fuel page size zero) fuel size zero hugeAlignment

/-- `heap_get_free_small_page`. -/
def heapGetFreeSmallPage (l : Local) (size : Nat) : Nat := l.heap.pagesFreeDirect ((size + 7) / 8)

/-- `heap_malloc_small_zero`. -/
def heapMallocSmallZero (fuel size : Nat) (zero : Bool) : P Nat := do
  let page ← localRead fun l => heapGetFreeSmallPage l size
  pageMalloc fuel page size zero

/-- `heap_malloc_zero_ex`. -/
def heapMallocZeroEx (fuel size : Nat) (zero : Bool) (hugeAlignment : Nat) : P Nat :=
  if size ≤ smallSizeMax then heapMallocSmallZero fuel size zero
  else mallocGeneric fuel size zero hugeAlignment

/-- `heap_malloc_zero`. -/
def heapMallocZero (fuel size : Nat) (zero : Bool) : P Nat := heapMallocZeroEx fuel size zero 0

/-- `heap_malloc`. -/
def heapMalloc (fuel size : Nat) : P Nat := heapMallocZero fuel size false

end VerusMimalloc
