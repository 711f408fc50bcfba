/-
**The lists in memory.**

The block lists as the code has them: a first node for each list, the next pointers in the blocks
themselves, and for each page a word with a pointer and a delay state.

* `Mem`: the memory with the heads of the lists and the calls of `free_block_mt` in flight;
* `ListCall.run`: what the owner's code does to lists, by the functions of `linked_list.rs`;
* `MemStep`: `free_block_mt` and `atomic_insert_block`, one access to shared memory at a time.
-/

import VerusMimalloc.Model.BlockList
import VerusMimalloc.Model.MaskedPtr

namespace VerusMimalloc

open Library Function

/-- Where a call of `free_block_mt` stands. -/
inductive MemPc where
  | top
  | loaded (mask : BitVec 64)
  /-- The next pointer is written. -/
  | linked (mask : BitVec 64)
  | freeing
  | gotHeap (heap : Nat)
  | inserting (heap next : Nat)
  /-- The next pointer is written. -/
  | linkedDelayed (heap next : Nat)
  | pushed

/-- A call of `free_block_mt` in flight. -/
structure MemFree where
  page : Nat
  ptr : Nat
  pc : MemPc

/-- The memory of the blocks, the heads of the lists, the list that `heap_delayed_free_partial` walks, and
the freeing threads. -/
structure Mem where
  bytes : Bytes
  free : Nat → LL
  localFree : Nat → LL
  xthreadFree : Nat → BitVec 64
  threadDelayedFree : Nat → Nat
  ll : LL
  threads : List MemFree

/-! ### The owner -/

/-- What the owner's code does to a list. -/
inductive ListCall where
  | nothing
  /-- `free.pop_block()` of `page_malloc`. -/
  | popBlock (page : Nat)
  /-- `free.insert_block(ptr)` of `free` and `free_block`. -/
  | insertBlock (page ptr : Nat)
  /-- `free.prepend_contiguous_blocks` of `page_free_list_extend`, for `n` blocks. -/
  | extend (page start bsize n : Nat)
  /-- `swap(&mut ll, &mut local_free)` and `free = ll` of `page_free_collect`. -/
  | swap (page : Nat)
  /-- `free.append(&mut local_free)` of `page_free_collect`. -/
  | append (page : Nat)
  /-- `xthread_free.take()` and `local_free.append(&mut ll)` of `page_thread_free_collect`. -/
  | collect (page : Nat)
  /-- `free.make_empty()` and `local_free.make_empty()` of `segment_page_clear`. -/
  | makeEmpty (page : Nat)
  /-- `xthread_free.disable()` of `segment_page_clear`. -/
  | disable (page : Nat)
  /-- The compare-exchange of `try_use_delayed_free`. -/
  | setDelay (page : Nat) (delay : DelayState)
  /-- `thread_delayed_free.take()`, where the list is empty. -/
  | takeNone
  /-- The swap of `thread_delayed_free.take()`. -/
  | take (heap : Nat)
  /-- `ll.pop_block()` of `heap_delayed_free_partial`. -/
  | popTaken
  /-- The last round of `thread_delayed_free.atomic_insert_block(ptr)`: the next pointer and the
  compare-exchange. -/
  | insertDelayed (heap ptr : Nat)

/-- The call on the memory, with the pointer or the number that it returns. -/
def ListCall.run (fuel : Nat) (m : Mem) : ListCall → Option (Nat × Mem)
  | .nothing => some (0, m)
  | .popBlock page =>
      let (ptr, ll) := (m.free page).popBlock m.bytes
      some (ptr, { m with free := update m.free page ll })
  | .insertBlock page ptr =>
      let (bytes, ll) := (m.free page).insertBlock m.bytes ptr
      some (0, { m with bytes, free := update m.free page ll })
  | .extend page start bsize n => do
      let (bytes, ll) ←
        (m.free page).prependContiguousBlocks m.bytes start (start + (n - 1) * bsize) bsize fuel
      some (0, { m with bytes, free := update m.free page ll })
  | .swap page =>
      some (0, { m with
        free := update m.free page (m.localFree page)
        localFree := update m.localFree page { first := 0 } })
  | .append page => do
      let (bytes, free, localFree, count) ← (m.free page).append m.bytes (m.localFree page) fuel
      some (count.toNat, { m with
        bytes
        free := update m.free page free
        localFree := update m.localFree page localFree })
  | .collect page => do
      let word := m.xthreadFree page
      let ll : LL := { first := (maskedPtrDelayGetPtr word).toNat }
      let (bytes, localFree, _, count) ← (m.localFree page).append m.bytes ll fuel
      some (count.toNat, { m with
        bytes
        localFree := update m.localFree page localFree
        xthreadFree := update m.xthreadFree page (fetchAndThree word) })
  | .makeEmpty page =>
      some (0, { m with
        free := update m.free page (m.free page).makeEmpty
        localFree := update m.localFree page (m.localFree page).makeEmpty })
  | .disable page => some (0, { m with xthreadFree := update m.xthreadFree page 0 })
  | .setDelay page delay =>
      let word := maskedPtrDelaySetDelay (m.xthreadFree page) delay.toWord
      some (0, { m with xthreadFree := update m.xthreadFree page word })
  | .takeNone => some (0, { m with ll := { first := 0 } })
  | .take heap =>
      some (0, { m with
        threadDelayedFree := update m.threadDelayedFree heap 0
        ll := { first := m.threadDelayedFree heap } })
  | .popTaken =>
      let (ptr, ll) := m.ll.popBlock m.bytes
      some (ptr, { m with ll })
  | .insertDelayed heap ptr =>
      some (0, { m with
        bytes := writeNode m.bytes ptr (m.threadDelayedFree heap)
        threadDelayedFree := update m.threadDelayedFree heap ptr })

/-! ### Freeing threads -/

/-- What a step of a freeing thread makes of the lists and the delay states. -/
inductive ThreadMove where
  | quiet
  | freeing (page : Nat)
  | push (page ptr : Nat)
  | pushDelayed (heap ptr : Nat)
  | leave (page : Nat)

/-- A weak compare-exchange may fail whatever the word is, so that `casFail` and `delayedCasFail` have no
condition on it. -/
inductive MemStep (l : Local) : Mem → ThreadMove → Mem → Prop where
  /-- `pag.xthread_free.atomic.load()`. -/
  | load (m : Mem) (before after : List MemFree) (page ptr : Nat) :
      m.threads = before ++ { page, ptr, pc := .top } :: after →
      MemStep l m .quiet { m with
        threads := before ++ { page, ptr, pc := .loaded (m.xthreadFree page) } :: after }
  /-- `LL::block_write_ptr(ptr, masked_ptr_delay_get_ptr(mask))`. -/
  | link (m : Mem) (before after : List MemFree) (page ptr : Nat) (mask : BitVec 64) :
      m.threads = before ++ { page, ptr, pc := .loaded mask } :: after →
      maskedPtrDelayGetIsUseDelayed mask = false →
      MemStep l m .quiet { m with
        bytes := writeNode m.bytes ptr (maskedPtrDelayGetPtr mask).toNat
        threads := before ++ { page, ptr, pc := .linked mask } :: after }
  /-- The compare-exchange to `masked_ptr_delay_set_freeing(mask)` fails. -/
  | casFreeingFail (m : Mem) (before after : List MemFree) (page ptr : Nat) (mask : BitVec 64) :
      m.threads = before ++ { page, ptr, pc := .loaded mask } :: after →
      maskedPtrDelayGetIsUseDelayed mask = true →
      MemStep l m .quiet { m with threads := before ++ { page, ptr, pc := .top } :: after }
  | casFreeing (m : Mem) (before after : List MemFree) (page ptr : Nat) (mask : BitVec 64) :
      m.threads = before ++ { page, ptr, pc := .loaded mask } :: after →
      maskedPtrDelayGetIsUseDelayed mask = true → m.xthreadFree page = mask →
      MemStep l m (.freeing page) { m with
        xthreadFree := update m.xthreadFree page (maskedPtrDelaySetFreeing mask)
        threads := before ++ { page, ptr, pc := .freeing } :: after }
  /-- The compare-exchange to `masked_ptr_delay_set_ptr(mask, ptr)` fails. -/
  | casFail (m : Mem) (before after : List MemFree) (page ptr : Nat) (mask : BitVec 64) :
      m.threads = before ++ { page, ptr, pc := .linked mask } :: after →
      MemStep l m .quiet { m with threads := before ++ { page, ptr, pc := .top } :: after }
  | casPush (m : Mem) (before after : List MemFree) (page ptr : Nat) (mask : BitVec 64) :
      m.threads = before ++ { page, ptr, pc := .linked mask } :: after →
      m.xthreadFree page = mask →
      MemStep l m (.push page ptr) { m with
        xthreadFree := update m.xthreadFree page (maskedPtrDelaySetPtr mask (BitVec.ofNat 64 ptr))
        threads := before ++ after }
  /-- `pag.xheap.atomic.load()`. -/
  | loadHeap (m : Mem) (before after : List MemFree) (page ptr : Nat) :
      m.threads = before ++ { page, ptr, pc := .freeing } :: after →
      MemStep l m .quiet { m with
        threads := before ++ { page, ptr, pc := .gotHeap (l.pages page).xheap } :: after }
  /-- The load of `atomic_insert_block`. -/
  | delayedLoad (m : Mem) (before after : List MemFree) (page ptr heap : Nat) :
      m.threads = before ++ { page, ptr, pc := .gotHeap heap } :: after →
      MemStep l m .quiet { m with
        threads := before ++ { page, ptr, pc := .inserting heap (m.threadDelayedFree heap) } :: after }
  /-- `LL::block_write_ptr(ptr, next_ptr)`. -/
  | delayedLink (m : Mem) (before after : List MemFree) (page ptr heap next : Nat) :
      m.threads = before ++ { page, ptr, pc := .inserting heap next } :: after →
      MemStep l m .quiet { m with
        bytes := writeNode m.bytes ptr next
        threads := before ++ { page, ptr, pc := .linkedDelayed heap next } :: after }
  /-- The compare-exchange of `atomic_insert_block` fails. -/
  | delayedCasFail (m : Mem) (before after : List MemFree) (page ptr heap next : Nat) :
      m.threads = before ++ { page, ptr, pc := .linkedDelayed heap next } :: after →
      MemStep l m .quiet { m with threads := before ++ { page, ptr, pc := .gotHeap heap } :: after }
  | delayedCasPush (m : Mem) (before after : List MemFree) (page ptr heap next : Nat) :
      m.threads = before ++ { page, ptr, pc := .linkedDelayed heap next } :: after →
      m.threadDelayedFree heap = next →
      MemStep l m (.pushDelayed heap ptr) { m with
        threadDelayedFree := update m.threadDelayedFree heap ptr
        threads := before ++ { page, ptr, pc := .pushed } :: after }
  /-- `pag.xthread_free.atomic.fetch_xor(3)`. -/
  | leave (m : Mem) (before after : List MemFree) (page ptr : Nat) :
      m.threads = before ++ { page, ptr, pc := .pushed } :: after →
      MemStep l m (.leave page) { m with
        xthreadFree := update m.xthreadFree page (fetchXorThree (m.xthreadFree page))
        threads := before ++ after }

end VerusMimalloc
