/-
**Where the blocks are.**

Every block of a page in use is in one place: on a list of its page, or outside, which is live, on the
delayed list, or held by a thread.

* `Accounting`: the count of the places of each block;
* `Protocol`: the delay states with the blocks and the threads they stand for;
* `Core`, `Inv`: the invariant of the whole state;
* `Accounting.blocks_perm`: the lists of a page and the blocks outside are the blocks of the page;
* `Core.used_eq`: what `used` counts; `Core.quiet`: an empty page has nothing outside.
-/

import VerusMimalloc.Model.System
import VerusMimalloc.Proof.Page.Life
import Mathlib.Data.List.Count
import Mathlib.Data.List.Perm.Basic

namespace VerusMimalloc

open Library

/-! ### Freeing threads -/

namespace Pc

/-- Before the compare-exchange of the page's word succeeds. -/
def early : Pc → Bool
  | .top | .loaded _ => true
  | _ => false

/-- Between the compare-exchange to `Freeing` and the push on the delayed list. -/
def mid : Pc → Bool
  | .freeing | .gotHeap _ | .inserting _ _ => true
  | _ => false

/-- Between the compare-exchange to `Freeing` and the `fetch_xor(3)`. -/
def busy (pc : Pc) : Bool := !pc.early

/-- The heap that the thread read from the page. -/
def heap? : Pc → Option Nat
  | .gotHeap heap | .inserting heap _ => some heap
  | _ => none

end Pc

/-- The blocks of the threads at a place of a kind. -/
def blocksAt (kind : Pc → Bool) (threads : List RemoteFree) : List Nat :=
  (threads.filter fun t => kind t.pc).map RemoteFree.ptr

/-- The threads between the compare-exchange to `Freeing` and the `fetch_xor(3)` of a page. -/
def busyOn (threads : List RemoteFree) (a : Nat) : Nat :=
  threads.countP fun t => t.pc.busy && t.page == a

section Threads

variable (kind : Pc → Bool) (before after : List RemoteFree) (t : RemoteFree) (a : Nat)

@[simp] theorem blocksAt_append :
    blocksAt kind (before ++ after) = blocksAt kind before ++ blocksAt kind after := by
  simp [blocksAt]

@[simp] theorem blocksAt_cons :
    blocksAt kind (t :: after) = (if kind t.pc then [t.ptr] else []) ++ blocksAt kind after := by
  simp only [blocksAt, List.filter_cons]
  split <;> simp

@[simp] theorem busyOn_append :
    busyOn (before ++ after) a = busyOn before a + busyOn after a := by
  simp [busyOn]

@[simp] theorem busyOn_cons :
    busyOn (t :: after) a = (t.pc.busy && t.page == a).toNat + busyOn after a := by
  simp only [busyOn, List.countP_cons]
  cases t.pc.busy && t.page == a <;> simp [Nat.add_comm]

end Threads

theorem mem_blocksAt {kind : Pc → Bool} {threads : List RemoteFree} {t : RemoteFree}
    (member : t ∈ threads) (place : kind t.pc = true) : t.ptr ∈ blocksAt kind threads :=
  List.mem_map.mpr ⟨t, List.mem_filter.mpr ⟨member, place⟩, rfl⟩

theorem busyOn_pos {threads : List RemoteFree} {t : RemoteFree} (member : t ∈ threads)
    (busy : t.pc.busy = true) : 0 < busyOn threads t.page :=
  List.countP_pos_iff.mpr ⟨t, member, by simp [busy]⟩

/-! ### Blocks outside the lists of their page -/

/-- A popped block counts as delayed until its page is asked. -/
def Held.delayed : Held → List Nat
  | .popped block => [block]
  | _ => []

/-- A block at hand that goes back to its page. -/
def Held.direct : Held → List Nat
  | .claimed block | .ready block | .given block => [block]
  | _ => []

/-- The blocks of delayed frees: one for each page that does not use delayed frees now. -/
def delayedBlocks (l : Local) (sh : Shared) : List Nat :=
  sh.threadDelayedFree l.heap.heapPtr ++ l.taken ++ l.held.delayed ++ blocksAt Pc.mid sh.threads

/-- The live blocks, and the blocks passed to `free` that are on no list yet. -/
def directBlocks (l : Local) (sh : Shared) : List Nat :=
  sh.live.map Prod.fst ++ l.held.direct ++ blocksAt Pc.early sh.threads

/-- How often a block is outside the lists of its page. -/
def outside (l : Local) (sh : Shared) (p : Nat) : Nat :=
  (delayedBlocks l sh).count p + (directBlocks l sh).count p

/-- How often a block is on the lists of a page. -/
def listed (l : Local) (sh : Shared) (a p : Nat) : Nat :=
  (l.pages a).free.count p + (l.pages a).localFree.count p + (sh.xthreadFree a).list.count p

theorem outside_pos {l : Local} {sh : Shared} {p : Nat} :
    0 < outside l sh p ↔ p ∈ delayedBlocks l sh ++ directBlocks l sh := by
  rw [outside, ← List.count_append, List.count_pos_iff]

/-! ### The invariant -/

/-- Every block of a page in use is in one place. -/
structure Accounting (l : Local) (sh : Shared) : Prop where
  placed : ∀ p, 0 < outside l sh p → InUse l (pageOfBlock l p)
  balance : ∀ a, InUse l a → ∀ p,
    listed l sh a p + (if pageOfBlock l p = a then outside l sh p else 0) = (blocksOf l a).count p
  sizes : ∀ p size, (p, size) ∈ sh.live → size ≤ (l.pages (pageOfBlock l p)).xblockSize

/-- A freeing thread knows the page of its block and the heap. -/
structure ThreadOk (l : Local) (t : RemoteFree) : Prop where
  page : t.pc ≠ .pushed → t.page = pageOfBlock l t.ptr
  heap : ∀ heap, t.pc.heap? = some heap → heap = l.heap.heapPtr

/-- What the delay states stand for. -/
structure Protocol (l : Local) (sh : Shared) : Prop where
  unused : ∀ a, ¬InUse l a → sh.xthreadFree a = { list := [], delay := .useDelayedFree }
  never : ∀ a, (sh.xthreadFree a).delay ≠ .neverDelayedFree
  delayed : ∀ a, (delayedBlocks l sh).countP (fun p => pageOfBlock l p == a) =
    if (sh.xthreadFree a).delay = .useDelayedFree then 0 else 1
  freeing : ∀ a, busyOn sh.threads a = if (sh.xthreadFree a).delay = .freeing then 1 else 0
  pending : ∀ a, (sh.xthreadFree a).delay = .useDelayedFree → (sh.xthreadFree a).list = [] ∨
    ∃ b, l.held = .claimed b ∧ pageOfBlock l b = a
  threads : ∀ t ∈ sh.threads, ThreadOk l t

/-- A full page that uses delayed frees has no free block, unless the owner is giving one back. -/
def FullOk (l : Local) (sh : Shared) (a : Nat) : Prop :=
  InUse l a → (sh.xthreadFree a).delay = .useDelayedFree → (l.pages a).getInFull = true →
    l.held ≠ .unlinked a → ((l.pages a).free = [] ∧ (l.pages a).localFree = []) ∨
      ∃ b, (l.held = .claimed b ∨ l.held = .ready b) ∧ pageOfBlock l b = a

/-- The part of the invariant that says where the blocks are. -/
structure Core (s : State) : Prop where
  wf : Wf s.loc
  accounting : Accounting s.loc s.sh
  protocol : Protocol s.loc s.sh

/-- **The invariant** of the state between two steps. -/
structure Inv (s : State) : Prop extends Core s where
  full : ∀ a, FullOk s.loc s.sh a

/-! ### Consequences -/

namespace Accounting

variable {l : Local} {sh : Shared} {a p : Nat}

/-- A block on a list of a page in use is a block of that page. -/
theorem of_listed (acc : Accounting l sh) (page : InUse l a) (positive : 0 < listed l sh a p) :
    p ∈ blocksOf l a := by
  have := acc.balance a page p
  exact List.count_pos_iff.mp (by omega)

/-- A block outside is a block of its page. -/
theorem of_outside (acc : Accounting l sh) (positive : 0 < outside l sh p) :
    p ∈ blocksOf l (pageOfBlock l p) := by
  have := acc.balance _ (acc.placed p positive) p
  rw [if_pos rfl] at this
  exact List.count_pos_iff.mp (by omega)

/-- The blocks of a page, by where they are. -/
theorem blocks_perm (acc : Accounting l sh) (page : InUse l a) :
    ((l.pages a).free ++ (l.pages a).localFree ++ (sh.xthreadFree a).list ++
      (delayedBlocks l sh ++ directBlocks l sh).filter (fun p => pageOfBlock l p == a)).Perm
      (blocksOf l a) := by
  rw [List.perm_iff_count]
  intro p
  rw [← acc.balance a page p]
  simp only [List.count_append, listed, outside, List.filter_append]
  by_cases same : pageOfBlock l p = a
  · rw [if_pos same, List.count_filter (by simpa using same), List.count_filter (by simpa using same)]
  · have gone : ∀ list : List Nat, (list.filter fun q => pageOfBlock l q == a).count p = 0 :=
      fun list => List.count_eq_zero.mpr fun inside => same (by simpa using (List.mem_filter.mp inside).2)
    rw [if_neg same, gone, gone]

end Accounting

namespace Wf

variable {l : Local} {a p : Nat}

/-- The place of a page in use and what its header says. -/
theorem page (wf : Wf l) (page : InUse l a) :
    (∃ seg k c, PageAt l seg k c a) ∧ PageOk l.heap.heapPtr (l.pages a) := by
  obtain ⟨spans, nodes, wf⟩ := wf
  obtain ⟨seg, k, c, place, _⟩ := wf.exists_pageAt page
  exact ⟨⟨seg, k, c, place⟩, wf.page a page⟩

/-- The blocks of a page are distinct. -/
theorem blocksOf_nodup (wf : Wf l) (page : InUse l a) : (blocksOf l a).Nodup := by
  obtain ⟨⟨seg, k, c, place⟩, ok⟩ := wf.page page
  exact place.blocksOf_nodup ok

/-- A block of a page in use is aligned, not null, and leads to its page. -/
theorem of_mem_blocksOf (wf : Wf l) (page : InUse l a) (member : p ∈ blocksOf l a) :
    8 ∣ p ∧ 0 < p ∧ pageOfBlock l p = a := by
  obtain ⟨⟨seg, k, c, place⟩, ok⟩ := wf.page page
  obtain ⟨_, _, aligned, positive, _, same⟩ := place.of_mem_blocksOf ok member
  exact ⟨aligned, positive, same⟩

end Wf

namespace Core

variable {s : State} {a p : Nat}

/-- The blocks of a list of remotely freed blocks. -/
theorem of_mem_list (inv : Core s) (member : p ∈ (s.sh.xthreadFree a).list) :
    InUse s.loc a ∧ p ∈ blocksOf s.loc a := by
  have page : InUse s.loc a := by
    by_contra unused
    rw [inv.protocol.unused a unused] at member
    cases member
  have positive : 0 < listed s.loc s.sh a p := by
    have := List.count_pos_iff.mpr member
    rw [listed]
    omega
  exact ⟨page, inv.accounting.of_listed page positive⟩

/-- A block outside is aligned and not null. -/
theorem of_outside (inv : Core s) (positive : 0 < outside s.loc s.sh p) : 8 ∣ p ∧ 0 < p := by
  have page := inv.accounting.placed p positive
  obtain ⟨aligned, nonzero, _⟩ := inv.wf.of_mem_blocksOf page (inv.accounting.of_outside positive)
  exact ⟨aligned, nonzero⟩

/-- **The delay state** is in the low bits of the word. -/
theorem word_mod (inv : Core s) (a : Nat) :
    (s.sh.xthreadFree a).word % 4 = (s.sh.xthreadFree a).delay.toNat := by
  have small : (s.sh.xthreadFree a).delay.toNat < 4 := by
    cases (s.sh.xthreadFree a).delay <;> decide
  have head : 4 ∣ (s.sh.xthreadFree a).list.headD 0 := by
    cases list : (s.sh.xthreadFree a).list with
    | nil => exact ⟨0, rfl⟩
    | cons p rest =>
        obtain ⟨page, member⟩ := inv.of_mem_list (a := a) (p := p) (by rw [list]; simp)
        have := (inv.wf.of_mem_blocksOf page member).1
        simp only [List.headD_cons]
        omega
  rw [ThreadFree.word]
  omega

/-- The word is null when there is nothing in it. -/
theorem word_eq_zero (inv : Core s) :
    (s.sh.xthreadFree a).word = 0 ↔
      (s.sh.xthreadFree a).list = [] ∧ (s.sh.xthreadFree a).delay = .useDelayedFree := by
  rw [ThreadFree.word]
  cases list : (s.sh.xthreadFree a).list with
  | nil => cases (s.sh.xthreadFree a).delay <;> simp [DelayState.toNat]
  | cons p rest =>
      obtain ⟨page, member⟩ := inv.of_mem_list (a := a) (p := p) (by rw [list]; simp)
      have := (inv.wf.of_mem_blocksOf page member).2.1
      simp only [List.headD_cons]
      exact ⟨fun zero => by omega, fun both => absurd both.1 (by simp)⟩

/-- **What `used` counts**: the blocks on the thread free list and the blocks outside. -/
theorem used_eq (inv : Core s) (page : InUse s.loc a) :
    (s.loc.pages a).used = (s.sh.xthreadFree a).list.length +
      (delayedBlocks s.loc s.sh ++ directBlocks s.loc s.sh).countP fun p =>
        pageOfBlock s.loc p == a := by
  obtain ⟨spans, nodes, wf⟩ := inv.wf
  have count := wf.count a page
  have lengths := (inv.accounting.blocks_perm page).length_eq
  simp only [List.length_append, ← List.countP_eq_length_filter, List.filter_append] at lengths
  rw [blocksOf, List.length_map, List.length_range] at lengths
  rw [List.countP_append]
  omega

/-- **An empty page** has no block outside its own lists and the null word. -/
theorem quiet (inv : Core s) (page : InUse s.loc a) (empty : (s.loc.pages a).used = 0) :
    s.sh.xthreadFree a = { list := [], delay := .useDelayedFree } ∧
      ∀ p, 0 < outside s.loc s.sh p → pageOfBlock s.loc p ≠ a := by
  have used := inv.used_eq page
  rw [empty] at used
  have noList : (s.sh.xthreadFree a).list = [] := List.length_eq_zero_iff.mp (by omega)
  have none : (delayedBlocks s.loc s.sh ++ directBlocks s.loc s.sh).countP (fun p =>
      pageOfBlock s.loc p == a) = 0 := by omega
  have delay : (s.sh.xthreadFree a).delay = .useDelayedFree := by
    have delayed := inv.protocol.delayed a
    rw [List.countP_append] at none
    by_contra other
    rw [if_neg other] at delayed
    omega
  refine ⟨?_, fun p positive same => ?_⟩
  · rw [← noList, ← delay]
  · exact List.countP_eq_zero.mp none p (outside_pos.mp positive) (by simpa using same)

/-- No page that is not in use has a block outside. -/
theorem outside_ne (inv : Core s) (unused : ¬InUse s.loc a) (positive : 0 < outside s.loc s.sh p) :
    pageOfBlock s.loc p ≠ a := fun same => unused (same ▸ inv.accounting.placed p positive)

/-- A thread in flight keeps its page in use. -/
theorem thread_page (inv : Core s) {t : RemoteFree} (member : t ∈ s.sh.threads) :
    InUse s.loc t.page := by
  by_contra unused
  have delay := inv.protocol.unused _ unused
  cases early : t.pc.early with
  | true =>
      have positive : 0 < outside s.loc s.sh t.ptr := by
        rw [outside_pos, List.mem_append]
        exact .inr (List.mem_append.mpr (.inr (mem_blocksAt member early)))
      have page := (inv.protocol.threads t member).page fun pushed => by
        rw [pushed] at early
        cases early
      exact inv.outside_ne unused positive page.symm
  | false =>
      have count := inv.protocol.freeing t.page
      have positive := busyOn_pos member (by rw [Pc.busy, early]; rfl)
      rw [delay] at count
      simp only [reduceCtorEq, if_false] at count
      omega

end Core

end VerusMimalloc
