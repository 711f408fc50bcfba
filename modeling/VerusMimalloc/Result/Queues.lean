/-
**The queues of the heap.**

* `pages_queued`: every page in use is in the queue of its bin, or in the full queue;
* `fast_path_agrees`: the table for small sizes names the first pages of the queues.
-/

import VerusMimalloc.Proof.Runs

namespace VerusMimalloc

open Library

variable {sys : Sys} {l : Local} {queues : Nat → List Nat} {pq a : Nat}

/-! ### Page queues -/

/-- The page queues of the heap hold the pages in use. -/
structure PagesQueued (l : Local) (queues : Nat → List Nat) : Prop where
  list : ∀ pq, IsDList (fun a => (l.pages a).prev) (fun a => (l.pages a).next) 0
    (l.heap.pages pq).first (l.heap.pages pq).last (queues pq)
  queued : ∀ a, InUse l a → l.held ≠ .unlinked a → ∀ pq, a ∈ queues pq ↔
    pq = if (l.pages a).getInFull then binFull else bin (l.pages a).xblockSize
  full : ∀ a, InUse l a → l.held ≠ .unlinked a →
    (a ∈ queues binFull ↔ (l.pages a).getInFull = true)
  known : ∀ pq, ∀ a ∈ queues pq, InUse l a ∧ l.held ≠ .unlinked a
  blockSize : ∀ a, InUse l a →
    (l.heap.pages (bin (l.pages a).xblockSize)).blockSize = (l.pages a).xblockSize
  count : l.heap.pageCount = ∑ pq ∈ Finset.range (binFull + 1), (queues pq).length
  counted : ∀ pq, ∀ a ∈ queues pq, 0 < l.heap.pageCount

/-- **In every reachable state every page in use is in the queue that its header names**; the only
exception is an empty page on its way back to its segment, and between calls there is none. -/
theorem pages_queued (reachable : Reachable sys) :
    (∃ queues, PagesQueued sys.st.loc queues) ∧
      (sys.owner = none → ∀ a, sys.st.loc.held ≠ .unlinked a) := by
  refine ⟨?_, fun none a => ?_⟩
  · obtain ⟨spans, nodes, wf⟩ := reachable.sysInv.inv.wf
    refine ⟨nodes, wf.queues.list, fun a page alive pq => ?_, fun a page alive => ?_,
      fun pq a inside => ?_, fun a page => ?_, wf.queues.count, fun pq a inside => ?_⟩
    · rw [wf.queued]
      exact ⟨fun both => both.2.2, fun same => ⟨page, alive, same⟩⟩
    · have bounds := (wf.page a page).bin_bounds
      rw [wf.queued, pageQueueOf]
      by_cases inFull : (sys.st.loc.pages a).getInFull = true
      · rw [if_pos inFull]
        exact ⟨fun _ => inFull, fun _ => ⟨page, alive, rfl⟩⟩
      · rw [if_neg inFull]
        refine ⟨fun both => ?_, fun full => absurd full inFull⟩
        have same := both.2.2
        simp only [binFull, binHuge] at same
        omega
    · obtain ⟨page, alive, _⟩ := wf.of_mem inside
      exact ⟨page, alive⟩
    · rw [wf.queues.blockSize]
      exact (wf.page a page).bin_bounds.2.2.symm
    · have known : pq ≤ binFull := by
        by_contra beyond
        rw [wf.queues.known pq (by omega)] at inside
        cases inside
      rw [wf.queues.count]
      have one : (nodes pq).length ≤ ∑ i ∈ Finset.range (binFull + 1), (nodes i).length :=
        Finset.single_le_sum (f := fun i => (nodes i).length) (fun _ _ => Nat.zero_le _)
          (Finset.mem_range.mpr (Nat.lt_succ_of_le known))
      exact (List.length_pos_of_mem inside).trans_le one
  · rw [(reachable.sysInv.idle none).held]
    simp

theorem pages_queued_served : (∃ queues, PagesQueued plainServed.st.loc queues) ∧
    (plainServed.owner = none → ∀ a, plainServed.st.loc.held ≠ .unlinked a) :=
  pages_queued plainServed_reachable

/-! ### The table for small sizes -/

/-- For every small size the table holds the first page of the queue of its bin, or the shared empty
page when that queue is empty. -/
def FastPath (l : Local) : Prop :=
  ∀ size ≤ smallSizeMax, heapGetFreeSmallPage l size =
    if (l.heap.pages (bin size)).first = 0 then l.heap.pageEmptyPtr
    else (l.heap.pages (bin size)).first

theorem fastPath_iff : FastPath l ↔ DirectOk l := by
  constructor
  · intro fast w small
    have same : (8 * w + 7) / 8 = w := by omega
    have entry := fast (8 * w) (by simp only [smallSizeMax, smallWsizeMax, intptrSize]; omega)
    rw [heapGetFreeSmallPage, same] at entry
    exact entry
  · intro direct size small
    simp only [smallSizeMax, smallWsizeMax, intptrSize] at small
    have entry := direct ((size + 7) / 8) (by omega)
    rw [bin_words] at entry
    exact entry

/-- **The table agrees with the queues in every reachable state**, and linking or unlinking any page
restores the agreement. -/
theorem fast_path_agrees (reachable : Reachable sys) :
    FastPath sys.st.loc ∧ ∀ l queues, PageQueuesOk l queues → FastPath l →
      (∀ pq a, 1 ≤ pq → a ∈ queues pq → FastPath (pageQueueRemove l pq a)) ∧
      ∀ pq a, 1 ≤ pq → pq ≤ binFull → (∀ i, a ∉ queues i) → a ≠ 0 → a < 2 ^ 64 →
        FastPath (pageQueuePush l pq a) ∧ FastPath (pageQueuePushBack l pq a) := by
  refine ⟨?_, fun l queues ok fast => ?_⟩
  · obtain ⟨spans, nodes, wf⟩ := reachable.sysInv.inv.wf
    exact fastPath_iff.mpr wf.direct
  · have direct := fastPath_iff.mp fast
    refine ⟨fun pq a positive member => ?_, fun pq a positive known fresh nonzero word => ⟨?_, ?_⟩⟩
    · exact fastPath_iff.mpr (ok.remove direct positive member).2.1
    · exact fastPath_iff.mpr (ok.push direct positive known fresh nonzero word).2.1
    · exact fastPath_iff.mpr (ok.pushBack direct positive known fresh nonzero word).2.1

theorem fast_path_agrees_served :
    FastPath plainServed.st.loc ∧ ∀ l queues, PageQueuesOk l queues → FastPath l →
      (∀ pq a, 1 ≤ pq → a ∈ queues pq → FastPath (pageQueueRemove l pq a)) ∧
      ∀ pq a, 1 ≤ pq → pq ≤ binFull → (∀ i, a ∉ queues i) → a ≠ 0 → a < 2 ^ 64 →
        FastPath (pageQueuePush l pq a) ∧ FastPath (pageQueuePushBack l pq a) :=
  fast_path_agrees plainServed_reachable

end VerusMimalloc
