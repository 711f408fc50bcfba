/-
**Empty pages.**

* `empty_pages_first`: a page that is empty and not given back is the first one of the queue of its bin,
  so that a bin has one at most, and it is kept only where it is alone in its queue;
* `empty_page_reused`: the next request of the bin takes a block of it, whatever other threads do.
-/

import VerusMimalloc.Proof.Owner.Spare
import VerusMimalloc.Result.FullQueue

namespace VerusMimalloc

open Library

variable {sys sys' : Sys} {s t : State} {a x size : Nat}

/-! ### Keeping -/

/-- What holds of an empty page that is not on its way back to its segment. -/
structure KeptEmpty (l : Local) (a : Nat) : Prop where
  notFull : (l.pages a).getInFull = false
  first : (l.heap.pages (bin (l.pages a).xblockSize)).first = a
  inQueue : InQueue l (bin (l.pages a).xblockSize) a
  /-- No other empty page is in the same queue. -/
  only : ∀ x, InUse l x → (l.pages x).used = 0 → l.held ≠ .unlinked x →
    bin (l.pages x).xblockSize = bin (l.pages a).xblockSize → x = a

theorem OrderedInv.keptEmpty (inv : OrderedInv sys) (empty : Empty sys.st.loc a) :
    KeptEmpty sys.st.loc a := by
  obtain ⟨notFull, first⟩ := inv.first a empty
  refine ⟨notFull, first, inv.inv.inBin empty.page empty.queued notFull,
    fun x page used queued same => ?_⟩
  rw [← (inv.first x ⟨page, used, queued⟩).first, same, first]

/-- A queue that starts and ends with a page holds nothing else. -/
theorem InQueue.eq_of_only {l : Local} {pq : Nat} (inQueue : InQueue l pq x)
    (first : (l.heap.pages pq).first = a) (last : (l.heap.pages pq).last = a) : x = a := by
  obtain ⟨queue, list, inside⟩ := inQueue
  rw [first, last] at list
  exact list.eq_of_ends inside

/-- **Empty pages are first**, in every reachable state, and a step of the system that empties a page
leaves it in use only where no other page is in its queue. -/
theorem empty_pages_first (reachable : Reachable sys) :
    (∀ a, InUse sys.st.loc a → (sys.st.loc.pages a).used = 0 → sys.st.loc.held ≠ .unlinked a →
      KeptEmpty sys.st.loc a) ∧
    ∀ sys', Step sys sys' → ∀ a, InUse sys.st.loc a → 0 < (sys.st.loc.pages a).used →
      InUse sys'.st.loc a → (sys'.st.loc.pages a).used = 0 → sys'.st.loc.held ≠ .unlinked a →
        ∀ x, InQueue sys'.st.loc (bin (sys'.st.loc.pages a).xblockSize) x → x = a := by
  have inv := reachable.orderedInv
  refine ⟨fun a page used queued => inv.keptEmpty ⟨page, used, queued⟩,
    fun sys' step a page positive page' used queued x inQueue => ?_⟩
  rcases (inv.pageKept step a).before ⟨page', used, queued⟩ with ⟨old, _⟩ | ⟨head, last⟩
  · have := old.used
    omega
  · exact inQueue.eq_of_only head.first (last page)

/-- A block of 24 bytes goes back at once; its page. -/
def emptied : List ScriptCall := [.malloc 24, .free 671154560]
def emptiedPage : Nat := 671088984

theorem emptied_reachable : ∃ s, Reachable { st := s, owner := none } ∧ InUse s.loc emptiedPage ∧
    (s.loc.pages emptiedPage).used = 0 ∧ bin (s.loc.pages emptiedPage).xblockSize = bin 24 := by
  obtain ⟨s, ⟨reachable, _⟩, check⟩ := performed_reachable 20 emptied
    (fun s => decide (((s.loc.pages emptiedPage).xblockSize ≠ 0 ∧
      ∀ r ∈ s.loc.segments, emptiedPage ≠ getPageHeaderPtr r 0) ∧
      (s.loc.pages emptiedPage).used = 0 ∧ bin (s.loc.pages emptiedPage).xblockSize = bin 24))
    (by decide +kernel)
  obtain ⟨page, used, same⟩ := of_decide_eq_true check
  exact ⟨s, reachable, page, used, same⟩

theorem empty_pages_first_emptied :
    ∃ s, Reachable { st := s, owner := none } ∧ KeptEmpty s.loc emptiedPage := by
  obtain ⟨s, reachable, page, used, _⟩ := emptied_reachable
  have held : s.loc.held = .nothing := (reachable.sysInv.idle rfl).held
  exact ⟨s, reachable, (empty_pages_first reachable).1 emptiedPage page used (by simp [held])⟩

/-! ### Reusing -/

/-- **An empty page is used again.** Between two calls of the owner, a request of the bin of an empty page
gets a block of this page, whatever other threads do in the meantime; and it fails only in the middle of
the delayed frees, never for want of memory. -/
theorem empty_page_reused (reachable : Reachable { st := s, owner := none }) (page : InUse s.loc a)
    (empty : (s.loc.pages a).used = 0) (medium : size ≤ mediumObjSizeMax)
    (sameBin : bin (s.loc.pages a).xblockSize = bin size) (fuel : Nat) :
    (∀ p t, Returns s (heapMalloc fuel size) p t → pageOfBlock t.loc p = a) ∧
    ∀ e t, Aborts s (heapMalloc (fuel + 2) size) e t →
      ∃ n u, Passes s (heapMalloc (fuel + 2) size) u ∧ Aborts u (heapDelayedFreePartial n) e t := by
  have inv := reachable.orderedInv
  have idle : Idle s.loc := inv.idle rfl
  have spare : Spare s.loc size a := ⟨⟨page, empty, by simp [idle.held]⟩, sameBin⟩
  refine ⟨fun p t returned => ?_, fun e t aborted => ?_⟩
  · exact (OwnerSafe.passes (heapMalloc_spare idle spare medium fuel) inv.inv (fun _ => inv.first)
      returned).2.2
  · -- what is left after the delayed frees cannot fail
    have generic : ∀ n u, Inv u → EmptyFirst u.loc → u.loc = s.loc →
        Aborts u (mallocGeneric (n + 1) size false 0) e t →
          Aborts u (heapDelayedFreePartial (n + 1)) e t := by
      intro n u inv first same aborted
      have idle' : Idle u.loc := same ▸ idle
      have spare' : Spare u.loc size a := same ▸ spare
      have split : Aborts u (heapDelayedFreePartial (n + 1) >>= fun _ => mallocRest (n + 1) size false)
        e t := aborted
      rcases split.parts with early | ⟨_, v, returned, later, _⟩
      · exact early
      · obtain ⟨inv'', first'', idle'', spare''⟩ :=
          (heapDelayedFreePartial_spare idle' spare' (n + 1)).passes inv (fun _ => first) returned
        have safe : OwnerSafe ⟨False, True⟩ (fun _ => False) (mallocRest (n + 1) size false) _ v.loc :=
          mallocRest_spare idle'' spare'' medium (fun none => by cases none) false
        exact (safe.passes inv'' first'' later).2.2.elim
    unfold heapMalloc heapMallocZero heapMallocZeroEx at aborted ⊢
    by_cases small : size ≤ smallSizeMax
    · rw [if_pos small] at aborted ⊢
      have split : Aborts s (localRead (fun l => heapGetFreeSmallPage l size) >>= fun page =>
        pageMalloc (fuel + 2) page size false) e t := aborted
      obtain ⟨_, u, ⟨same, rfl, serves⟩, inv₁, first₁, later, passes₁⟩ :=
        split.second (readSmall_spare spare small) inv.inv fun _ => inv.first
      obtain ⟨popped, v, done, inv₂, first₂, later, passes₂⟩ :=
        later.second (popFree_safe (same ▸ idle) medium (same ▸ serves)) inv₁ first₁
      cases popped with
      | some p =>
          have none : OwnerSafe ⟨False, True⟩ (fun _ => False) (pure p : P Nat) (fun _ _ => True) v.loc :=
            trivial
          exact (none.passes inv₂ first₂ later).2.2.elim
      | none =>
          have same₂ : v.loc = s.loc := (done.none rfl).1.trans same
          exact ⟨fuel + 1, v, passes₁ v (passes₂ v (Passes.start v _)),
            generic fuel v inv₂ (first₂ trivial) same₂ later⟩
    · rw [if_neg small] at aborted ⊢
      exact ⟨fuel + 2, s, Passes.start s _, generic (fuel + 1) s inv.inv inv.first rfl aborted⟩

theorem empty_page_reused_emptied :
    ∃ s, Reachable { st := s, owner := none } ∧ (s.loc.pages emptiedPage).used = 0 ∧
      ∀ p t, Returns s (heapMalloc 20 24) p t → pageOfBlock t.loc p = emptiedPage := by
  obtain ⟨s, reachable, page, used, sameBin⟩ := emptied_reachable
  exact ⟨s, reachable, used, (empty_page_reused reachable page used (by decide) sameBin 20).1⟩

end VerusMimalloc
