/-
**Changes of one page by the owner.**

* `Core.rework`: blocks move between the lists of one page and outside;
* `Inv.stays`: the pages keep their blocks while spans change;
* `Inv.collect`, `Inv.pop`, `Core.insert`: what the owner does with the lists of a page.
-/

import VerusMimalloc.Proof.Blocks.Remote

namespace VerusMimalloc

open Library

variable {l l' : Local} {sh sh' : Shared} {a p : Nat}

/-! ### One page changes -/

/-- Nothing is said about a page by what the owner holds. -/
def Held.Settled (held : Held) : Prop := ∀ x, held ≠ .destroying x ∧ held ≠ .unlinked x

/-- Blocks move between the lists of a page and outside; the page may grow. -/
structure Reworked (l : Local) (sh : Shared) (l' : Local) (sh' : Shared) (a : Nat) : Prop where
  page : InUse l a
  frame : BlockFrame l l'
  others : ∀ x, x ≠ a → l'.pages x = l.pages x
  before : l.held.Settled
  settled : l'.held.Settled
  capacity : (l'.pages a).capacity ≤ (l.pages a).reserved
  count : (l'.pages a).used + (l'.pages a).free.length + (l'.pages a).localFree.length =
    (l'.pages a).capacity
  words : ∀ x, x ≠ a → sh'.xthreadFree x = sh.xthreadFree x
  delay : (sh'.xthreadFree a).delay = (sh.xthreadFree a).delay
  threads : sh'.threads = sh.threads
  delayed : ∀ p, (delayedBlocks l' sh').count p = (delayedBlocks l sh).count p
  elsewhere : ∀ p, pageOfBlock l p ≠ a → outside l' sh' p = outside l sh p
  balance : ∀ p, listed l' sh' a p + outside l' sh' p + (blocksOf l a).count p =
    listed l sh a p + outside l sh p + (blocksOf l' a).count p
  live : ∀ p size, (p, size) ∈ sh'.live →
    (p, size) ∈ sh.live ∨ (pageOfBlock l p = a ∧ size ≤ (l.pages a).xblockSize)
  pending : (sh'.xthreadFree a).delay = .useDelayedFree → (sh'.xthreadFree a).list = [] ∨
    ∃ b, l'.held = .claimed b ∧ pageOfBlock l b = a
  claims : ∀ b, pageOfBlock l b ≠ a →
    (l.held = .claimed b → l'.held = .claimed b) ∧ (l.held = .ready b → l'.held = .ready b)

namespace Reworked

variable (step : Reworked l sh l' sh' a)
include step

theorem pageOf : pageOfBlock l' = pageOfBlock l := step.frame.pageOfBlock_eq

/-- The owner's state stays well formed. -/
theorem wf (wf : Wf l) : Wf l' := by
  obtain ⟨spans, nodes, wf⟩ := wf
  refine ⟨spans, nodes, wf.blocks step.frame (fun x => ?_) (fun x => ?_) (fun x page => ?_)
    (fun x page => ?_) (fun x unused => ?_) fun x unlinked => absurd unlinked (step.before x).2⟩
  · exact iff_of_false (step.settled x).1 (step.before x).1
  · exact iff_of_false (step.settled x).2 (step.before x).2
  · by_cases same : x = a
    · rw [same]
      exact step.capacity
    · rw [step.others x same]
      exact (wf.page x page).capacity
  · by_cases same : x = a
    · rw [same]
      exact step.count
    · rw [step.others x same]
      exact wf.count x page
  · have differs : x ≠ a := fun same => unused (same ▸ step.page)
    rw [step.others x differs]
    exact wf.blank x unused

/-- The lists of the other pages do not change. -/
theorem listed_eq {x : Nat} (differs : x ≠ a) : listed l' sh' x p = listed l sh x p := by
  rw [listed, listed, step.others x differs, step.words x differs]

end Reworked

/-- **One page changes.** -/
theorem Core.rework (inv : Core ⟨l, sh⟩) (step : Reworked l sh l' sh' a) : Core ⟨l', sh'⟩ := by
  have wf' : Wf l' := step.wf inv.wf
  have pageOf := step.pageOf
  have page' : InUse l' a := step.frame.inUse_iff.mpr step.page
  obtain ⟨wf, ⟨placed, balance, sizes⟩, ⟨unused, never, delayed, freeing, pending, threads⟩⟩ := inv
  refine ⟨wf', ⟨fun p positive => ?_, fun x page p => ?_, fun p size inLive => ?_⟩,
    ⟨fun x notPage => ?_, fun x => ?_, fun x => ?_, fun x => ?_, fun x use => ?_, fun t member => ?_⟩⟩
  · change 0 < outside l' sh' p at positive
    change InUse l' (pageOfBlock l' p)
    rw [step.frame.inUse_iff, pageOf]
    by_cases on : pageOfBlock l p = a
    · rw [on]
      exact step.page
    · rw [step.elsewhere p on] at positive
      exact placed p positive
  · change InUse l' x at page
    have old := balance x (step.frame.inUse_iff.mp page) p
    change listed l' sh' x p + (if pageOfBlock l' p = x then outside l' sh' p else 0) =
      (blocksOf l' x).count p
    change listed l sh x p + (if pageOfBlock l p = x then outside l sh p else 0) =
      (blocksOf l x).count p at old
    rw [pageOf]
    by_cases same : x = a
    · subst same
      have moved := step.balance p
      by_cases on : pageOfBlock l p = x
      · rw [if_pos on] at old ⊢
        omega
      · have none : (blocksOf l' x).count p = 0 := List.count_eq_zero.mpr fun member =>
          on (pageOf ▸ (wf'.of_mem_blocksOf page member).2.2)
        have same := step.elsewhere p on
        rw [if_neg on] at old ⊢
        omega
    · have blocks : blocksOf l' x = blocksOf l x :=
        blocksOf_congr (by rw [step.others x same]) (by rw [step.others x same])
      rw [step.listed_eq same, blocks]
      by_cases on : pageOfBlock l p = x
      · rw [if_pos on] at old ⊢
        rw [step.elsewhere p (on ▸ same)]
        exact old
      · rw [if_neg on] at old ⊢
        exact old
  · change size ≤ (l'.pages (pageOfBlock l' p)).xblockSize
    rw [pageOf, (step.frame.pages _).xblockSize]
    rcases step.live p size inLive with old | ⟨on, fits⟩
    · exact sizes p size old
    · rw [on]
      exact fits
  · have differs : x ≠ a := fun same => notPage (same ▸ page')
    change sh'.xthreadFree x = _
    rw [step.words x differs]
    exact unused x fun page => notPage (step.frame.inUse_iff.mpr page)
  · change (sh'.xthreadFree x).delay ≠ _
    by_cases same : x = a
    · rw [same, step.delay]
      exact never a
    · rw [step.words x same]
      exact never x
  · change (delayedBlocks l' sh').countP (fun p => pageOfBlock l' p == x) =
      if (sh'.xthreadFree x).delay = .useDelayedFree then 0 else 1
    have delay : (sh'.xthreadFree x).delay = (sh.xthreadFree x).delay := by
      by_cases same : x = a
      · rw [same, step.delay]
      · rw [step.words x same]
    rw [pageOf, delay, (List.perm_iff_count.mpr step.delayed).countP_eq]
    exact delayed x
  · change busyOn sh'.threads x = if (sh'.xthreadFree x).delay = .freeing then 1 else 0
    have delay : (sh'.xthreadFree x).delay = (sh.xthreadFree x).delay := by
      by_cases same : x = a
      · rw [same, step.delay]
      · rw [step.words x same]
    rw [delay, step.threads]
    exact freeing x
  · change (sh'.xthreadFree x).delay = _ at use
    change (sh'.xthreadFree x).list = [] ∨ ∃ b, l'.held = .claimed b ∧ pageOfBlock l' b = x
    rw [pageOf]
    by_cases same : x = a
    · subst same
      exact step.pending use
    · rw [step.words x same] at use ⊢
      rcases pending x use with empty | ⟨b, claimed, on⟩
      · exact .inl empty
      · exact .inr ⟨b, (step.claims b (on ▸ same)).1 claimed, on⟩
  · change t ∈ sh'.threads at member
    rw [step.threads] at member
    obtain ⟨page, heap⟩ := threads t member
    exact ⟨fun notPushed => by rw [pageOf]; exact page notPushed,
      fun heap' known => by rw [step.frame.heapPtr]; exact heap heap' known⟩

/-- The other full pages are as before. -/
theorem FullOk.rework {x : Nat} (full : FullOk l sh x) (step : Reworked l sh l' sh' a)
    (differs : x ≠ a) : FullOk l' sh' x := by
  intro page use inFull _
  rw [step.words x differs] at use
  rw [step.others x differs] at inFull ⊢
  rw [step.pageOf]
  rcases full (step.frame.inUse_iff.mp page) use inFull (step.before x).2 with empty |
    ⟨b, claim, on⟩
  · exact .inl empty
  · obtain ⟨claimed, ready⟩ := step.claims b (on ▸ differs)
    exact .inr ⟨b, claim.imp claimed ready, on⟩

/-- **One page changes**, and it still has no free block if it is full. -/
theorem Inv.rework (inv : Inv ⟨l, sh⟩) (step : Reworked l sh l' sh' a) (full : FullOk l' sh' a) :
    Inv ⟨l', sh'⟩ := by
  refine ⟨inv.toCore.rework step, fun x => ?_⟩
  by_cases same : x = a
  · rw [same]
    exact full
  · exact (inv.full x).rework step same

/-! ### Pages are added, moved and removed -/

/-- The owner holds no block. -/
def Held.NoBlock (held : Held) : Prop := held.delayed = [] ∧ held.direct = []

theorem Held.NoBlock.not_claim {held : Held} (noBlock : held.NoBlock) (b : Nat) :
    held ≠ .claimed b ∧ held ≠ .ready b := by
  constructor <;> rintro rfl <;> simp [Held.NoBlock, Held.direct] at noBlock

/-- The pages that stay in use keep their blocks; new pages have all their blocks on their list, and
the pages that go have no block outside. -/
structure Carried (l : Local) (sh : Shared) (l' : Local) : Prop where
  heapPtr : l'.heap.heapPtr = l.heap.heapPtr
  taken : l'.taken = l.taken
  before : l.held.NoBlock
  noBlock : l'.held.NoBlock
  pageOf : ∀ x, InUse l x → ∀ p ∈ blocksOf l x, pageOfBlock l' p = x
  blocks : ∀ x, InUse l x → InUse l' x → (l'.pages x).xblockSize = (l.pages x).xblockSize ∧
    (l'.pages x).capacity = (l.pages x).capacity ∧ (l'.pages x).free = (l.pages x).free ∧
    (l'.pages x).localFree = (l.pages x).localFree
  fresh : ∀ x, InUse l' x → ¬InUse l x →
    (l'.pages x).free = blocksOf l' x ∧ (l'.pages x).localFree = []
  removed : ∀ x, InUse l x → ¬InUse l' x →
    sh.xthreadFree x = { list := [], delay := .useDelayedFree } ∧
      ∀ p, 0 < outside l sh p → pageOfBlock l p ≠ x

/-- **Pages are added, moved and removed.** -/
theorem Core.carry (inv : Core ⟨l, sh⟩) (wf' : Wf l') (step : Carried l sh l') : Core ⟨l', sh⟩ := by
  obtain ⟨heapPtr, taken, before, noBlock, pageOf, blocks, fresh, removed⟩ := step
  have sameDelayed : delayedBlocks l' sh = delayedBlocks l sh := by
    rw [delayedBlocks, delayedBlocks, heapPtr, taken, noBlock.1, before.1]
  have sameDirect : directBlocks l' sh = directBlocks l sh := by
    rw [directBlocks, directBlocks, noBlock.2, before.2]
  have sameOutside : ∀ p, outside l' sh p = outside l sh p := fun p => by
    rw [outside, outside, sameDelayed, sameDirect]
  have samePage : ∀ p, 0 < outside l sh p → pageOfBlock l' p = pageOfBlock l p := fun p positive =>
    pageOf _ (inv.accounting.placed p positive) p (inv.accounting.of_outside positive)
  have stays : ∀ p, 0 < outside l sh p → InUse l' (pageOfBlock l p) := fun p positive => by
    by_contra gone
    exact (removed _ (inv.accounting.placed p positive) gone).2 p positive rfl
  obtain ⟨wf, ⟨placed, balance, sizes⟩, ⟨unused, never, delayed, freeing, pending, threads⟩⟩ := inv
  refine ⟨wf', ⟨fun p positive => ?_, fun x page p => ?_, fun p size inLive => ?_⟩,
    ⟨fun x notPage => ?_, never, fun x => ?_, freeing, fun x use => ?_, fun t member => ?_⟩⟩
  · change 0 < outside l' sh p at positive
    change InUse l' (pageOfBlock l' p)
    rw [sameOutside] at positive
    rw [samePage p positive]
    exact stays p positive
  · change InUse l' x at page
    change listed l' sh x p + (if pageOfBlock l' p = x then outside l' sh p else 0) =
      (blocksOf l' x).count p
    have sameIf : (if pageOfBlock l' p = x then outside l' sh p else 0) =
        if pageOfBlock l p = x then outside l sh p else 0 := by
      rw [sameOutside]
      rcases Nat.eq_zero_or_pos (outside l sh p) with none | positive
      · rw [none, ite_self, ite_self]
      · rw [samePage p positive]
    rw [sameIf]
    by_cases old : InUse l x
    · have sum := balance x old p
      obtain ⟨xblockSize, capacity, free, localFree⟩ := blocks x old page
      rw [listed, free, localFree, blocksOf_congr xblockSize capacity]
      exact sum
    · obtain ⟨free, localFree⟩ := fresh x page old
      have word : sh.xthreadFree x = _ := unused x old
      have none : (if pageOfBlock l p = x then outside l sh p else 0) = 0 := by
        rcases Nat.eq_zero_or_pos (outside l sh p) with none | positive
        · rw [none, ite_self]
        · have other : pageOfBlock l p ≠ x := fun same => old (same ▸ placed p positive)
          rw [if_neg other]
      rw [listed, free, localFree, word, none]
      rfl
  · change size ≤ (l'.pages (pageOfBlock l' p)).xblockSize
    have positive : 0 < outside l sh p := outside_pos.mpr (by
      simp only [directBlocks, List.mem_append, List.mem_map]
      exact .inr (.inl (.inl ⟨_, inLive, rfl⟩)))
    rw [samePage p positive, (blocks _ (placed p positive) (stays p positive)).1]
    exact sizes p size inLive
  · by_cases old : InUse l x
    · exact (removed x old notPage).1
    · exact unused x old
  · change (delayedBlocks l' sh).countP (fun p => pageOfBlock l' p == x) = _
    rw [sameDelayed]
    refine Eq.trans (List.countP_congr fun p member => ?_) (delayed x)
    have positive : 0 < outside l sh p := outside_pos.mpr (List.mem_append.mpr (.inl member))
    rw [samePage p positive]
  · refine .inl ((pending x use).resolve_right ?_)
    rintro ⟨b, claimed, _⟩
    exact (before.not_claim b).1 claimed
  · obtain ⟨page, heap⟩ := threads t member
    refine ⟨fun notPushed => ?_, fun heap' known => by rw [heapPtr]; exact heap heap' known⟩
    have positive : 0 < outside l sh t.ptr := by
      rw [outside_pos, List.mem_append]
      cases pc : t.pc with
      | top => exact .inr (List.mem_append.mpr (.inr (mem_blocksAt member (by rw [pc]; rfl))))
      | loaded mask => exact .inr (List.mem_append.mpr (.inr (mem_blocksAt member (by rw [pc]; rfl))))
      | freeing => exact .inl (List.mem_append.mpr (.inr (mem_blocksAt member (by rw [pc]; rfl))))
      | gotHeap heap => exact .inl (List.mem_append.mpr (.inr (mem_blocksAt member (by rw [pc]; rfl))))
      | inserting heap next =>
          exact .inl (List.mem_append.mpr (.inr (mem_blocksAt member (by rw [pc]; rfl))))
      | pushed => exact absurd pc notPushed
    rw [samePage _ positive]
    exact page notPushed

/-- A page that is still as full as before. -/
theorem FullOk.carry {x : Nat} (full : FullOk l sh x) (step : Carried l sh l') (page : InUse l x)
    (inFull : (l'.pages x).getInFull = true → (l.pages x).getInFull = true)
    (held : l'.held ≠ .unlinked x → l.held ≠ .unlinked x) : FullOk l' sh x := by
  intro page' use full' notUnlinked
  obtain ⟨_, _, free, localFree⟩ := step.blocks x page page'
  rw [free, localFree]
  refine .inl ((full page use (inFull full') (held notUnlinked)).resolve_right ?_)
  rintro ⟨b, claim, _⟩
  exact claim.elim (step.before.not_claim b).1 (step.before.not_claim b).2

end VerusMimalloc
