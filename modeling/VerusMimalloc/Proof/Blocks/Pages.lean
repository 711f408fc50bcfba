/-
**Pages come, move and go.**

* `PagesKept`: what every step of the owner guarantees to the freeing threads;
* `Inv.toFull`, `Core.unfull`, `Core.unqueue`: a page moves to another queue or leaves its queue;
* `Inv.clearHeader`, `Inv.disable`, `Inv.clearSpan`: the end of a page;
* `Inv.fresh`: a new page;
* `freeBlockLocal_spec`: a free by the owner up to the end of the page.
-/

import VerusMimalloc.Proof.Blocks.Lists

namespace VerusMimalloc

open Library

variable {l l' : Local} {sh sh' : Shared} {a p : Nat}

/-! ### What the freeing threads rely on -/

/-- A page that a block is missing from stays in use, with the blocks it has. -/
structure PagesKept (l l' : Local) : Prop where
  heapPtr : l'.heap.heapPtr = l.heap.heapPtr
  oracle : l'.os.oracle = l.os.oracle
  page : ∀ a, InUse l a → (l.pages a).used ≠ 0 → InUse l' a ∧
    (l'.pages a).xblockSize = (l.pages a).xblockSize ∧ (l.pages a).capacity ≤ (l'.pages a).capacity

theorem PagesKept.refl (l : Local) : PagesKept l l :=
  ⟨rfl, rfl, fun _ page _ => ⟨page, rfl, Nat.le_refl _⟩⟩

/-- The blocks of such a page stay its blocks. -/
theorem PagesKept.blocks (kept : PagesKept l l') (page : InUse l a) (used : (l.pages a).used ≠ 0) :
    ∀ p ∈ blocksOf l a, p ∈ blocksOf l' a := by
  obtain ⟨_, xblockSize, capacity⟩ := kept.page a page used
  intro p member
  obtain ⟨i, small, rfl⟩ := mem_blocksOf.mp member
  refine mem_blocksOf.mpr ⟨i, by omega, ?_⟩
  simp only [blockAt, xblockSize]

/-- Every page stays in use, with the blocks it has. -/
structure AllKept (l l' : Local) : Prop where
  heapPtr : l'.heap.heapPtr = l.heap.heapPtr
  oracle : l'.os.oracle = l.os.oracle
  page : ∀ a, InUse l a → InUse l' a ∧
    (l'.pages a).xblockSize = (l.pages a).xblockSize ∧ (l.pages a).capacity ≤ (l'.pages a).capacity

theorem AllKept.kept (all : AllKept l l') : PagesKept l l' :=
  ⟨all.heapPtr, all.oracle, fun x page _ => all.page x page⟩

theorem AllKept.trans {l'' : Local} (first : AllKept l l') (second : AllKept l' l'') :
    AllKept l l'' := by
  refine ⟨second.heapPtr.trans first.heapPtr, second.oracle.trans first.oracle, fun x page => ?_⟩
  obtain ⟨page', xblockSize, capacity⟩ := first.page x page
  obtain ⟨page'', xblockSize', capacity'⟩ := second.page x page'
  exact ⟨page'', xblockSize'.trans xblockSize, capacity.trans capacity'⟩

theorem BlockFrame.kept (frame : BlockFrame l l')
    (capacity : ∀ x, (l.pages x).capacity ≤ (l'.pages x).capacity) : AllKept l l' :=
  ⟨frame.heapPtr, frame.os.oracle, fun x page =>
    ⟨frame.inUse_iff.mpr page, (frame.pages x).xblockSize, capacity x⟩⟩

theorem MoveFrame.kept {flags1 : BitVec 8} (frame : MoveFrame l l' a flags1) : AllKept l l' :=
  ⟨frame.queue.heapPtr, congrArg Os.oracle frame.queue.os, fun x page =>
    ⟨frame.inUse_iff.mpr page, (frame.same x).2.2.1,
    Nat.le_of_eq (frame.same x).2.2.2.2.2.1.symm⟩⟩

/-! ### How pages are carried over -/

/-- Relinking pages keeps their blocks. -/
theorem MoveFrame.carried {flags1 : BitVec 8} (frame : MoveFrame l l' a flags1) (wf : Wf l)
    (before : l.held.NoBlock) (after : l'.held.NoBlock) : Carried l sh l' := by
  refine ⟨frame.queue.heapPtr, frame.queue.taken, before, after, fun x page p member => ?_,
    fun x _ _ => ?_, fun x page unused => absurd (frame.inUse_iff.mp page) unused,
    fun x page unused => absurd (frame.inUse_iff.mpr page) unused⟩
  · rw [frame.pageOfBlock_eq]
    exact (wf.of_mem_blocksOf page member).2.2
  · obtain ⟨_, _, xblockSize, _, _, capacity, _, free, localFree, _⟩ := frame.same x
    exact ⟨xblockSize, capacity, free, localFree⟩

/-- Pages stay in place while spans change and pages are added. -/
theorem carried_of_stays (wf' : Wf l') (heapPtr : l'.heap.heapPtr = l.heap.heapPtr)
    (taken : l'.taken = l.taken) (before : l.held.NoBlock) (after : l'.held.NoBlock)
    (stays : ∀ x, InUse l x → PageStays l l' x)
    (fresh : ∀ x, InUse l' x → ¬InUse l x →
      (l'.pages x).free = blocksOf l' x ∧ (l'.pages x).localFree = []) : Carried l sh l' := by
  refine ⟨heapPtr, taken, before, after, fun x page p member => ?_, fun x page _ => ?_, fresh,
    fun x page unused => absurd (stays x page).inUse unused⟩
  · obtain ⟨_, _, xblockSize, _, _, _, capacity, _⟩ := (stays x page).relinked.same
    rw [← blocksOf_congr xblockSize capacity] at member
    exact (wf'.of_mem_blocksOf (stays x page).inUse member).2.2
  · obtain ⟨_, _, xblockSize, _, _, _, capacity, _, free, localFree⟩ := (stays x page).relinked.same
    exact ⟨xblockSize, capacity, free, localFree⟩

theorem kept_of_stays (heapPtr : l'.heap.heapPtr = l.heap.heapPtr)
    (oracle : l'.os.oracle = l.os.oracle) (stays : ∀ x, InUse l x → PageStays l l' x) : PagesKept l l' := by
  refine ⟨heapPtr, oracle, fun x page _ => ?_⟩
  obtain ⟨_, _, xblockSize, _, _, _, capacity, _⟩ := (stays x page).relinked.same
  exact ⟨(stays x page).inUse, xblockSize, Nat.le_of_eq capacity.symm⟩

/-! ### A page moves -/

theorem Held.nothing_noBlock : Held.nothing.NoBlock := ⟨rfl, rfl⟩

/-- **A page without free blocks becomes full.** -/
theorem Inv.toFull {pq : Nat} (inv : Inv ⟨l, sh⟩) (held : l.held = .nothing) (page : InUse l a)
    (queue : pageQueueOf l a = pq) (free : (l.pages a).free = [])
    (localFree : (l.pages a).localFree = []) :
    Inv ⟨pageQueueEnqueueFrom l binFull pq a, sh⟩ ∧
      (pageQueueEnqueueFrom l binFull pq a).held = .nothing ∧
      MoveFrame l (pageQueueEnqueueFrom l binFull pq a) a ((l.pages a).setInFull true).flags1 := by
  obtain ⟨spans, nodes, wf⟩ : Wf l := inv.wf
  have member : a ∈ nodes pq := (wf.queued pq a).mpr ⟨page, by simp [held], queue.symm⟩
  obtain ⟨nodes', wf', held', frame⟩ := wf.enqueueFrom member (.inl rfl)
  rw [held] at held'
  have carried : Carried l sh (pageQueueEnqueueFrom l binFull pq a) :=
    frame.carried inv.wf (held ▸ Held.nothing_noBlock) (held' ▸ Held.nothing_noBlock)
  refine ⟨⟨inv.toCore.carry ⟨spans, nodes', wf'⟩ carried, fun x page' use inFull unlinked => ?_⟩, held',
    frame⟩
  by_cases same : x = a
  · subst same
    obtain ⟨_, _, _, _, _, _, _, sameFree, sameLocal, _⟩ := frame.same x
    refine .inl ⟨?_, ?_⟩
    · rw [sameFree]
      exact free
    · rw [sameLocal]
      exact localFree
  · refine (inv.full x).carry carried (frame.inUse_iff.mp page') (fun full => ?_) (fun _ => by
      simp [held]) page' use inFull unlinked
    rw [frame.getInFull_of_ne same] at full
    exact full

/-- **A full page that got a block back** returns to the queue of its bin. -/
theorem Core.unfull (inv : Core ⟨l, sh⟩) (full : ∀ x, x ≠ a → FullOk l sh x)
    (held : l.held = .nothing) (page : InUse l a) (inFull : (l.pages a).getInFull = true) :
    Inv ⟨pageUnfull l a, sh⟩ ∧ (pageUnfull l a).held = .nothing ∧
      MoveFrame l (pageUnfull l a) a ((l.pages a).setInFull false).flags1 := by
  obtain ⟨spans, nodes, wf⟩ : Wf l := inv.wf
  have bounds := (wf.page a page).bin_bounds
  have notFull : (bin (l.pages a).xblockSize == binFull) = false := by
    simp only [binFull, binHuge, beq_eq_false_iff_ne, ne_eq]
    omega
  have queue : pageQueueOf l a = binFull := by rw [pageQueueOf, if_pos inFull]
  have member : a ∈ nodes binFull := (wf.queued _ a).mpr ⟨page, by simp [held], queue.symm⟩
  obtain ⟨nodes', wf', held', frame⟩ := wf.enqueueFrom member (.inr rfl)
  rw [notFull] at frame
  change WfWith (pageUnfull l a) spans nodes' at wf'
  change (pageUnfull l a).held = _ at held'
  change MoveFrame l (pageUnfull l a) a _ at frame
  rw [held] at held'
  have carried : Carried l sh (pageUnfull l a) :=
    frame.carried inv.wf (held ▸ Held.nothing_noBlock) (held' ▸ Held.nothing_noBlock)
  refine ⟨⟨inv.carry ⟨spans, nodes', wf'⟩ carried, fun x page' use full' unlinked => ?_⟩, held', frame⟩
  by_cases same : x = a
  · subst same
    obtain ⟨prev, next, moved⟩ := frame.pages x
    have cleared : ((pageUnfull l x).pages x).getInFull = false := by
      rw [moved, if_pos rfl]
      exact Page.getInFull_setInFull ..
    rw [cleared] at full'
    cases full'
  · refine (full x same).carry carried (frame.inUse_iff.mp page') (fun full => ?_) (fun _ => by
      simp [held]) page' use full' unlinked
    rw [frame.getInFull_of_ne same] at full
    exact full

/-- **An empty page leaves its queue.** -/
theorem Core.unqueue (inv : Core ⟨l, sh⟩) (full : ∀ x, x ≠ a → FullOk l sh x)
    (held : l.held = .nothing) (page : InUse l a) (empty : (l.pages a).used = 0) :
    Inv ⟨pageFree l a (pageQueueOf l a), sh⟩ ∧
      MoveFrame l (pageFree l a (pageQueueOf l a)) a ((l.pages a).setHasAligned false).flags1 := by
  obtain ⟨spans, nodes, wf⟩ : Wf l := inv.wf
  obtain ⟨nodes', wf', frame⟩ := wf.unqueue (fun x => by simp [held]) (fun x => by simp [held]) page
    empty
  have carried : Carried l sh (pageFree l a (pageQueueOf l a)) :=
    frame.carried inv.wf (held ▸ Held.nothing_noBlock) ⟨rfl, rfl⟩
  refine ⟨⟨inv.carry ⟨spans, nodes', wf'⟩ carried, fun x page' use full' unlinked => ?_⟩, frame⟩
  by_cases same : x = a
  · subst same
    exact absurd rfl unlinked
  · refine (full x same).carry carried (frame.inUse_iff.mp page') (fun full => ?_) (fun _ => by
      simp [held]) page' use full' unlinked
    rw [frame.getInFull_of_ne same] at full
    exact full

/-! ### The end of a page -/

/-- **The header of an empty page is cleared.** -/
theorem Inv.clearHeader (inv : Inv ⟨l, sh⟩) (held : l.held = .unlinked a) :
    ∃ l₁, segmentPageClearHeader l a = .ok l₁ ∧ Inv ⟨{ l₁ with held := .destroying a }, sh⟩ ∧
      PagesKept l { l₁ with held := .destroying a } ∧ l₁.taken = l.taken ∧ l₁.segs = l.segs := by
  obtain ⟨spans, nodes, wf⟩ : Wf l := inv.wf
  obtain ⟨l₁, result, segs⟩ : ∃ l₁, segmentPageClearHeader l a = .ok l₁ ∧ l₁.segs = l.segs := by
    unfold segmentPageClearHeader
    simp only [optionPageReset, Bool.and_false, Bool.false_eq_true, if_false]
    exact ⟨_, rfl, rfl⟩
  obtain ⟨page, empty⟩ := wf.unlinked a held
  obtain ⟨wf', inUse, outside', pageOf, _, heap, taken, os⟩ := wf.clearHeader held result
  obtain ⟨word, none⟩ := inv.toCore.quiet page empty
  have stays : ∀ x, x ≠ a → ({ l₁ with held := .destroying a } : Local).pages x = l.pages x := outside'
  have pageOf' : pageOfBlock { l₁ with held := .destroying a } = pageOfBlock l := pageOf
  have carried : Carried l sh { l₁ with held := .destroying a } := by
    refine ⟨by rw [heap], taken, by rw [held]; exact ⟨rfl, rfl⟩, ⟨rfl, rfl⟩,
      fun x old p member => ?_, fun x _ new => ?_, fun x new old => absurd ((inUse x).mp new).1 old,
      fun x old gone => ?_⟩
    · rw [pageOf']
      exact (inv.wf.of_mem_blocksOf old member).2.2
    · rw [stays x ((inUse x).mp new).2]
      exact ⟨rfl, rfl, rfl, rfl⟩
    · have same : x = a := by
        by_contra differs
        exact gone ((inUse x).mpr ⟨old, differs⟩)
      subst same
      exact ⟨word, none⟩
  refine ⟨l₁, result, ⟨inv.toCore.carry wf' carried, fun x page' use full' unlinked => ?_⟩,
    ⟨by rw [heap], congrArg Os.oracle os, fun x old used => ?_⟩, taken, segs⟩
  · obtain ⟨old, differs⟩ := (inUse x).mp page'
    refine (inv.full x).carry carried old (fun full => ?_) (fun _ => ?_) page' use full' unlinked
    · rw [stays x differs] at full
      exact full
    · simpa [held] using Ne.symm differs
  · have differs : x ≠ a := fun same => used (same ▸ empty)
    rw [stays x differs]
    exact ⟨(inUse x).mpr ⟨old, differs⟩, rfl, Nat.le_refl _⟩

/-- The word of the page is null already. -/
theorem Inv.disable (inv : Inv ⟨l, sh⟩) (held : l.held = .destroying a) :
    State.setThreadFree ⟨l, sh⟩ a { list := [], delay := .useDelayedFree } = ⟨l, sh⟩ := by
  obtain ⟨spans, nodes, wf⟩ : Wf l := inv.wf
  have word := inv.protocol.unused a (wf.destroyed held).1
  have words : (fun x => if x = a then ({ list := [], delay := .useDelayedFree } : ThreadFree)
      else sh.xthreadFree x) = sh.xthreadFree := by
    funext x
    by_cases same : x = a
    · rw [if_pos same, same]
      exact word.symm
    · rw [if_neg same]
  unfold State.setThreadFree
  simp only [words]

/-- **The span of the page is merged and queued.** -/
theorem Inv.clearSpan (inv : Inv ⟨l, sh⟩) (held : l.held = .destroying a) :
    ∃ l₁, segmentPageClearSpan l a = .ok l₁ ∧ Inv ⟨{ l₁ with held := .nothing }, sh⟩ ∧
      PagesKept l { l₁ with held := .nothing } ∧ l₁.taken = l.taken ∧
      (l₁.segs (ptrSegment a)).used + 1 = (l.segs (ptrSegment a)).used ∧
      (l₁.segs (ptrSegment a)).abandoned = 0 ∧ ¬InUse { l₁ with held := .nothing } a := by
  obtain ⟨spans, nodes, wf⟩ : Wf l := inv.wf
  obtain ⟨l₁, spans', result, whole, _, inUse, stays, heap, taken, used, abandoned, oracle⟩ :=
    wf.clearSpan held
  have wf' : Wf { l₁ with held := .nothing } := ⟨spans', nodes, whole⟩
  have noBlock : l.held.NoBlock := by rw [held]; exact ⟨rfl, rfl⟩
  have carried : Carried l sh { l₁ with held := .nothing } :=
    carried_of_stays wf' (by rw [heap]) taken noBlock Held.nothing_noBlock stays
      fun x new old => absurd ((inUse x).mp new) old
  refine ⟨l₁, result, ⟨inv.toCore.carry wf' carried, fun x page' use full' unlinked => ?_⟩,
    kept_of_stays (by rw [heap]) oracle stays, taken, used, abandoned,
    fun page => (wf.destroyed held).1 ((inUse a).mp page)⟩
  have old := (inUse x).mp page'
  refine (inv.full x).carry carried old (fun full => ?_) (fun _ => by simp [held]) page' use full'
    unlinked
  rw [Page.getInFull, (stays x old).relinked.same.2.2.2.2.2.1] at full
  exact full

/-! ### A new page -/

/-- **`page_fresh`** keeps the invariant. -/
theorem Inv.fresh {fuel pq page : Nat} (inv : Inv ⟨l, sh⟩) (held : l.held = .nothing) (lower : 1 ≤ pq)
    (upper : pq ≤ 52) (result : pageFresh fuel l pq = .ok (page, l')) :
    Inv ⟨l', sh⟩ ∧ PagesKept l l' ∧ l'.held = .nothing ∧ l'.taken = l.taken ∧
      (page = 0 ∨ (page ≠ 0 ∧ FreshPage l l' pq page)) := by
  obtain ⟨spans, nodes, wf⟩ : Wf l := inv.wf
  obtain ⟨wf', ⟨heapPtr, taken, held', oracle, stays⟩, outcome⟩ :=
    wf.fresh (fun x => by simp [held]) lower upper result
  rw [held] at held'
  have fresh : ∀ x, InUse l' x → ¬InUse l x →
      (l'.pages x).free = blocksOf l' x ∧ (l'.pages x).localFree = [] ∧
        (l'.pages x).getInFull = false := by
    intro x new old
    rcases outcome with ⟨_, inUse⟩ | ⟨_, made⟩
    · exact absurd ((inUse x).mp new) old
    · rcases (made.inUse x).mp new with old' | rfl
      · exact absurd old' old
      · exact ⟨made.free, made.localFree, made.notFull⟩
  have carried : Carried l sh l' :=
    carried_of_stays wf' heapPtr taken (held ▸ Held.nothing_noBlock) (held' ▸ Held.nothing_noBlock)
      stays fun x new old => ⟨(fresh x new old).1, (fresh x new old).2.1⟩
  refine ⟨⟨inv.toCore.carry wf' carried, fun x new use full' unlinked => ?_⟩,
    kept_of_stays heapPtr oracle stays, held', taken, outcome.imp And.left id⟩
  by_cases old : InUse l x
  · refine (inv.full x).carry carried old (fun full => ?_) (fun _ => by simp [held]) new use full'
      unlinked
    rw [Page.getInFull, (stays x old).relinked.same.2.2.2.2.2.1] at full
    exact full
  · have notFull := (fresh x new old).2.2
    change (l'.pages x).getInFull = true at full'
    rw [notFull] at full'
    cases full'

/-! ### A free by the owner -/

/-- `page_retire` keeps the page. -/
def Retained (l : Local) (page : Nat) : Prop :=
  let pq := pageQueueOf l page
  ((l.pages page).xblockSize ≤ maxRetireSize ∧ ¬(l.heap.pages pq).blockSize > mediumObjSizeMax) ∧
    (l.heap.pages pq).last = page ∧ (l.heap.pages pq).first = page

instance (l : Local) (page : Nat) : Decidable (Retained l page) := by
  unfold Retained
  infer_instance

/-- The full queue is no queue that `page_retire` keeps a page of. -/
theorem Retained.notFull (wf : Wf l) (retained : Retained l a) : (l.pages a).getInFull = false := by
  obtain ⟨spans, nodes, wf⟩ := wf
  by_contra full
  have inFull : (l.pages a).getInFull = true := by simpa using full
  obtain ⟨⟨_, small⟩, _⟩ := retained
  rw [pageQueueOf, if_pos inFull, wf.queues.blockSize] at small
  exact small (by decide +kernel)

/-- The lists of the page are left alone. -/
theorem Core.touched (inv : Core ⟨l, sh⟩) (page : InUse l a) (settled : l.held.Settled)
    (frame : BlockFrame l l') (others : ∀ x, x ≠ a → l'.pages x = l.pages x)
    (capacity : (l'.pages a).capacity = (l.pages a).capacity)
    (used : (l'.pages a).used = (l.pages a).used) (free : (l'.pages a).free = (l.pages a).free)
    (localFree : (l'.pages a).localFree = (l.pages a).localFree) (held : l'.held = l.held)
    (taken : l'.taken = l.taken) : Reworked l sh l' sh a := by
  obtain ⟨spans, nodes, wf⟩ : Wf l := inv.wf
  have sameDelayed : delayedBlocks l' sh = delayedBlocks l sh := by
    rw [delayedBlocks, delayedBlocks, frame.heapPtr, taken, held]
  have sameDirect : directBlocks l' sh = directBlocks l sh := by
    rw [directBlocks, directBlocks, held]
  have sameOutside : ∀ p, outside l' sh p = outside l sh p := fun p => by
    rw [outside, outside, sameDelayed, sameDirect]
  refine ⟨page, frame, others, settled, held ▸ settled, ?_, ?_, fun _ _ => rfl, rfl, rfl,
    fun p => by rw [sameDelayed], fun p _ => sameOutside p, fun p => ?_, fun p size inside => .inl inside,
    fun use => ?_, fun b _ => ?_⟩
  · rw [capacity]
    exact (wf.page a page).capacity
  · rw [used, free, localFree, capacity]
    exact wf.count a page
  · have blocks : blocksOf l' a = blocksOf l a := blocksOf_congr (frame.pages a).xblockSize capacity
    rw [sameOutside, blocks, listed, listed, free, localFree]
  · rw [held]
    exact inv.protocol.pending a use
  · rw [held]
    exact ⟨id, id⟩

/-- `page_retire`, by whether it keeps the page. -/
theorem pageRetire_eq (l : Local) (a : Nat) :
    pageRetire l a = if Retained l a then (false, retireOnly l a (pageQueueOf l a))
      else (true, pageFree l a (pageQueueOf l a)) := by
  by_cases retained : Retained l a
  · rw [if_pos retained]
    exact if_pos retained
  · rw [if_neg retained]
    exact if_neg retained

/-- What a free by the owner does up to the end of the page. -/
structure Freed (l l' : Local) (sh : Shared) : Prop where
  inv : Inv ⟨l', sh⟩
  kept : AllKept l l'
  taken : l'.taken = l.taken
  segs : l'.segs = l.segs
  segments : l'.segments = l.segments
  os : l'.os = l.os

/-- **`page_retire`** of an empty page. -/
theorem pageRetire_spec (core : Core ⟨l, sh⟩) (full : ∀ x, x ≠ a → FullOk l sh x)
    (held : l.held = .nothing) (page : InUse l a) (empty : (l.pages a).used = 0) :
    ∃ freed l', pageRetire l a = (freed, l') ∧ Freed l l' sh ∧ (freed = true ↔ ¬Retained l a) ∧
      l'.held = if freed then .unlinked a else .nothing := by
  rw [pageRetire_eq]
  by_cases retained : Retained l a
  · have settled : l.held.Settled := by
      rw [held]
      exact fun x => ⟨by simp, by simp⟩
    have notFull := retained.notFull core.wf
    obtain ⟨l', l'Eq⟩ : ∃ l', l' = retireOnly l a (pageQueueOf l a) := ⟨_, rfl⟩
    have header : l'.pages a = (l.pages a).setRetireExpire (.ofNat 8 (1 +
        if (l.pages a).xblockSize ≤ smallObjSizeMax then retireCycles else retireCycles / 4)) := by
      rw [l'Eq]
      exact if_pos rfl
    have others : ∀ x, x ≠ a → l'.pages x = l.pages x := fun x differs => by
      rw [l'Eq]
      exact if_neg differs
    have frame : BlockFrame l l' := by
      rw [l'Eq] at header others ⊢
      refine ⟨rfl, rfl, rfl, .of_eq rfl, rfl, rfl, rfl, rfl, rfl, rfl, fun x => ?_⟩
      by_cases same : x = a
      · rw [same, header]
        exact ⟨rfl, rfl, rfl, rfl, rfl, rfl, fun _ => rfl, rfl, rfl⟩
      · rw [others x same]
        exact .refl _
    have held' : l'.held = .nothing := by
      rw [l'Eq]
      exact held
    have taken : l'.taken = l.taken := by
      rw [l'Eq]
      rfl
    have step : Reworked l sh l' sh a :=
      core.touched page settled frame others (by rw [header]; rfl) (by rw [header]; rfl)
        (by rw [header]; rfl) (by rw [header]; rfl) (held'.trans held.symm) taken
    rw [if_pos retained, ← l'Eq]
    refine ⟨false, l', rfl, ⟨⟨core.rework step, fun x => ?_⟩, frame.kept fun x => ?_, taken, frame.segs,
      frame.segments, by rw [l'Eq]; rfl⟩, by simpa using retained, held'⟩
    · by_cases same : x = a
      · subst same
        intro _ _ inFull _
        rw [(frame.pages x).inFull, notFull] at inFull
        cases inFull
      · exact (full x same).rework step same
    · by_cases same : x = a
      · rw [same, header]
        exact Nat.le_refl _
      · rw [others x same]
  · rw [if_neg retained]
    obtain ⟨inv, frame⟩ := core.unqueue full held page empty
    exact ⟨true, _, rfl, ⟨inv, frame.kept, frame.queue.taken, frame.queue.segs, frame.queue.segments,
      frame.queue.os⟩, by simpa using retained, rfl⟩

/-- **A free by the owner**, up to the end of the page. -/
theorem freeBlockLocal_spec (inv : Inv ⟨l, sh⟩) (direct : l.held.direct = [p])
    (on : pageOfBlock l p = a) (collected : (sh.xthreadFree a).delay = .useDelayedFree →
      (sh.xthreadFree a).list = []) :
    ∃ freed l', freeBlockLocal l a p = .ok (freed, l') ∧ Freed l l' sh ∧
      (freed = true ↔ (l.pages a).used = 1 ∧ ¬Retained l a) ∧
      l'.held = if freed then .unlinked a else .nothing := by
  obtain ⟨l₁, insert, positive, page, held₁, taken₁, frame₁, others₁, header₁, core, full⟩ :=
    Core.insertFree inv direct on collected
  have page₁ : InUse l₁ a := frame₁.inUse_iff.mpr page
  have used₁ : (l₁.pages a).used = (l.pages a).used - 1 := by rw [header₁]
  have kept₁ : AllKept l l₁ := frame₁.kept fun x => by
    by_cases same : x = a
    · rw [same, header₁]
    · rw [others₁ x same]
  have retained_iff : Retained l₁ a ↔ Retained l a := by
    simp only [Retained, frame₁.pageQueueOf_eq, (frame₁.pages a).xblockSize, frame₁.queues]
  have os₁ : l₁.os = l.os := by
    have unfolded := insert
    unfold insertFree at unfolded
    rw [if_neg (by omega)] at unfolded
    cases unfolded
    rfl
  have after : ∀ {l'}, Freed l₁ l' sh → Freed l l' sh := fun rest =>
    ⟨rest.inv, kept₁.trans rest.kept, rest.taken.trans taken₁, rest.segs.trans frame₁.segs,
      rest.segments.trans frame₁.segments, rest.os.trans os₁⟩
  unfold freeBlockLocal
  simp only [insert, bind, Except.bind, pure, Except.pure]
  by_cases last : (l.pages a).used - 1 = 0
  · have one : (l.pages a).used = 1 := by omega
    rw [if_pos last]
    obtain ⟨freed, l', retire, rest, iff, held⟩ :=
      pageRetire_spec core full held₁ page₁ (used₁.trans last)
    rw [retained_iff] at iff
    exact ⟨freed, l', by rw [retire], after rest, by simpa [one] using iff, held⟩
  · have more : (l.pages a).used ≠ 1 := by omega
    rw [if_neg last]
    by_cases inFull : (l₁.pages a).getInFull = true
    · obtain ⟨inv', held', frame⟩ := core.unfull full held₁ page₁ inFull
      rw [if_pos inFull]
      exact ⟨false, _, rfl, after ⟨inv', frame.kept, frame.queue.taken, frame.queue.segs,
        frame.queue.segments, frame.queue.os⟩, by simp [more], held'⟩
    · rw [if_neg inFull]
      refine ⟨false, l₁, rfl, after ⟨⟨core, fun x => ?_⟩, ⟨rfl, rfl, fun x page => ⟨page, rfl, Nat.le_refl _⟩⟩,
        rfl, rfl, rfl, rfl⟩, by simp [more], held₁⟩
      by_cases same : x = a
      · subst same
        exact fun _ _ full' _ => absurd full' inFull
      · exact full x same

end VerusMimalloc
