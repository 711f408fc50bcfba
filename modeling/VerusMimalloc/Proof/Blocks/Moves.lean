/-
**What a step of the owner does to the queues.**

* `InFull`, `Exhausted`, `Empty`, `AtHead`: the pages that the full queue and `page_retire` are about;
* `PageKept`, `OwnerMoves`: what every step of the owner guarantees to the rest of the system;
* `PageQueuesOk.first_remove`, `PageQueuesOk.first_pushBack`: the head of a queue stays;
* `BlockFrame.ownerMoves`: the blocks of one page change;
* `Inv.toFull_kept`, `freeBlockLocal_kept`, `Inv.clearHeader_kept`, `Inv.clearSpan_kept`,
  `Inv.fresh_kept`: pages move, go and come.
-/

import VerusMimalloc.Proof.Blocks.Relisted

namespace VerusMimalloc

open Library

variable {s t : State} {l l' : Local} {sh sh' : Shared} {a p pq : Nat}

/-! ### Pages -/

/-- The page is in the full queue. -/
structure InFull (l : Local) (a : Nat) : Prop where
  page : InUse l a
  flag : (l.pages a).getInFull = true
  queued : l.held ≠ .unlinked a

/-- The page has no free block and no room for more. -/
structure Exhausted (l : Local) (a : Nat) : Prop where
  page : InUse l a
  free : (l.pages a).free = []
  localFree : (l.pages a).localFree = []
  capacity : (l.pages a).capacity = (l.pages a).reserved

/-- The page is empty and still in a queue. -/
structure Empty (l : Local) (a : Nat) : Prop where
  page : InUse l a
  used : (l.pages a).used = 0
  queued : l.held ≠ .unlinked a

/-- The page is the first one of the queue of its bin. -/
structure AtHead (l : Local) (a : Nat) : Prop where
  notFull : (l.pages a).getInFull = false
  first : (l.heap.pages (bin (l.pages a).xblockSize)).first = a

/-- Every empty page is the first one of the queue of its bin. -/
def EmptyFirst (l : Local) : Prop := ∀ a, Empty l a → AtHead l a

/-- What a step of the owner guarantees about a page. -/
structure PageKept (s t : State) (a : Nat) : Prop where
  /-- A page of the full queue gets only blocks that other threads freed, and a page that comes there
  is exhausted. -/
  full : InFull t.loc a →
    (InFull s.loc a ∧ ∀ p ∈ (t.loc.pages a).free ++ (t.loc.pages a).localFree,
      p ∈ (s.loc.pages a).free ++ (s.loc.pages a).localFree ++ (s.sh.xthreadFree a).list) ∨
    (Exhausted s.loc a ∧ Exhausted t.loc a)
  /-- A page that becomes empty is the only one of its queue, or it is a new one. -/
  before : Empty t.loc a → (Empty s.loc a ∧ (AtHead s.loc a → AtHead t.loc a)) ∨
    (AtHead t.loc a ∧
      (InUse s.loc a → (t.loc.heap.pages (bin (t.loc.pages a).xblockSize)).last = a))
  /-- An empty page stays until one of its blocks is taken. -/
  after : Empty s.loc a →
    (Empty t.loc a ∧ (t.loc.pages a).xblockSize = (s.loc.pages a).xblockSize) ∨
      t.sh.live ≠ s.sh.live ∨ t.loc.held = .unlinked a

/-- What every step of the owner guarantees to the rest of the system. -/
structure OwnerMoves (s t : State) : Prop where
  threads : t.sh.threads = s.sh.threads
  live : t.sh.live = s.sh.live ∨ ∃ p size, t.sh.live = (p, size) :: s.sh.live
  lists : ∀ a, (t.sh.xthreadFree a).list ⊆ (s.sh.xthreadFree a).list
  page : ∀ a, PageKept s t a
  relisted : Relisted s t

/-- **Empty pages stay first.** -/
theorem OwnerMoves.emptyFirst (kept : OwnerMoves s t) (first : EmptyFirst s.loc) :
    EmptyFirst t.loc := by
  intro a empty
  rcases (kept.page a).before empty with ⟨old, stays⟩ | ⟨head, _⟩
  · exact stays (first a old)
  · exact head

/-! ### Pages that a step is not about -/

/-- The headers agree on the flag, the block size and the blocks. -/
structure SameLists (p q : Page) : Prop where
  xblockSize : q.xblockSize = p.xblockSize
  inFull : q.getInFull = p.getInFull
  used : q.used = p.used
  free : q.free = p.free
  localFree : q.localFree = p.localFree

theorem SameLists.of_eq {p q : Page} (same : q = p) : SameLists p q := by
  subst same
  exact ⟨rfl, rfl, rfl, rfl, rfl⟩

theorem Relinked.sameLists {p q : Page} (relinked : Relinked p q) : SameLists p q := by
  obtain ⟨_, _, rfl⟩ := relinked
  exact ⟨rfl, rfl, rfl, rfl, rfl⟩

theorem MoveFrame.sameLists {x : Nat} {flags1 : BitVec 8} (frame : MoveFrame l l' a flags1)
    (differs : x ≠ a) : SameLists (l.pages x) (l'.pages x) := by
  obtain ⟨_, _, xblockSize, _, _, _, used, free, localFree, _⟩ := frame.same x
  exact ⟨xblockSize, frame.getInFull_of_ne differs, used, free, localFree⟩

/-- The lists of the page change, and the page stays in its queue. -/
theorem PageKept.relist (inUse : InUse t.loc a ↔ InUse s.loc a)
    (held : t.loc.held = .unlinked a ↔ s.loc.held = .unlinked a)
    (shape : InUse s.loc a → (t.loc.pages a).xblockSize = (s.loc.pages a).xblockSize ∧
      (t.loc.pages a).getInFull = (s.loc.pages a).getInFull)
    (lists : InFull s.loc a → ∀ p ∈ (t.loc.pages a).free ++ (t.loc.pages a).localFree,
      p ∈ (s.loc.pages a).free ++ (s.loc.pages a).localFree ++ (s.sh.xthreadFree a).list)
    (down : InUse s.loc a → (t.loc.pages a).used = 0 → (s.loc.pages a).used = 0)
    (up : Empty s.loc a → (t.loc.pages a).used = 0 ∨ t.sh.live ≠ s.sh.live)
    (head : Empty s.loc a → AtHead s.loc a →
      (t.loc.heap.pages (bin (s.loc.pages a).xblockSize)).first = a) : PageKept s t a := by
  refine ⟨fun full => ?_, fun empty => ?_, fun empty => ?_⟩
  · have page := inUse.mp full.page
    have inFull : InFull s.loc a :=
      ⟨page, (shape page).2 ▸ full.flag, fun unlinked => full.queued (held.mpr unlinked)⟩
    exact .inl ⟨inFull, lists inFull⟩
  · have page := inUse.mp empty.page
    have old : Empty s.loc a :=
      ⟨page, down page empty.used, fun unlinked => empty.queued (held.mpr unlinked)⟩
    refine .inl ⟨old, fun atHead => ⟨(shape page).2.trans atHead.notFull, ?_⟩⟩
    rw [(shape page).1]
    exact head old atHead
  · refine (up empty).imp (fun used => ⟨⟨inUse.mpr empty.page, used, fun unlinked => ?_⟩, ?_⟩) .inl
    · exact empty.queued (held.mp unlinked)
    · exact (shape empty.page).1

/-- The step is not about the page. -/
theorem PageKept.same (inUse : InUse t.loc a ↔ InUse s.loc a)
    (held : t.loc.held = .unlinked a ↔ s.loc.held = .unlinked a)
    (blocks : InUse s.loc a → SameLists (s.loc.pages a) (t.loc.pages a))
    (head : Empty s.loc a → AtHead s.loc a →
      (t.loc.heap.pages (bin (s.loc.pages a).xblockSize)).first = a) : PageKept s t a := by
  refine .relist inUse held (fun page => ⟨(blocks page).xblockSize, (blocks page).inFull⟩)
    (fun full p inside => ?_) (fun page used => ?_) (fun empty => .inl ?_) head
  · rw [(blocks full.page).free, (blocks full.page).localFree] at inside
    exact List.mem_append_left _ inside
  · rw [← (blocks page).used]
    exact used
  · rw [(blocks empty.page).used]
    exact empty.used

/-- The page is in no queue after the step. -/
theorem PageKept.gone (gone : ¬(InUse t.loc a ∧ t.loc.held ≠ .unlinked a))
    (unlinked : Empty s.loc a → t.loc.held = .unlinked a) : PageKept s t a :=
  ⟨fun full => absurd ⟨full.page, full.queued⟩ gone, fun empty => absurd ⟨empty.page, empty.queued⟩ gone,
    fun empty => .inr (.inr (unlinked empty))⟩

/-- Nothing happens. -/
theorem OwnerMoves.refl (s : State) : OwnerMoves s s :=
  ⟨rfl, .inl rfl, fun _ => List.Subset.refl _, fun _ => .same Iff.rfl Iff.rfl (fun _ => .of_eq rfl)
    fun _ head => head.first, .refl s⟩

/-- **The blocks of one page change.** -/
theorem BlockFrame.ownerMoves (frame : BlockFrame l l')
    (others : ∀ x, x ≠ a → l'.pages x = l.pages x)
    (held : ∀ x, l'.held = .unlinked x ↔ l.held = .unlinked x) (threads : sh'.threads = sh.threads)
    (live : sh'.live = sh.live ∨ ∃ p size, sh'.live = (p, size) :: sh.live)
    (words : ∀ x, (sh'.xthreadFree x).list ⊆ (sh.xthreadFree x).list)
    (lists : InFull l a → ∀ p ∈ (l'.pages a).free ++ (l'.pages a).localFree,
      p ∈ (l.pages a).free ++ (l.pages a).localFree ++ (sh.xthreadFree a).list)
    (down : InUse l a → (l'.pages a).used = 0 → (l.pages a).used = 0)
    (up : (l.pages a).used = 0 → (l'.pages a).used = 0 ∨ sh'.live ≠ sh.live)
    (relisted : Relisted ⟨l, sh⟩ ⟨l', sh'⟩) : OwnerMoves ⟨l, sh⟩ ⟨l', sh'⟩ := by
  refine ⟨threads, live, words, fun x => ?_, relisted⟩
  have head : ∀ i, (l'.heap.pages i).first = (l.heap.pages i).first := fun i => by rw [frame.queues]
  by_cases same : x = a
  · subst same
    exact .relist frame.inUse_iff (held x)
      (fun _ => ⟨(frame.pages x).xblockSize, (frame.pages x).inFull⟩) lists down
      (fun empty => up empty.used) fun _ atHead => (head _).trans atHead.first
  · exact .same frame.inUse_iff (held x) (fun _ => .of_eq (others x same))
      fun _ atHead => (head _).trans atHead.first

/-- No header changes. -/
theorem BlockFrame.ownerMoves_of_pages (frame : BlockFrame l l') (pages : l'.pages = l.pages)
    (before : l.held.Settled) (after : l'.held.Settled) (threads : sh'.threads = sh.threads)
    (live : sh'.live = sh.live) (words : ∀ x, (sh'.xthreadFree x).list = (sh.xthreadFree x).list)
    (relisted : Relisted ⟨l, sh⟩ ⟨l', sh'⟩) : OwnerMoves ⟨l, sh⟩ ⟨l', sh'⟩ := by
  refine frame.ownerMoves (a := 0) (fun x _ => by rw [pages])
    (fun x => iff_of_false (after x).2 (before x).2) threads (.inl live) (fun x => by rw [words x]; exact fun _ => id)
    (fun _ p inside => ?_) (fun _ used => ?_) (fun used => .inl ?_) relisted
  · rw [pages] at inside
    exact List.mem_append_left _ inside
  · rw [pages] at used
    exact used
  · rw [pages]
    exact used

/-! ### Heads of queues -/

@[simp] theorem heapQueueFirstUpdate_queues (l : Local) (pq : Nat) :
    (heapQueueFirstUpdate l pq).heap.pages = l.heap.pages := by
  unfold heapQueueFirstUpdate
  generalize smallSizeMax = bound
  simp only [setDirect_eq]
  split_ifs <;> rfl

@[simp] theorem setPageCount_queues (l : Local) (count : Nat) :
    (setPageCount l count).heap.pages = l.heap.pages := rfl

/-- The queues after `page_queue_remove`. -/
theorem pageQueueRemove_first (l : Local) (pq a i : Nat) :
    ((pageQueueRemove l pq a).heap.pages i).first =
      if i = pq ∧ (l.pages a).prev = 0 then (l.pages a).next else (l.heap.pages i).first := by
  unfold pageQueueRemove
  show ((setPageCount _ _).heap.pages i).first = _
  rw [setPageCount_queues]
  by_cases first : (l.pages a).prev = 0 <;> by_cases last : (l.pages a).next = 0 <;>
    by_cases same : i = pq <;> simp [first, last, same]

/-- The queues after `page_queue_push_back`. -/
theorem pageQueuePushBack_first (l : Local) (pq a i : Nat) :
    ((pageQueuePushBack l pq a).heap.pages i).first =
      if i = pq ∧ (l.heap.pages pq).last = 0 then a else (l.heap.pages i).first := by
  unfold pageQueuePushBack
  by_cases none : (l.heap.pages pq).last = 0 <;> by_cases same : i = pq <;>
    simp [none, same]

/-- The queues after `page_queue_push`. -/
theorem pageQueuePush_first (l : Local) (pq a i : Nat) :
    ((pageQueuePush l pq a).heap.pages i).first =
      if i = pq then a else (l.heap.pages i).first := by
  unfold pageQueuePush
  by_cases none : (l.heap.pages pq).first = 0 <;> by_cases same : i = pq <;>
    simp [none, same]

namespace PageQueuesOk

variable {nodes : Nat → List Nat} {x i : Nat}

/-- Another page stays first when a page is unlinked. -/
theorem first_remove (ok : PageQueuesOk l nodes) (member : a ∈ nodes pq)
    (first : (l.heap.pages i).first = x) (differs : x ≠ a) :
    ((pageQueueRemove l pq a).heap.pages i).first = x := by
  rw [pageQueueRemove_first, if_neg, first]
  rintro ⟨rfl, start⟩
  obtain ⟨left, right, split⟩ := List.append_of_mem member
  have list := ok.list i
  rw [split] at list
  obtain rfl := list.prev_eq_nil_iff.mp start
  exact differs (first.symm.trans list.first_eq)

/-- Another page stays first when a page is linked behind it. -/
theorem first_pushBack (ok : PageQueuesOk l nodes) (first : (l.heap.pages i).first = x)
    (nonzero : x ≠ 0) : ((pageQueuePushBack l pq a).heap.pages i).first = x := by
  rw [pageQueuePushBack_first, if_neg, first]
  rintro ⟨rfl, none⟩
  have empty := (ok.list i).last_eq_nil_iff.mp none
  exact nonzero (first.symm.trans ((ok.list i).first_eq_nil_iff.mpr empty))

end PageQueuesOk

section Heads

variable {spans : Nat → List Span} {nodes : Nat → List Nat} {x i : Nat}

theorem WfWith.nonzero (wf : WfWith l spans nodes) (page : InUse l x) : x ≠ 0 := by
  obtain ⟨_, _, _, place, _⟩ := wf.exists_pageAt page
  exact place.nonzero

/-- Another page stays first when a page changes its queue. -/
theorem WfWith.first_enqueueFrom {source target : Nat} (wf : WfWith l spans nodes)
    (member : a ∈ nodes source) (page : InUse l x) (differs : x ≠ a)
    (first : (l.heap.pages i).first = x) :
    ((pageQueueEnqueueFrom l target source a).heap.pages i).first = x := by
  obtain ⟨inUse, _, sourceEq⟩ := wf.of_mem member
  obtain ⟨⟨nodes₁, queues₁, _⟩, _⟩ :=
    wf.queues.remove wf.direct (sourceEq ▸ (wf.pageQueueOf_bounds inUse).1) member
  exact queues₁.first_pushBack (wf.queues.first_remove member first differs) (wf.nonzero page)

/-- A page has room for a block. -/
theorem WfWith.reserved_pos (wf : WfWith l spans nodes) (page : InUse l x) :
    0 < (l.pages x).reserved := by
  obtain ⟨⟨pq, lower, upper, size⟩, slices, reserved, _⟩ := wf.page x page
  rw [reserved, slices, size]
  exact (reserved_bounds lower upper).1

end Heads

/-! ### Pages move -/

/-- **`page_queue_enqueue_from` to the full queue** moves an exhausted page. -/
theorem Inv.toFull_kept (inv : Inv ⟨l, sh⟩) (held : l.held = .nothing) (queue : pageQueueOf l a = pq)
    (exhausted : Exhausted l a) :
    OwnerMoves ⟨l, sh⟩ ⟨pageQueueEnqueueFrom l binFull pq a, sh⟩ := by
  obtain ⟨_, held', frame⟩ :=
    inv.toFull held exhausted.page queue exhausted.free exhausted.localFree
  obtain ⟨spans, nodes, wf⟩ : Wf l := inv.wf
  have member : a ∈ nodes pq := (wf.queued pq a).mpr ⟨exhausted.page, by simp [held], queue.symm⟩
  have used : (l.pages a).used ≠ 0 := by
    have count := wf.count a exhausted.page
    have room := wf.reserved_pos exhausted.page
    rw [exhausted.free, exhausted.localFree, exhausted.capacity] at count
    simp only [List.length_nil] at count
    omega
  refine ⟨rfl, .inl rfl, fun _ => List.Subset.refl _, fun x => ?_, .same frame.listsAgree rfl rfl⟩
  by_cases same : x = a
  · subst same
    obtain ⟨_, _, _, reserved, _, capacity, sameUsed, free, localFree, _⟩ := frame.same x
    refine ⟨fun _ => .inr ⟨exhausted, frame.inUse_iff.mpr exhausted.page, free.trans exhausted.free,
      localFree.trans exhausted.localFree, ?_⟩, fun empty => ?_, fun empty => absurd empty.used used⟩
    · rw [capacity, reserved]
      exact exhausted.capacity
    · exact absurd (sameUsed.symm.trans empty.used) used
  · exact .same frame.inUse_iff (by rw [held', held]) (fun _ => frame.sameLists same)
      fun empty atHead => wf.first_enqueueFrom member empty.page same atHead.first

/-- **`page_free`** up to `segment_page_free`: the page leaves its queue. -/
theorem Core.unqueue_kept (core : Core ⟨l, sh⟩) (held : l.held = .nothing) (page : InUse l a)
    (empty : (l.pages a).used = 0) {x : Nat} (differs : x ≠ a) :
    PageKept ⟨l, sh⟩ ⟨pageFree l a (pageQueueOf l a), sh⟩ x := by
  obtain ⟨spans, nodes, wf⟩ : Wf l := core.wf
  obtain ⟨_, _, frame⟩ := wf.unqueue (fun x => by simp [held]) (fun x => by simp [held]) page empty
  have member : a ∈ nodes (pageQueueOf l a) := (wf.queued _ a).mpr ⟨page, by simp [held], rfl⟩
  refine .same frame.inUse_iff ?_ (fun _ => frame.sameLists differs) fun empty atHead => ?_
  · change Held.unlinked a = .unlinked x ↔ l.held = .unlinked x
    simp [held, Ne.symm differs]
  · have blockFrame : BlockFrame l (l.modifyPage a fun p => p.setHasAligned false) :=
      .modifyPage l a fun p => ⟨rfl, rfl, rfl, rfl, rfl, rfl, fun _ => rfl, by simp, rfl⟩
    change ((pageQueueRemove (l.modifyPage a fun p => p.setHasAligned false) (pageQueueOf l a)
      a).heap.pages _).first = x
    have start : (((l.modifyPage a fun p => p.setHasAligned false).pages a).prev) =
      (l.pages a).prev := (blockFrame.pages a).prev
    have next : (((l.modifyPage a fun p => p.setHasAligned false).pages a).next) =
      (l.pages a).next := (blockFrame.pages a).next
    rw [pageQueueRemove_first, start, next]
    exact (pageQueueRemove_first l _ a _).symm.trans
      (wf.queues.first_remove member atHead.first differs)

/-- A page that leaves its queue keeps its lists. -/
theorem Core.unqueue_agree (core : Core ⟨l, sh⟩) (held : l.held = .nothing) (page : InUse l a)
    (empty : (l.pages a).used = 0) : ListsAgree l (pageFree l a (pageQueueOf l a)) := by
  obtain ⟨spans, nodes, wf⟩ : Wf l := core.wf
  obtain ⟨_, _, frame⟩ := wf.unqueue (fun x => by simp [held]) (fun x => by simp [held]) page empty
  exact frame.listsAgree

/-- **`page_free`** up to `segment_page_free`. -/
theorem Core.unqueue_moves (core : Core ⟨l, sh⟩) (held : l.held = .nothing) (page : InUse l a)
    (empty : (l.pages a).used = 0) : OwnerMoves ⟨l, sh⟩ ⟨pageFree l a (pageQueueOf l a), sh⟩ := by
  refine ⟨rfl, .inl rfl, fun _ => List.Subset.refl _, fun x => ?_,
    .same (core.unqueue_agree held page empty) rfl rfl⟩
  by_cases same : x = a
  · subst same
    exact .gone (fun both => both.2 rfl) fun _ => rfl
  · exact core.unqueue_kept held page empty same

/-- The page's header after `page_retire` kept it. -/
theorem retireOnly_pages (l : Local) (a pq x : Nat) :
    SameLists (l.pages x) ((retireOnly l a pq).pages x) := by
  change SameLists (l.pages x) (if x = a then Page.setRetireExpire _ _ else l.pages x)
  split
  · exact ⟨rfl, rfl, rfl, rfl, rfl⟩
  · exact .of_eq rfl

/-- **`page_retire`** of an empty page keeps it only when it is alone in the queue of its bin. -/
theorem Core.retire_kept (core : Core ⟨l, sh⟩) (held : l.held = .nothing) (page : InUse l a)
    (empty : (l.pages a).used = 0) {freed : Bool} (result : pageRetire l a = (freed, l')) :
    (∀ x, x ≠ a → PageKept ⟨l, sh⟩ ⟨l', sh⟩ x) ∧ ListsAgree l l' ∧
      ((freed = true ∧ l'.held = .unlinked a) ∨ (freed = false ∧ InUse l' a ∧ AtHead l' a ∧
        (l'.heap.pages (bin (l'.pages a).xblockSize)).last = a)) := by
  rw [pageRetire_eq] at result
  by_cases retained : Retained l a
  · rw [if_pos retained] at result
    cases result
    have notFull := retained.notFull core.wf
    have header := retireOnly_pages l a (pageQueueOf l a) a
    have queue : pageQueueOf l a = bin (l.pages a).xblockSize := by
      rw [pageQueueOf, notFull, if_neg (by decide)]
    obtain ⟨_, last, first⟩ := retained
    rw [queue] at last first
    have inUse : ∀ x, InUse (retireOnly l a (pageQueueOf l a)) x ↔ InUse l x := fun x => by
      simp only [InUse, (retireOnly_pages l a (pageQueueOf l a) x).xblockSize]
      rfl
    refine ⟨fun x differs => .same (inUse x) Iff.rfl (fun _ => retireOnly_pages l a _ x)
      fun _ atHead => atHead.first, ⟨fun x => (retireOnly_pages l a _ x).free,
        fun x => (retireOnly_pages l a _ x).localFree, rfl⟩,
      .inr ⟨rfl, (inUse a).mpr page, ⟨header.inFull.trans notFull, ?_⟩, ?_⟩⟩
    · rw [header.xblockSize]
      exact first
    · rw [header.xblockSize]
      exact last
  · rw [if_neg retained] at result
    cases result
    exact ⟨fun x differs => core.unqueue_kept held page empty differs,
      core.unqueue_agree held page empty, .inl ⟨rfl, rfl⟩⟩

/-- **A free by the owner**, up to the end of the page: the page is on its way back to its segment, or
it is not full. -/
theorem freeBlockLocal_kept (inv : Inv ⟨l, sh⟩) (direct : l.held.direct = [p])
    (on : pageOfBlock l p = a) (collected : (sh.xthreadFree a).delay = .useDelayedFree →
      (sh.xthreadFree a).list = []) {freed : Bool} (result : freeBlockLocal l a p = .ok (freed, l')) :
    OwnerMoves ⟨l, sh⟩ ⟨l', sh⟩ ∧
      (freed = false → InUse l' a ∧ (l'.pages a).getInFull = false) := by
  obtain ⟨l₁, insert, positive, page, held₁, taken₁, frame₁, others₁, header₁, core, full⟩ :=
    Core.insertFree inv direct on collected
  have page₁ : InUse l₁ a := frame₁.inUse_iff.mpr page
  have used₁ : (l₁.pages a).used = (l.pages a).used - 1 := by rw [header₁]
  have notEmpty : ¬Empty l a := fun empty => by
    have := empty.used
    omega
  have relisted : ∀ {l₂}, ListsAgree l₁ l₂ → Relisted ⟨l, sh⟩ ⟨l₂, sh⟩ := fun agree =>
    .insertBlock others₁ (by rw [header₁]) (by rw [header₁]) agree taken₁ sh
  have free : ∀ x, l.held ≠ .unlinked x := fun x unlinked => by
    rw [unlinked] at direct
    cases direct
  -- a page that is the same in both states is also the same across the insertion
  have before : ∀ x, x ≠ a → PageKept ⟨l₁, sh⟩ ⟨l', sh⟩ x → PageKept ⟨l, sh⟩ ⟨l', sh⟩ x := by
    intro x differs kept
    have same := others₁ x differs
    have inUse : InUse l₁ x ↔ InUse l x := frame₁.inUse_iff
    have empty_iff : Empty l₁ x ↔ Empty l x := by
      constructor
      · exact fun empty => ⟨inUse.mp empty.page, same ▸ empty.used, free x⟩
      · exact fun empty => ⟨inUse.mpr empty.page, same.symm ▸ empty.used, by simp [held₁]⟩
    have atHead : AtHead l x → AtHead l₁ x := fun head => by
      refine ⟨same.symm ▸ head.notFull, ?_⟩
      rw [same, frame₁.queues]
      exact head.first
    obtain ⟨keptFull, keptBefore, keptAfter⟩ := kept
    simp only [inUse, empty_iff, same] at keptFull keptBefore keptAfter
    refine ⟨fun full => ?_, fun empty => ?_, keptAfter⟩
    · refine (keptFull full).imp (fun both => ⟨⟨inUse.mp both.1.page, same ▸ both.1.flag, free x⟩,
        both.2⟩) fun both => ⟨⟨inUse.mp both.1.page, ?_, ?_, ?_⟩, both.2⟩
      · exact same ▸ both.1.free
      · exact same ▸ both.1.localFree
      · exact same ▸ both.1.capacity
    · exact (keptBefore empty).imp (fun both => ⟨both.1, fun head => both.2 (atHead head)⟩) id
  unfold freeBlockLocal at result
  simp only [insert, bind, Except.bind, pure, Except.pure] at result
  by_cases last : (l.pages a).used - 1 = 0
  · rw [if_pos last] at result
    injection result with result
    obtain ⟨others, agree, outcome⟩ := core.retire_kept held₁ page₁ (used₁.trans last) result
    refine ⟨⟨rfl, .inl rfl, fun _ => List.Subset.refl _, fun x => ?_, relisted agree⟩, fun kept => ?_⟩
    · by_cases same : x = a
      · subst same
        rcases outcome with ⟨_, unlinked⟩ | ⟨_, _, atHead, lastPage⟩
        · exact .gone (fun both => both.2 unlinked) fun empty => absurd empty notEmpty
        · refine ⟨fun full => ?_, fun _ => .inr ⟨atHead, fun _ => lastPage⟩,
            fun empty => absurd empty notEmpty⟩
          have flag := full.flag
          rw [atHead.notFull] at flag
          cases flag
      · exact before x same (others x same)
    · rcases outcome with ⟨isFreed, _⟩ | ⟨_, stays, atHead, _⟩
      · rw [kept] at isFreed
        cases isFreed
      · exact ⟨stays, atHead.notFull⟩
  · rw [if_neg last] at result
    -- the page keeps a block that is not free, and it is not full afterwards
    have finish : InUse l' a → (l'.pages a).getInFull = false → (l'.pages a).used ≠ 0 →
        (∀ x, x ≠ a → PageKept ⟨l₁, sh⟩ ⟨l', sh⟩ x) → ListsAgree l₁ l' →
        OwnerMoves ⟨l, sh⟩ ⟨l', sh⟩ ∧ (freed = false → InUse l' a ∧ (l'.pages a).getInFull = false) := by
      intro stays notFull used others agree
      refine ⟨⟨rfl, .inl rfl, fun _ => List.Subset.refl _, fun x => ?_, relisted agree⟩,
        fun _ => ⟨stays, notFull⟩⟩
      by_cases same : x = a
      · subst same
        refine ⟨fun full => ?_, fun empty => absurd empty.used used, fun empty => absurd empty notEmpty⟩
        have flag := full.flag
        simp only at flag
        rw [notFull] at flag
        cases flag
      · exact before x same (others x same)
    by_cases inFull : (l₁.pages a).getInFull = true
    · rw [if_pos inFull] at result
      cases result
      obtain ⟨_, held', frame⟩ := core.unfull full held₁ page₁ inFull
      obtain ⟨spans, nodes, wf⟩ : Wf l₁ := core.wf
      have member : a ∈ nodes binFull := (wf.queued _ a).mpr ⟨page₁, by simp [held₁], by
        rw [pageQueueOf, if_pos inFull]⟩
      refine finish (frame.inUse_iff.mpr page₁) ?_ ?_ (fun x differs => .same frame.inUse_iff
        (by rw [held', held₁]) (fun _ => frame.sameLists differs) fun empty atHead =>
          wf.first_enqueueFrom member empty.page differs atHead.first) frame.listsAgree
      · obtain ⟨prev, next, moved⟩ := frame.pages a
        rw [moved, if_pos rfl]
        exact Page.getInFull_setInFull ..
      · rw [(frame.same a).2.2.2.2.2.2.1, used₁]
        exact last
    · rw [if_neg inFull] at result
      cases result
      exact finish page₁ (by simpa using inFull) (by rw [used₁]; exact last)
        (fun x _ => (OwnerMoves.refl _).page x) (.of_pages rfl rfl)

/-! ### Pages go and come -/

/-- A page that stays in place is not what a step is about. -/
theorem PageStays.sameLists {x : Nat} (stays : PageStays l l' x) : SameLists (l.pages x) (l'.pages x) :=
  stays.relinked.sameLists

/-- **The header of an empty page is cleared.** -/
theorem Inv.clearHeader_kept {l₁ : Local} (inv : Inv ⟨l, sh⟩) (held : l.held = .unlinked a)
    (result : segmentPageClearHeader l a = .ok l₁) :
    OwnerMoves ⟨l, sh⟩ ⟨{ l₁ with held := .destroying a }, sh⟩ := by
  obtain ⟨spans, nodes, wf⟩ : Wf l := inv.wf
  obtain ⟨⟨_, _, wf'⟩, inUse, others, _, _, heap, taken, _⟩ := wf.clearHeader held result
  have blank := wf'.blank a fun page => ((inUse a).mp page).2 rfl
  refine ⟨rfl, .inl rfl, fun _ => List.Subset.refl _, fun x => ?_,
    .makeEmpty others taken blank.free blank.localFree⟩
  by_cases same : x = a
  · subst same
    exact .gone (fun both => ((inUse x).mp both.1).2 rfl) fun empty => absurd held empty.queued
  · refine .same ((inUse x).trans (and_iff_left same)) ?_ (fun _ => .of_eq (others x same))
      fun _ atHead => ?_
    · change Held.destroying a = .unlinked x ↔ l.held = .unlinked x
      simp [held, Ne.symm same]
    · change (l₁.heap.pages _).first = x
      rw [heap]
      exact atHead.first

/-- The word of the page is null already. -/
theorem Inv.disable_kept (inv : Inv ⟨l, sh⟩) (held : l.held = .destroying a) :
    OwnerMoves ⟨l, sh⟩ ⟨l, sh⟩ := by
  obtain ⟨spans, nodes, wf⟩ : Wf l := inv.wf
  exact { OwnerMoves.refl _ with
    relisted := .disable (inv.protocol.unused a (wf.destroyed held).1) (.of_pages rfl rfl) }

/-- **The span of the page is merged and queued.** -/
theorem Inv.clearSpan_kept {l₁ : Local} (inv : Inv ⟨l, sh⟩) (held : l.held = .destroying a)
    (result : segmentPageClearSpan l a = .ok l₁) :
    OwnerMoves ⟨l, sh⟩ ⟨{ l₁ with held := .nothing }, sh⟩ := by
  obtain ⟨spans, nodes, wf⟩ : Wf l := inv.wf
  obtain ⟨l₂, _, result₂, wf', _, inUse, stays, heap, taken, _⟩ := wf.clearSpan held
  obtain rfl : l₁ = l₂ := by
    rw [result] at result₂
    cases result₂
    rfl
  have lists := fun x => inv.wf.lists_of_stays ⟨_, _, wf'⟩ (inUse x) (stays x)
  refine ⟨rfl, .inl rfl, fun _ => List.Subset.refl _, fun x => .same (inUse x) ?_
    (fun page => (stays x page).sameLists) fun _ atHead => ?_,
    .same ⟨fun x => (lists x).1, fun x => (lists x).2, taken⟩ rfl rfl⟩
  · change Held.nothing = .unlinked x ↔ l.held = .unlinked x
    simp [held]
  · change (l₁.heap.pages _).first = x
    rw [heap]
    exact atHead.first

/-- No empty page is in the queue of a bin. -/
def NoneEmpty (l : Local) (pq : Nat) : Prop :=
  ∀ a, Empty l a → bin (l.pages a).xblockSize ≠ pq

theorem pageInit_queues (l : Local) (a blockSize : Nat) :
    (pageInit l a blockSize).heap.pages = l.heap.pages := by
  unfold pageInit pageExtendFree
  simp only
  split <;> rfl

/-- **The heads of the queues after `page_fresh`.** -/
theorem WfWith.fresh_first {spans : Nat → List Span} {nodes : Nat → List Nat} {fuel page : Nat}
    (wf : WfWith l spans nodes) (lower : 1 ≤ pq) (upper : pq ≤ 52)
    (result : pageFresh fuel l pq = .ok (page, l')) (i : Nat) :
    (l'.heap.pages i).first = if page ≠ 0 ∧ i = pq then page else (l.heap.pages i).first := by
  have size : (l.heap.pages pq).blockSize = queueBlockSize pq := wf.queues.blockSize pq
  obtain ⟨sizeLower, sizeUpper, _⟩ := queueBlockSize_bounds pq upper lower
  unfold pageFresh at result
  simp only [bind, Except.bind, pure, Except.pure, size] at result
  cases allocated : segmentPageAlloc fuel l (queueBlockSize pq) 0 with
  | error error =>
      rw [allocated] at result
      cases result
  | ok outcome =>
      obtain ⟨found, l₁⟩ := outcome
      rw [allocated] at result
      simp only at result
      obtain ⟨_, _, frame, _⟩ := segmentPageAlloc_spec fuel wf.segments (by omega)
        (by simp only [mediumObjSizeMax]; omega) allocated
      by_cases none : found = 0
      · rw [if_pos none] at result
        cases result
        rw [if_neg (by simp), frame.heap]
      · rw [if_neg none] at result
        cases result
        rw [pageQueuePush_first, pageInit_queues, frame.heap]
        simp only [ne_eq, none, not_false_eq_true, true_and]

/-- **`page_fresh`** puts a new page in front of a queue without empty pages. -/
theorem Inv.fresh_kept {fuel page : Nat} (inv : Inv ⟨l, sh⟩) (held : l.held = .nothing)
    (lower : 1 ≤ pq) (upper : pq ≤ 52) (none : NoneEmpty l pq)
    (result : pageFresh fuel l pq = .ok (page, l')) : OwnerMoves ⟨l, sh⟩ ⟨l', sh⟩ := by
  obtain ⟨spans, nodes, wf⟩ : Wf l := inv.wf
  obtain ⟨wf', stay, outcome⟩ := wf.fresh (fun x => by simp [held]) lower upper result
  have first := wf.fresh_first lower upper result
  have others : ∀ x, (InUse l' x ↔ InUse l x) → PageKept ⟨l, sh⟩ ⟨l', sh⟩ x := fun x inUse => by
    refine .same inUse (by rw [stay.held]) (fun old => (stay.pages x old).sameLists)
      fun empty atHead => ?_
    simp only
    rw [first, if_neg fun both => none x empty both.2]
    exact atHead.first
  have lists : ∀ x, (InUse l' x ↔ InUse l x) → (l'.pages x).free = (l.pages x).free ∧
      (l'.pages x).localFree = (l.pages x).localFree := fun x inUse =>
    inv.wf.lists_of_stays wf' inUse (stay.pages x)
  have relisted : Relisted ⟨l, sh⟩ ⟨l', sh⟩ := by
    rcases outcome with ⟨_, inUse⟩ | ⟨_, fresh⟩
    · exact .same ⟨fun x => (lists x (inUse x)).1, fun x => (lists x (inUse x)).2, stay.taken⟩ rfl rfl
    · have blank := wf.blank page fresh.before
      have blocks : newBlocks (blockAt l' page 0) (l'.pages page).xblockSize (l'.pages page).capacity =
          blocksOf l' page := by
        rw [newBlocks_eq]
        simp only [Nat.zero_add]
        rfl
      have some : (l'.pages page).capacity ≠ 0 := fun none => fresh.nonempty (by
        rw [fresh.free, blocksOf, none]
        rfl)
      refine .extend (wf'.ready_extend ((fresh.inUse page).mpr (.inr rfl)) (Nat.pos_of_ne_zero some)
        (Nat.zero_add _).symm _)
        (fun x differs => lists x ((fresh.inUse x).trans (or_iff_left differs))) stay.taken ?_ ?_
      · rw [blocks, blank.free, List.append_nil]
        exact fresh.free
      · rw [blank.localFree]
        exact fresh.localFree
  refine ⟨rfl, .inl rfl, fun _ => List.Subset.refl _, fun x => ?_, relisted⟩
  rcases outcome with ⟨_, inUse⟩ | ⟨nonzero, fresh⟩
  · exact others x (inUse x)
  · by_cases same : x = page
    · subst same
      have size : bin (l'.pages x).xblockSize = pq := by
        rw [fresh.xblockSize]
        exact bin_queueBlockSize pq upper lower
      refine ⟨fun full => ?_, fun _ => .inr ⟨⟨fresh.notFull, ?_⟩, fun old => absurd old fresh.before⟩,
        fun empty => absurd empty.page fresh.before⟩
      · have flag := full.flag
        rw [fresh.notFull] at flag
        cases flag
      · rw [size, first, if_pos ⟨nonzero, rfl⟩]
    · exact others x ((fresh.inUse x).trans (or_iff_left same))

/-! ### What a page lost -/

/-- A page with remotely freed blocks is also missing another one. -/
theorem Core.length_lt_used (core : Core ⟨l, sh⟩) (page : InUse l a)
    (some : (sh.xthreadFree a).list ≠ []) : (sh.xthreadFree a).list.length < (l.pages a).used := by
  have used := core.used_eq page
  have missing : 0 < (delayedBlocks l sh ++ directBlocks l sh).countP fun p => pageOfBlock l p == a := by
    by_cases use : (sh.xthreadFree a).delay = .useDelayedFree
    · obtain ⟨b, claimed, on⟩ := (core.protocol.pending a use).resolve_left some
      refine List.countP_pos_iff.mpr ⟨b, List.mem_append_right _ ?_, by simpa using on⟩
      change l.held = _ at claimed
      simp [directBlocks, claimed, Held.direct]
    · have delayed := core.protocol.delayed a
      rw [if_neg use] at delayed
      rw [List.countP_append]
      change ((delayedBlocks l sh).countP fun p => pageOfBlock l p == a) = 1 at delayed
      omega
  simp only at used
  omega

end VerusMimalloc
