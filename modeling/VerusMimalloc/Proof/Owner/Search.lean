/-
**Finding a page with a free block.**

* `findFreeRound_safe`: one page of the walk over a queue;
* `pageQueueFindFreeEx_safe`: the walk, and a fresh page when it finds none;
* `findPage_safe`: the page has the block size of the request's bin and a free block.
-/

import VerusMimalloc.Proof.Owner.Delayed

namespace VerusMimalloc

open Library

variable {mode : Mode} {allowed : Abort → Prop} {l l' : Local} {sh : Shared} {a pq : Nat}

/-! ### Pages of a queue -/

/-- The owner is not in the middle of a free. -/
structure Idle (l : Local) : Prop where
  held : l.held = .nothing
  taken : l.taken = []

theorem Idle.settled (idle : Idle l) : l.held.Settled := by
  rw [idle.held]
  exact fun x => ⟨by simp, by simp⟩

/-- The page is in use and belongs to the queue. -/
structure OnQueue (l : Local) (pq a : Nat) : Prop where
  page : InUse l a
  queue : pageQueueOf l a = pq

namespace OnQueue

variable (on : OnQueue l pq a)
include on

theorem blocks (frame : BlockFrame l l') : OnQueue l' pq a :=
  ⟨frame.inUse_iff.mpr on.page, by rw [frame.pageQueueOf_eq, on.queue]⟩

theorem moved {x : Nat} {flags1 : BitVec 8} (frame : MoveFrame l l' x flags1) (differs : a ≠ x) :
    OnQueue l' pq a := by
  refine ⟨frame.inUse_iff.mpr on.page, ?_⟩
  rw [← on.queue, pageQueueOf, pageQueueOf, frame.getInFull_of_ne differs, (frame.same a).2.2.1]

/-- A page of the queue of a bin is not full, and has the block size of the bin. -/
theorem size (wf : Wf l) (bin : pq ≤ 52) :
    (l.pages a).getInFull = false ∧ (l.pages a).xblockSize = queueBlockSize pq := by
  have bounds := (wf.page on.page).2.bin_bounds
  have queue := on.queue
  unfold pageQueueOf at queue
  by_cases full : (l.pages a).getInFull = true
  · rw [if_pos full] at queue
    simp only [binFull, binHuge] at queue
    omega
  · rw [if_neg full] at queue
    refine ⟨by simpa using full, ?_⟩
    rw [← queue]
    exact bounds.2.2

end OnQueue

/-- The page has a free block. -/
structure Found (l : Local) (pq a : Nat) : Prop extends OnQueue l pq a where
  nonempty : (l.pages a).free ≠ []

/-- The links of a queue lead to pages of the queue. -/
theorem Wf.next_page (wf : Wf l) (idle : Idle l) (on : OnQueue l pq a) :
    (l.pages a).next = 0 ∨ ((l.pages a).next ≠ a ∧ OnQueue l pq (l.pages a).next) := by
  obtain ⟨spans, nodes, wf⟩ := wf
  have member : a ∈ nodes pq := (wf.queued pq a).mpr ⟨on.page, by simp [idle.held], on.queue.symm⟩
  obtain ⟨left, right, split⟩ := List.append_of_mem member
  have list := wf.queues.list pq
  rw [split] at list
  by_cases last : (l.pages a).next = 0
  · exact .inl last
  · have next := list.next_mem last
    have inQueue : (l.pages a).next ∈ nodes pq := by
      rw [split]
      exact List.mem_append_right _ (List.mem_cons_of_mem _ next)
    obtain ⟨page, _, queue⟩ := wf.of_mem inQueue
    refine .inr ⟨fun same => ?_, page, queue.symm⟩
    rw [same] at next
    exact (List.nodup_cons.mp (List.nodup_append.mp list.nodup).2.1).1 next

/-- The first page of a queue. -/
theorem Wf.first_page (wf : Wf l) (pq : Nat) :
    (l.heap.pages pq).first = 0 ∨
      ((l.heap.pages pq).first ≠ 0 ∧ OnQueue l pq (l.heap.pages pq).first) := by
  obtain ⟨spans, nodes, wf⟩ := wf
  by_cases none : (l.heap.pages pq).first = 0
  · exact .inl none
  · obtain ⟨page, _, queue⟩ := wf.of_mem ((wf.queues.list pq).first_mem none)
    exact .inr ⟨none, page, queue.symm⟩

/-- Collecting a page keeps the owner idle. -/
theorem Collected.idle (collected : Collected l l' a) (idle : Idle l) : Idle l' := by
  refine ⟨?_, collected.taken.trans idle.taken⟩
  rw [collected.held, idle.held]
  rfl

/-- Another page is as empty as before. -/
theorem Collected.of_empty {x : Nat} (collected : Collected l l' a) (settled : l.held.Settled)
    (differs : x ≠ a) (empty : Empty l' x) : Empty l x :=
  ⟨collected.frame.inUse_iff.mp empty.page, collected.others x differs ▸ empty.used, (settled x).2⟩

/-- An exhausted page is not empty. -/
theorem Exhausted.not_empty (exhausted : Exhausted l a) (wf : Wf l) : ¬Empty l a := by
  intro empty
  obtain ⟨spans, nodes, wf⟩ := wf
  have count := wf.count a exhausted.page
  have room := wf.reserved_pos exhausted.page
  rw [empty.used, exhausted.free, exhausted.localFree, exhausted.capacity] at count
  simp only [List.length_nil] at count
  omega

/-! ### The walk -/

/-- Whether the page has a free block, after an extension if need be. -/
def tryExtend (page : Nat) (l : Local) : Except Abort (Bool × Local) :=
  if (l.pages page).free ≠ [] then .ok (true, l)
  else if (l.pages page).capacity < (l.pages page).reserved then .ok (true, pageExtendFree l page)
  else .ok (false, l)

/-- **`page_extend_free`** leaves a free block where there was room for one. -/
theorem tryExtend_safe (idle : Idle l) (on : OnQueue l pq a) (upper : pq ≤ 52) :
    OwnerSafe mode allowed (localStep (tryExtend a)) (fun found l' => Idle l' ∧
      ((found = true ∧ Found l' pq a) ∨
        (found = false ∧ l' = l ∧ (l.pages a).free = [] ∧
          ((l.pages a).localFree = [] → Exhausted l a ∧ ¬Empty l a)))) l := by
  refine safe_localStep (fun sh value l' inv result => ?_) fun sh e _ result => ?_
  · unfold tryExtend at result
    by_cases some : (l.pages a).free ≠ []
    · rw [if_pos some] at result
      cases result
      exact ⟨inv, .refl l, .refl _, idle, .inl ⟨rfl, on, some⟩⟩
    rw [if_neg some] at result
    by_cases room : (l.pages a).capacity < (l.pages a).reserved
    · rw [if_pos room] at result
      cases result
      have notFull := (on.size inv.wf upper).1
      have positive := (inv.wf.page on.page).2.size_bounds.1
      simp only at positive
      have inv' := inv.extendFree on.page idle.settled notFull
      obtain ⟨n, _, more, extended⟩ := pageExtendFree_eq l a (by omega)
      have frame : BlockFrame l (pageExtendFree l a) := by
        rw [extended]
        exact .modifyPage l a fun p => ⟨rfl, rfl, rfl, rfl, rfl, rfl, fun _ => rfl, rfl, rfl⟩
      have held : (pageExtendFree l a).held = l.held := by rw [extended]; rfl
      have taken : (pageExtendFree l a).taken = l.taken := by rw [extended]; rfl
      have header : (pageExtendFree l a).pages a =
          { l.pages a with
            free := freshBlocks l a n ++ (l.pages a).free, capacity := (l.pages a).capacity + n } := by
        rw [extended]
        exact if_pos rfl
      have relisted : Relisted ⟨l, sh⟩ ⟨pageExtendFree l a, sh⟩ := by
        have xblockSize : ((pageExtendFree l a).pages a).xblockSize = (l.pages a).xblockSize := by
          rw [header]
        have ready := inv'.wf.ready_extend (frame.inUse_iff.mpr on.page) (more room) (by rw [header])
          (State.lists ⟨l, sh⟩)
        refine .extend ready (fun x differs => ?_) taken ?_ (by rw [header])
        · rw [extended, Local.modifyPage_pages, if_neg differs]
          exact ⟨rfl, rfl⟩
        · rw [newBlocks_eq, blockAt_congr xblockSize, header]
          rfl
      have moves : OwnerMoves ⟨l, sh⟩ ⟨pageExtendFree l a, sh⟩ := by
        refine frame.ownerMoves (a := a) (fun x differs => ?_) (fun x => by rw [held]) rfl (.inl rfl)
          (fun _ => List.Subset.refl _) (fun full => ?_) (fun _ used => ?_) (fun used => .inl ?_) relisted
        · rw [extended]
          exact if_neg differs
        · have flag := full.flag
          rw [notFull] at flag
          cases flag
        · rw [extended, Local.modifyPage_pages, if_pos rfl] at used
          exact used
        · rw [extended, Local.modifyPage_pages, if_pos rfl]
          exact used
      refine ⟨inv', (frame.kept fun x => ?_).kept, moves, ⟨held.trans idle.held, taken.trans idle.taken⟩,
        .inl ⟨rfl, on.blocks frame, ?_⟩⟩
      · rw [extended, Local.modifyPage_pages]
        split
        · exact Nat.le_add_right _ _
        · exact Nat.le_refl _
      · rw [extended, Local.modifyPage_pages, if_pos rfl]
        intro empty
        have length := congrArg List.length (List.append_eq_nil_iff.mp empty).1
        simp only [freshBlocks, List.length_map, List.length_range, List.length_nil] at length
        have := more room
        omega
    · rw [if_neg room] at result
      cases result
      have capacity := (inv.wf.page on.page).2.capacity
      have free : (l.pages a).free = [] := by simpa using some
      refine ⟨inv, .refl l, .refl _, idle, .inr ⟨rfl, rfl, free, fun localFree => ?_⟩⟩
      have exhausted : Exhausted l a :=
        ⟨on.page, free, localFree, Nat.le_antisymm capacity (Nat.not_lt.mp room)⟩
      exact ⟨exhausted, exhausted.not_empty inv.wf⟩
  · unfold tryExtend at result
    split at result
    · cases result
    split at result <;> cases result

/-- **`page_to_full`.** -/
theorem pageToFull_safe (idle : Idle l) (on : OnQueue l pq a) (exhausted : Exhausted l a) :
    OwnerSafe mode allowed (pageToFull a pq) (fun _ l' => Idle l' ∧ (l'.pages a).getInFull = true ∧
      ∀ x, x ≠ a → (OnQueue l pq x → OnQueue l' pq x) ∧ (Empty l' x → Empty l x) ∧
        (l'.pages x).xblockSize = (l.pages x).xblockSize) l := by
  refine OwnerSafe.seq (Q := fun _ l' => Idle l' ∧ InUse l' a ∧ (l'.pages a).getInFull = true ∧
    ∀ x, x ≠ a → (OnQueue l pq x → OnQueue l' pq x) ∧ (Empty l' x → Empty l x) ∧
      (l'.pages x).xblockSize = (l.pages x).xblockSize) (safe_localUpdate fun sh inv => ?_)
    fun _ l₁ ⟨idle₁, page₁, full₁, stay₁⟩ => ?_
  · obtain ⟨inv', held, frame⟩ :=
      inv.toFull idle.held on.page on.queue exhausted.free exhausted.localFree
    refine ⟨inv', frame.kept.kept, inv.toFull_kept idle.held on.queue exhausted,
      ⟨held, frame.queue.taken.trans idle.taken⟩, frame.inUse_iff.mpr on.page, ?_,
      fun x differs => ⟨fun onX => onX.moved frame differs, fun empty => ?_,
        (frame.sameLists differs).xblockSize⟩⟩
    · obtain ⟨prev, next, moved⟩ := frame.pages a
      rw [moved, if_pos rfl]
      exact Page.getInFull_setInFull ..
    · exact ⟨frame.inUse_iff.mp empty.page, (frame.sameLists differs).used ▸ empty.used,
        by simp [idle.held]⟩
  · refine (pageFreeCollect_safe page₁ idle₁.settled false).mono fun _ l₂ ⟨collected, _⟩ => ?_
    refine ⟨collected.idle idle₁, (collected.frame.pages a).inFull.trans full₁, fun x differs => ?_⟩
    obtain ⟨onX, emptyX, sizeX⟩ := stay₁ x differs
    exact ⟨fun onQueue => (onX onQueue).blocks collected.frame,
      fun empty => emptyX (collected.of_empty idle₁.settled differs empty),
      (collected.frame.pages x).xblockSize.trans sizeX⟩

/-- Empty pages are first, and the walk has not passed an empty page. -/
structure Ahead (l : Local) (pq a : Nat) : Prop where
  ordered : EmptyFirst l
  passed : NoneEmpty l pq ∨ (a ≠ 0 ∧ (l.heap.pages pq).first = a)

/-- An exhausted page is not the empty one. -/
theorem Ahead.noneEmpty (ahead : Ahead l pq a) (idle : Idle l) (collected : Collected l l' a)
    (notEmpty : ¬Empty l' a) : NoneEmpty l' pq := by
  intro x empty
  have differs : x ≠ a := fun same => notEmpty (same ▸ empty)
  have before := collected.of_empty idle.settled differs empty
  rw [(collected.frame.pages x).xblockSize]
  rcases ahead.passed with none | ⟨_, head⟩
  · exact none x before
  · intro same
    have atHead := (ahead.ordered x before).first
    rw [same, head] at atHead
    exact differs atHead.symm

/-- **One page of the walk.** -/
theorem findFreeRound_safe (idle : Idle l) (upper : pq ≤ 52) (on : a = 0 ∨ OnQueue l pq a)
    (ahead : mode.ordered → Ahead l pq a) :
    OwnerSafe mode allowed (findFreeRound pq a) (fun
      | .inl next, l' => Idle l' ∧ (next = 0 ∨ OnQueue l' pq next) ∧ (mode.ordered → Ahead l' pq next)
      | .inr page, l' => Idle l' ∧ ((page = 0 ∧ (mode.ordered → NoneEmpty l' pq)) ∨
          page ≠ 0 ∧ Found l' pq page)) l := by
  unfold findFreeRound
  by_cases null : a = 0
  · rw [if_pos null]
    exact ⟨idle, .inl ⟨rfl, fun ordered => (ahead ordered).passed.resolve_right fun both => both.1 null⟩⟩
  have on := on.resolve_left null
  rw [if_neg null]
  refine OwnerSafe.seq (Q := fun next l' => l' = l ∧ (next = 0 ∨ (next ≠ a ∧ OnQueue l pq next)))
    (safe_localRead fun sh inv => ⟨rfl, inv.wf.next_page idle on⟩) ?_
  rintro next l' ⟨rfl, onNext⟩
  refine ((pageFreeCollect_safe on.page idle.settled false).emptyFirst fun ordered =>
    (ahead ordered).ordered).seq fun _ l₁ ⟨⟨collected, empty⟩, first₁⟩ => ?_
  have idle₁ := collected.idle idle
  have on₁ := on.blocks collected.frame
  refine (tryExtend_safe idle₁ on₁ upper).seq fun found l₂ ⟨idle₂, outcome⟩ => ?_
  rcases outcome with ⟨rfl, found⟩ | ⟨rfl, rfl, free, exhausted⟩
  · exact ⟨idle₂, .inr ⟨null, found⟩⟩
  · obtain ⟨exhausted, notEmpty⟩ := exhausted (empty free)
    refine ((pageToFull_safe idle₁ on₁ exhausted).emptyFirst first₁).seq
      fun _ l₃ ⟨⟨idle₃, full, stay⟩, first₃⟩ => ?_
    refine ⟨idle₃, onNext.imp id fun both => ?_, fun ordered => ⟨first₃ ordered, .inl fun x emptyX => ?_⟩⟩
    · exact (stay next both.1).1 (both.2.blocks collected.frame)
    · have notFull := (first₃ ordered x emptyX).notFull
      have differs : x ≠ a := fun same => by
        rw [same, full] at notFull
        cases notFull
      rw [(stay x differs).2.2]
      exact (ahead ordered).noneEmpty idle collected notEmpty x ((stay x differs).2.1 emptyX)

/-- The page found is not retired any more. -/
theorem keepFound_safe (idle : Idle l) (found : Found l pq a) :
    OwnerSafe mode allowed (localUpdate fun l => l.modifyPage a fun p => p.setRetireExpire 0)
      (fun _ l' => Idle l' ∧ Found l' pq a) l := by
  refine safe_localUpdate fun sh inv => ?_
  obtain ⟨spans, nodes, wf⟩ : Wf l := inv.wf
  have shape : ∀ p : Page, SameShape p (p.setRetireExpire 0) := fun p =>
    ⟨rfl, rfl, rfl, rfl, rfl, rfl, fun _ => rfl, rfl, rfl⟩
  have header : (l.modifyPage a fun p => p.setRetireExpire 0).pages a =
      (l.pages a).setRetireExpire 0 := if_pos rfl
  have blocks : blocksOf (l.modifyPage a fun p => p.setRetireExpire 0) a = blocksOf l a :=
    blocksOf_congr (by rw [header]; rfl) (by rw [header]; rfl)
  have frame : BlockFrame l (l.modifyPage a fun p => p.setRetireExpire 0) := .modifyPage l a shape
  have moves : OwnerMoves ⟨l, sh⟩ ⟨l.modifyPage a fun p => p.setRetireExpire 0, sh⟩ := by
    refine frame.ownerMoves (a := a) (fun x differs => if_neg differs) (fun _ => Iff.rfl) rfl (.inl rfl)
      (fun _ => List.Subset.refl _) (fun _ p inside => ?_) (fun _ used => ?_) (fun used => .inl ?_)
      (.same (.modifyPage l a fun _ => ⟨rfl, rfl⟩) rfl rfl)
    · rw [header] at inside
      exact List.mem_append_left _ inside
    · rw [header] at used
      exact used
    · rw [header]
      exact used
  refine ⟨inv.relist found.page idle.settled shape (wf.page a found.page).capacity rfl
    (fun p => by rw [blocks]; rfl) fun _ both => both, (frame.kept fun x => ?_).kept, moves,
    ⟨idle.held, idle.taken⟩, found.toOnQueue.blocks frame, ?_⟩
  · rw [Local.modifyPage_pages]
    split <;> exact Nat.le_refl _
  · rw [header]
    exact found.nonempty

/-- What a search for a page finds. -/
def Answer (pq : Nat) (page : Nat) (l : Local) : Prop :=
  Idle l ∧ (page = 0 ∨ page ≠ 0 ∧ Found l pq page)

/-- **`page_fresh`.** -/
theorem pageFresh_safe (expected : ∀ e, Expected e → allowed e) (idle : Idle l) (lower : 1 ≤ pq)
    (upper : pq ≤ 52) (none : mode.ordered → NoneEmpty l pq) (fuel : Nat) :
    OwnerSafe mode allowed (osStep fun l => pageFresh fuel l pq) (Answer pq) l := by
  refine safe_osStep (fun _ => expected _ (.inr (.inr rfl))) (fun sh page l' inv result => ?_)
    fun sh e _ result => expected e (pageFresh_error result)
  obtain ⟨inv', kept, held, taken, outcome⟩ := inv.fresh idle.held lower upper result
  refine ⟨inv', kept, fun ordered => inv.fresh_kept idle.held lower upper (none ordered) result,
    ⟨held, taken.trans idle.taken⟩, outcome.imp id fun ⟨nonzero, fresh⟩ => ?_⟩
  refine ⟨nonzero, ⟨(fresh.inUse page).mpr (.inr rfl), ?_⟩, fresh.nonempty⟩
  rw [pageQueueOf, if_neg (by rw [fresh.notFull]; decide), fresh.xblockSize,
    bin_queueBlockSize pq upper lower]

/-- The walk and the fresh page. -/
theorem pageQueueFindFree_safe (expected : ∀ e, Expected e → allowed e) (idle : Idle l)
    (lower : 1 ≤ pq) (upper : pq ≤ 52) (fuel : Nat) {again : P Nat}
    (last : ∀ l', Idle l' → OwnerSafe mode allowed again (Answer pq) l') :
    OwnerSafe mode allowed (pageQueueFindFree fuel pq again) (Answer pq) l := by
  refine OwnerSafe.seq (Q := fun head l' => l' = l ∧ (head = 0 ∨ OnQueue l pq head) ∧
    (mode.ordered → Ahead l pq head)) (safe_orderedRead fun sh inv first => ⟨rfl,
      (inv.wf.first_page pq).imp id And.right, fun ordered => ⟨first ordered, ?_⟩⟩) ?_
  · obtain ⟨spans, nodes, wf⟩ : Wf l := inv.wf
    by_cases none : (l.heap.pages pq).first = 0
    · refine .inl fun x empty same => wf.nonzero empty.page ?_
      rw [← (first ordered x empty).first, same, none]
    · exact .inr ⟨none, rfl⟩
  rintro head l' ⟨rfl, on, ahead⟩
  have walk : OwnerSafe mode allowed (.loop .timeout (findFreeRound pq) fuel head) (fun page l =>
      Idle l ∧ ((page = 0 ∧ (mode.ordered → NoneEmpty l pq)) ∨ page ≠ 0 ∧ Found l pq page)) l' := by
    refine Discipline.safe_loop (fun page l => Idle l ∧ (page = 0 ∨ OnQueue l pq page) ∧
      (mode.ordered → Ahead l pq page)) (expected _ (.inl rfl)) (fun page l ⟨idle, on, ahead⟩ => ?_)
      fuel head l' ⟨idle, on, ahead⟩
    refine (findFreeRound_safe idle upper on ahead).mono fun value l' after => ?_
    cases value <;> exact after
  refine OwnerSafe.seq walk fun page l₁ ⟨idle₁, found⟩ => ?_
  by_cases none : page = 0
  · have noneEmpty := (found.resolve_right fun both => both.1 none).2
    rw [if_pos none]
    refine OwnerSafe.seq (pageFresh_safe expected idle₁ lower upper noneEmpty fuel)
      fun fresh l₂ answer => ?_
    by_cases failed : fresh = 0
    · rw [if_pos failed]
      exact last l₂ answer.1
    · rw [if_neg failed]
      exact answer
  · have found := (found.resolve_left fun both => none both.1).2
    rw [if_neg none]
    refine OwnerSafe.seq (keepFound_safe idle₁ found) fun _ l₂ ⟨idle₂, found₂⟩ => ?_
    exact ⟨idle₂, .inr ⟨none, found₂⟩⟩

/-- **`page_queue_find_free_ex`.** -/
theorem pageQueueFindFreeEx_safe (expected : ∀ e, Expected e → allowed e) (idle : Idle l)
    (lower : 1 ≤ pq) (upper : pq ≤ 52) (fuel : Nat) (firstTry : Bool) :
    OwnerSafe mode allowed (pageQueueFindFreeEx fuel pq firstTry) (Answer pq) l := by
  refine pageQueueFindFree_safe expected idle lower upper fuel fun l' idle' => ?_
  cases firstTry with
  | true => exact pageQueueFindFree_safe expected idle' lower upper fuel fun l'' idle'' =>
      ⟨idle'', .inl rfl⟩
  | false => exact ⟨idle', .inl rfl⟩

/-- **`find_page`** finds a page of the request's bin with a free block. -/
theorem findPage_safe (expected : ∀ e, Expected e → allowed e) (idle : Idle l) {size : Nat}
    (medium : size ≤ mediumObjSizeMax) (fuel : Nat) :
    OwnerSafe mode allowed (findPage fuel size 0) (Answer (bin size)) l := by
  obtain ⟨lower, upper⟩ := bin_bounds medium
  unfold findPage
  rw [if_neg (by omega)]
  refine OwnerSafe.seq (Q := fun head l' => l' = l ∧
    (head = 0 ∨ (head ≠ 0 ∧ OnQueue l (bin size) head)))
    (safe_localRead fun sh inv => ⟨rfl, inv.wf.first_page (bin size)⟩) ?_
  rintro page l' ⟨rfl, on⟩
  by_cases none : page = 0
  · rw [if_pos none]
    exact pageQueueFindFreeEx_safe expected idle lower upper fuel true
  · have on := (on.resolve_left none).2
    rw [if_neg none]
    refine (pageFreeCollect_safe on.page idle.settled false).seq fun _ l₁ ⟨collected, _⟩ => ?_
    have idle₁ := collected.idle idle
    refine OwnerSafe.seq (Q := fun nonempty l' => l' = l₁ ∧
      (nonempty = true ↔ (l₁.pages page).free ≠ [])) (safe_localRead fun sh _ => ⟨rfl, by simp⟩) ?_
    rintro nonempty l₂ ⟨rfl, some⟩
    cases nonempty with
    | true => exact ⟨idle₁, .inr ⟨none, on.blocks collected.frame, some.mp rfl⟩⟩
    | false => exact pageQueueFindFreeEx_safe expected idle₁ lower upper fuel true

end VerusMimalloc
