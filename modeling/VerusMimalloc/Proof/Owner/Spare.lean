/-
**A page that was kept for the next request.**

* `Spares`: a step that makes nothing live and gives no empty page back; every step before a block is
  taken is one (`heapDelayedFreePartial_spares`);
* `OwnerSafe.spare`: so an empty page stays empty;
* `findPage_spare`, `heapMallocZero_spare`: the search finds the empty page, and the block comes from it.
-/

import VerusMimalloc.Proof.Owner.Malloc

namespace VerusMimalloc

open Library

variable {α : Type} {mode : Mode} {allowed : Abort → Prop} {l l' : Local} {sh : Shared} {a pq size : Nat}

/-! ### Steps that leave empty pages alone -/

/-- The step makes nothing live and unlinks no empty page. -/
def Spares (s t : State) : Prop :=
  t.sh.live = s.sh.live ∧
    ∀ a, t.loc.held = .unlinked a → s.loc.held = .unlinked a ∨ (s.loc.pages a).used ≠ 0

theorem Spares.refl (s : State) : Spares s s := ⟨rfl, fun _ => .inl⟩

/-- A step after which nothing is unlinked. -/
theorem Spares.of_ne {s t : State} (live : t.sh.live = s.sh.live)
    (other : ∀ a, t.loc.held ≠ .unlinked a) : Spares s t :=
  ⟨live, fun a unlinked => absurd unlinked (other a)⟩

/-- A step that leaves what the owner holds. -/
theorem Spares.of_held {s t : State} (live : t.sh.live = s.sh.live)
    (held : t.loc.held = s.loc.held) : Spares s t := ⟨live, fun _ same => .inl (held ▸ same)⟩

/-- Sequencing, as the programs are written. -/
theorem Always.seq {β : Type} {R : State → State → Prop} {first : P α} {rest : α → P β}
    (before : first.Always R) (after : ∀ value, (rest value).Always R) :
    (first >>= rest).Always R := before.bind after

theorem localStep_spares {f : Local → Except Abort (α × Local)}
    (good : ∀ l value l', f l = .ok (value, l') →
      ∀ a, l'.held = .unlinked a → l.held = .unlinked a ∨ (l.pages a).used ≠ 0) :
    (localStep f).Always Spares := by
  refine Prog.always_act Spares.refl fun s value t result => ?_
  cases outcome : f s.loc with
  | error e =>
      rw [outcome] at result
      cases result
  | ok answer =>
      obtain ⟨value', l'⟩ := answer
      rw [outcome] at result
      cases result
      exact ⟨rfl, good _ _ _ outcome⟩

theorem osStep_spares {f : Local → Except Abort (α × Local)}
    (good : ∀ l value l', f l = .ok (value, l') →
      ∀ a, l'.held = .unlinked a → l.held = .unlinked a ∨ (l.pages a).used ≠ 0) :
    (osStep f).Always Spares :=
  localStep_spares fun l value l' result => good l value l' (panicking_ok result)

theorem localRead_spares (f : Local → α) : (localRead f).Always Spares :=
  localStep_spares fun l value l' result => by
    cases result
    exact fun _ => .inl

theorem localUpdate_spares {f : Local → Local} (held : ∀ l, (f l).held = l.held) :
    (localUpdate f).Always Spares :=
  localStep_spares fun l value l' result => by
    cases result
    exact fun _ same => .inl (held l ▸ same)

theorem collect_ne {held : Held} {page : Nat} {on : Nat → Nat} (same : held.collect page on = .unlinked a) :
    held = .unlinked a := by
  cases held with
  | claimed block =>
      by_cases here : on block = page
      · rw [Held.collect, if_pos here] at same
        cases same
      · rw [Held.collect, if_neg here] at same
        cases same
  | _ => exact same

theorem loadThreadFree_spares (page : Nat) : (loadThreadFree page).Always Spares :=
  Prog.always_act Spares.refl fun s value t result => by
    cases result
    exact .refl s

theorem pageFreeCollect_spares (page : Nat) (force : Bool) :
    (pageFreeCollect page force).Always Spares := by
  have load : (loadNonempty page).Always Spares := by
    refine Prog.always_act Spares.refl fun s value t result => ?_
    split at result <;> cases result
    · exact ⟨rfl, fun a same => .inl (collect_ne same)⟩
    · exact .refl s
  have take : (pageThreadFreeCollect page).Always Spares := by
    refine Prog.always_act Spares.refl fun s value t result => ?_
    simp only at result
    split at result
    · cases result
      exact ⟨rfl, fun a same => .inl (collect_ne same)⟩
    split at result <;> cases result
    exact ⟨rfl, fun a same => .inl (collect_ne same)⟩
  have move : (localUpdate fun l => collectLocalFree l page force).Always Spares := by
    refine localUpdate_spares fun l => ?_
    unfold collectLocalFree
    split_ifs <;> rfl
  have rest : ∀ nonempty : Bool, (if nonempty = true then pageThreadFreeCollect page >>= fun _ =>
      localUpdate fun l => collectLocalFree l page force
      else localUpdate fun l => collectLocalFree l page force).Always Spares := fun nonempty => by
    split
    · exact Always.seq take fun _ => move
    · exact move
  unfold pageFreeCollect
  cases force with
  | true => exact rest true
  | false => exact Always.seq load rest

/-! ### Queues -/

@[simp] theorem heapQueueFirstUpdate_held (l : Local) (pq : Nat) :
    (heapQueueFirstUpdate l pq).held = l.held := by
  unfold heapQueueFirstUpdate
  generalize smallSizeMax = bound
  simp only [setDirect_eq]
  split_ifs <;> rfl

theorem pageQueueRemove_held (l : Local) (pq page : Nat) :
    (pageQueueRemove l pq page).held = l.held := by
  unfold pageQueueRemove setPageCount
  simp only
  split_ifs <;> simp

theorem pageQueuePushBack_held (l : Local) (pq page : Nat) :
    (pageQueuePushBack l pq page).held = l.held := by
  unfold pageQueuePushBack setPageCount
  simp only
  split_ifs <;> simp

/-- A free by the owner unlinks no empty page. -/
theorem freeBlockLocal_spares (page ptr : Nat) :
    (localStep fun l => freeBlockLocal l page ptr).Always Spares := by
  refine localStep_spares fun l freed l' result a unlinked => .inr ?_
  unfold freeBlockLocal insertFree at result
  by_cases none : (l.pages page).used = 0
  · rw [if_pos none] at result
    cases result
  rw [if_neg none] at result
  simp only [bind, Except.bind, pure, Except.pure] at result
  split_ifs at result with last full
  · rw [pageRetire_eq] at result
    split_ifs at result with retained
    · cases result
      cases unlinked
    · cases result
      cases unlinked
      exact none
  · cases result
    rw [pageUnfull, pageQueueEnqueueFrom, pageQueuePushBack_held, pageQueueRemove_held] at unlinked
    cases unlinked
  · cases result
    cases unlinked

theorem segmentPageFree_spares (fuel page : Nat) : (segmentPageFree fuel page).Always Spares := by
  have clear : (segmentPageClear fuel page).Always Spares := by
    unfold segmentPageClear
    refine Always.seq (localStep_spares fun l value l' result a unlinked => ?_) fun _ =>
      Always.seq ?_ fun _ => Always.seq ?_ fun _ => osStep_spares fun l value l' result a unlinked => ?_
    · cases header : segmentPageClearHeader l page <;> rw [header] at result <;> cases result
      cases unlinked
    · refine Prog.always_loop (fun _ => Always.seq (loadThreadFree_spares page) fun tfree => ?_) _ _
      split <;> trivial
    · refine Prog.always_act Spares.refl fun s value t result => ?_
      cases result
      exact .of_held rfl rfl
    · cases span : segmentPageClearSpan l page <;> rw [span] at result <;> cases result
      cases unlinked
  unfold segmentPageFree
  refine Always.seq clear fun _ => localStep_spares fun l value l' result a unlinked => .inl ?_
  split_ifs at result
  cases result
  exact unlinked

theorem freeBlock_spares (fuel page ptr : Nat) : (freeBlock fuel page ptr).Always Spares := by
  refine Always.seq (freeBlockLocal_spares page ptr) fun freed => ?_
  unfold pageFreeRest
  split
  · exact segmentPageFree_spares fuel page
  · trivial

/-! ### The delayed frees -/

theorem claim_ne {held : Held} (same : held.claim = .unlinked a) : held = .unlinked a := by
  cases held with
  | popped block => cases same
  | _ => exact same

theorem tryUseDelayedFree_spares (fuel page : Nat) (delay : DelayState) (overrideNever : Bool) :
    (tryUseDelayedFree fuel page delay overrideNever).Always Spares := by
  have cas : ∀ tfree, (casSetDelay page tfree delay).Always Spares := fun tfree => by
    refine Prog.always_act Spares.refl fun s value t result => ?_
    by_cases fails : s.loc.os.oracle.spurious s.loc.os.calls = true ∨ (s.sh.xthreadFree page).word ≠ tfree
    · cases (if_pos fails).symm.trans result
      exact .of_held rfl rfl
    · cases (if_neg fails).symm.trans result
      exact ⟨rfl, fun a same => .inl (claim_ne same)⟩
  refine Prog.always_loop (fun count => Always.seq (loadThreadFree_spares page) fun tfree => ?_) _ _
  by_cases freeing : tfree % 4 = 1
  · rw [if_pos freeing]
    split <;> trivial
  rw [if_neg freeing]
  by_cases already : delay.toNat = tfree % 4
  · rw [if_pos already]
    trivial
  rw [if_neg already]
  by_cases never : (!overrideNever && tfree % 4 == 3) = true
  · rw [if_pos never]
    trivial
  · rw [if_neg never]
    exact Always.seq (cas tfree) fun ok => by split <;> trivial

theorem atomicInsertBlock_spares (fuel heap block : Nat) :
    (atomicInsertBlock fuel heap block).Always Spares := by
  refine Prog.always_loop (fun _ => Always.seq ?_ fun next => Always.seq ?_ fun ok => ?_) _ _
  · refine Prog.always_act Spares.refl fun s value t result => ?_
    cases result
    exact .refl s
  · refine Prog.always_act Spares.refl fun s value t result => ?_
    by_cases fails : s.loc.os.oracle.spurious s.loc.os.calls = true ∨
        (s.sh.threadDelayedFree heap).headD 0 ≠ next
    · cases (if_pos fails).symm.trans result
      exact .of_held rfl rfl
    · cases (if_neg fails).symm.trans result
      exact .of_ne rfl fun a => by simp
  · split <;> trivial

/-- **Working off the delayed list** leaves empty pages alone. -/
theorem heapDelayedFreePartial_spares (fuel : Nat) : (heapDelayedFreePartial fuel).Always Spares := by
  have take : ∀ heap, (takeDelayed heap).Always Spares := fun heap => by
    refine Always.seq (Prog.always_act Spares.refl fun s value t result => ?_) fun first => ?_
    · cases result
      exact .refl s
    · split
      · exact localUpdate_spares fun _ => rfl
      · refine Prog.always_act Spares.refl fun s value t result => ?_
        cases result
        exact .of_held rfl rfl
  have round : ∀ heap allFreed, (delayedRound fuel heap allFreed).Always Spares := fun heap allFreed => by
    refine Always.seq (localStep_spares fun l value l' result a unlinked => ?_) fun popped => ?_
    · have same : (popTaken l).2 = l' := congrArg Prod.snd (Except.ok.inj result)
      rw [← same, popTaken] at unlinked
      split at unlinked
      · exact .inl unlinked
      · cases unlinked
    · cases popped with
      | none => trivial
      | some ptr =>
          refine Always.seq (Always.seq (localRead_spares _) fun page =>
            Always.seq (tryUseDelayedFree_spares ..) fun ok => ?_) fun success => ?_
          · split
            · exact Always.seq (pageFreeCollect_spares page false) fun _ =>
                Always.seq (freeBlock_spares fuel page ptr) fun _ => trivial
            · trivial
          · split
            · trivial
            · exact Always.seq (atomicInsertBlock_spares ..) fun _ => trivial
  unfold heapDelayedFreePartial
  exact Always.seq (localRead_spares _) fun heap => Always.seq (take heap) fun _ =>
    Prog.always_loop (round heap) _ _

/-! ### The empty page -/

/-- The page is empty, and serves requests of the size. -/
structure Spare (l : Local) (size a : Nat) : Prop where
  empty : Empty l a
  bin : bin (l.pages a).xblockSize = bin size

namespace Spare

variable (spare : Spare l size a)
include spare

theorem notFull (first : EmptyFirst l) : (l.pages a).getInFull = false := (first a spare.empty).notFull

theorem first (first : EmptyFirst l) : (l.heap.pages (VerusMimalloc.bin size)).first = a := by
  rw [← spare.bin]
  exact (first a spare.empty).first

theorem onQueue (first : EmptyFirst l) : OnQueue l (VerusMimalloc.bin size) a := by
  refine ⟨spare.empty.page, ?_⟩
  rw [pageQueueOf, if_neg (by rw [spare.notFull first]; decide), spare.bin]

theorem nonzero (wf : Wf l) : a ≠ 0 := by
  obtain ⟨spans, nodes, wf⟩ := wf
  exact wf.nonzero spare.empty.page

theorem serves (wf : Wf l) : Serves l size a := by
  intro page
  rw [← spare.bin]
  exact (wf.page page).2.bin_bounds.2.2

end Spare

/-- **An empty page stays** through a program that leaves it alone. -/
theorem OwnerSafe.spare {program : P α} {post : α → Local → Prop}
    (safe : OwnerSafe mode allowed program post l) (ordered : mode.ordered)
    (spares : program.Always Spares) (spare : Spare l size a) :
    OwnerSafe mode allowed program (fun value l' => post value l' ∧ Spare l' size a) l := by
  refine safe.stable (J := fun l => Spare l size a) spares (fun s t guar spares spare => ?_) spare
  rcases ((guar.2 ordered).page a).after spare.empty with ⟨empty, same⟩ | live | unlinked
  · exact ⟨empty, same ▸ spare.bin⟩
  · exact absurd spares.1 live
  · exact ((spares.2 a unlinked).elim spare.empty.queued fun used => used spare.empty.used).elim

/-! ### The search -/

/-- The page that the search finds. -/
structure FoundSpare (l : Local) (size a : Nat) : Prop where
  idle : Idle l
  spare : Spare l size a
  found : Found l (bin size) a

theorem collect_spare (idle : Idle l) (ordered : mode.ordered) (spare : Spare l size a) :
    OwnerSafe mode allowed (pageFreeCollect a false) (fun _ l' => Idle l' ∧ Spare l' size a ∧
      ((l'.pages a).free = [] → (l'.pages a).localFree = [])) l := by
  have safe : OwnerSafe mode allowed (pageFreeCollect a false) _ l :=
    pageFreeCollect_safe spare.empty.page idle.settled false
  refine (safe.spare ordered (pageFreeCollect_spares a false) spare).mono fun _ l' after => ?_
  exact ⟨after.1.1.idle idle, after.2, after.1.2⟩

theorem tryExtend_spares (page : Nat) : (localStep (tryExtend page)).Always Spares := by
  refine localStep_spares fun l value l' result a unlinked => .inl ?_
  unfold tryExtend at result
  split_ifs at result <;> cases result
  · exact unlinked
  · unfold pageExtendFree pageFreeListExtend at unlinked
    simp only at unlinked
    split_ifs at unlinked <;> exact unlinked
  · exact unlinked

/-- **The first round of the walk** stops at the empty page. -/
theorem findFreeRound_spare (idle : Idle l) (ordered : mode.ordered) (first : EmptyFirst l)
    (spare : Spare l size a) (nonzero : a ≠ 0) (upper : bin size ≤ 52) :
    OwnerSafe mode allowed (findFreeRound (bin size) a) (fun result l' =>
      result = .inr a ∧ FoundSpare l' size a) l := by
  unfold findFreeRound
  rw [if_neg nonzero]
  refine OwnerSafe.seq (Q := fun _ l' => l' = l) (safe_localRead fun sh inv => rfl) ?_
  rintro next l' rfl
  refine ((collect_spare idle ordered spare).emptyFirst fun _ => first).seq
    fun _ l₁ ⟨⟨idle₁, spare₁, empty⟩, first₁⟩ => ?_
  have safe : OwnerSafe mode allowed (localStep (tryExtend a)) _ l₁ :=
    tryExtend_safe idle₁ (spare₁.onQueue (first₁ ordered)) upper
  refine (safe.spare ordered (tryExtend_spares a) spare₁).seq fun found l₂ ⟨⟨idle₂, outcome⟩, spare₂⟩ => ?_
  rcases outcome with ⟨rfl, found⟩ | ⟨rfl, rfl, free, exhausted⟩
  · exact ⟨rfl, idle₂, spare₂, found⟩
  · exact absurd spare₁.empty (exhausted (empty free)).2

/-- The first page of the queue is the empty one. -/
theorem readFirst_spare (ordered : mode.ordered) (spare : Spare l size a) :
    OwnerSafe mode allowed (localRead fun l => (l.heap.pages (bin size)).first) (fun head l' =>
      l' = l ∧ head = a ∧ a ≠ 0 ∧ EmptyFirst l) l :=
  safe_orderedRead fun _ inv first =>
    ⟨rfl, spare.first (first ordered), spare.nonzero inv.wf, first ordered⟩

/-- **The walk** finds the empty page. -/
theorem pageQueueFindFree_spare (idle : Idle l) (ordered : mode.ordered) (spare : Spare l size a)
    (upper : bin size ≤ 52) {fuel : Nat} (timeout : fuel = 0 → allowed .timeout) (again : P Nat) :
    OwnerSafe mode allowed (pageQueueFindFree fuel (bin size) again) (fun page l' =>
      page = a ∧ FoundSpare l' size a) l := by
  refine (readFirst_spare ordered spare).seq fun head l' ⟨same, isFirst, nonzero, first⟩ => ?_
  subst same isFirst
  cases fuel with
  | zero => exact timeout rfl
  | succ fuel => ?_
  refine OwnerSafe.seq (Q := fun page l' => page = head ∧ FoundSpare l' size head)
    (Discipline.Safe.bind (findFreeRound_spare idle ordered first spare nonzero upper) ?_) ?_
  · rintro _ l₁ ⟨rfl, found⟩
    exact ⟨rfl, found⟩
  rintro page l₁ ⟨rfl, found⟩
  rw [if_neg nonzero]
  have retire := localUpdate_spares (f := fun l => l.modifyPage page fun p => p.setRetireExpire 0)
    fun _ => rfl
  have keep : OwnerSafe mode allowed (localUpdate fun l => l.modifyPage _ fun p => p.setRetireExpire 0)
    _ l₁ := keepFound_safe found.idle found.found
  exact (keep.spare ordered retire found.spare).seq
    fun _ l₂ ⟨⟨idle, found⟩, spare⟩ => ⟨rfl, idle, spare, found⟩

/-- **`find_page`** finds the empty page, whatever the other queues and the operating system are like. -/
theorem findPage_spare (idle : Idle l) (ordered : mode.ordered) (spare : Spare l size a)
    (medium : size ≤ mediumObjSizeMax) {fuel : Nat} (timeout : fuel = 0 → allowed .timeout) :
    OwnerSafe mode allowed (findPage fuel size 0) (fun page l' =>
      page = a ∧ a ≠ 0 ∧ FoundSpare l' size a) l := by
  have upper := (bin_bounds medium).2
  have walk : ∀ l', Idle l' → Spare l' size a → a ≠ 0 →
      OwnerSafe mode allowed (pageQueueFindFreeEx fuel (bin size) true) (fun page l' =>
        page = a ∧ a ≠ 0 ∧ FoundSpare l' size a) l' := fun l' idle' spare' nonzero =>
    (pageQueueFindFree_spare idle' ordered spare' upper timeout _).mono fun page l'' after =>
      ⟨after.1, nonzero, after.2⟩
  unfold findPage
  rw [if_neg (by omega)]
  refine (readFirst_spare ordered spare).seq fun head l' ⟨same, isFirst, nonzero, first⟩ => ?_
  subst same isFirst
  rw [if_neg nonzero]
  refine ((collect_spare idle ordered spare).emptyFirst fun _ => first).seq
    fun _ l₁ ⟨⟨idle₁, spare₁, _⟩, first₁⟩ => ?_
  refine OwnerSafe.seq (Q := fun nonempty l' => l' = l₁ ∧ (nonempty = true ↔ (l₁.pages head).free ≠ []))
    (safe_localRead fun sh _ => ⟨rfl, by simp⟩) ?_
  rintro nonempty l₂ ⟨rfl, some⟩
  cases nonempty with
  | true => exact ⟨rfl, nonzero, idle₁, spare₁, spare₁.onQueue (first₁ ordered), some.mp rfl⟩
  | false => exact walk _ idle₁ spare₁ nonzero

/-! ### The call -/

/-- The part of `malloc_generic` after the delayed frees. -/
def mallocRest (fuel size : Nat) (zero : Bool) : P Nat := do
  let page ← findPage fuel size 0
  if page = 0 then .fail .todo
  else do
    let blockSize ← localRead fun l => (l.pages page).xblockSize
    if zero = true ∧ blockSize = 0 then .fail .todo else pageMalloc fuel page size zero

/-- It takes a block of the empty page. -/
theorem mallocRest_spare (idle : Idle l) (spare : Spare l size a) (medium : size ≤ mediumObjSizeMax)
    {fuel : Nat} (timeout : fuel = 0 → allowed .timeout) (zero : Bool) :
    OwnerSafe ⟨False, True⟩ allowed (mallocRest fuel size zero) (fun p l' => pageOfBlock l' p = a) l := by
  refine (findPage_spare idle trivial spare medium timeout).seq fun page l₁ ⟨isPage, nonzero, found⟩ => ?_
  subst isPage
  rw [if_neg nonzero]
  refine OwnerSafe.seq (Q := fun blockSize l' => l' = l₁ ∧ blockSize ≠ 0 ∧ Serves l₁ size page)
    (safe_localRead fun sh inv => ⟨rfl, found.spare.empty.page.1, found.spare.serves inv.wf⟩) ?_
  rintro blockSize l' ⟨rfl, sized, serves⟩
  rw [if_neg fun both => sized both.2]
  cases fuel with
  | zero => exact timeout rfl
  | succ fuel =>
      refine (popFree_safe found.idle medium serves).seq fun popped l₂ done => ?_
      cases popped with
      | some p => exact (done.some p rfl).2
      | none => exact absurd (done.none rfl).2 found.found.nonempty

/-- The delayed frees leave the empty page. -/
theorem heapDelayedFreePartial_spare (idle : Idle l) (spare : Spare l size a) (fuel : Nat) :
    OwnerSafe ⟨False, True⟩ (fun _ => True) (heapDelayedFreePartial fuel) (fun _ l' =>
      Idle l' ∧ Spare l' size a) l :=
  ((heapDelayedFreePartial_safe (fun _ _ => trivial) trivial idle.held idle.taken fuel).spare trivial
    (heapDelayedFreePartial_spares fuel) spare).mono fun _ _ after => ⟨⟨after.1.1, after.1.2⟩, after.2⟩

/-- **`malloc_generic`** takes a block of the empty page. -/
theorem mallocGeneric_spare (idle : Idle l) (spare : Spare l size a) (medium : size ≤ mediumObjSizeMax)
    (fuel : Nat) (zero : Bool) :
    OwnerSafe ⟨False, True⟩ (fun _ => True) (mallocGeneric fuel size zero 0) (fun p l' =>
      pageOfBlock l' p = a) l :=
  (heapDelayedFreePartial_spare idle spare fuel).seq fun _ _ after =>
    mallocRest_spare after.1 after.2 medium (fun _ => trivial) zero

/-- The table of small sizes leads to the empty page. -/
theorem readSmall_spare (spare : Spare l size a) (small : size ≤ smallSizeMax) :
    OwnerSafe ⟨False, True⟩ allowed (localRead fun l => heapGetFreeSmallPage l size) (fun page l' =>
      l' = l ∧ page = a ∧ Serves l size a) l := by
  refine safe_orderedRead fun sh inv first => ⟨rfl, ?_, spare.serves inv.wf⟩
  obtain ⟨spans, nodes, wf⟩ : Wf l := inv.wf
  have direct := wf.direct ((size + 7) / 8) (by
    simp only [smallSizeMax, smallWsizeMax, intptrSize] at small
    omega)
  rw [bin_words] at direct
  have isFirst := spare.first (first trivial)
  rw [heapGetFreeSmallPage, direct, queueFirst, isFirst, if_neg (spare.nonzero inv.wf)]

/-- **`heap_malloc`** takes a block of the empty page. -/
theorem heapMalloc_spare (idle : Idle l) (spare : Spare l size a) (medium : size ≤ mediumObjSizeMax)
    (fuel : Nat) :
    OwnerSafe ⟨False, True⟩ (fun _ => True) (heapMalloc fuel size) (fun p l' => pageOfBlock l' p = a) l := by
  unfold heapMalloc heapMallocZero heapMallocZeroEx
  by_cases small : size ≤ smallSizeMax
  · rw [if_pos small]
    refine (readSmall_spare spare small).seq fun page l' ⟨same, isPage, serves⟩ => ?_
    subst same isPage
    cases fuel with
    | zero => trivial
    | succ fuel =>
        refine (popFree_safe idle medium serves).seq fun popped l₁ done => ?_
        cases popped with
        | some p => exact (done.some p rfl).2
        | none =>
            obtain ⟨rfl, _⟩ := done.none rfl
            exact mallocGeneric_spare idle spare medium fuel false
  · rw [if_neg small]
    exact mallocGeneric_spare idle spare medium fuel false

end VerusMimalloc
