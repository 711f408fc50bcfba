/-
**The life of a page.**

* `InitPushed`, `WfWith.initPush`: a new page is initialised and queued;
* `WfWith.fresh`: `page_fresh` makes a page with a full free list and queues it;
* `WfWith.clearHeader`, `WfWith.clearSpan`: `segment_page_clear` ends a page;
* `PageStays`: the other pages stay where they are.
-/

import VerusMimalloc.Proof.Page.Wf

namespace VerusMimalloc

open Library

variable {l l' : Local} {spans spans' : Nat → List Span} {nodes : Nat → List Nat} {a s k c : Nat}

/-! ### Pages that stay -/

/-- A page in use stays where it is, with its blocks; it may be relinked. -/
structure PageStays (l l' : Local) (a : Nat) : Prop where
  inUse : InUse l' a
  place : ∀ {s k c}, PageAt l s k c a → PageAt l' s k c a
  relinked : Relinked (l.pages a) (l'.pages a)

/-- A page that is relinked keeps its shape. -/
theorem PageOk.relinked {heapPtr heapPtr' : Nat} {p q : Page} (ok : PageOk heapPtr p)
    (heap : heapPtr' = heapPtr) (relinked : Relinked p q) : PageOk heapPtr' q := by
  obtain ⟨_, _, rfl⟩ := relinked
  subst heap
  obtain ⟨queue, slices, reserved, capacity, xheap, flags0⟩ := ok
  exact ⟨queue, slices, reserved, capacity, xheap, flags0⟩

/-- A span that is being given back is not that of the header. -/
theorem SegmentsWf.popped_behind {r : Nat} {x : Span} (wf : SegmentsWf l spans)
    (inSpans : x ∈ spans r) (kind : x.kind = .popped) : 0 < x.start := by
  by_contra zero
  have member : r ∈ l.segments := by
    by_contra unlisted
    rw [wf.unlisted r unlisted] at inSpans
    cases inSpans
  have segment := wf.span.layout.segment r member
  have positive := (segment.bounds inSpans).1
  have same := segment.tiles.eq_of_overlap inSpans (wf.first r member) (x := 0) (by omega) (by simp)
  rw [same] at kind
  simp at kind

/-- The place of a page is unique. -/
theorem PageAt.unique {s' k' c' : Nat} (place : PageAt l s k c a) (other : PageAt l s' k' c' a) :
    s' = s ∧ k' = k ∧ c' = c := by
  have inside := place.inside
  have otherInside := other.inside
  obtain ⟨rfl, rfl⟩ := (VerusMimalloc.header_inj other.base.1 place.base.1
    (by simp only [slicesPerSegment]; omega) (by simp only [slicesPerSegment]; omega)).mp
    (other.header.symm.trans place.header)
  exact ⟨rfl, rfl, other.count.symm.trans place.count⟩

/-- **Operations on spans leave pages alone.** -/
theorem PageFrame.stays (frame : PageFrame l l' spans) (wf : SegmentsWf l spans)
    (wf' : SegmentsWf l' spans')
    (kept : ∀ r x, x ∈ spans r → x.kind = .used → 0 < x.start → x ∈ spans' r)
    (page : InUse l a) : PageStays l l' a := by
  obtain ⟨s, k, c, place, inSpans⟩ := wf.exists_pageAt page
  have inSpans' := kept s _ inSpans rfl place.behind
  have member' := frame.segments s place.member
  have place' := wf'.pageAt member' place.behind inSpans'
  rw [← place.header] at place'
  refine ⟨wf'.inUse_iff.mpr ⟨s, member', _, inSpans', rfl, place.behind, place.header⟩,
    fun other => ?_, ?_⟩
  · obtain ⟨rfl, rfl, rfl⟩ := place.unique other
    exact place'
  · have same := frame.busy s place.member _ inSpans rfl 0 place.positive
    simp only [Span.header, Nat.add_zero, ← place.header] at same
    rw [same]
    exact .refl _

/-! ### A fresh page -/

/-- The pages of the layout after one page was added. -/
theorem NewPage.inUse_iff {n x : Nat} (new : NewPage l' spans spans' s k n) (wf : SegmentsWf l spans)
    (wf' : SegmentsWf l' spans') (frame : PageFrame l l' spans) :
    InUse l' x ↔ InUse l x ∨ x = getPageHeaderPtr s k := by
  rw [wf'.inUse_iff, wf.inUse_iff]
  constructor
  · rintro ⟨r, member, span, inSpans, used, behind, rfl⟩
    rcases (new.pages r span ⟨by simp [used], behind⟩).mp inSpans with old | ⟨rfl, rfl⟩
    · have oldMember : r ∈ l.segments := by
        by_contra unlisted
        rw [wf.unlisted r unlisted] at old
        cases old
      exact .inl ⟨r, oldMember, span, old, used, behind, rfl⟩
    · exact .inr rfl
  · rintro (⟨r, member, span, inSpans, used, behind, rfl⟩ | rfl)
    · exact ⟨r, frame.segments r member, span,
        (new.pages r span ⟨by simp [used], behind⟩).mpr (.inl inSpans), used, behind, rfl⟩
    · exact ⟨s, new.member, _, new.placed, rfl, new.positive, rfl⟩

/-- The page was not in use before. -/
theorem NewPage.not_inUse {n : Nat} (new : NewPage l' spans spans' s k n) (wf : SegmentsWf l spans)
    (wf' : SegmentsWf l' spans') (frame : PageFrame l l' spans) :
    ¬InUse l (getPageHeaderPtr s k) := by
  intro page
  obtain ⟨r, j, c, place, inSpans⟩ := wf.exists_pageAt page
  have inSpans' := (new.pages r _ ⟨by simp, place.behind⟩).mpr (.inl inSpans)
  obtain ⟨same, span, _⟩ := wf'.span.layout.header_inj (i := 0) (j := 0) new.member
    (frame.segments r place.member) new.placed inSpans'
    ((wf'.span.layout.segment s new.member).bounds new.placed).1 place.positive place.header
  subst same
  exact new.fresh (span ▸ inSpans)

/-- **The header that `page_init` writes**: the page gets its size and its first blocks. -/
theorem pageInit_eq (l : Local) (a blockSize : Nat) (positive : 0 < blockSize)
    (small : blockSize < 2 ^ 32) (clean : Clean (l.pages a)) :
    ∃ n, n ≤ (asU16 (((l.pages a).count * sliceSize - calculateStartOffset blockSize) / blockSize)) ∧
      (0 < asU16 (((l.pages a).count * sliceSize - calculateStartOffset blockSize) / blockSize) → 0 < n) ∧
      pageInit l a blockSize = l.modifyPage a fun p =>
        { p with
          xheap := l.heap.heapPtr
          xblockSize := blockSize
          reserved := asU16 (((l.pages a).count * sliceSize - calculateStartOffset blockSize) / blockSize)
          free := blocksOf (pageInit l a blockSize) a
          capacity := n } := by
  obtain ⟨l₁, l₁Eq⟩ : ∃ l₁, l₁ = l.modifyPage a fun p =>
      { p with
        xheap := l.heap.heapPtr
        xblockSize := asU32 blockSize
        reserved := asU16 (((l.pages a).count * sliceSize - calculateStartOffset blockSize) / blockSize) } :=
    ⟨_, rfl⟩
  have init : pageInit l a blockSize = pageExtendFree l₁ a := by rw [l₁Eq]; rfl
  have header : l₁.pages a =
      { l.pages a with
        xheap := l.heap.heapPtr
        xblockSize := blockSize
        reserved := asU16 (((l.pages a).count * sliceSize - calculateStartOffset blockSize) / blockSize) } := by
    rw [l₁Eq, Local.modifyPage_pages, if_pos rfl, asU32_of_lt small]
  obtain ⟨n, bound, more, extended⟩ := pageExtendFree_eq l₁ a (by rw [header]; exact positive)
  simp only [header, clean.capacity, Nat.zero_add, Nat.max_zero] at bound more
  have sizes : (pageInit l a blockSize).pages a =
      { l₁.pages a with free := freshBlocks l₁ a n ++ (l₁.pages a).free, capacity := n } := by
    rw [init, extended, Local.modifyPage_pages, if_pos rfl, header, clean.capacity, Nat.zero_add]
  have blocks : blocksOf (pageInit l a blockSize) a = freshBlocks l₁ a n := by
    have whole : blocksOf (pageInit l a blockSize) a = blocksOf l₁ a ++ freshBlocks l₁ a n :=
      blocksOf_extend (by rw [sizes]) (by rw [sizes, header, clean.capacity, Nat.zero_add])
    rw [whole, blocksOf, header, clean.capacity]
    rfl
  refine ⟨n, bound, more, ?_⟩
  rw [blocks, init, extended, l₁Eq]
  simp only [Local.modifyPage]
  congr 1
  funext x
  by_cases node : x = a
  · subst node
    simp only [if_true, clean.capacity, clean.free, Nat.zero_add, List.append_nil, asU32_of_lt small]
  · simp only [if_neg node]

/-! ### Changes of the spans only -/

/-- The heap does not change, and neither do the links of its pages. -/
theorem WfWith.queues_of_stays (wf : WfWith l spans nodes) (heap : l'.heap = l.heap)
    (same : ∀ x, InUse l x → l'.pages x = l.pages x) : PageQueuesOk l' nodes ∧ DirectOk l' := by
  obtain ⟨list, disjoint, known, word, blockSize, total⟩ := wf.queues
  refine ⟨⟨fun pq => ?_, disjoint, known, word, ?_, ?_⟩, fun w small => ?_⟩
  · rw [heap]
    exact (list pq).congr (fun x inside => by rw [same x (wf.of_mem inside).1])
      fun x inside => by rw [same x (wf.of_mem inside).1]
  · rw [heap]
    exact blockSize
  · rw [heap]
    exact total
  · rw [heap, wf.direct w small]
    simp only [queueFirst, heap]

/-- A page in use has its old header. -/
theorem PageFrame.pages_eq (frame : PageFrame l l' spans) (wf : SegmentsWf l spans)
    (page : InUse l a) : l'.pages a = l.pages a := by
  obtain ⟨s, k, c, place, inSpans⟩ := wf.exists_pageAt page
  have same := frame.busy s place.member _ inSpans rfl 0 place.positive
  simp only [Span.header, Nat.add_zero, ← place.header] at same
  exact same

/-- The pages in use are the same when the page spans are. -/
theorem SegmentsWf.inUse_congr (wf : SegmentsWf l spans) (wf' : SegmentsWf l' spans')
    (segments : ∀ r ∈ l.segments, r ∈ l'.segments)
    (same : ∀ r (x : Span), x.kind = .used → 0 < x.start → (x ∈ spans' r ↔ x ∈ spans r)) :
    InUse l' a ↔ InUse l a := by
  rw [wf'.inUse_iff, wf.inUse_iff]
  constructor
  · rintro ⟨r, _, span, inSpans, used, behind, rfl⟩
    have old := (same r span used behind).mp inSpans
    refine ⟨r, ?_, span, old, used, behind, rfl⟩
    by_contra unlisted
    rw [wf.unlisted r unlisted] at old
    cases old
  · rintro ⟨r, member, span, inSpans, used, behind, rfl⟩
    exact ⟨r, segments r member, span, (same r span used behind).mpr inSpans, used, behind, rfl⟩

/-- **Changes of the spans** that leave the pages as they are. -/
theorem WfWith.respan (wf : WfWith l spans nodes) (wf' : SegmentsWf l' spans')
    (frame : PageFrame l l' spans) {h : Held}
    (same : ∀ r (x : Span), x.kind = .used → 0 < x.start → (x ∈ spans' r ↔ x ∈ spans r))
    (popped : ∀ r (x : Span), x ∈ spans' r → x.kind ≠ .popped)
    (destroying : ∀ x, h ≠ .destroying x)
    (unlinked : ∀ x, h = .unlinked x ↔ l.held = .unlinked x) :
    WfWith { l' with held := h } spans' nodes ∧
      (∀ x, InUse { l' with held := h } x ↔ InUse l x) ∧
      ∀ x, InUse l x → PageStays l { l' with held := h } x := by
  have wf'' : SegmentsWf { l' with held := h } spans' :=
    wf'.congr rfl rfl rfl (.of_eq rfl) rfl rfl (fun _ => rfl) (fun _ => rfl) (fun _ => Iff.rfl)
      fun _ _ => ⟨rfl, rfl⟩
  have frame' : PageFrame { l with held := h } { l' with held := h } spans :=
    ⟨frame.segments, frame.heap, frame.taken, rfl, frame.oracle, frame.calls, frame.blank, frame.busy⟩
  have inUse : ∀ x, InUse { l' with held := h } x ↔ InUse l x := fun x =>
    wf.segments.inUse_congr wf'' frame.segments same
  have pages : ∀ x, InUse l x → l'.pages x = l.pages x := fun x page =>
    frame.pages_eq wf.segments page
  obtain ⟨queues, direct⟩ : PageQueuesOk { l' with held := h } nodes ∧
      DirectOk { l' with held := h } := wf.queues_of_stays frame.heap pages
  refine ⟨⟨wf'', fun r x inSpans kind => absurd kind (popped r x inSpans),
    fun x other => absurd other (destroying x), queues, direct, fun pq x => ?_, fun x page => ?_,
    fun x page => ?_, fun x page => ?_, fun x other => ?_, ?_⟩, inUse, fun x page => ?_⟩
  · rw [wf.queued, inUse]
    refine and_congr_right fun page => and_congr (not_congr (unlinked x)).symm ?_
    simp only [pageQueueOf, pages x page]
  · have old := (inUse x).mp page
    have heapPtr : l'.heap.heapPtr = l.heap.heapPtr := by rw [frame.heap]
    have ok := wf.page x old
    rw [← heapPtr, ← pages x old] at ok
    exact ok
  · have old := (inUse x).mp page
    have count := wf.count x old
    rw [← pages x old] at count
    exact count
  · exact frame.blank x (wf.blank x fun old => page ((inUse x).mpr old))
  · obtain ⟨old, empty⟩ := wf.unlinked x ((unlinked x).mp other)
    rw [← pages x old] at empty
    exact ⟨(inUse x).mpr old, empty⟩
  · have threadId : l'.heap.threadId = l.heap.threadId := by rw [frame.heap]
    exact fun zero => wf.thread (threadId ▸ zero)
  · obtain ⟨inUse', place, relinked⟩ := frame.stays wf.segments wf'
      (fun r y inSpans used behind => (same r y used behind).mpr inSpans) page
    exact ⟨(inUse x).mpr page, fun at' => by
      obtain ⟨member, base, behind, positive, inside, header, count, offset⟩ := place at'
      exact ⟨member, base, behind, positive, inside, header, count, offset⟩, relinked⟩

/-! ### `page_fresh` -/

/-- The pages in use stay, and what else the owner reads of its state. -/
structure PagesStay (l l' : Local) : Prop where
  heapPtr : l'.heap.heapPtr = l.heap.heapPtr
  taken : l'.taken = l.taken
  held : l'.held = l.held
  oracle : l'.os.oracle = l.os.oracle
  pages : ∀ x, InUse l x → PageStays l l' x

/-- What `page_fresh` makes. -/
structure FreshPage (l l' : Local) (pq a : Nat) : Prop where
  before : ¬InUse l a
  inUse : ∀ x, InUse l' x ↔ InUse l x ∨ x = a
  xblockSize : (l'.pages a).xblockSize = queueBlockSize pq
  free : (l'.pages a).free = blocksOf l' a
  nonempty : (l'.pages a).free ≠ []
  localFree : (l'.pages a).localFree = []
  used : (l'.pages a).used = 0
  notFull : (l'.pages a).getInFull = false

/-- The number of blocks that a page has room for. -/
theorem reserved_bounds {pq : Nat} (lower : 1 ≤ pq) (upper : pq ≤ 52) :
    let blockSize := queueBlockSize pq
    let reserved := (pageSlices blockSize * sliceSize - calculateStartOffset blockSize) / blockSize
    0 < reserved ∧ asU16 reserved = reserved := by
  have all : ∀ i < 53, 1 ≤ i →
      0 < (pageSlices (queueBlockSize i) * sliceSize - calculateStartOffset (queueBlockSize i)) /
        queueBlockSize i ∧
      asU16 ((pageSlices (queueBlockSize i) * sliceSize - calculateStartOffset (queueBlockSize i)) /
        queueBlockSize i) =
      (pageSlices (queueBlockSize i) * sliceSize - calculateStartOffset (queueBlockSize i)) /
        queueBlockSize i := by decide +kernel
  exact all pq (by omega) lower

/-- The page is initialised and pushed; the other pages are relinked. -/
structure InitPushed (l l' : Local) (a pq n : Nat) : Prop where
  frame : QueueFrame l l'
  moved : ∀ x, x ≠ a → Relinked (l.pages x) (l'.pages x)
  positive : 0 < n
  bound : n ≤ ((l.pages a).count * sliceSize - calculateStartOffset (queueBlockSize pq)) /
    queueBlockSize pq
  header : ∃ prev next, l'.pages a =
    { (l.pages a).setInFull false with
      xheap := l.heap.heapPtr
      xblockSize := queueBlockSize pq
      reserved := ((l.pages a).count * sliceSize - calculateStartOffset (queueBlockSize pq)) /
        queueBlockSize pq
      free := blocksOf l' a
      capacity := n
      prev
      next }

namespace InitPushed

variable {pq n : Nat} (pushed : InitPushed l l' a pq n)
include pushed

theorem count (x : Nat) : (l'.pages x).count = (l.pages x).count := by
  by_cases node : x = a
  · obtain ⟨prev, next, header⟩ := pushed.header
    rw [node, header]
    rfl
  · exact (pushed.moved x node).same.1

theorem offset (x : Nat) : (l'.pages x).offset = (l.pages x).offset := by
  by_cases node : x = a
  · obtain ⟨prev, next, header⟩ := pushed.header
    rw [node, header]
    rfl
  · exact (pushed.moved x node).same.2.1

theorem xblockSize : (l'.pages a).xblockSize = queueBlockSize pq := by
  obtain ⟨prev, next, header⟩ := pushed.header
  rw [header]

theorem capacity : (l'.pages a).capacity = n := by
  obtain ⟨prev, next, header⟩ := pushed.header
  rw [header]

/-- All its blocks are free. -/
theorem free : (l'.pages a).free = blocksOf l' a ∧ (l'.pages a).free.length = n := by
  obtain ⟨prev, next, header⟩ := pushed.header
  have free : (l'.pages a).free = blocksOf l' a := congrArg Page.free header
  refine ⟨free, ?_⟩
  rw [free, blocksOf, List.length_map, List.length_range, pushed.capacity]

theorem lists (clean : Clean (l.pages a)) : (l'.pages a).used = 0 ∧ (l'.pages a).localFree = [] := by
  obtain ⟨prev, next, header⟩ := pushed.header
  rw [header]
  exact ⟨clean.used, clean.localFree⟩

theorem inFull : (l'.pages a).getInFull = false := by
  obtain ⟨prev, next, header⟩ := pushed.header
  rw [header]
  exact Page.getInFull_setInFull ..

theorem queue (lower : 1 ≤ pq) (upper : pq ≤ 52) : pageQueueOf l' a = pq := by
  rw [pageQueueOf, pushed.inFull, if_neg (by decide), pushed.xblockSize]
  exact bin_queueBlockSize pq upper lower

/-- Where a block size is recorded stays, if the page had one. -/
theorem xblock_zero (lower : 1 ≤ pq) (upper : pq ≤ 52) (nonzero : (l.pages a).xblockSize ≠ 0) (x : Nat) :
    (l'.pages x).xblockSize = 0 ↔ (l.pages x).xblockSize = 0 := by
  by_cases node : x = a
  · obtain ⟨sizeLower, _⟩ := queueBlockSize_bounds pq upper lower
    rw [node, pushed.xblockSize]
    exact ⟨fun zero => by omega, fun zero => absurd zero nonzero⟩
  · rw [(pushed.moved x node).same.2.2.1]

theorem pageOk (lower : 1 ≤ pq) (upper : pq ≤ 52) (blank : Blank (l.pages a))
    (count : (l.pages a).count = pageSlices (queueBlockSize pq)) : PageOk l'.heap.heapPtr (l'.pages a) := by
  have bound := pushed.bound
  have heapPtr := pushed.frame.heapPtr
  have sameCount := pushed.count a
  obtain ⟨prev, next, header⟩ := pushed.header
  refine ⟨⟨pq, lower, upper, pushed.xblockSize⟩, ?_, ?_, ?_, ?_, ?_⟩
  · rw [sameCount, count, pushed.xblockSize]
  · rw [sameCount, pushed.xblockSize, header]
  · rw [pushed.capacity, header]
    exact bound
  · rw [header, heapPtr]
  · rw [header]
    exact blank.flags0

end InitPushed

/-- **`page_init` and `page_queue_push`.** -/
theorem initPush_spec {pq : Nat} (queues : PageQueuesOk l nodes) (direct : DirectOk l)
    (lower : 1 ≤ pq) (upper : pq ≤ 52) (count : (l.pages a).count = pageSlices (queueBlockSize pq))
    (clean : Clean (l.pages a)) (fresh : ∀ i, a ∉ nodes i) (nonzero : a ≠ 0) (word : a < 2 ^ 64)
    (result : l' = pageQueuePush (pageInit l a (queueBlockSize pq)) pq a) :
    (∃ nodes', PageQueuesOk l' nodes' ∧ ∀ i x, x ∈ nodes' i ↔ x ∈ nodes i ∨ (i = pq ∧ x = a)) ∧
      DirectOk l' ∧ (∃ n, InitPushed l l' a pq n) ∧
      ∀ x, (∀ i, x ∉ nodes i) → x ≠ a → l'.pages x = l.pages x := by
  obtain ⟨room, small⟩ := reserved_bounds lower upper
  obtain ⟨sizeLower, sizeUpper, _⟩ := queueBlockSize_bounds pq upper lower
  obtain ⟨n, bound, some, init⟩ := pageInit_eq l a (queueBlockSize pq) (by omega) (by omega) clean
  rw [count, small] at bound some init
  obtain ⟨l₁, l₁Eq⟩ : ∃ l₁, l₁ = pageInit l a (queueBlockSize pq) := ⟨_, rfl⟩
  have l'Eq : l' = pageQueuePush l₁ pq a := by rw [result, l₁Eq]
  rw [← l₁Eq] at init
  have pages₁ : ∀ x, x ≠ a → l₁.pages x = l.pages x := fun x differs => by
    rw [init, Local.modifyPage_pages, if_neg differs]
  have header₁ := congrArg (fun l => l.pages a) init
  simp only [Local.modifyPage_pages, if_true] at header₁
  have heap₁ : l₁.heap = l.heap := by
    rw [init]
    rfl
  have inside : ∀ i, ∀ x ∈ nodes i, l₁.pages x = l.pages x := fun i x member =>
    pages₁ x fun same => fresh i (same ▸ member)
  have queues₁ : PageQueuesOk l₁ nodes := by
    obtain ⟨list, disjoint, known, word, blockSize, total⟩ := queues
    refine ⟨fun i => ?_, disjoint, known, word, ?_, ?_⟩
    · rw [heap₁]
      exact (list i).congr (fun x member => by rw [inside i x member])
        fun x member => by rw [inside i x member]
    · rw [heap₁]
      exact blockSize
    · rw [heap₁]
      exact total
  have direct₁ : DirectOk l₁ := fun w below => by
    rw [heap₁, direct w below]
    simp only [queueFirst, heap₁]
  have known : pq ≤ binFull := by
    simp only [binFull, binHuge]
    omega
  have notFull : (pq == binFull) = false := by
    simp only [binFull, binHuge, beq_eq_false_iff_ne, ne_eq]
    omega
  obtain ⟨members, direct', frame, pages, kept⟩ :=
    queues₁.push direct₁ lower known fresh nonzero word
  rw [← l'Eq] at members direct' frame pages kept
  rw [notFull] at pages
  obtain ⟨prev, next, header⟩ := pages a
  rw [if_pos rfl, header₁] at header
  have blocks : blocksOf l₁ a = blocksOf l' a :=
    blocksOf_congr (by rw [header₁, header]; rfl) (by rw [header₁, header]; rfl)
  rw [blocks] at header
  refine ⟨members, direct', ⟨n, ?_, fun x differs => ?_, some room, ?_, prev, next, ?_⟩,
    fun x outside differs => (kept x outside differs).trans (pages₁ x differs)⟩
  · obtain ⟨segs, segments, tld, os, taken, held, heapPtr, threadId, pageEmptyPtr⟩ := frame
    rw [heap₁] at heapPtr threadId pageEmptyPtr
    rw [init] at segs segments tld os taken held
    exact ⟨segs, segments, tld, os, taken, held, heapPtr, threadId, pageEmptyPtr⟩
  · have relinked := pages x
    rw [if_neg differs, pages₁ x differs] at relinked
    exact relinked
  · rw [count]
    exact bound
  · rw [header]
    simp only [Page.setInFull, count]

section InitPush

variable {pq n : Nat} {l₂ : Local} (wf : WfWith l spans nodes) (wf' : SegmentsWf l' spans')
  (frame : PageFrame l l' spans) (new : NewPage l' spans spans' s k (pageSlices (queueBlockSize pq)))
  (lower : 1 ≤ pq) (upper : pq ≤ 52) (pushed : InitPushed l' l₂ (getPageHeaderPtr s k) pq n)
include wf wf' frame new lower upper pushed

/-- The new page is the only one more. -/
theorem WfWith.initPush_inUse (x : Nat) : InUse l₂ x ↔ InUse l x ∨ x = getPageHeaderPtr s k := by
  have inUse' := fun x => new.inUse_iff (x := x) wf.segments wf' frame
  have nonzero := ((inUse' (getPageHeaderPtr s k)).mpr (.inr rfl)).1
  rw [← inUse', InUse, InUse, pushed.frame.segments, ne_eq, pushed.xblock_zero lower upper nonzero]

/-- The segments agree with the new page. -/
theorem WfWith.initPush_segments (kept : ∀ x, (∀ i, x ∉ nodes i) → x ≠ getPageHeaderPtr s k →
    l₂.pages x = l'.pages x) : SegmentsWf l₂ spans' := by
  have inUse' := fun x => new.inUse_iff (x := x) wf.segments wf' frame
  have nonzero := ((inUse' (getPageHeaderPtr s k)).mpr (.inr rfl)).1
  have step := pushed.frame
  refine wf'.congr step.segs step.segments step.tld (.of_eq step.os) step.threadId step.pageEmptyPtr
    pushed.count pushed.offset (pushed.xblock_zero lower upper nonzero) fun x zero => ?_
  have notIn : ¬InUse l' x := fun both => both.1 zero
  rw [kept x (fun i inside => notIn ((inUse' x).mpr (.inl (wf.of_mem inside).1)))
    fun same => notIn ((inUse' x).mpr (.inr same))]
  exact ⟨rfl, rfl⟩

/-- The other pages stay. -/
theorem WfWith.initPush_stays : PagesStay l l₂ := by
  have step := pushed.frame
  have before := new.not_inUse wf.segments wf' frame
  refine ⟨by rw [step.heapPtr, frame.heap], step.taken.trans frame.taken, step.held.trans frame.held,
    by rw [step.os, frame.oracle], fun x old => ?_⟩
  have stays := frame.stays wf.segments wf' (fun r y inSpans used behind =>
    (new.pages r y ⟨by simp [used], behind⟩).mpr (.inl inSpans)) old
  have relinked := pushed.moved x fun same => before (same ▸ old)
  rw [frame.pages_eq wf.segments old] at relinked
  refine ⟨(wf.initPush_inUse wf' frame new lower upper pushed x).mpr (.inl old), fun at' => ?_, relinked⟩
  obtain ⟨member, base, behind, positive, inside, header, count, offset⟩ := stays.place at'
  exact ⟨step.segments ▸ member, base, behind, positive, inside, header, (pushed.count x).trans count,
    fun i below => (pushed.offset _).trans (offset i below)⟩

end InitPush

/-- **A page is added** to the layout, initialised and queued. -/
theorem WfWith.initPush {pq page : Nat} {l₂ : Local} (wf : WfWith l spans nodes)
    (wf' : SegmentsWf l' spans') (frame : PageFrame l l' spans) (alive : ∀ x, l.held ≠ .destroying x)
    (lower : 1 ≤ pq) (upper : pq ≤ 52) (header : page = getPageHeaderPtr s k)
    (new : NewPage l' spans spans' s k (pageSlices (queueBlockSize pq)))
    (result : l₂ = pageQueuePush (pageInit l' page (queueBlockSize pq)) pq page) :
    (∃ nodes', WfWith l₂ spans' nodes') ∧ PagesStay l l₂ ∧ FreshPage l l₂ pq page := by
  subst header
  have place := wf'.pageAt new.member new.positive new.placed
  have before := new.not_inUse wf.segments wf' frame
  have blank := frame.blank _ (wf.blank _ before)
  have fresh : ∀ i, getPageHeaderPtr s k ∉ nodes i := fun i inside => before (wf.of_mem inside).1
  obtain ⟨queues', direct'⟩ := wf.queues_of_stays frame.heap fun x old =>
    frame.pages_eq wf.segments old
  obtain ⟨⟨nodes₂, queues₂, members₂⟩, direct₂, ⟨n, pushed⟩, kept₂⟩ :=
    initPush_spec queues' direct' lower upper place.count blank.toClean fresh place.nonzero place.lt_word
      result
  have inUse := wf.initPush_inUse wf' frame new lower upper pushed
  have stay := wf.initPush_stays wf' frame new lower upper pushed
  have wf₂ := wf.initPush_segments wf' frame new lower upper pushed kept₂
  obtain ⟨free, length⟩ := pushed.free
  obtain ⟨used, localFree⟩ := pushed.lists blank.toClean
  have nonempty : (l₂.pages (getPageHeaderPtr s k)).free ≠ [] := fun none => by
    have positive := pushed.positive
    rw [none] at length
    simp only [List.length_nil] at length
    omega
  refine ⟨⟨nodes₂, wf₂, fun r x inSpans kind => ?_, fun x other => absurd (stay.held ▸ other) (alive x),
    queues₂, direct₂, fun i x => ?_, fun x inUse₂ => ?_, fun x inUse₂ => ?_, fun x outside => ?_,
    fun x other => ?_, ?_⟩, stay,
    ⟨before, inUse, pushed.xblockSize, free, nonempty, localFree, used, pushed.inFull⟩⟩
  · have old := (new.pages r x ⟨by simp [kind], wf'.popped_behind inSpans kind⟩).mp inSpans
    rcases old with old | ⟨_, rfl⟩
    · exact absurd (wf.popped r x old kind).1 (alive _)
    · simp at kind
  · rw [members₂, wf.queued, stay.held, inUse]
    by_cases node : x = getPageHeaderPtr s k
    · have free : l.held ≠ .unlinked (getPageHeaderPtr s k) := fun other => before (wf.unlinked _ other).1
      rw [node, pushed.queue lower upper]
      simp [before, free]
    · simp only [node, and_false, or_false]
      refine and_congr_right fun old => and_congr_right fun _ => ?_
      obtain ⟨_, _, sameSize, _, _, sameFlags, _⟩ := (stay.pages x old).relinked.same
      have flag : (l₂.pages x).getInFull = (l.pages x).getInFull := by
        rw [Page.getInFull, Page.getInFull, sameFlags]
      rw [pageQueueOf, pageQueueOf, flag, sameSize]
  · rcases (inUse x).mp inUse₂ with old | rfl
    · exact (wf.page x old).relinked stay.heapPtr (stay.pages x old).relinked
    · exact pushed.pageOk lower upper blank place.count
  · rcases (inUse x).mp inUse₂ with old | rfl
    · have sum := wf.count x old
      obtain ⟨_, _, _, _, _, _, capacity, used, free, localFree⟩ := (stay.pages x old).relinked.same
      rw [capacity, used, free, localFree]
      exact sum
    · rw [used, localFree, length, pushed.capacity, Nat.zero_add]
      rfl
  · have notOld : ¬InUse l x := fun old => outside ((inUse x).mpr (.inl old))
    rw [kept₂ x (fun i inside => notOld (wf.of_mem inside).1)
      fun same => outside ((inUse x).mpr (.inr same))]
    exact frame.blank x (wf.blank x notOld)
  · rw [stay.held] at other
    obtain ⟨old, empty⟩ := wf.unlinked x other
    refine ⟨(inUse x).mpr (.inl old), ?_⟩
    rw [(stay.pages x old).relinked.same.2.2.2.2.2.2.2.1]
    exact empty
  · rw [pushed.frame.threadId, frame.heap]
    exact wf.thread

/-- **`page_fresh`** makes a page and queues it, or finds no memory. -/
theorem WfWith.fresh {pq page fuel : Nat} (wf : WfWith l spans nodes)
    (alive : ∀ x, l.held ≠ .destroying x) (lower : 1 ≤ pq) (upper : pq ≤ 52)
    (result : pageFresh fuel l pq = .ok (page, l')) :
    Wf l' ∧ PagesStay l l' ∧
      ((page = 0 ∧ ∀ x, InUse l' x ↔ InUse l x) ∨ (page ≠ 0 ∧ FreshPage l l' pq page)) := by
  have size : (l.heap.pages pq).blockSize = queueBlockSize pq :=
    wf.queues.blockSize pq
  obtain ⟨sizeLower, sizeUpper, _⟩ := queueBlockSize_bounds pq upper lower
  unfold pageFresh at result
  simp only [bind, Except.bind, pure, Except.pure, size] at result
  cases allocated : segmentPageAlloc fuel l (queueBlockSize pq) 0 with
  | error error =>
      rw [allocated] at result
      cases result
  | ok outcome =>
      obtain ⟨found, l₁⟩ := outcome
      rw [allocated] at result
      simp only at result
      obtain ⟨spans₁, wf₁, frame, outcome⟩ := segmentPageAlloc_spec fuel wf.segments (by omega)
        (by simp only [mediumObjSizeMax]; omega) allocated
      have noPopped : ∀ r (x : Span), x ∈ spans r → x.kind ≠ .popped := fun r x inSpans kind =>
        alive _ (wf.popped r x inSpans kind).1
      by_cases none : found = 0
      · rw [if_pos none] at result
        cases result
        rcases outcome with ⟨_, same⟩ | ⟨s, k, header, new⟩
        · obtain ⟨wf', inUse, stays⟩ := wf.respan wf₁ frame (h := l'.held)
            (fun r x used behind => same r x (.inr ⟨by simp [used], behind⟩))
            (fun r x inSpans kind => noPopped r x ((same r x (.inl kind)).mp inSpans) kind)
            (fun x => frame.held ▸ alive x) fun x => by rw [frame.held]
          exact ⟨⟨spans₁, nodes, wf'⟩, ⟨by rw [frame.heap], frame.taken, frame.held, frame.oracle, stays⟩,
            .inl ⟨rfl, inUse⟩⟩
        · exact absurd none (header ▸ (wf₁.pageAt new.member new.positive new.placed).nonzero)
      · rw [if_neg none] at result
        cases result
        rcases outcome with ⟨zero, _⟩ | ⟨s, k, header, new⟩
        · exact absurd zero none
        · obtain ⟨⟨nodes', wf'⟩, stay, made⟩ := wf.initPush wf₁ frame alive lower upper header new rfl
          exact ⟨⟨spans₁, nodes', wf'⟩, stay, .inr ⟨none, made⟩⟩

/-! ### `segment_page_clear` -/

/-- The span of a page is popped, whatever else is written to its header. -/
theorem SegmentsWf.popPage (wf : SegmentsWf l spans) (place : PageAt l s k c a)
    (piece : ⟨k, c, .used⟩ ∈ spans s) (segs : l'.segs = l.segs) (segments : l'.segments = l.segments)
    (tld : l'.tld = l.tld) (os : l'.os = l.os) (heap : l'.heap = l.heap)
    (outside : ∀ x, x ≠ a → l'.pages x = l.pages x) (xblock : (l'.pages a).xblockSize = 0) :
    ∃ spans', SegmentsWf l' spans' ∧
      ∀ r x, x ∈ spans' r ↔ (x ∈ spans r ∧ ¬(r = s ∧ x = ⟨k, c, .used⟩)) ∨
        (r = s ∧ x = ⟨k, c, .popped⟩) := by
  obtain ⟨left, right, shape⟩ := List.append_of_mem piece
  have nodup := wf.span.nodup place.member
  rw [shape] at nodup
  have once : ⟨k, c, .used⟩ ∉ left ∧ ⟨k, c, .used⟩ ∉ right := by
    rw [List.nodup_append, List.nodup_cons] at nodup
    exact ⟨fun inside => nodup.2.2 _ inside _ (by simp) rfl, nodup.2.1.1⟩
  have members : ∀ r x, x ∈ Function.update spans s (left ++ ⟨k, c, .popped⟩ :: right) r ↔
      (x ∈ spans r ∧ ¬(r = s ∧ x = ⟨k, c, .used⟩)) ∨ (r = s ∧ x = ⟨k, c, .popped⟩) := by
    intro r x
    by_cases same : r = s
    · subst same
      rw [Function.update_self, shape]
      by_cases removed : x = ⟨k, c, .used⟩
      · subst removed
        simp [once.1, once.2]
      · simp only [List.mem_append, List.mem_cons, removed, false_or, and_false, not_false_eq_true,
          and_true, true_and]
        tauto
    · rw [Function.update_of_ne same]
      simp [same]
  refine ⟨_, ⟨?_, fun r member => ?_, fun r unlisted => ?_, fun r member => ?_, fun r member => ?_,
    fun r member => ?_, ?_, fun r member => ?_, ?_⟩, members⟩
  · refine wf.span.release place.member shape segs segments tld os (fun x differs => ?_) ?_
    · exact outside x (place.header ▸ differs)
    · rw [← place.header]
      exact xblock
  · rw [members]
    refine .inl ⟨wf.first r (segments ▸ member), fun both => ?_⟩
    have starts := congrArg Span.start both.2
    have behind := place.behind
    simp only at starts
    omega
  · rw [segments] at unlisted
    have differs : r ≠ s := fun same => unlisted (same ▸ place.member)
    rw [Function.update_of_ne differs]
    exact wf.unlisted r unlisted
  · rw [segs, wf.used r (segments ▸ member)]
    by_cases same : r = s
    · subst same
      rw [Function.update_self, shape]
      have behind := place.behind
      simp [pageSpans, Span.IsPage, List.filter_append, behind]
    · rw [Function.update_of_ne same]
  · rw [segs, heap]
    exact wf.owned r (segments ▸ member)
  · exact (wf.mapped r (segments ▸ member)).mono (by rw [os]) (by rw [os])
  · rw [heap]
    exact wf.empty.mono (by rw [os]) (by rw [os])
  · rw [heap]
    exact wf.apart r (segments ▸ member)
  · rw [segments]
    exact wf.nodup

/-- **The first part of `segment_page_clear`**: the page is no page any more. -/
theorem WfWith.clearHeader {l₁ : Local} (wf : WfWith l spans nodes) (held : l.held = .unlinked a)
    (result : segmentPageClearHeader l a = .ok l₁) :
    Wf { l₁ with held := .destroying a } ∧
      (∀ x, InUse { l₁ with held := .destroying a } x ↔ InUse l x ∧ x ≠ a) ∧
      (∀ x, x ≠ a → l₁.pages x = l.pages x) ∧ pageOfBlock l₁ = pageOfBlock l ∧
      l₁.segments = l.segments ∧ l₁.heap = l.heap ∧ l₁.taken = l.taken ∧ l₁.os = l.os := by
  obtain ⟨inUse, _⟩ := wf.unlinked a held
  obtain ⟨s, k, c, place, piece⟩ := wf.exists_pageAt inUse
  unfold segmentPageClearHeader at result
  simp only at result
  by_cases reset : (!(l.segs (ptrSegment a)).memIsPinned && !(l.pages a).getIsReset &&
      optionPageReset) = true
  · rw [if_pos reset] at result
    cases result
  rw [if_neg reset] at result
  obtain ⟨f, fEq⟩ : ∃ f : Page → Page, f = fun p => { p.setIsZeroInit false with
    capacity := 0, reserved := 0, free := [], flags1 := 0, flags2 := 0, used := 0, xblockSize := 0,
    localFree := [] } := ⟨_, rfl⟩
  rw [← fEq] at result
  have shape : ∀ p, (f p).count = p.count ∧ (f p).offset = p.offset ∧ (f p).xblockSize = 0 :=
    fun p => by
      rw [fEq]
      exact ⟨rfl, rfl, rfl⟩
  have blank : Blank (f (l.pages a)) := by
    rw [fEq]
    refine ⟨⟨rfl, rfl, rfl, rfl⟩, ?_, rfl, rfl⟩
    simp only [Page.setIsZeroInit, (wf.page a inUse).flags0]
    rfl
  cases result
  have outside : ∀ x, x ≠ a → (l.modifyPage a f).pages x = l.pages x := fun x differs => if_neg differs
  have atPage : (l.modifyPage a f).pages a = f (l.pages a) := if_pos rfl
  obtain ⟨spans', wf', members⟩ : ∃ spans',
      SegmentsWf { l.modifyPage a f with held := .destroying a } spans' ∧
        ∀ r x, x ∈ spans' r ↔ (x ∈ spans r ∧ ¬(r = s ∧ x = ⟨k, c, .used⟩)) ∨
          (r = s ∧ x = ⟨k, c, .popped⟩) :=
    wf.segments.popPage place piece rfl rfl rfl rfl rfl outside (by rw [atPage]; exact (shape _).2.2)
  have inUse' : ∀ x, InUse { l.modifyPage a f with held := .destroying a } x ↔ InUse l x ∧ x ≠ a := by
    intro x
    by_cases node : x = a
    · subst node
      simp only [InUse, atPage, (shape _).2.2, ne_eq, not_true_eq_false, false_and, and_false]
    · simp only [InUse, outside x node, node, ne_eq, not_false_eq_true, and_true]
      rfl
  have old : ∀ pq, ∀ x ∈ nodes pq, x ≠ a := fun pq x inside same =>
    (wf.of_mem inside).2.1 (same ▸ held)
  obtain ⟨list, disjoint, known, word, blockSize, total⟩ := wf.queues
  refine ⟨⟨spans', nodes, wf', fun r x inSpans kind => ?_, fun x other => ?_,
    ⟨fun pq => ?_, disjoint, known, word, blockSize, total⟩, wf.direct, fun pq x => ?_,
    fun x page => ?_, fun x page => ?_, fun x page => ?_, fun x other => (by cases other), wf.thread⟩,
    inUse', outside, ?_, rfl, rfl, rfl, rfl⟩
  · rcases (members r x).mp inSpans with ⟨before, _⟩ | ⟨rfl, rfl⟩
    · have other := (wf.popped r x before kind).1
      rw [held] at other
      cases other
    · have header : Span.header ⟨k, c, .popped⟩ r 0 = a := place.header.symm
      rw [header]
      refine ⟨rfl, place.behind, ?_⟩
      rw [atPage, (shape _).1]
      exact place.count
  · have same : a = x := by simpa using other
    subst same
    exact ⟨s, place.member, k, c, place.header, (members s _).mpr (.inr ⟨rfl, rfl⟩)⟩
  · exact (list pq).congr (fun x inside => by rw [outside x (old pq x inside)])
      fun x inside => by rw [outside x (old pq x inside)]
  · rw [wf.queued, inUse', held]
    by_cases node : x = a
    · subst node
      simp
    · have queue : pageQueueOf { l.modifyPage a f with held := .destroying a } x =
          pageQueueOf l x := by
        simp only [pageQueueOf, outside x node]
      rw [queue]
      simp [node, Ne.symm node]
  · obtain ⟨before, differs⟩ := (inUse' x).mp page
    rw [outside x differs]
    exact wf.page x before
  · obtain ⟨before, differs⟩ := (inUse' x).mp page
    rw [outside x differs]
    exact wf.count x before
  · by_cases node : x = a
    · subst node
      rw [atPage]
      exact blank
    · rw [outside x node]
      exact wf.blank x fun before => page ((inUse' x).mpr ⟨before, node⟩)
  · funext p
    have offset : ∀ x, ((l.modifyPage a f).pages x).offset = (l.pages x).offset := fun x => by
      by_cases node : x = a
      · rw [node, atPage, (shape _).2.1]
      · rw [outside x node]
    simp only [pageOfBlock, offset]

/-- The page that is being given back. -/
theorem WfWith.destroyed (wf : WfWith l spans nodes) (held : l.held = .destroying a) :
    ¬InUse l a ∧ (l.pages a).xblockSize = 0 := by
  obtain ⟨s, member, k, c, rfl, piece⟩ := wf.destroying a held
  have segment := wf.segments.span.layout.segment s member
  have zero := wf.segments.span.layout.xblock_eq_zero member piece (by simp) (i := 0)
    (segment.bounds piece).1
  exact ⟨fun page => page.1 zero, zero⟩

/-- What giving the span of a page back changes: the span takes in its unused neighbours. -/
structure GivenBack (l l' : Local) (spans spans' : Nat → List Span) (a : Nat) : Prop where
  segments : l'.segments = l.segments
  pages : ∀ x, InUse l x → l'.pages x = l.pages x
  blocks : ∀ x, SameBlocks (l.pages x) (l'.pages x)
  absorbed : ∃ s ∈ l.segments, ∃ k c, a = getPageHeaderPtr s k ∧ Absorbed (spans s) (spans' s) k c ∧
    ∀ r, r ≠ s → spans' r = spans r

/-- The span that is being given back is the only popped one. -/
theorem WfWith.popped_alone (wf : WfWith l spans nodes) (held : l.held = .destroying (getPageHeaderPtr s k))
    (member : s ∈ l.segments) (piece : ⟨k, c, .popped⟩ ∈ spans s) (r : Nat) (x : Span)
    (inSpans : x ∈ spans r) (kind : x.kind = .popped) : r = s ∧ x = ⟨k, c, .popped⟩ := by
  have layout := wf.segments.span.layout
  have rMember : r ∈ l.segments := by
    by_contra unlisted
    rw [wf.segments.unlisted r unlisted] at inSpans
    cases inSpans
  have same : getPageHeaderPtr s k = x.header r 0 := by
    simpa [held] using (wf.popped r x inSpans kind).1
  obtain ⟨segment, span, _⟩ := layout.header_inj (i := 0) (j := 0) rMember member inSpans piece
    ((layout.segment r rMember).bounds inSpans).1 ((layout.segment s member).bounds piece).1 same.symm
  exact ⟨segment, span⟩

/-- **The end of `segment_page_clear`**: the span of the page is merged and queued. -/
theorem WfWith.clearSpan (wf : WfWith l spans nodes) (held : l.held = .destroying a) :
    ∃ l₁ spans', segmentPageClearSpan l a = .ok l₁ ∧
      WfWith { l₁ with held := .nothing } spans' nodes ∧ GivenBack l l₁ spans spans' a ∧
      (∀ x, InUse { l₁ with held := .nothing } x ↔ InUse l x) ∧
      (∀ x, InUse l x → PageStays l { l₁ with held := .nothing } x) ∧
      l₁.heap = l.heap ∧ l₁.taken = l.taken ∧
      (l₁.segs (ptrSegment a)).used + 1 = (l.segs (ptrSegment a)).used ∧
      (l₁.segs (ptrSegment a)).abandoned = 0 ∧ l₁.os.oracle = l.os.oracle := by
  obtain ⟨s, member, k, c, rfl, piece⟩ := wf.destroying a held
  have alone := wf.popped_alone held member piece
  obtain ⟨_, behind, count⟩ := wf.popped s _ piece rfl
  obtain ⟨l₁, spans', result, wf', frame, segments, used, members, others, absorbed, blocks⟩ :=
    segmentPageClearSpan_spec wf.segments member behind piece
      (fun x inSpans kind => (alone s x inSpans kind).2) count wf.thread
  obtain ⟨whole, inUse, stays⟩ := wf.respan wf' frame (h := .nothing)
    (fun r x used _ => by
      rw [members r x (by simp [used])]
      refine and_iff_left_iff_imp.mpr fun _ both => ?_
      rw [both.2] at used
      cases used)
    (fun r x inSpans kind => by
      obtain ⟨before, differs⟩ := (members r x (by simp [kind])).mp inSpans
      exact differs (alone r x before kind))
    (fun x other => by cases other)
    fun x => ⟨fun other => (by cases other), fun other => by rw [held] at other; cases other⟩
  have bounds := (wf.segments.span.layout.segment s member).bounds piece
  simp only at bounds
  have segment : ptrSegment (getPageHeaderPtr s k) = s :=
    ptrSegment_header (wf.segments.span.layout.aligned member)
      (by simp only [slicesPerSegment]; omega)
  rw [segment]
  exact ⟨l₁, spans', result, whole, ⟨segments, fun x page => frame.pages_eq wf.segments page, blocks, s,
    member, k, c, rfl, absorbed, others⟩, inUse, stays, frame.heap, frame.taken, used,
    (wf'.owned s (segments ▸ member)).abandoned, frame.oracle⟩

end VerusMimalloc
