/-
**The invariant of the owner's state.**

`Wf` says that the segments with their spans, the pages of blocks and the queues of the heap agree.

* `WfWith.blocks`: changes of the blocks of a page keep it;
* `WfWith.moveFull`, `WfWith.unqueue`, `WfWith.fresh`: a page moves to another queue, leaves its
  queue, is made;
* `WfWith.clearHeader`, `WfWith.clearSpan`: the end of a page.
-/

import VerusMimalloc.Proof.Page.Queues
import VerusMimalloc.Proof.Span.Coalesce

namespace VerusMimalloc

open Library

variable {l l' : Local} {spans : Nat → List Span} {nodes : Nat → List Nat} {a : Nat}

/-- The state of the owner, with the spans of each segment and the pages of each queue. -/
structure WfWith (l : Local) (spans : Nat → List Span) (nodes : Nat → List Nat) : Prop where
  segments : SegmentsWf l spans
  popped : ∀ r x, x ∈ spans r → x.kind = .popped → l.held = .destroying (x.header r 0) ∧
    0 < x.start ∧ (l.pages (x.header r 0)).count = x.count
  destroying : ∀ a, l.held = .destroying a → ∃ s ∈ l.segments, ∃ k c, a = getPageHeaderPtr s k ∧
    ⟨k, c, .popped⟩ ∈ spans s
  queues : PageQueuesOk l nodes
  direct : DirectOk l
  queued : ∀ pq a, a ∈ nodes pq ↔ InUse l a ∧ l.held ≠ .unlinked a ∧ pq = pageQueueOf l a
  page : ∀ a, InUse l a → PageOk l.heap.heapPtr (l.pages a)
  count : ∀ a, InUse l a → (l.pages a).used + (l.pages a).free.length +
    (l.pages a).localFree.length = (l.pages a).capacity
  blank : ∀ a, ¬InUse l a → Blank (l.pages a)
  unlinked : ∀ a, l.held = .unlinked a → InUse l a ∧ (l.pages a).used = 0
  thread : l.heap.threadId ≠ 0

/-- The state of the owner between two steps. -/
def Wf (l : Local) : Prop := ∃ spans nodes, WfWith l spans nodes

/-! ### Changes of the blocks of a page -/

/-- Two headers agree on everything but the blocks of the page. -/
structure SameShape (p q : Page) : Prop where
  count : q.count = p.count
  offset : q.offset = p.offset
  xblockSize : q.xblockSize = p.xblockSize
  prev : q.prev = p.prev
  next : q.next = p.next
  reserved : q.reserved = p.reserved
  xheap : p.xblockSize ≠ 0 → q.xheap = p.xheap
  inFull : q.getInFull = p.getInFull
  flags0 : q.flags0 = p.flags0

theorem SameShape.refl (p : Page) : SameShape p p :=
  ⟨rfl, rfl, rfl, rfl, rfl, rfl, fun _ => rfl, rfl, rfl⟩

theorem SameShape.modifyPage {x : Nat} {f : Page → Page} (same : ∀ p, SameShape p (f p)) :
    SameShape (l.pages x) ((l.modifyPage a f).pages x) := by
  rw [Local.modifyPage_pages]
  split
  · exact same _
  · exact .refl _

/-- Asking the operating system changes nothing but the number of its answers. -/
structure SameOs (os os' : Os) : Prop where
  oracle : os'.oracle = os.oracle
  calls : os.calls ≤ os'.calls
  accessible : os'.accessible = os.accessible

theorem SameOs.of_eq {os os' : Os} (same : os' = os) : SameOs os os' := by
  subst same
  exact ⟨rfl, Nat.le_refl _, rfl⟩

/-- The two states differ in the blocks of pages and in what the owner holds. -/
structure BlockFrame (l l' : Local) : Prop where
  segs : l'.segs = l.segs
  segments : l'.segments = l.segments
  tld : l'.tld = l.tld
  os : SameOs l.os l'.os
  heapPtr : l'.heap.heapPtr = l.heap.heapPtr
  threadId : l'.heap.threadId = l.heap.threadId
  table : l'.heap.pagesFreeDirect = l.heap.pagesFreeDirect
  queues : l'.heap.pages = l.heap.pages
  pageCount : l'.heap.pageCount = l.heap.pageCount
  pageEmptyPtr : l'.heap.pageEmptyPtr = l.heap.pageEmptyPtr
  pages : ∀ x, SameShape (l.pages x) (l'.pages x)

theorem BlockFrame.modifyPage (l : Local) (a : Nat) {f : Page → Page} (same : ∀ p, SameShape p (f p)) :
    BlockFrame l (l.modifyPage a f) :=
  ⟨rfl, rfl, rfl, .of_eq rfl, rfl, rfl, rfl, rfl, rfl, rfl, fun _ => .modifyPage same⟩

theorem SameShape.trans {p q r : Page} (first : SameShape p q) (second : SameShape q r) :
    SameShape p r :=
  ⟨second.1.trans first.1, second.2.trans first.2, second.3.trans first.3, second.4.trans first.4,
    second.5.trans first.5, second.6.trans first.6,
    fun nonzero => (second.7 (first.3 ▸ nonzero)).trans (first.7 nonzero), second.8.trans first.8,
    second.9.trans first.9⟩

theorem SameOs.trans {os os' os'' : Os} (first : SameOs os os') (second : SameOs os' os'') :
    SameOs os os'' :=
  ⟨second.oracle.trans first.oracle, first.calls.trans second.calls,
    second.accessible.trans first.accessible⟩

theorem BlockFrame.trans {l'' : Local} (first : BlockFrame l l') (second : BlockFrame l' l'') :
    BlockFrame l l'' :=
  ⟨second.segs.trans first.segs, second.segments.trans first.segments, second.tld.trans first.tld,
    first.os.trans second.os, second.heapPtr.trans first.heapPtr,
    second.threadId.trans first.threadId, second.table.trans first.table,
    second.queues.trans first.queues, second.pageCount.trans first.pageCount,
    second.pageEmptyPtr.trans first.pageEmptyPtr, fun x => (first.pages x).trans (second.pages x)⟩

namespace BlockFrame

variable (frame : BlockFrame l l')
include frame

theorem inUse_iff {x : Nat} : InUse l' x ↔ InUse l x := by
  simp only [InUse, (frame.pages x).xblockSize, frame.segments]

theorem pageOfBlock_eq : pageOfBlock l' = pageOfBlock l := by
  funext p
  simp only [pageOfBlock, (frame.pages _).offset]

theorem pageQueueOf_eq {x : Nat} : pageQueueOf l' x = pageQueueOf l x := by
  simp only [pageQueueOf, (frame.pages x).inFull, (frame.pages x).xblockSize]

end BlockFrame

/-- Only what the headers record about spans matters, and the links of headers of no page. -/
theorem SegmentsWf.congr (wf : SegmentsWf l spans) (segs : l'.segs = l.segs)
    (segments : l'.segments = l.segments) (tld : l'.tld = l.tld) (os : SameOs l.os l'.os)
    (threadId : l'.heap.threadId = l.heap.threadId)
    (pageEmptyPtr : l'.heap.pageEmptyPtr = l.heap.pageEmptyPtr)
    (count : ∀ x, (l'.pages x).count = (l.pages x).count)
    (offset : ∀ x, (l'.pages x).offset = (l.pages x).offset)
    (xblockSize : ∀ x, (l'.pages x).xblockSize = 0 ↔ (l.pages x).xblockSize = 0)
    (links : ∀ x, (l.pages x).xblockSize = 0 →
      (l'.pages x).prev = (l.pages x).prev ∧ (l'.pages x).next = (l.pages x).next) :
    SegmentsWf l' spans := by
  obtain ⟨⟨layout, ⟨queues, queuesOk⟩, commit⟩, first, unlisted, used, owned, mapped, empty, apart,
    nodup⟩ := wf
  obtain ⟨base, segment, xblock⟩ := layout
  have linked : ∀ b, ∀ x ∈ queues b,
      (l'.pages x).prev = (l.pages x).prev ∧ (l'.pages x).next = (l.pages x).next := by
    intro b x inQueue
    obtain ⟨s, member, span, inSpans, unused, rfl, _⟩ := (queuesOk.queued b x).mp inQueue
    exact links _ (LayoutOk.xblock_eq_zero ⟨base, segment, xblock⟩ member inSpans (by simp [unused])
      (i := 0) ((segment s member).bounds inSpans).1)
  refine ⟨⟨⟨?_, ?_, ?_⟩, ⟨queues, ?_⟩, ?_⟩, ?_, ?_, ?_, ?_, ?_, ?_, ?_, ?_⟩ <;>
    try simp only [segments, segs, pageEmptyPtr, threadId]
  · exact base
  · intro s member
    obtain ⟨tiles, header, ok, separate⟩ := segment s member
    refine ⟨tiles, header, fun span inSpans => ?_, separate⟩
    have recorded := ok span inSpans
    simp only [SpanOk, count, offset, ne_eq, xblockSize] at recorded ⊢
    exact recorded
  · intro x nonzero
    exact xblock x fun zero => nonzero ((xblockSize x).mpr zero)
  · refine queuesOk.congr (fun b x inQueue => (linked b x inQueue).1)
      (fun b x inQueue => (linked b x inQueue).2) (by rw [tld]) fun b x => ?_
    rw [segments]
  · exact commit.congr segments (fun r => by rw [segs]) (fun r => by rw [segs]) os.accessible
  · exact first
  · exact unlisted
  · exact used
  · exact owned
  · exact fun s member => (mapped s member).mono os.oracle os.calls
  · exact empty.mono os.oracle os.calls
  · exact apart
  · exact nodup

/-- The spans do not depend on the blocks of the pages. -/
theorem SegmentsWf.blocks (wf : SegmentsWf l spans) (frame : BlockFrame l l') : SegmentsWf l' spans :=
  wf.congr frame.segs frame.segments frame.tld frame.os frame.threadId frame.pageEmptyPtr
    (fun x => (frame.pages x).count) (fun x => (frame.pages x).offset)
    (fun x => by rw [(frame.pages x).xblockSize])
    fun x _ => ⟨(frame.pages x).prev, (frame.pages x).next⟩

/-- **Changes of the blocks** of pages in use that keep their number. -/
theorem WfWith.blocks (wf : WfWith l spans nodes) (frame : BlockFrame l l')
    (destroying : ∀ a, l'.held = .destroying a ↔ l.held = .destroying a)
    (unlinked : ∀ a, l'.held = .unlinked a ↔ l.held = .unlinked a)
    (capacity : ∀ a, InUse l a → (l'.pages a).capacity ≤ (l.pages a).reserved)
    (count : ∀ a, InUse l a → (l'.pages a).used + (l'.pages a).free.length +
      (l'.pages a).localFree.length = (l'.pages a).capacity)
    (blank : ∀ a, ¬InUse l a → Blank (l'.pages a))
    (kept : ∀ a, l.held = .unlinked a → (l'.pages a).used = (l.pages a).used) :
    WfWith l' spans nodes := by
  refine ⟨wf.segments.blocks frame, fun r x inSpans kind => ?_, fun a held => ?_, ?_, ?_, fun pq a => ?_,
    fun a page => ?_, fun a page => ?_, fun a page => ?_, fun a held => ?_,
    frame.threadId ▸ wf.thread⟩
  · rw [destroying, (frame.pages _).count]
    exact wf.popped r x inSpans kind
  · rw [frame.segments]
    exact wf.destroying a ((destroying a).mp held)
  · obtain ⟨list, disjoint, known, word, blockSize, total⟩ := wf.queues
    refine ⟨fun pq => ?_, disjoint, known, word, ?_, ?_⟩
    · rw [frame.queues]
      exact (list pq).congr (fun x _ => (frame.pages x).prev) fun x _ => (frame.pages x).next
    · rw [frame.queues]
      exact blockSize
    · rw [frame.pageCount]
      exact total
  · intro w small
    rw [frame.table, wf.direct w small]
    simp only [queueFirst, frame.queues, frame.pageEmptyPtr]
  · rw [wf.queued, frame.inUse_iff, ne_eq, ne_eq, unlinked, frame.pageQueueOf_eq]
  · have inUse := frame.inUse_iff.mp page
    obtain ⟨queue, slices, reserved, _, xheap, flags0⟩ := wf.page a inUse
    have shape := frame.pages a
    refine ⟨?_, ?_, ?_, ?_, ?_, shape.flags0.trans flags0⟩
    · rw [shape.xblockSize]
      exact queue
    · rw [shape.count, shape.xblockSize]
      exact slices
    · rw [shape.reserved, shape.count, shape.xblockSize]
      exact reserved
    · rw [shape.reserved]
      exact capacity a inUse
    · rw [shape.xheap inUse.1, frame.heapPtr]
      exact xheap
  · exact count a (frame.inUse_iff.mp page)
  · exact blank a fun inUse => page (frame.inUse_iff.mpr inUse)
  · have old := (unlinked a).mp held
    obtain ⟨inUse, empty⟩ := wf.unlinked a old
    exact ⟨frame.inUse_iff.mpr inUse, (kept a old).trans empty⟩

namespace WfWith

/-- The place of a page in use. -/
theorem exists_pageAt (wf : WfWith l spans nodes) (page : InUse l a) :
    ∃ s k c, PageAt l s k c a ∧ ⟨k, c, .used⟩ ∈ spans s :=
  wf.segments.exists_pageAt page

/-- A page of a queue. -/
theorem of_mem (wf : WfWith l spans nodes) {pq : Nat} (member : a ∈ nodes pq) :
    InUse l a ∧ l.held ≠ .unlinked a ∧ pq = pageQueueOf l a :=
  (wf.queued pq a).mp member

/-- The queue of a page in use. -/
theorem pageQueueOf_bounds (wf : WfWith l spans nodes) (page : InUse l a) :
    1 ≤ pageQueueOf l a ∧ pageQueueOf l a ≤ binFull := by
  have bounds := (wf.page a page).bin_bounds
  unfold pageQueueOf
  simp only [binFull, binHuge]
  split <;> omega

end WfWith

/-! ### Moving a page -/

section Move

/-- What relinking keeps. -/
theorem Relinked.same {p q : Page} (relinked : Relinked p q) :
    q.count = p.count ∧ q.offset = p.offset ∧ q.xblockSize = p.xblockSize ∧ q.reserved = p.reserved ∧
      q.xheap = p.xheap ∧ q.flags1 = p.flags1 ∧ q.capacity = p.capacity ∧ q.used = p.used ∧
      q.free = p.free ∧ q.localFree = p.localFree := by
  obtain ⟨_, _, rfl⟩ := relinked
  exact ⟨rfl, rfl, rfl, rfl, rfl, rfl, rfl, rfl, rfl, rfl⟩

/-- Relinking pages, and setting a flag of one. -/
structure MoveFrame (l l' : Local) (a : Nat) (flags1 : BitVec 8) : Prop where
  queue : QueueFrame { l with held := l'.held } l'
  pages : ∀ x, Relinked (if x = a then { l.pages x with flags1 := flags1 } else l.pages x) (l'.pages x)
  outside : ∀ x, ¬InUse l x → l'.pages x = l.pages x

namespace MoveFrame

variable {flags1 : BitVec 8} (frame : MoveFrame l l' a flags1)
include frame

/-- What stays the same in every header. -/
theorem same (x : Nat) : (l'.pages x).count = (l.pages x).count ∧
    (l'.pages x).offset = (l.pages x).offset ∧ (l'.pages x).xblockSize = (l.pages x).xblockSize ∧
    (l'.pages x).reserved = (l.pages x).reserved ∧ (l'.pages x).xheap = (l.pages x).xheap ∧
    (l'.pages x).capacity = (l.pages x).capacity ∧ (l'.pages x).used = (l.pages x).used ∧
    (l'.pages x).free = (l.pages x).free ∧ (l'.pages x).localFree = (l.pages x).localFree ∧
    (l'.pages x).flags0 = (l.pages x).flags0 := by
  obtain ⟨prev, next, moved⟩ := frame.pages x
  rw [moved]
  by_cases node : x = a
  · rw [if_pos node]
    exact ⟨rfl, rfl, rfl, rfl, rfl, rfl, rfl, rfl, rfl, rfl⟩
  · rw [if_neg node]
    exact ⟨rfl, rfl, rfl, rfl, rfl, rfl, rfl, rfl, rfl, rfl⟩

theorem inUse_iff {x : Nat} : InUse l' x ↔ InUse l x := by
  simp only [InUse, (frame.same x).2.2.1, frame.queue.segments]

theorem pageOfBlock_eq : pageOfBlock l' = pageOfBlock l := by
  funext p
  simp only [pageOfBlock, (frame.same _).2.1]

theorem getInFull_of_ne {x : Nat} (differs : x ≠ a) :
    (l'.pages x).getInFull = (l.pages x).getInFull := by
  obtain ⟨prev, next, moved⟩ := frame.pages x
  rw [moved, if_neg differs]
  rfl

/-- **Moving a page** keeps the segments, the pages and their blocks. -/
theorem wfWith {nodes' : Nat → List Nat} (wf : WfWith l spans nodes)
    (destroying : ∀ x, l'.held = .destroying x ↔ l.held = .destroying x)
    (queues : PageQueuesOk l' nodes') (direct : DirectOk l')
    (queued : ∀ pq x, x ∈ nodes' pq ↔ InUse l x ∧ l'.held ≠ .unlinked x ∧ pq = pageQueueOf l' x)
    (unlinked : ∀ x, l'.held = .unlinked x → InUse l x ∧ (l.pages x).used = 0) :
    WfWith l' spans nodes' := by
  have notPage : ∀ x, (l.pages x).xblockSize = 0 → ¬InUse l x := fun x zero page => page.1 zero
  refine ⟨wf.segments.congr frame.queue.segs frame.queue.segments frame.queue.tld
    (.of_eq frame.queue.os) frame.queue.threadId frame.queue.pageEmptyPtr (fun x => (frame.same x).1)
    (fun x => (frame.same x).2.1) (fun x => by rw [(frame.same x).2.2.1])
    (fun x zero => by rw [frame.outside x (notPage x zero)]; exact ⟨rfl, rfl⟩),
    fun r x inSpans kind => ?_, fun x held => ?_, queues, direct, fun pq x => ?_,
    fun x page => ?_, fun x page => ?_, fun x page => ?_, fun x held => ?_, ?_⟩
  · rw [destroying, (frame.same _).1]
    exact wf.popped r x inSpans kind
  · have segments : l'.segments = l.segments := frame.queue.segments
    rw [segments]
    exact wf.destroying x ((destroying x).mp held)
  · rw [queued, frame.inUse_iff]
  · obtain ⟨queue, slices, reserved, capacity, xheap, flags0⟩ := wf.page x (frame.inUse_iff.mp page)
    obtain ⟨count, _, xblockSize, sameReserved, sameXheap, sameCapacity, _, _, _, sameFlags0⟩ :=
      frame.same x
    have heapPtr : l'.heap.heapPtr = l.heap.heapPtr := frame.queue.heapPtr
    refine ⟨?_, ?_, ?_, ?_, ?_, sameFlags0.trans flags0⟩
    · rw [xblockSize]
      exact queue
    · rw [count, xblockSize]
      exact slices
    · rw [sameReserved, count, xblockSize]
      exact reserved
    · rw [sameCapacity, sameReserved]
      exact capacity
    · rw [sameXheap, heapPtr]
      exact xheap
  · obtain ⟨_, _, _, _, _, capacity, used, free, localFree, _⟩ := frame.same x
    rw [capacity, used, free, localFree]
    exact wf.count x (frame.inUse_iff.mp page)
  · have outside : ¬InUse l x := fun inUse => page (frame.inUse_iff.mpr inUse)
    rw [frame.outside x outside]
    exact wf.blank x outside
  · rw [frame.inUse_iff, (frame.same x).2.2.2.2.2.2.1]
    exact unlinked x held
  · have threadId : l'.heap.threadId = l.heap.threadId := frame.queue.threadId
    rw [threadId]
    exact wf.thread

end MoveFrame

variable {pq source target : Nat}

/-- **`page_queue_enqueue_from`**: the page moves to the full queue or back to the queue of its bin. -/
theorem WfWith.enqueueFrom (wf : WfWith l spans nodes) (member : a ∈ nodes source)
    (toQueue : target = binFull ∨ target = bin (l.pages a).xblockSize) :
    ∃ nodes', WfWith (pageQueueEnqueueFrom l target source a) spans nodes' ∧
      (pageQueueEnqueueFrom l target source a).held = l.held ∧
      MoveFrame l (pageQueueEnqueueFrom l target source a) a
        ((l.pages a).setInFull (target == binFull)).flags1 := by
  obtain ⟨page, notUnlinked, sourceEq⟩ := wf.of_mem member
  have sizes := (wf.page a page).bin_bounds
  obtain ⟨s, k, c, place, _⟩ := wf.exists_pageAt page
  obtain ⟨sourceLower, sourceUpper⟩ := wf.pageQueueOf_bounds page
  have targetBounds : 1 ≤ target ∧ target ≤ binFull := by
    simp only [binFull, binHuge] at toQueue ⊢
    omega
  obtain ⟨⟨nodes₁, queues₁, members₁⟩, direct₁, frame₁, pages₁, kept₁⟩ :=
    wf.queues.remove wf.direct (sourceEq ▸ sourceLower) member
  have fresh : ∀ i, a ∉ nodes₁ i := fun i inside => ((members₁ i a).mp inside).2 rfl
  obtain ⟨⟨nodes₂, queues₂, members₂⟩, direct₂, frame₂, pages₂, kept₂⟩ :=
    queues₁.pushBack direct₁ targetBounds.1 targetBounds.2 fresh place.nonzero place.lt_word
  have held : (pageQueueEnqueueFrom l target source a).held = l.held := frame₂.held.trans frame₁.held
  have frame : MoveFrame l (pageQueueEnqueueFrom l target source a) a
      ((l.pages a).setInFull (target == binFull)).flags1 := by
    refine ⟨?_, fun x => ?_, fun x outside => ?_⟩
    · rw [held]
      exact frame₁.trans frame₂
    · obtain ⟨prev, next, first⟩ := pages₁ x
      have second := pages₂ x
      by_cases node : x = a
      · rw [if_pos node] at second ⊢
        subst node
        rw [first] at second
        obtain ⟨prev', next', second⟩ := second
        exact ⟨prev', next', second⟩
      · rw [if_neg node] at second ⊢
        exact Relinked.trans ⟨prev, next, first⟩ second
    · have notNode : x ≠ a := fun same => outside (same ▸ page)
      have notIn : ∀ i, x ∉ nodes i := fun i inside => outside (wf.of_mem inside).1
      exact (kept₂ x (fun i inside => notIn i ((members₁ i x).mp inside).1) notNode).trans (kept₁ x notIn)
  refine ⟨nodes₂, frame.wfWith wf (fun x => by rw [held]) queues₂ direct₂ (fun pq x => ?_)
    (fun x unlinked => wf.unlinked x (held ▸ unlinked)), held, frame⟩
  rw [held, members₂, members₁, wf.queued]
  have sameSize := (frame.same x).2.2.1
  by_cases node : x = a
  · subst node
    have inFull : ((pageQueueEnqueueFrom l target source x).pages x).getInFull = (target == binFull) := by
      obtain ⟨prev, next, moved⟩ := frame.pages x
      rw [moved, if_pos rfl]
      exact Page.getInFull_setInFull ..
    have queue : pageQueueOf (pageQueueEnqueueFrom l target source x) x = target := by
      simp only [pageQueueOf, inFull, sameSize, beq_iff_eq]
      by_cases full : target = binFull
      · rw [if_pos full, full]
      · rw [if_neg full]
        exact (toQueue.resolve_left full).symm
    rw [queue]
    simp [page, notUnlinked]
  · have queue : pageQueueOf (pageQueueEnqueueFrom l target source a) x = pageQueueOf l x := by
      simp only [pageQueueOf, frame.getInFull_of_ne node, sameSize]
    rw [queue]
    simp [node]

/-- **The part of `page_free` before `segment_page_free`**: an empty page leaves its queue. -/
theorem WfWith.unqueue (wf : WfWith l spans nodes) (held : ∀ x, l.held ≠ .unlinked x)
    (alive : ∀ x, l.held ≠ .destroying x) (page : InUse l a) (empty : (l.pages a).used = 0) :
    ∃ nodes', WfWith (pageFree l a (pageQueueOf l a)) spans nodes' ∧
      MoveFrame l (pageFree l a (pageQueueOf l a)) a ((l.pages a).setHasAligned false).flags1 := by
  obtain ⟨lower, _⟩ := wf.pageQueueOf_bounds page
  have blockFrame : BlockFrame l (l.modifyPage a fun p => p.setHasAligned false) :=
    .modifyPage l a fun p => ⟨rfl, rfl, rfl, rfl, rfl, rfl, fun _ => rfl, by simp, rfl⟩
  have wf₁ : WfWith (l.modifyPage a fun p => p.setHasAligned false) spans nodes := by
    have pages : ∀ x, ((l.modifyPage a fun p => p.setHasAligned false).pages x) =
        if x = a then (l.pages x).setHasAligned false else l.pages x := fun _ => rfl
    refine wf.blocks blockFrame (fun _ => Iff.rfl) (fun _ => Iff.rfl) (fun x inUse => ?_)
      (fun x inUse => ?_) (fun x outside => ?_) fun x unlinked => absurd unlinked (held x)
    · rw [pages]
      have := (wf.page x inUse).capacity
      split <;> exact this
    · rw [pages]
      have := wf.count x inUse
      split <;> exact this
    · have notNode : x ≠ a := fun same => outside (same ▸ page)
      rw [pages, if_neg notNode]
      exact wf.blank x outside
  have member : a ∈ nodes (pageQueueOf l a) := (wf.queued _ a).mpr ⟨page, held a, rfl⟩
  obtain ⟨⟨nodes₁, queues₁, members₁⟩, direct₁, frame₁, pages₁, kept₁⟩ :=
    wf₁.queues.remove wf₁.direct lower member
  have freeEq : pageFree l a (pageQueueOf l a) = { pageQueueRemove (l.modifyPage a fun p =>
      p.setHasAligned false) (pageQueueOf l a) a with held := .unlinked a } := rfl
  rw [freeEq]
  generalize pageQueueRemove (l.modifyPage a fun p => p.setHasAligned false) (pageQueueOf l a) a = l₁
    at *
  have frame : MoveFrame l { l₁ with held := .unlinked a } a
      ((l.pages a).setHasAligned false).flags1 := by
    refine ⟨⟨frame₁.segs, frame₁.segments, frame₁.tld, frame₁.os, frame₁.taken, rfl, frame₁.heapPtr,
      frame₁.threadId, frame₁.pageEmptyPtr⟩, fun x => ?_, fun x outside => ?_⟩
    · obtain ⟨prev, next, moved⟩ := pages₁ x
      refine ⟨prev, next, moved.trans ?_⟩
      rw [Local.modifyPage_pages]
      by_cases node : x = a
      · subst node
        rw [if_pos rfl, if_pos rfl]
        rfl
      · rw [if_neg node, if_neg node]
    · have notNode : x ≠ a := fun same => outside (same ▸ page)
      exact (kept₁ x fun i inside => outside (wf.of_mem inside).1).trans (if_neg notNode)
  refine ⟨nodes₁, frame.wfWith wf (fun x => ?_) ?_ ?_ (fun pq x => ?_) (fun x unlinked => ?_), frame⟩
  · exact ⟨fun other => (by cases other), fun other => absurd other (alive x)⟩
  · obtain ⟨list, disjoint, known, word, blockSize, count⟩ := queues₁
    exact ⟨list, disjoint, known, word, blockSize, count⟩
  · exact direct₁
  · rw [members₁, wf.queued]
    have sameSize := (frame.same x).2.2.1
    by_cases node : x = a
    · subst node
      simp
    · have sameFlag := frame.getInFull_of_ne node
      have queue : pageQueueOf { l₁ with held := .unlinked a } x = pageQueueOf l x := by
        simp only [pageQueueOf] at sameSize sameFlag ⊢
        rw [sameFlag, sameSize]
      rw [queue]
      simp [node, held x, Ne.symm node]
  · have same : a = x := by simpa using unlinked
    subst same
    exact ⟨page, empty⟩

end Move

end VerusMimalloc
