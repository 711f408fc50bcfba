/-
**Taking spans into use.**

Each function on spans changes one span of the layout and keeps the headers, the span queues and the
commit masks in agreement (`SpanWf`).

* `SpanWf.delete`: an unused span is taken out of its queue;
* `Cut`, `SpanWf.split`: a popped span is cut, its rest is queued;
* `Occupied`, `SpanWf.allocate`: a popped span comes into use.
-/

import VerusMimalloc.Proof.Commit
import VerusMimalloc.Proof.Span.Layout
import Mathlib.Tactic.SplitIfs

namespace VerusMimalloc

open Library

/-! ### Frames -/

/-- Two headers agree on everything about the blocks of the page. -/
structure SameBlocks (p q : Page) : Prop where
  capacity : q.capacity = p.capacity
  reserved : q.reserved = p.reserved
  flags1 : q.flags1 = p.flags1
  free : q.free = p.free
  used : q.used = p.used
  localFree : q.localFree = p.localFree
  xheap : q.xheap = p.xheap
  flags2 : q.flags2 = p.flags2
  flags0 : p.flags0 = 0 → q.flags0 = 0

theorem SameBlocks.refl (p : Page) : SameBlocks p p :=
  ⟨rfl, rfl, rfl, rfl, rfl, rfl, rfl, rfl, id⟩

theorem SameBlocks.trans {p q r : Page} (first : SameBlocks p q) (second : SameBlocks q r) :
    SameBlocks p r :=
  ⟨second.1.trans first.1, second.2.trans first.2, second.3.trans first.3, second.4.trans first.4,
    second.5.trans first.5, second.6.trans first.6, second.7.trans first.7, second.8.trans first.8,
    fun clear => second.9 (first.9 clear)⟩

/-- A slice of a span in use. -/
def BusySlice (spans : Nat → List Span) (s j : Nat) : Prop :=
  ∃ span ∈ spans s, span.kind = .used ∧ span.start ≤ j ∧ j < span.start + span.count

/-- The frame of a span operation: it leaves the heap and the blocks of all pages alone, and the
headers of the spans that are in use entirely. -/
structure SpanFrame (l l' : Local) (spans : Nat → List Span) : Prop where
  segments : l'.segments = l.segments
  heap : l'.heap = l.heap
  taken : l'.taken = l.taken
  held : l'.held = l.held
  oracle : l'.os.oracle = l.os.oracle
  calls : l.os.calls ≤ l'.os.calls
  segs : ∀ r, SameSegment (l.segs r) (l'.segs r)
  blocks : ∀ x, SameBlocks (l.pages x) (l'.pages x)
  busy : ∀ s ∈ l.segments, ∀ span ∈ spans s, span.kind = .used →
    ∀ i < span.count, l'.pages (span.header s i) = l.pages (span.header s i)

namespace SpanFrame

variable {l l' l'' : Local} {spans spans' : Nat → List Span}

theorem refl (l : Local) (spans : Nat → List Span) : SpanFrame l l spans :=
  ⟨rfl, rfl, rfl, rfl, rfl, Nat.le_refl _, fun _ => .refl _, fun _ => .refl _,
    fun _ _ _ _ _ _ _ => rfl⟩

theorem trans (first : SpanFrame l l' spans) (second : SpanFrame l' l'' spans')
    (fewer : ∀ s ∈ l.segments, ∀ span ∈ spans s, span.kind = .used → span ∈ spans' s) :
    SpanFrame l l'' spans :=
  ⟨second.segments.trans first.segments, second.heap.trans first.heap,
    second.taken.trans first.taken, second.held.trans first.held,
    second.oracle.trans first.oracle, first.calls.trans second.calls,
    fun r => (first.segs r).trans (second.segs r), fun x => (first.blocks x).trans (second.blocks x),
    fun s member span inSpans used i inside =>
      (second.busy s (first.segments ▸ member) span (fewer s member span inSpans used) used i
        inside).trans (first.busy s member span inSpans used i inside)⟩

/-- Two steps over one layout. -/
theorem andThen (first : SpanFrame l l' spans) (second : SpanFrame l' l'' spans) :
    SpanFrame l l'' spans :=
  first.trans second fun _ _ _ inSpans _ => inSpans

theorem ofCommit (frame : CommitFrame l l') : SpanFrame l l' spans :=
  ⟨frame.segments, frame.heap, frame.taken, frame.held, frame.oracle, frame.calls, frame.segs,
    fun x => by rw [frame.pages]; exact .refl _, fun _ _ _ _ _ _ _ => by rw [frame.pages]⟩

end SpanFrame

/-- Headers, span queues and commit masks agree with the layout. -/
structure SpanWf (l : Local) (spans : Nat → List Span) : Prop where
  layout : LayoutOk l spans
  queues : ∃ queues, SpanQueuesOk l spans queues
  commit : CommitOk l (BusySlice spans)

/-! ### Replacing one span in the list -/

section Replace

variable {spans : Nat → List Span} {s r : Nat} {piece span : Span} {left m right : List Span}

theorem mem_replace (shape : spans s = left ++ piece :: right) (member : span ∈ spans r)
    (differs : span ≠ piece) : span ∈ Function.update spans s (left ++ (m ++ right)) r := by
  by_cases same : r = s
  · subst same
    rw [Function.update_self]
    rw [shape] at member
    simp only [List.mem_append, List.mem_cons] at member ⊢
    tauto
  · rw [Function.update_of_ne same]
    exact member

theorem mem_of_replace (shape : spans s = left ++ piece :: right)
    (member : span ∈ Function.update spans s (left ++ (m ++ right)) r) :
    span ∈ spans r ∨ (r = s ∧ span ∈ m) := by
  by_cases same : r = s
  · subst same
    rw [Function.update_self] at member
    rw [shape]
    simp only [List.mem_append, List.mem_cons] at member ⊢
    tauto
  · rw [Function.update_of_ne same] at member
    exact .inl member

theorem busySlice_replace (shape : spans s = left ++ piece :: right) {j : Nat}
    (busy : BusySlice (Function.update spans s (left ++ (m ++ right))) r j) :
    BusySlice spans r j ∨ (r = s ∧ ∃ x ∈ m, x.kind = .used ∧ x.start ≤ j ∧ j < x.start + x.count) := by
  obtain ⟨x, member, used, lower, upper⟩ := busy
  rcases mem_of_replace shape member with old | ⟨same, inMid⟩
  · exact .inl ⟨x, old, used, lower, upper⟩
  · exact .inr ⟨same, x, inMid, used, lower, upper⟩

end Replace

variable {l l' : Local} {spans : Nat → List Span} {s k n c : Nat} {left right : List Span}

/-- A header outside the spans in use records no block size. -/
theorem LayoutOk.xblock_eq_zero (layout : LayoutOk l spans) (member : s ∈ l.segments) {span : Span}
    (inSpans : span ∈ spans s) (kind : span.kind ≠ .used) {i : Nat} (inside : i < span.count) :
    (l.pages (span.header s i)).xblockSize = 0 := by
  by_contra nonzero
  obtain ⟨r, rMember, other, otherMember, used, same⟩ := layout.xblock _ nonzero
  obtain ⟨_, rfl, _⟩ := layout.header_inj member rMember inSpans otherMember inside
    ((layout.segment r rMember).bounds otherMember).1 same
  exact kind used

/-- The headers of a queued span are headers of an unused span. -/
theorem queued_not_busy (layout : LayoutOk l spans) {b x : Nat} (queued : Queued l.segments spans b x)
    {span : Span} (member : s ∈ l.segments) (inSpans : span ∈ spans s) (used : span.kind ≠ .unused)
    {i : Nat} (inside : i < span.count) : x ≠ span.header s i := by
  rintro rfl
  obtain ⟨r, rMember, other, otherMember, unused, same, _⟩ := queued
  obtain ⟨_, rfl, _⟩ := layout.header_inj member rMember inSpans otherMember inside
    ((layout.segment r rMember).bounds otherMember).1 same
  exact used unused

/-! ### Taking a span out of its queue -/

/-- The frame of changes of links and queue heads. -/
structure LinkFrame (l l' : Local) : Prop where
  segs : l'.segs = l.segs
  segments : l'.segments = l.segments
  heap : l'.heap = l.heap
  os : l'.os = l.os
  taken : l'.taken = l.taken
  held : l'.held = l.held

/-- The span `node` is out of the queue `b`: its neighbours and the queue heads are redirected. -/
structure Unlinked (l l' : Local) (b node : Nat) : Prop where
  frame : LinkFrame l l'
  pages : ∀ x, l'.pages x =
    { l.pages x with
      next := if (l.pages node).prev ≠ 0 ∧ x = (l.pages node).prev then (l.pages node).next
        else (l.pages x).next
      prev := if (l.pages node).next ≠ 0 ∧ x = (l.pages node).next then (l.pages node).prev
        else (l.pages x).prev }
  heads : ∀ i, l'.tld.spanQueueHeaders i =
    if i = b then
      { first := if (l.pages node).prev = 0 then (l.pages node).next
          else (l.tld.spanQueueHeaders b).first
        last := if (l.pages node).next = 0 then (l.pages node).prev
          else (l.tld.spanQueueHeaders b).last }
    else l.tld.spanQueueHeaders i

theorem spanQueueDelete_unlinked (l : Local) (b node : Nat) :
    Unlinked l (spanQueueDelete l b node) b node := by
  unfold spanQueueDelete
  refine ⟨by constructor <;> (simp only; split_ifs <;> rfl), fun x => ?_, fun i => ?_⟩
  · generalize (l.pages node).prev = prev
    generalize (l.pages node).next = next
    by_cases prevNull : prev = 0 <;> by_cases nextNull : next = 0 <;>
      simp only [prevNull, nextNull, if_true, if_false, Local.modifyPage_pages,
        Local.modifySpanQueue_pages, ne_eq, not_true, not_false_iff, false_and, true_and] <;>
      split_ifs <;> rfl
  · generalize (l.pages node).prev = prev
    generalize (l.pages node).next = next
    by_cases same : i = b
    · subst same
      by_cases prevNull : prev = 0 <;> by_cases nextNull : next = 0 <;> simp [prevNull, nextNull]
    · by_cases prevNull : prev = 0 <;> by_cases nextNull : next = 0 <;>
        simp [prevNull, nextNull, same]

theorem spanQueueUnlink_unlinked (l : Local) (b node : Nat) :
    Unlinked l (spanQueueUnlink l b node) b node := by
  unfold spanQueueUnlink
  refine ⟨by constructor <;> (simp only [Local.modifySpanQueue]; split_ifs <;> rfl), fun x => ?_,
    fun i => ?_⟩
  · generalize (l.pages node).prev = prev
    generalize (l.pages node).next = next
    by_cases prevNull : prev = 0 <;> by_cases nextNull : next = 0 <;>
      simp only [prevNull, nextNull, if_true, if_false, Local.modifyPage_pages,
        Local.modifySpanQueue_pages, ne_eq, not_true, not_false_iff, false_and, true_and] <;>
      split_ifs <;> rfl
  · generalize (l.pages node).prev = prev
    generalize (l.pages node).next = next
    by_cases same : i = b
    · subst same
      by_cases prevNull : prev = 0 <;> by_cases nextNull : next = 0 <;> simp [prevNull, nextNull]
    · by_cases prevNull : prev = 0 <;> by_cases nextNull : next = 0 <;>
        simp [prevNull, nextNull, same]

namespace SpanWf

/-- **An unused span is popped**: it leaves its queue. -/
theorem delete (wf : SpanWf l spans) (member : s ∈ l.segments)
    (shape : spans s = left ++ ⟨k, c, .unused⟩ :: right)
    (unlinked : Unlinked l l' (sliceBin c) (getPageHeaderPtr s k)) :
    SpanWf l' (Function.update spans s (left ++ ⟨k, c, .popped⟩ :: right)) ∧ SpanFrame l l' spans ∧
      ∀ x, SameMeta (l.pages x) (l'.pages x) := by
  have pieceMember : (⟨k, c, .unused⟩ : Span) ∈ spans s := by rw [shape]; simp
  have segment := wf.layout.segment s member
  have positive := (segment.bounds pieceMember).1
  have sameMeta : ∀ x, SameMeta (l.pages x) (l'.pages x) := fun x => by
    rw [unlinked.pages]
    exact ⟨rfl, rfl, rfl⟩
  have layout' : LayoutOk l' (Function.update spans s (left ++ ([⟨k, c, .popped⟩] ++ right))) := by
    refine wf.layout.replace member shape
      (fun zero => absurd (segment.start_pos pieceMember (.inl rfl)) (by simp only at zero ⊢; omega))
      ⟨rfl, positive, rfl⟩ unlinked.frame.segments (fun x _ => sameMeta x) ?_ ?_ ?_ ?_
    · simp [SpanOk]
    · simp
    · simp
    · intro i inside nonzero
      rw [(sameMeta _).xblockSize] at nonzero
      exact absurd (wf.layout.xblock_eq_zero member pieceMember (by simp) inside) nonzero
  obtain ⟨queues, queuesOk⟩ := wf.queues
  have queued : Queued l.segments spans (sliceBin c) (getPageHeaderPtr s k) :=
    ⟨s, member, _, pieceMember, rfl, rfl, rfl⟩
  refine ⟨⟨layout', ?_, ?_⟩, ?_, sameMeta⟩
  · refine queuesOk.unlink wf.layout queued (fun x => by rw [unlinked.pages])
      (fun x => by rw [unlinked.pages]) unlinked.heads fun i a => ?_
    rw [unlinked.frame.segments]
    refine (wf.layout.queued_replace member shape (m := [⟨k, c, .popped⟩])).trans ?_
    simp [Span.header]
  · have commit : CommitOk l' (BusySlice spans) :=
      wf.commit.congr unlinked.frame.segments (fun r => by rw [unlinked.frame.segs])
        (fun r => by rw [unlinked.frame.segs]) (by rw [unlinked.frame.os])
    refine commit.mono fun r rMember j busy => commit.busy r rMember j ?_
    rcases busySlice_replace (m := [⟨k, c, .popped⟩]) shape busy with old | ⟨_, x, inMid, used, _⟩
    · exact old
    · simp only [List.mem_singleton] at inMid
      subst inMid
      simp at used
  · refine ⟨unlinked.frame.segments, unlinked.frame.heap, unlinked.frame.taken,
      unlinked.frame.held, by rw [unlinked.frame.os], by rw [unlinked.frame.os],
      fun r => by rw [unlinked.frame.segs]; exact .refl _,
      fun x => by rw [unlinked.pages]; exact ⟨rfl, rfl, rfl, rfl, rfl, rfl, rfl, rfl, id⟩, ?_⟩
    intro r rMember span inSpans used i inside
    have apart : ∀ x, x ∈ queues (sliceBin c) → x ≠ span.header r i := fun x inQueue =>
      queued_not_busy wf.layout ((queuesOk.queued _ x).mp inQueue) rMember inSpans (by simp [used])
        inside
    obtain ⟨before, after, split⟩ := List.append_of_mem ((queuesOk.queued _ _).mpr queued)
    have list := queuesOk.list (sliceBin c)
    rw [split] at list apart
    rw [unlinked.pages, if_neg, if_neg]
    · rintro ⟨nonzero, same⟩
      exact apart _ (List.mem_append_left _ (list.prev_mem nonzero)) same.symm
    · rintro ⟨nonzero, same⟩
      exact apart _ (List.mem_append_right _ (List.mem_cons_of_mem _ (list.next_mem nonzero))) same.symm

end SpanWf

/-! ### Queueing a span -/

theorem spanQueueLinkFront_frame (b node : Nat) : LinkFrame l (spanQueueLinkFront l b node) := by
  unfold spanQueueLinkFront
  constructor <;> (simp only; split_ifs <;> rfl)

theorem spanQueueLinkFront_pages (b node x : Nat) :
    (spanQueueLinkFront l b node).pages x =
      if (l.tld.spanQueueHeaders b).first ≠ 0 ∧ x = (l.tld.spanQueueHeaders b).first then
        { l.pages x with prev := node }
      else l.pages x := by
  unfold spanQueueLinkFront
  by_cases null : (l.tld.spanQueueHeaders b).first = 0
  · simp [null]
  · simp only [ne_eq, null, not_false_iff, if_true, true_and, Local.modifyPage_pages,
      Local.modifySpanQueue_pages]

theorem spanQueueLinkFront_heads (b node i : Nat) :
    (spanQueueLinkFront l b node).tld.spanQueueHeaders i =
      if i = b then
        { first := node
          last := if (l.tld.spanQueueHeaders b).first = 0 then node
            else (l.tld.spanQueueHeaders b).last }
      else l.tld.spanQueueHeaders i := by
  unfold spanQueueLinkFront
  by_cases same : i = b
  · subst same
    simp only
    split_ifs <;> simp
  · simp only
    split_ifs <;> simp [same]

/-- The headers after a split: the first slice, the rest's first and last slice, and the others. -/
theorem segmentSliceSplit_pages (positive : 0 < n) (smaller : n < c)
    (apart : ∀ i < c, (l.tld.spanQueueHeaders (sliceBin (c - n))).first ≠ 0 →
      getPageHeaderPtr s (k + i) ≠ (l.tld.spanQueueHeaders (sliceBin (c - n))).first) (x : Nat) :
    (segmentSliceSplit l (getPageHeaderPtr s k) c n).pages x =
      if x = getPageHeaderPtr s k then { l.pages x with count := asU32 n }
      else if x = getPageHeaderPtr s (k + n) then
        (l.pages x).toRest (c - n) (l.tld.spanQueueHeaders (sliceBin (c - n))).first
      else if x = getPageHeaderPtr s (k + c - 1) then (l.pages x).toRestLast (c - n)
      else if (l.tld.spanQueueHeaders (sliceBin (c - n))).first ≠ 0 ∧
          x = (l.tld.spanQueueHeaders (sliceBin (c - n))).first then
        { l.pages x with prev := getPageHeaderPtr s (k + n) }
      else l.pages x := by
  have notFirst : ∀ i < c, ¬((l.tld.spanQueueHeaders (sliceBin (c - n))).first ≠ 0 ∧
      getPageHeaderPtr s (k + i) = (l.tld.spanQueueHeaders (sliceBin (c - n))).first) :=
    fun i inside both => apart i inside both.1 both.2
  have sliceNotFirst := notFirst 0 (by omega)
  rw [Nat.add_zero] at sliceNotFirst
  have restNotSlice : getPageHeaderPtr s (k + n) ≠ getPageHeaderPtr s k := by
    rw [ne_eq, getPageHeaderPtr_inj]
    omega
  have lastIndex : k + (c - 1) = k + c - 1 := by omega
  unfold segmentSliceSplit
  simp only [addOffset_header, lastIndex]
  by_cases long : c > n + 1
  · have lastNotSlice : getPageHeaderPtr s (k + c - 1) ≠ getPageHeaderPtr s k := by
      rw [ne_eq, getPageHeaderPtr_inj]
      omega
    have lastNotRest : getPageHeaderPtr s (k + c - 1) ≠ getPageHeaderPtr s (k + n) := by
      rw [ne_eq, getPageHeaderPtr_inj]
      omega
    simp only [if_pos long, Local.modifyPage_pages, spanQueueLinkFront_pages]
    by_cases atSlice : x = getPageHeaderPtr s k
    · subst atSlice
      rw [if_neg lastNotSlice.symm, if_neg restNotSlice.symm, if_pos rfl, if_pos rfl,
        if_neg sliceNotFirst]
    · rw [if_neg atSlice, if_neg atSlice]
      by_cases atRest : x = getPageHeaderPtr s (k + n)
      · subst atRest
        rw [if_neg lastNotRest.symm, if_pos rfl, if_pos rfl, if_neg (notFirst n smaller)]
      · rw [if_neg atRest, if_neg atRest]
        by_cases atLast : x = getPageHeaderPtr s (k + c - 1)
        · rw [if_pos atLast, if_pos atLast, if_neg]
          rw [atLast, ← lastIndex]
          exact notFirst (c - 1) (by omega)
        · rw [if_neg atLast, if_neg atLast]
  · have same : k + c - 1 = k + n := by omega
    simp only [if_neg long, Local.modifyPage_pages, spanQueueLinkFront_pages, same]
    by_cases atSlice : x = getPageHeaderPtr s k
    · subst atSlice
      rw [if_neg restNotSlice.symm, if_pos rfl, if_pos rfl, if_neg sliceNotFirst]
    · rw [if_neg atSlice, if_neg atSlice]
      by_cases atRest : x = getPageHeaderPtr s (k + n)
      · subst atRest
        rw [if_pos rfl, if_pos rfl, if_neg (notFirst n smaller)]
      · rw [if_neg atRest, if_neg atRest, if_neg atRest]

theorem segmentSliceSplit_frame (slice : Nat) : LinkFrame l (segmentSliceSplit l slice c n) := by
  obtain ⟨segs, segments, heap, os, taken, held⟩ :=
    spanQueueLinkFront_frame (l := l) (sliceBin (c - n)) (addOffset slice n)
  unfold segmentSliceSplit
  constructor <;> (simp only; split_ifs <;> assumption)

theorem segmentSliceSplit_heads (slice i : Nat) :
    (segmentSliceSplit l slice c n).tld.spanQueueHeaders i =
      (spanQueueLinkFront l (sliceBin (c - n)) (addOffset slice n)).tld.spanQueueHeaders i := by
  unfold segmentSliceSplit
  simp only
  split_ifs <;> rfl

/-- What becomes of a popped span that is cut. -/
def cutSpans (k c n : Nat) : List Span := [⟨k, n, .popped⟩, ⟨k + n, c - n, .unused⟩]

/-- A popped span is cut; `first` was the first header of the queue that the rest goes to. -/
structure Cut (l l' : Local) (s k c n first : Nat) : Prop where
  positive : 0 < n
  smaller : n < c
  frame : LinkFrame l l'
  head : (l.tld.spanQueueHeaders (sliceBin (c - n))).first = first
  apart : ∀ i < c, first ≠ 0 → getPageHeaderPtr s (k + i) ≠ first
  pages : ∀ x, l'.pages x =
    if x = getPageHeaderPtr s k then { l.pages x with count := asU32 n }
    else if x = getPageHeaderPtr s (k + n) then (l.pages x).toRest (c - n) first
    else if x = getPageHeaderPtr s (k + c - 1) then (l.pages x).toRestLast (c - n)
    else if first ≠ 0 ∧ x = first then { l.pages x with prev := getPageHeaderPtr s (k + n) }
    else l.pages x
  heads : ∀ i, l'.tld.spanQueueHeaders i =
    if i = sliceBin (c - n) then
      { first := getPageHeaderPtr s (k + n)
        last := if first = 0 then getPageHeaderPtr s (k + n)
          else (l.tld.spanQueueHeaders (sliceBin (c - n))).last }
    else l.tld.spanQueueHeaders i

namespace Cut

variable {first : Nat} (cut : Cut l l' s k c n first)
include cut

/-- Outside the span only the first header of the queue changes, and only its link. -/
theorem outside {x : Nat} (away : ∀ i < c, x ≠ getPageHeaderPtr s (k + i)) :
    l'.pages x = if first ≠ 0 ∧ x = first then
      { l.pages x with prev := getPageHeaderPtr s (k + n) } else l.pages x := by
  have positive := cut.positive
  have smaller := cut.smaller
  have notSlice : x ≠ getPageHeaderPtr s k := away 0 (by omega)
  have notLast := away (c - 1) (by omega)
  rw [← Nat.add_sub_assoc (by omega)] at notLast
  rw [cut.pages, if_neg notSlice, if_neg (away n smaller), if_neg notLast]

theorem rest_ne : getPageHeaderPtr s (k + n) ≠ getPageHeaderPtr s k := by
  have positive := cut.positive
  rw [ne_eq, getPageHeaderPtr_inj]
  omega

/-- The header of the rest, and of its last slice. -/
theorem restOk (inside : k + c ≤ 512) : SpanOk l' s ⟨k + n, c - n, .unused⟩ := by
  have positive := cut.positive
  have smaller := cut.smaller
  have small : asU32 (c - n) = c - n := asU32_of_lt (by omega)
  have smallOffset : asU32 (c - n - 1) = c - n - 1 := asU32_of_lt (by omega)
  have atRest : l'.pages (getPageHeaderPtr s (k + n)) =
      (l.pages (getPageHeaderPtr s (k + n))).toRest (c - n) first := by
    rw [cut.pages, if_neg cut.rest_ne, if_pos rfl]
  simp only [SpanOk, Span.header, Nat.add_zero, atRest]
  refine ⟨small, rfl, ?_⟩
  by_cases long : c > n + 1
  · have index : k + n + (c - n - 1) = k + c - 1 := by omega
    rw [index, cut.pages, if_neg (by rw [getPageHeaderPtr_inj]; omega),
      if_neg (by rw [getPageHeaderPtr_inj]; omega), if_pos rfl]
    simp only [Page.toRestLast, smallOffset, sizeofPageHeader]
  · have index : k + n + (c - n - 1) = k + n := by omega
    have single : c - n - 1 = 0 := by omega
    rw [index, single, atRest]
    rfl

variable (member : s ∈ l.segments) (shape : spans s = left ++ ⟨k, c, .popped⟩ :: right)
include member shape

/-- **The layout**, with the span in two; the span after it is not unused. -/
theorem layoutOk (layout : LayoutOk l spans)
    (alone : ∀ y ∈ spans s, y.start = k + c → y.kind ≠ .unused) :
    LayoutOk l' (Function.update spans s (left ++ (cutSpans k c n ++ right))) := by
  have positive := cut.positive
  have smaller := cut.smaller
  have pieceMember : (⟨k, c, .popped⟩ : Span) ∈ spans s := by rw [shape]; simp
  have segment := layout.segment s member
  have bounds := segment.bounds pieceMember
  have notFirst := segment.start_pos pieceMember (.inr (by simp only; omega))
  simp only at bounds
  refine layout.replace member shape (fun zero => absurd notFirst (by omega))
    ⟨rfl, positive, rfl, by simp only; omega, by simp only [Tiles]; omega⟩ cut.frame.segments ?_ ?_ ?_ ?_ ?_
  · intro x away
    rw [cut.outside away]
    split_ifs <;> exact ⟨rfl, rfl, rfl⟩
  · intro x inMid
    simp only [cutSpans, List.mem_cons, List.not_mem_nil, or_false] at inMid
    rcases inMid with rfl | rfl
    · trivial
    · exact cut.restOk bounds.2
  · intro x inMid y yMid touch unused
    simp only [cutSpans, List.mem_cons, List.not_mem_nil, or_false] at inMid yMid
    rcases inMid with rfl | rfl
    · simp at unused
    · rcases yMid with rfl | rfl <;> simp only at touch <;> omega
  · intro x inMid unused y yMember yUnused
    simp only [cutSpans, List.mem_cons, List.not_mem_nil, or_false] at inMid
    rcases inMid with rfl | rfl
    · simp at unused
    · refine ⟨fun touch => alone y yMember (by simp only at touch; omega) yUnused, fun touch => ?_⟩
      have same := segment.tiles.eq_of_overlap yMember pieceMember (x := k + n - 1)
        (by simp only at touch; have := (segment.bounds yMember).1; omega) (by simp only; omega)
      rw [same] at yUnused
      simp at yUnused
  · intro i inside nonzero
    refine absurd ?_ nonzero
    have before := layout.xblock_eq_zero member pieceMember (by simp) inside
    rw [cut.pages]
    split_ifs <;> first | rfl | exact before

/-- **The queues**, with the rest in front of one of them. -/
theorem queuesOk {queues : Nat → List Nat} (layout : LayoutOk l spans) (ok : SpanQueuesOk l spans queues) :
    ∃ queues', SpanQueuesOk l' (Function.update spans s (left ++ (cutSpans k c n ++ right))) queues' := by
  have positive := cut.positive
  have smaller := cut.smaller
  have pieceMember : (⟨k, c, .popped⟩ : Span) ∈ spans s := by rw [shape]; simp
  have rest := cut.rest_ne
  refine ok.link (getPageHeaderPtr s (k + n)) (sliceBin (c - n)) layout
    (fun i queued => ?_) (by simp only [getPageHeaderPtr_eq]; omega) (fun x => ?_) (fun x => ?_)
    (fun i => ?_) (fun i a => ?_)
  · exact queued_not_busy layout queued member pieceMember (by simp) smaller rfl
  · by_cases atRest : x = getPageHeaderPtr s (k + n)
    · rw [cut.pages, if_pos atRest, atRest, if_neg rest, if_pos rfl, cut.head]
      rfl
    · rw [cut.pages, if_neg atRest, if_neg atRest]
      split_ifs <;> rfl
  · rw [cut.head]
    by_cases atRest : x = getPageHeaderPtr s (k + n)
    · rw [cut.pages, if_pos atRest, atRest, if_neg rest, if_pos rfl]
      rfl
    · rw [cut.pages, if_neg atRest, if_neg atRest]
      by_cases atFirst : first ≠ 0 ∧ x = first
      · have notSlice : x ≠ getPageHeaderPtr s k := fun same =>
          cut.apart 0 (by omega) atFirst.1 (same.symm.trans atFirst.2)
        have notLast : x ≠ getPageHeaderPtr s (k + c - 1) := fun same => by
          have := cut.apart (c - 1) (by omega) atFirst.1
          rw [← Nat.add_sub_assoc (by omega)] at this
          exact this (same.symm.trans atFirst.2)
        rw [if_neg notSlice, if_neg notLast, if_pos atFirst, if_pos atFirst]
      · rw [if_neg atFirst, if_neg atFirst]
        split_ifs <;> rfl
  · rw [cut.heads, cut.head]
  · rw [cut.frame.segments]
    refine (layout.queued_replace member shape (m := cutSpans k c n)).trans ?_
    simp only [cutSpans, List.mem_cons, List.not_mem_nil, or_false, exists_eq_or_imp, exists_eq_left,
      Span.header, Nat.add_zero]
    constructor
    · rintro (⟨queued, _⟩ | impossible | ⟨_, rfl, rfl⟩)
      · exact .inl queued
      · simp at impossible
      · exact .inr ⟨rfl, rfl⟩
    · rintro (queued | ⟨rfl, rfl⟩)
      · exact .inl ⟨queued, queued_not_busy layout queued member pieceMember (by simp)
          (i := 0) (by simp only; omega)⟩
      · exact .inr (.inr ⟨trivial, rfl, rfl⟩)

omit member in
/-- The masks stay. -/
theorem commitOk (commit : CommitOk l (BusySlice spans)) :
    CommitOk l' (BusySlice (Function.update spans s (left ++ (cutSpans k c n ++ right)))) := by
  have frame := cut.frame
  have commit' : CommitOk l' (BusySlice spans) :=
    commit.congr frame.segments (fun r => by rw [frame.segs]) (fun r => by rw [frame.segs])
      (by rw [frame.os])
  refine commit'.mono fun r rMember j busy => commit'.busy r rMember j ?_
  rcases busySlice_replace (m := cutSpans k c n) shape busy with old | ⟨_, x, inMid, used, _⟩
  · exact old
  · simp only [cutSpans, List.mem_cons, List.not_mem_nil, or_false] at inMid
    rcases inMid with rfl | rfl <;> simp at used

/-- What is not of the span or the queue stays. -/
theorem spanFrame (layout : LayoutOk l spans)
    (queued : first ≠ 0 → Queued l.segments spans (sliceBin (c - n)) first) : SpanFrame l l' spans := by
  have frame := cut.frame
  have pieceMember : (⟨k, c, .popped⟩ : Span) ∈ spans s := by rw [shape]; simp
  refine ⟨frame.segments, frame.heap, frame.taken, frame.held, by rw [frame.os], by rw [frame.os],
    fun r => by rw [frame.segs]; exact .refl _, fun x => ?_, ?_⟩
  · rw [cut.pages]
    split_ifs <;> exact ⟨rfl, rfl, rfl, rfl, rfl, rfl, rfl, rfl, id⟩
  · intro r rMember span inSpans used i inside
    rw [cut.outside, if_neg]
    · rintro ⟨nonzero, same⟩
      exact queued_not_busy layout (queued nonzero) rMember inSpans (by simp [used]) inside same.symm
    · intro j small same
      obtain ⟨_, rfl, _⟩ := layout.header_inj rMember member inSpans pieceMember inside small same
      simp at used

end Cut

namespace SpanWf

/-- **A popped span is cut.** Its first `n` slices stay popped, the rest is queued; the span after it
is not unused. -/
theorem split (wf : SpanWf l spans) (member : s ∈ l.segments)
    (shape : spans s = left ++ ⟨k, c, .popped⟩ :: right) (positive : 0 < n) (smaller : n < c)
    (alone : ∀ y ∈ spans s, y.start = k + c → y.kind ≠ .unused) :
    SpanWf (segmentSliceSplit l (getPageHeaderPtr s k) c n)
        (Function.update spans s (left ++ ([⟨k, n, .popped⟩, ⟨k + n, c - n, .unused⟩] ++ right))) ∧
      SpanFrame l (segmentSliceSplit l (getPageHeaderPtr s k) c n) spans := by
  have pieceMember : (⟨k, c, .popped⟩ : Span) ∈ spans s := by rw [shape]; simp
  obtain ⟨queues, queuesOk⟩ := wf.queues
  have queued : (l.tld.spanQueueHeaders (sliceBin (c - n))).first ≠ 0 →
      Queued l.segments spans (sliceBin (c - n)) (l.tld.spanQueueHeaders (sliceBin (c - n))).first :=
    fun nonzero => (queuesOk.queued _ _).mp ((queuesOk.list _).first_mem nonzero)
  have apart : ∀ i < c, (l.tld.spanQueueHeaders (sliceBin (c - n))).first ≠ 0 →
      getPageHeaderPtr s (k + i) ≠ (l.tld.spanQueueHeaders (sliceBin (c - n))).first :=
    fun i inside nonzero same => queued_not_busy wf.layout (queued nonzero) member pieceMember
      (by simp) inside same.symm
  have cut : Cut l (segmentSliceSplit l (getPageHeaderPtr s k) c n) s k c n _ :=
    ⟨positive, smaller, segmentSliceSplit_frame _, rfl, apart, segmentSliceSplit_pages positive smaller apart,
      fun i => by rw [segmentSliceSplit_heads, spanQueueLinkFront_heads, addOffset_header]⟩
  exact ⟨⟨cut.layoutOk member shape wf.layout alone, cut.queuesOk member shape wf.layout queuesOk,
    cut.commitOk shape wf.commit⟩, cut.spanFrame member shape wf.layout queued⟩

end SpanWf

/-! ### Bringing a span into use -/

theorem setOffsets_frame (slice extra : Nat) (l : Local) (i : Nat) :
    LinkFrame l (setOffsets slice extra l i) ∧ (setOffsets slice extra l i).tld = l.tld := by
  induction extra generalizing l i with
  | zero => exact ⟨⟨rfl, rfl, rfl, rfl, rfl, rfl⟩, rfl⟩
  | succ extra ih =>
      obtain ⟨⟨segs, segments, heap, os, taken, held⟩, tld⟩ := ih
        (l.modifyPage (addOffset slice i) fun p => { p with offset := asU32 i * sizeofPageHeader })
        (i + 1)
      exact ⟨⟨segs, segments, heap, os, taken, held⟩, tld⟩

theorem setOffsets_pages (slice extra : Nat) (l : Local) (i : Nat) :
    (∀ j, i ≤ j → j < i + extra → (setOffsets slice extra l i).pages (addOffset slice j) =
      { l.pages (addOffset slice j) with offset := asU32 j * sizeofPageHeader }) ∧
    ∀ x, (∀ j, i ≤ j → j < i + extra → x ≠ addOffset slice j) →
      (setOffsets slice extra l i).pages x = l.pages x := by
  have inj : ∀ j j', addOffset slice j = addOffset slice j' → j = j' := by
    intro j j' same
    simp only [addOffset, sizeofPageHeader] at same
    omega
  induction extra generalizing l i with
  | zero => exact ⟨fun j _ _ => by omega, fun _ _ => rfl⟩
  | succ extra ih =>
      obtain ⟨written, kept⟩ := ih
        (l.modifyPage (addOffset slice i) fun p => { p with offset := asU32 i * sizeofPageHeader })
        (i + 1)
      simp only [setOffsets]
      constructor
      · intro j lower upper
        by_cases first : j = i
        · subst first
          rw [kept, Local.modifyPage_pages, if_pos rfl]
          intro j' later _ same
          have := inj _ _ same
          omega
        · rw [written j (by omega) (by omega), Local.modifyPage_pages, if_neg]
          exact fun same => first (inj _ _ same)
      · intro x away
        rw [kept x fun j lower upper => away j (by omega) (by omega), Local.modifyPage_pages,
          if_neg (away i (by omega) (by omega))]

/-- The headers written by `segment_span_allocate`, after the commit. -/
theorem allocate_pages (l : Local) (positive : 0 < n) (x : Nat) :
    let page := getPageHeaderPtr s k
    let l₁ := l.modifyPage page fun p =>
      { p with offset := 0, count := asU32 n, xblockSize := asU32 (n * 65536) }
    let l₂ := (setOffsets page (n - 1) l₁ 1).modifyPage page fun p =>
      (p.setIsReset false).setIsCommitted false
    (x = page → ∃ flags0, ((l.pages x).flags0 = 0 → flags0 = 0) ∧ l₂.pages x =
      { l.pages x with offset := 0, count := asU32 n, xblockSize := asU32 (n * 65536), flags0 }) ∧
    (∀ i, 0 < i → i < n → x = getPageHeaderPtr s (k + i) →
      l₂.pages x = { l.pages x with offset := asU32 i * 80 }) ∧
    ((∀ i < n, x ≠ getPageHeaderPtr s (k + i)) → l₂.pages x = l.pages x) := by
  intro page l₁ l₂
  obtain ⟨written, kept⟩ := setOffsets_pages page (n - 1) l₁ 1
  simp only [page, addOffset_header, sizeofPageHeader] at written kept
  refine ⟨?_, fun i later inside => ?_, fun away => ?_⟩
  · rintro rfl
    refine ⟨(((l.pages page).setIsReset false).setIsCommitted false).flags0, fun clear => ?_, ?_⟩
    · simp only [Page.setIsCommitted, Page.setIsReset, clear]
      rfl
    rw [Local.modifyPage_pages, if_pos rfl, kept, Local.modifyPage_pages, if_pos rfl]
    · rfl
    · intro j later _ same
      rw [getPageHeaderPtr_inj] at same
      omega
  · rintro rfl
    have notPage : getPageHeaderPtr s (k + i) ≠ page := by
      rw [ne_eq, getPageHeaderPtr_inj]
      omega
    rw [Local.modifyPage_pages, if_neg notPage, written i (by omega) (by omega),
      Local.modifyPage_pages, if_neg notPage]
  · have notPage : x ≠ page := away 0 positive
    rw [Local.modifyPage_pages, if_neg notPage, kept x fun j later inside => away j (by omega),
      Local.modifyPage_pages, if_neg notPage]

/-- A popped span comes into use: `l₀` has its slices committed, and `l₁` its headers written. -/
structure Occupied (l l₀ l₁ : Local) (s k n : Nat) : Prop where
  commit : CommitFrame l l₀
  segs : l₁.segs = l₀.segs
  os : l₁.os = l₀.os
  segments : l₁.segments = l.segments
  heap : l₁.heap = l.heap
  taken : l₁.taken = l.taken
  held : l₁.held = l.held
  tld : l₁.tld = l.tld
  first : ∃ flags0, ((l.pages (getPageHeaderPtr s k)).flags0 = 0 → flags0 = 0) ∧
    l₁.pages (getPageHeaderPtr s k) = { l.pages (getPageHeaderPtr s k) with
      offset := 0, count := asU32 n, xblockSize := asU32 (n * 65536), flags0 }
  later : ∀ i, 0 < i → i < n → l₁.pages (getPageHeaderPtr s (k + i)) =
    { l.pages (getPageHeaderPtr s (k + i)) with offset := asU32 i * 80 }
  outside : ∀ x, (∀ i < n, x ≠ getPageHeaderPtr s (k + i)) → l₁.pages x = l.pages x

namespace Occupied

variable {l₀ l₁ : Local} (occupied : Occupied l l₀ l₁ s k n)
include occupied

/-- The headers of the span record it. -/
theorem spanOk (positive : 0 < n) (inside : k + n ≤ 512) : SpanOk l₁ s ⟨k, n, .used⟩ := by
  obtain ⟨flags0, _, value⟩ := occupied.first
  have small : asU32 n = n := asU32_of_lt (by omega)
  have smallSize : asU32 (n * 65536) = n * 65536 := asU32_of_lt (by omega)
  refine ⟨?_, ?_, fun i inSpan => ?_⟩
  · simp only [Span.header, Nat.add_zero, value, small]
  · simp only [Span.header, Nat.add_zero, value, smallSize]
    omega
  · rcases Nat.eq_zero_or_pos i with rfl | later
    · simp only [Span.header, Nat.add_zero, value, Nat.zero_mul]
    · have smallIndex : asU32 i = i := asU32_of_lt (by simp only at inSpan; omega)
      simp only [Span.header]
      rw [occupied.later i later inSpan, smallIndex]

variable (member : s ∈ l.segments) (shape : spans s = left ++ ⟨k, n, .popped⟩ :: right)
include member shape

/-- **The layout**, with the span in use. -/
theorem layoutOk (layout : LayoutOk l spans) :
    LayoutOk l₁ (Function.update spans s (left ++ ⟨k, n, .used⟩ :: right)) := by
  have pieceMember : (⟨k, n, .popped⟩ : Span) ∈ spans s := by rw [shape]; simp
  have segment := layout.segment s member
  have bounds := segment.bounds pieceMember
  simp only at bounds
  refine layout.replace (m := [⟨k, n, .used⟩]) member shape (fun zero => ?_) ⟨rfl, bounds.1, rfl⟩
    occupied.segments (fun x away => by rw [occupied.outside x away]; exact .refl _) ?_ ?_ ?_ ?_
  · simp only at zero
    subst zero
    have single := (segment.first_eq pieceMember rfl).1
    simp only at single
    exact ⟨.used, by simp, by simp [single]⟩
  · intro x inMid
    simp only [List.mem_singleton] at inMid
    subst inMid
    exact occupied.spanOk bounds.1 bounds.2
  · simp
  · simp
  · intro i inside nonzero
    rcases Nat.eq_zero_or_pos i with rfl | later
    · exact ⟨_, List.mem_singleton_self _, rfl, rfl⟩
    · have before := layout.xblock_eq_zero member pieceMember (by simp) inside
      simp only [Span.header] at before nonzero
      rw [occupied.later i later inside] at nonzero
      exact absurd before nonzero

/-- The queues stay. -/
theorem queuesOk {queues : Nat → List Nat} (layout : LayoutOk l spans) (ok : SpanQueuesOk l spans queues) :
    SpanQueuesOk l₁ (Function.update spans s (left ++ ⟨k, n, .used⟩ :: right)) queues := by
  have pieceMember : (⟨k, n, .popped⟩ : Span) ∈ spans s := by rw [shape]; simp
  have positive := ((layout.segment s member).bounds pieceMember).1
  have same : ∀ b, ∀ x ∈ queues b, l₁.pages x = l.pages x := fun b x inQueue =>
    occupied.outside x fun i small => queued_not_busy layout ((ok.queued b x).mp inQueue) member
      pieceMember (by simp) small
  refine ok.congr (fun b x inQueue => by rw [same b x inQueue]) (fun b x inQueue => by rw [same b x inQueue])
    (by rw [occupied.tld]) fun b a => ?_
  rw [occupied.segments]
  refine (layout.queued_replace member shape (m := [⟨k, n, .used⟩])).trans ?_
  simp only [List.mem_singleton, exists_eq_left, reduceCtorEq, false_and, or_false]
  refine ⟨fun both => both.1, fun queued => ⟨queued, ?_⟩⟩
  exact queued_not_busy layout queued member pieceMember (by simp) positive

omit member in
/-- The slices of the span are committed. -/
theorem commitOk (commit : CommitOk l₀ fun r j => BusySlice spans r j ∨ (r = s ∧ inRange k n j = true)) :
    CommitOk l₁ (BusySlice (Function.update spans s (left ++ ⟨k, n, .used⟩ :: right))) := by
  have commit' : CommitOk l₁ (fun r j => BusySlice spans r j ∨ (r = s ∧ inRange k n j = true)) :=
    commit.congr (occupied.segments.trans occupied.commit.segments.symm) (fun r => by rw [occupied.segs])
      (fun r => by rw [occupied.segs]) (by rw [occupied.os])
  refine commit'.mono fun r rMember j busy => commit'.busy r rMember j ?_
  rcases busySlice_replace (m := [⟨k, n, .used⟩]) shape busy with old | ⟨same, x, inMid, _, lower, upper⟩
  · exact .inl old
  · simp only [List.mem_singleton] at inMid
    subst inMid
    exact .inr ⟨same, by simp only [inRange, decide_eq_true_eq]; exact ⟨lower, upper⟩⟩

/-- What is not of the span stays. -/
theorem spanFrame (layout : LayoutOk l spans) : SpanFrame l l₁ spans := by
  have pieceMember : (⟨k, n, .popped⟩ : Span) ∈ spans s := by rw [shape]; simp
  have commit := occupied.commit
  refine ⟨occupied.segments, occupied.heap, occupied.taken, occupied.held,
    by rw [occupied.os]; exact commit.oracle, by rw [occupied.os]; exact commit.calls,
    fun r => by rw [occupied.segs]; exact commit.segs r, fun x => ?_, ?_⟩
  · by_cases inside : ∃ i < n, x = getPageHeaderPtr s (k + i)
    · obtain ⟨i, small, rfl⟩ := inside
      rcases Nat.eq_zero_or_pos i with rfl | later
      · obtain ⟨flags0, clears, value⟩ := occupied.first
        rw [Nat.add_zero, value]
        exact ⟨rfl, rfl, rfl, rfl, rfl, rfl, rfl, rfl, clears⟩
      · rw [occupied.later i later small]
        exact ⟨rfl, rfl, rfl, rfl, rfl, rfl, rfl, rfl, id⟩
    · push Not at inside
      rw [occupied.outside x inside]
      exact .refl _
  · intro r rMember span inSpans used i inside
    refine occupied.outside _ fun j small same => ?_
    obtain ⟨_, rfl, _⟩ := layout.header_inj rMember member inSpans pieceMember inside small same
    simp at used

end Occupied

namespace SpanWf

/-- **A popped span comes into use.** The commit succeeds, and the segment counts one more span. -/
theorem allocate (wf : SpanWf l spans) (member : s ∈ l.segments)
    (shape : spans s = left ++ ⟨k, n, .popped⟩ :: right) :
    ∃ l₁, segmentSpanAllocate l s (getPageHeaderPtr s k) n =
        (true, l₁.modifySeg s fun m => { m with used := m.used + 1 }) ∧
      SpanFrame l l₁ spans ∧ SpanWf l₁ (Function.update spans s (left ++ ⟨k, n, .used⟩ :: right)) := by
  have pieceMember : (⟨k, n, .popped⟩ : Span) ∈ spans s := by rw [shape]; simp
  have bounds := (wf.layout.segment s member).bounds pieceMember
  simp only at bounds
  obtain ⟨queues, queuesOk⟩ := wf.queues
  obtain ⟨l₀, committed, commitFrame, commitOk⟩ := wf.commit.ensureCommitted member bounds.1 bounds.2
  have start : segmentPageStartFromSlice s (getPageHeaderPtr s k) 0 = s + k * 65536 := by
    rw [segmentPageStartFromSlice_header]
    rfl
  have block : (if n * sliceSize ≥ hugeBlockSize then hugeBlockSize else asU32 (n * sliceSize)) =
      asU32 (n * 65536) := if_neg (by simp only [sliceSize, hugeBlockSize]; omega)
  have frame := setOffsets_frame (getPageHeaderPtr s k) (n - 1) (l₀.modifyPage (getPageHeaderPtr s k)
    fun p => { p with offset := 0, count := asU32 n, xblockSize := asU32 (n * 65536) }) 1
  have pages := allocate_pages (s := s) (k := k) l₀ bounds.1
  simp only [commitFrame.pages] at pages
  let l₁ := (setOffsets (getPageHeaderPtr s k) (n - 1) (l₀.modifyPage (getPageHeaderPtr s k)
    fun p => { p with offset := 0, count := asU32 n, xblockSize := asU32 (n * 65536) }) 1).modifyPage
      (getPageHeaderPtr s k) fun p => (p.setIsReset false).setIsCommitted false
  have occupied : Occupied l l₀ l₁ s k n :=
    ⟨commitFrame, frame.1.segs, frame.1.os, frame.1.segments.trans commitFrame.segments,
      frame.1.heap.trans commitFrame.heap, frame.1.taken.trans commitFrame.taken,
      frame.1.held.trans commitFrame.held, frame.2.trans commitFrame.tld, (pages _).1 rfl,
      fun i later inside => (pages _).2.1 i later inside rfl, fun x => (pages x).2.2⟩
  refine ⟨l₁, ?_, occupied.spanFrame member shape wf.layout, occupied.layoutOk member shape wf.layout,
    ⟨queues, occupied.queuesOk member shape wf.layout queuesOk⟩, occupied.commitOk shape commitOk⟩
  change segmentEnsureCommitted l s (s + k * 65536) (n * sliceSize) = (true, l₀) at committed
  simp only [segmentSpanAllocate, start, committed, block, Bool.not_true, Bool.false_eq_true, if_false]
  rfl

end SpanWf

end VerusMimalloc
