/-
**Giving spans back.**

* `SpanWf.rewritePopped`: the headers of a popped span may hold anything;
* `SpanWf.free`: a popped span is queued;
* `SpanWf.release`: a span in use is popped;
* `SpanWf.merge`: two popped neighbours are one popped span.
-/

import VerusMimalloc.Proof.Span.Steps

namespace VerusMimalloc

open Library

variable {l l' : Local} {spans : Nat → List Span} {s k n c : Nat} {left right : List Span}

/-! ### Changes inside a popped span -/

namespace SpanWf

/-- A commit or decommit that leaves the headers alone. -/
theorem ofCommit (wf : SpanWf l spans) (frame : CommitFrame l l')
    (commit : CommitOk l' (BusySlice spans)) : SpanWf l' spans := by
  obtain ⟨⟨base, segment, xblock⟩, ⟨queues, queuesOk⟩, _⟩ := wf
  refine ⟨⟨?_, ?_, ?_⟩, ⟨queues, ?_⟩, commit⟩
  · rw [frame.segments]
    exact base
  · rw [frame.segments]
    intro r rMember
    obtain ⟨tiles, first, ok, separate⟩ := segment r rMember
    refine ⟨tiles, first, fun span inSpans => ?_, separate⟩
    exact (ok span inSpans).congr (tiles.bounds inSpans).2.1 fun i _ => by
      rw [frame.pages]
      exact .refl _
  · rw [frame.segments, frame.pages]
    exact xblock
  · refine queuesOk.congr (fun b x _ => by rw [frame.pages]) (fun b x _ => by rw [frame.pages])
      (by rw [frame.tld]) fun b a => ?_
    rw [frame.segments]

/-- The headers of a popped span may hold anything but a block size. -/
theorem rewritePopped (wf : SpanWf l spans) (member : s ∈ l.segments)
    (piece : ⟨k, c, .popped⟩ ∈ spans s) (frame : LinkFrame l l') (tld : l'.tld = l.tld)
    (outside : ∀ x, (∀ i < c, x ≠ getPageHeaderPtr s (k + i)) → l'.pages x = l.pages x)
    (blocks : ∀ x, SameBlocks (l.pages x) (l'.pages x))
    (xblock : ∀ i < c, (l'.pages (getPageHeaderPtr s (k + i))).xblockSize = 0) :
    SpanWf l' spans ∧ SpanFrame l l' spans := by
  obtain ⟨left, right, shape⟩ := List.append_of_mem piece
  have segment := wf.layout.segment s member
  obtain ⟨positive, _⟩ := segment.bounds piece
  have same : Function.update spans s (left ++ ([⟨k, c, .popped⟩] ++ right)) = spans := by
    rw [List.singleton_append, ← shape, Function.update_eq_self]
  obtain ⟨queues, queuesOk⟩ := wf.queues
  refine ⟨⟨?_, ⟨queues, ?_⟩, ?_⟩, ?_⟩
  · rw [← same]
    refine wf.layout.replace member shape (fun zero => ?_) ⟨rfl, positive, rfl⟩ frame.segments
      (fun x away => by rw [outside x away]; exact .refl _) ?_ ?_ ?_ ?_
    · obtain ⟨single, _⟩ := segment.first_eq piece zero
      simp only at zero single
      exact ⟨.popped, by simp, by simp [zero, single]⟩
    · simp [SpanOk]
    · simp
    · simp
    · exact fun i inside nonzero => absurd (xblock i inside) nonzero
  · have kept : ∀ b, ∀ x ∈ queues b, l'.pages x = l.pages x := fun b x inQueue =>
      outside x fun i inside => queued_not_busy wf.layout ((queuesOk.queued b x).mp inQueue) member
        piece (by simp) inside
    refine queuesOk.congr (fun b x inQueue => by rw [kept b x inQueue])
      (fun b x inQueue => by rw [kept b x inQueue]) (by rw [tld]) fun b a => ?_
    rw [frame.segments]
  · exact wf.commit.congr frame.segments (fun r => by rw [frame.segs]) (fun r => by rw [frame.segs])
      (by rw [frame.os])
  · refine ⟨frame.segments, frame.heap, frame.taken, frame.held, by rw [frame.os], by rw [frame.os],
      fun r => by rw [frame.segs]; exact .refl _, blocks, ?_⟩
    intro r rMember span inSpans used i inside
    refine outside _ fun j small equal => ?_
    obtain ⟨_, rfl, _⟩ := wf.layout.header_inj rMember member inSpans piece inside small equal
    simp at used

/-! ### Queueing a popped span -/

/-- **A popped span is queued**, at the front of the queue of its bin; no neighbour is unused. -/
theorem enqueue (wf : SpanWf l spans) (member : s ∈ l.segments)
    (shape : spans s = left ++ ⟨k, c, .popped⟩ :: right) (notFirst : 0 < k)
    (recorded : SpanOk l s ⟨k, c, .unused⟩)
    (before : ∀ y ∈ spans s, y.start + y.count = k → y.kind ≠ .unused)
    (after : ∀ y ∈ spans s, y.start = k + c → y.kind ≠ .unused)
    (frame : LinkFrame l l')
    (pages : ∀ x, l'.pages x =
      if x = getPageHeaderPtr s k then
        { l.pages x with
          prev := 0, next := (l.tld.spanQueueHeaders (sliceBin c)).first, xblockSize := 0 }
      else if (l.tld.spanQueueHeaders (sliceBin c)).first ≠ 0 ∧
          x = (l.tld.spanQueueHeaders (sliceBin c)).first then
        { l.pages x with prev := getPageHeaderPtr s k }
      else l.pages x)
    (heads : ∀ i, l'.tld.spanQueueHeaders i =
      if i = sliceBin c then
        { first := getPageHeaderPtr s k
          last := if (l.tld.spanQueueHeaders (sliceBin c)).first = 0 then getPageHeaderPtr s k
            else (l.tld.spanQueueHeaders (sliceBin c)).last }
      else l.tld.spanQueueHeaders i) :
    SpanWf l' (Function.update spans s (left ++ ⟨k, c, .unused⟩ :: right)) ∧ SpanFrame l l' spans := by
  have piece : (⟨k, c, .popped⟩ : Span) ∈ spans s := by rw [shape]; simp
  have segment := wf.layout.segment s member
  have bounds := segment.bounds piece
  obtain ⟨queues, queuesOk⟩ := wf.queues
  generalize firstEq : (l.tld.spanQueueHeaders (sliceBin c)).first = first at *
  have firstQueued : first ≠ 0 → Queued l.segments spans (sliceBin c) first := by
    subst firstEq
    exact fun nonzero => (queuesOk.queued _ _).mp ((queuesOk.list _).first_mem nonzero)
  have sameMeta : ∀ x, x ≠ getPageHeaderPtr s k → SameMeta (l.pages x) (l'.pages x) := by
    intro x differs
    rw [pages, if_neg differs]
    split_ifs <;> exact ⟨rfl, rfl, rfl⟩
  have recorded' : SpanOk l' s ⟨k, c, .unused⟩ := by
    have written : ∀ x, (l'.pages x).count = (l.pages x).count ∧
        (l'.pages x).offset = (l.pages x).offset := by
      intro x
      rw [pages]
      split_ifs <;> exact ⟨rfl, rfl⟩
    simp only [SpanOk, written]
    exact recorded
  have zero : ∀ i < c, (l'.pages (getPageHeaderPtr s (k + i))).xblockSize = 0 := by
    intro i inside
    have old := wf.layout.xblock_eq_zero member piece (by simp) inside
    simp only [Span.header] at old
    rw [pages]
    split_ifs <;> first | rfl | exact old
  have layout' : LayoutOk l' (Function.update spans s (left ++ ([⟨k, c, .unused⟩] ++ right))) := by
    refine wf.layout.replace member shape (fun zero => absurd notFirst (by simp only at zero; omega))
      ⟨rfl, bounds.1, rfl⟩ frame.segments (fun x away => sameMeta x (away 0 bounds.1)) ?_ ?_ ?_ ?_
    · intro x inMid
      rw [List.mem_singleton.mp inMid]
      exact recorded'
    · intro x inMid y yMid touch
      rw [List.mem_singleton.mp inMid, List.mem_singleton.mp yMid] at touch
      simp only at touch bounds
      omega
    · intro x inMid _ y yMember yUnused
      rw [List.mem_singleton.mp inMid]
      exact ⟨fun touch => after y yMember touch.symm yUnused,
        fun touch => before y yMember touch yUnused⟩
    · exact fun i inside nonzero => absurd (zero i inside) nonzero
  refine ⟨⟨layout', ?_, ?_⟩, ?_⟩
  · refine queuesOk.link (getPageHeaderPtr s k) (sliceBin c) wf.layout
      (fun i queued => ?_) (by simp only [getPageHeaderPtr_eq]; omega) (fun x => ?_) (fun x => ?_)
      (fun i => ?_) (fun i a => ?_)
    · exact queued_not_busy wf.layout queued member piece (by simp) (i := 0) bounds.1 rfl
    · rw [pages, firstEq]
      split_ifs <;> rfl
    · rw [pages, firstEq]
      split_ifs <;> rfl
    · rw [heads, firstEq]
    · rw [frame.segments]
      refine (wf.layout.queued_replace member shape (m := [⟨k, c, .unused⟩])).trans ?_
      simp only [List.mem_singleton, exists_eq_left, Span.header, Nat.add_zero, true_and]
      refine or_congr_left ⟨fun both => both.1, fun queued => ⟨queued, ?_⟩⟩
      exact queued_not_busy wf.layout queued member piece (by simp) (i := 0) bounds.1
  · have commit : CommitOk l' (BusySlice spans) :=
      wf.commit.congr frame.segments (fun r => by rw [frame.segs]) (fun r => by rw [frame.segs])
        (by rw [frame.os])
    refine commit.mono fun r rMember j busy => commit.busy r rMember j ?_
    rcases busySlice_replace (m := [⟨k, c, .unused⟩]) shape busy with old | ⟨_, x, inMid, used, _⟩
    · exact old
    · rw [List.mem_singleton.mp inMid] at used
      simp at used
  · refine ⟨frame.segments, frame.heap, frame.taken, frame.held, by rw [frame.os], by rw [frame.os],
      fun r => by rw [frame.segs]; exact .refl _, fun x => ?_, ?_⟩
    · rw [pages]
      split_ifs <;> exact ⟨rfl, rfl, rfl, rfl, rfl, rfl, rfl, rfl, id⟩
    · intro r rMember span inSpans used i inside
      rw [pages, if_neg, if_neg]
      · rintro ⟨nonzero, same⟩
        exact queued_not_busy wf.layout (firstQueued nonzero) rMember inSpans (by simp [used]) inside
          same.symm
      · intro same
        obtain ⟨_, rfl, _⟩ := wf.layout.header_inj rMember member inSpans piece inside
          (j := 0) bounds.1 same
        simp at used

/-- **`segment_span_free`** of a popped span. -/
theorem free (wf : SpanWf l spans) (member : s ∈ l.segments)
    (shape : spans s = left ++ ⟨k, c, .popped⟩ :: right) (notFirst : 0 < k) (allowDecommit : Bool)
    (before : ∀ y ∈ spans s, y.start + y.count = k → y.kind ≠ .unused)
    (after : ∀ y ∈ spans s, y.start = k + c → y.kind ≠ .unused) :
    ∃ l', segmentSpanFree l s k c allowDecommit = .ok l' ∧ SpanFrame l l' spans ∧
      SpanWf l' (Function.update spans s (left ++ ⟨k, c, .unused⟩ :: right)) := by
  have piece : (⟨k, c, .popped⟩ : Span) ∈ spans s := by rw [shape]; simp
  have bounds := (wf.layout.segment s member).bounds piece
  simp only at bounds
  have aligned := wf.layout.aligned member
  have small : asU32 c = c := asU32_of_lt (by omega)
  have lastIndex : k + (c - 1) = k + c - 1 := by omega
  -- the header of the first slice and the offset of the last one
  obtain ⟨l₁, l₁Eq⟩ : ∃ l₁, l₁ =
      if c > 1 then
        (l.modifyPage (getPageHeaderPtr s k) fun p =>
            { p with count := asU32 c, offset := 0 }).modifyPage (getPageHeaderPtr s (k + c - 1))
          fun p => { p with offset := (asU32 c - 1) * sizeofPageHeader }
      else l.modifyPage (getPageHeaderPtr s k) fun p => { p with count := asU32 c, offset := 0 } :=
    ⟨_, rfl⟩
  have pages₁ : ∀ x, l₁.pages x =
      { l.pages x with
        count := if x = getPageHeaderPtr s k then c else (l.pages x).count
        offset := if x = getPageHeaderPtr s (k + (c - 1)) then (c - 1) * 80
          else if x = getPageHeaderPtr s k then 0 else (l.pages x).offset } := by
    intro x
    rw [l₁Eq, small, lastIndex]
    by_cases long : c > 1
    · simp only [if_pos long, Local.modifyPage_pages, sizeofPageHeader]
      split_ifs <;> rfl
    · have single : c = 1 := by omega
      subst single
      simp only [if_neg long, Local.modifyPage_pages, Nat.add_sub_cancel]
      split_ifs <;> rfl
  have frame₁ : LinkFrame l l₁ := by
    rw [l₁Eq]
    split_ifs <;> exact ⟨rfl, rfl, rfl, rfl, rfl, rfl⟩
  have tld₁ : l₁.tld = l.tld := by
    rw [l₁Eq]
    split_ifs <;> rfl
  obtain ⟨wf₁, spanFrame₁⟩ := wf.rewritePopped member piece frame₁ tld₁ (fun x away => by
      have notSlice : x ≠ getPageHeaderPtr s k := away 0 (by omega)
      rw [pages₁, if_neg (away (c - 1) (by omega)), if_neg notSlice, if_neg notSlice])
    (fun x => by rw [pages₁]; exact ⟨rfl, rfl, rfl, rfl, rfl, rfl, rfl, rfl, id⟩) (fun i inside => by
      rw [pages₁]
      exact wf.layout.xblock_eq_zero member piece (by simp) inside)
  -- the decommit
  obtain ⟨l₂, decommit, frame₂, commit₂⟩ : ∃ l₂,
      (if allowDecommit then
        segmentPerhapsDecommit l₁ s (sliceStart (getPageHeaderPtr s k)) (c * sliceSize)
      else pure l₁) = Except.ok l₂ ∧ CommitFrame l₁ l₂ ∧ CommitOk l₂ (BusySlice spans) := by
    rw [sliceStart_header aligned (by simp only [slicesPerSegment]; omega)]
    cases allowDecommit with
    | false => exact ⟨l₁, rfl, .refl _, wf₁.commit⟩
    | true =>
        refine wf₁.commit.perhapsDecommit (frame₁.segments ▸ member) bounds.1 bounds.2 ?_
        rintro j here ⟨other, otherMember, used, lower, upper⟩
        simp only [inRange, decide_eq_true_eq] at here
        rw [(wf.layout.segment s member).tiles.eq_of_overlap otherMember piece (x := j)
          ⟨lower, upper⟩ here] at used
        simp at used
  have wf₂ := wf₁.ofCommit frame₂ commit₂
  have recorded : SpanOk l₂ s ⟨k, c, .unused⟩ := by
    simp only [SpanOk, Span.header, Nat.add_zero, frame₂.pages, pages₁]
    refine ⟨if_pos trivial, ?_, if_pos trivial⟩
    by_cases single : c = 1
    · subst single
      simp
    · rw [if_neg, if_pos trivial]
      rw [getPageHeaderPtr_inj]
      omega
  -- the queue
  obtain ⟨l₃, l₃Eq⟩ : ∃ l₃, l₃ = (spanQueueLinkFront l₂ (sliceBin c)
      (getPageHeaderPtr s k)).modifyPage (getPageHeaderPtr s k) fun p =>
        { p with prev := 0, next := (l₂.tld.spanQueueHeaders (sliceBin c)).first, xblockSize := 0 } :=
    ⟨_, rfl⟩
  have segments₂ : l₂.segments = l.segments := frame₂.segments.trans frame₁.segments
  have linked := spanQueueLinkFront_frame (l := l₂) (sliceBin c) (getPageHeaderPtr s k)
  obtain ⟨queues, queuesOk⟩ := wf₂.queues
  have frame₃ : LinkFrame l₂ l₃ := by
    rw [l₃Eq]
    exact ⟨linked.segs, linked.segments, linked.heap, linked.os, linked.taken, linked.held⟩
  obtain ⟨wf₃, spanFrame₃⟩ := wf₂.enqueue (segments₂ ▸ member) shape notFirst recorded before after
    frame₃
    (fun x => by
      rw [l₃Eq, Local.modifyPage_pages, spanQueueLinkFront_pages]
      by_cases atSlice : x = getPageHeaderPtr s k
      · have notFirst : ¬((l₂.tld.spanQueueHeaders (sliceBin c)).first ≠ 0 ∧
            x = (l₂.tld.spanQueueHeaders (sliceBin c)).first) := by
          rintro ⟨nonzero, same⟩
          exact queued_not_busy wf₂.layout ((queuesOk.queued _ _).mp
            ((queuesOk.list _).first_mem nonzero)) (segments₂ ▸ member) piece (by simp) (i := 0)
            bounds.1 (same.symm.trans atSlice)
        rw [if_pos atSlice, if_pos atSlice, if_neg notFirst]
      · rw [if_neg atSlice, if_neg atSlice])
    (fun i => by
      rw [l₃Eq]
      exact spanQueueLinkFront_heads _ _ _)
  refine ⟨l₃, ?_, ?_, wf₃⟩
  · simp only [segmentSpanFree]
    rw [← l₁Eq, l₃Eq]
    cases allowDecommit with
    | false =>
        cases decommit
        rfl
    | true =>
        simp only [if_true] at decommit ⊢
        rw [decommit]
        rfl
  · exact (spanFrame₁.andThen (.ofCommit frame₂)).andThen spanFrame₃

/-! ### Releasing and merging -/

/-- **A span in use is popped**: the header of its first slice no longer records a block size. -/
theorem release (wf : SpanWf l spans) (member : s ∈ l.segments)
    (shape : spans s = left ++ ⟨k, c, .used⟩ :: right)
    (segs : l'.segs = l.segs) (segments : l'.segments = l.segments) (tld : l'.tld = l.tld)
    (os : l'.os = l.os)
    (outside : ∀ x, x ≠ getPageHeaderPtr s k → l'.pages x = l.pages x)
    (xblock : (l'.pages (getPageHeaderPtr s k)).xblockSize = 0) :
    SpanWf l' (Function.update spans s (left ++ ⟨k, c, .popped⟩ :: right)) := by
  have piece : (⟨k, c, .used⟩ : Span) ∈ spans s := by rw [shape]; simp
  have segment := wf.layout.segment s member
  have bounds := segment.bounds piece
  obtain ⟨queues, queuesOk⟩ := wf.queues
  refine ⟨?_, ⟨queues, ?_⟩, ?_⟩
  · refine wf.layout.replace (m := [⟨k, c, .popped⟩]) member shape (fun zero => ?_)
      ⟨rfl, bounds.1, rfl⟩ segments
      (fun x away => by rw [outside x (away 0 bounds.1)]; exact .refl _) ?_ ?_ ?_ ?_
    · obtain ⟨single, _⟩ := segment.first_eq piece zero
      simp only at zero single
      exact ⟨.popped, by simp, by simp [zero, single]⟩
    · simp [SpanOk]
    · simp
    · simp
    · intro i inside nonzero
      rcases Nat.eq_zero_or_pos i with rfl | later
      · exact absurd xblock nonzero
      · rw [outside _ (by simp only [Span.header, ne_eq, getPageHeaderPtr_inj]; omega)] at nonzero
        obtain ⟨r, rMember, other, otherMember, _, same⟩ := wf.layout.xblock _ nonzero
        obtain ⟨_, _, zero⟩ := wf.layout.header_inj member rMember piece otherMember inside
          ((wf.layout.segment r rMember).bounds otherMember).1 same
        omega
  · have kept : ∀ b, ∀ x ∈ queues b, l'.pages x = l.pages x := fun b x inQueue =>
      outside x (queued_not_busy wf.layout ((queuesOk.queued b x).mp inQueue) member piece (by simp)
        (i := 0) bounds.1)
    refine queuesOk.congr (fun b x inQueue => by rw [kept b x inQueue])
      (fun b x inQueue => by rw [kept b x inQueue]) (by rw [tld]) fun b a => ?_
    rw [segments]
    refine (wf.layout.queued_replace member shape (m := [⟨k, c, .popped⟩])).trans ?_
    simp only [List.mem_singleton, exists_eq_left, reduceCtorEq, false_and, or_false]
    refine ⟨fun both => both.1, fun queued => ⟨queued, ?_⟩⟩
    exact queued_not_busy wf.layout queued member piece (by simp) bounds.1
  · have commit : CommitOk l' (BusySlice spans) :=
      wf.commit.congr segments (fun r => by rw [segs]) (fun r => by rw [segs]) (by rw [os])
    refine commit.mono fun r rMember j busy => commit.busy r rMember j ?_
    rcases busySlice_replace (m := [⟨k, c, .popped⟩]) shape busy with old | ⟨_, x, inMid, used, _⟩
    · exact old
    · rw [List.mem_singleton.mp inMid] at used
      simp at used

/-- **Two popped neighbours are one popped span.** -/
theorem merge (wf : SpanWf l spans) (member : s ∈ l.segments)
    (shape : spans s = left ++ ⟨k, c, .popped⟩ :: ⟨k + c, n, .popped⟩ :: right) (notFirst : 0 < k) :
    SpanWf l (Function.update spans s (left ++ ⟨k, c + n, .popped⟩ :: right)) := by
  have segment := wf.layout.segment s member
  have membersOf : ∀ r span, span.kind ≠ .popped ∨ span.start = 0 → (span ∈ Function.update spans s
      (left ++ ⟨k, c + n, .popped⟩ :: right) r ↔ span ∈ spans r) := by
    intro r span kind
    by_cases same : r = s
    · subst same
      rw [Function.update_self, shape]
      have notPieces : ∀ start count, 0 < start → span ≠ ⟨start, count, .popped⟩ := by
        rintro start count positive rfl
        simp only [ne_eq, not_true_eq_false, false_or] at kind
        omega
      simp [notPieces k _ notFirst, notPieces (k + c) _ (by omega)]
    · rw [Function.update_of_ne same]
  have members : ∀ r span, span.kind ≠ .popped →
      (span ∈ Function.update spans s (left ++ ⟨k, c + n, .popped⟩ :: right) r ↔ span ∈ spans r) :=
    fun r span kind => membersOf r span (.inl kind)
  refine ⟨⟨wf.layout.base, fun r rMember => ?_, fun x nonzero => ?_⟩, ?_, ?_⟩
  · obtain ⟨tiles, ⟨kind, busy, first⟩, ok, separate⟩ := wf.layout.segment r rMember
    refine ⟨?_, ⟨kind, busy, (membersOf r _ (.inr rfl)).mpr first⟩, fun span inSpans => ?_,
      fun x xMember y yMember touch unused unused' => ?_⟩
    · by_cases same : r = s
      · subst same
        rw [Function.update_self]
        rw [shape] at tiles
        exact tiles.merge rfl rfl
      · rw [Function.update_of_ne same]
        exact tiles
    · by_cases popped : span.kind = .popped
      · simp only [SpanOk, popped]
      · exact ok span ((members r span popped).mp inSpans)
    · exact separate x ((members r x (by simp [unused])).mp xMember) y
        ((members r y (by simp [unused'])).mp yMember) touch unused unused'
  · obtain ⟨r, rMember, span, inSpans, used, same⟩ := wf.layout.xblock x nonzero
    exact ⟨r, rMember, span, (members r span (by simp [used])).mpr inSpans, used, same⟩
  · obtain ⟨queues, queuesOk⟩ := wf.queues
    refine ⟨queues, queuesOk.congr (fun _ _ _ => rfl) (fun _ _ _ => rfl) rfl fun b a => ?_⟩
    constructor
    · rintro ⟨r, rMember, span, inSpans, unused, rest⟩
      exact ⟨r, rMember, span, (members r span (by simp [unused])).mp inSpans, unused, rest⟩
    · rintro ⟨r, rMember, span, inSpans, unused, rest⟩
      exact ⟨r, rMember, span, (members r span (by simp [unused])).mpr inSpans, unused, rest⟩
  · refine wf.commit.mono fun r rMember j busy => wf.commit.busy r rMember j ?_
    obtain ⟨span, inSpans, used, range⟩ := busy
    exact ⟨span, (members r span (by simp [used])).mp inSpans, used, range⟩

end SpanWf

end VerusMimalloc
