/-
**Finding a span and allocating it.**

`SegmentsWf` adds to `SpanWf` what the segment headers say: the number of pages, the thread, and the
memory they lie in. A page is a span in use behind the header slice.

* `findSpan_sound`: the search returns an entry of the queue it names;
* `findSpan_eq`, `firstFit_none`: the search ends, and misses no entry;
* `findAndAllocate_found`, `findAndAllocate_spec`: `segments_page_find_and_allocate` adds one page.
-/

import VerusMimalloc.Proof.Span.Release
import Mathlib.Data.List.Perm.Basic

namespace VerusMimalloc

open Library

/-! ### Pages -/

/-- A span that a page of blocks lies on, also while that page is being given back. -/
def Span.IsPage (span : Span) : Prop := span.kind ≠ .unused ∧ 0 < span.start

instance (span : Span) : Decidable span.IsPage := inferInstanceAs (Decidable (_ ∧ _))

/-- The number of pages of a segment. -/
def pageSpans (list : List Span) : Nat := (list.filter fun span => decide span.IsPage).length

/-- The first header of a page in use. -/
def IsPage (segments : List Nat) (spans : Nat → List Span) (a : Nat) : Prop :=
  ∃ s ∈ segments, ∃ span ∈ spans s, span.kind = .used ∧ 0 < span.start ∧ a = span.header s 0

/-- The header of no page: it has no blocks. -/
structure Clean (p : Page) : Prop where
  capacity : p.capacity = 0
  used : p.used = 0
  free : p.free = []
  localFree : p.localFree = []

/-- The header of no page has no flag set either. -/
structure Blank (p : Page) : Prop extends Clean p where
  flags0 : p.flags0 = 0
  flags1 : p.flags1 = 0
  flags2 : p.flags2 = 0

theorem SameBlocks.blank {p q : Page} (same : SameBlocks p q) (blank : Blank p) : Blank q :=
  ⟨⟨same.capacity.trans blank.capacity, same.used.trans blank.used, same.free.trans blank.free,
    same.localFree.trans blank.localFree⟩, same.flags0 blank.flags0, same.flags1.trans blank.flags1,
    same.flags2.trans blank.flags2⟩

/-- The operating system returned this range. -/
def Mapped (l : Local) (p len : Nat) : Prop := ∃ i < l.os.calls, l.os.oracle.mmap i len = some p

theorem Mapped.mono {l l' : Local} {p len : Nat} (mapped : Mapped l p len)
    (oracle : l'.os.oracle = l.os.oracle) (calls : l.os.calls ≤ l'.os.calls) : Mapped l' p len := by
  obtain ⟨i, before, answer⟩ := mapped
  exact ⟨i, by omega, by rw [oracle]; exact answer⟩

/-- Two ranges have no byte in common. -/
def Apart (p len q len' : Nat) : Prop := p + len ≤ q ∨ q + len' ≤ p

/-- The header of a segment of the thread: a normal segment with no page abandoned. -/
structure Owned (threadId : Nat) (m : SegmentHeader) : Prop where
  thread : m.threadId = threadId
  normal : m.kind = .normal
  abandoned : m.abandoned = 0

theorem SameSegment.owned {threadId : Nat} {m m' : SegmentHeader} (same : SameSegment m m')
    (owned : Owned threadId m) : Owned threadId m' :=
  ⟨same.threadId.trans owned.thread, same.kind.trans owned.normal,
    same.abandoned.trans owned.abandoned⟩

/-- The segments, their spans and their headers agree. -/
structure SegmentsWf (l : Local) (spans : Nat → List Span) : Prop where
  span : SpanWf l spans
  first : ∀ s ∈ l.segments, ⟨0, 1, .used⟩ ∈ spans s
  unlisted : ∀ s, s ∉ l.segments → spans s = []
  used : ∀ s ∈ l.segments, (l.segs s).used = pageSpans (spans s)
  owned : ∀ s ∈ l.segments, Owned l.heap.threadId (l.segs s)
  mapped : ∀ s ∈ l.segments, Mapped l s segmentSize
  empty : Mapped l l.heap.pageEmptyPtr osPageSize
  apart : ∀ s ∈ l.segments, Apart l.heap.pageEmptyPtr osPageSize s segmentSize
  nodup : l.segments.Nodup

/-- What allocating and freeing spans leaves alone: the heap, and all pages in use. -/
structure PageFrame (l l' : Local) (spans : Nat → List Span) : Prop where
  segments : ∀ s ∈ l.segments, s ∈ l'.segments
  heap : l'.heap = l.heap
  taken : l'.taken = l.taken
  held : l'.held = l.held
  oracle : l'.os.oracle = l.os.oracle
  calls : l.os.calls ≤ l'.os.calls
  blank : ∀ x, Blank (l.pages x) → Blank (l'.pages x)
  busy : ∀ s ∈ l.segments, ∀ span ∈ spans s, span.kind = .used →
    ∀ i < span.count, l'.pages (span.header s i) = l.pages (span.header s i)

namespace PageFrame

variable {l l' l'' : Local} {spans spans' : Nat → List Span}

theorem trans (first : PageFrame l l' spans) (second : PageFrame l' l'' spans')
    (fewer : ∀ s ∈ l.segments, ∀ span ∈ spans s, span.kind = .used → span ∈ spans' s) :
    PageFrame l l'' spans :=
  ⟨fun s member => second.segments s (first.segments s member), second.heap.trans first.heap,
    second.taken.trans first.taken, second.held.trans first.held,
    second.oracle.trans first.oracle, first.calls.trans second.calls,
    fun x blank => second.blank x (first.blank x blank),
    fun s member span inSpans used i inside =>
      (second.busy s (first.segments s member) span (fewer s member span inSpans used) used i
        inside).trans (first.busy s member span inSpans used i inside)⟩

/-- Two steps over one layout. -/
theorem andThen (first : PageFrame l l' spans) (second : PageFrame l' l'' spans) :
    PageFrame l l'' spans :=
  first.trans second fun _ _ _ inSpans _ => inSpans

theorem ofSpan (frame : SpanFrame l l' spans) : PageFrame l l' spans :=
  ⟨fun s member => by rw [frame.segments]; exact member, frame.heap, frame.taken, frame.held,
    frame.oracle, frame.calls, fun x blank => (frame.blocks x).blank blank, frame.busy⟩

/-- Counting pages in the segment header changes nothing else. -/
theorem modifySeg (l : Local) (s : Nat) (f : SegmentHeader → SegmentHeader) :
    PageFrame l (l.modifySeg s f) spans :=
  ⟨fun _ member => member, rfl, rfl, rfl, rfl, Nat.le_refl _, fun _ blank => blank,
    fun _ _ _ _ _ _ _ => rfl⟩

end PageFrame

/-- The number of pages depends on the page spans only, in any order. -/
theorem pageSpans_congr {list list' : List Span} (nodup : list.Nodup) (nodup' : list'.Nodup)
    (same : ∀ x : Span, x.IsPage → (x ∈ list' ↔ x ∈ list)) : pageSpans list' = pageSpans list := by
  refine List.Perm.length_eq ?_
  rw [List.perm_ext_iff_of_nodup (nodup'.filter _) (nodup.filter _)]
  intro x
  simp only [List.mem_filter, decide_eq_true_eq]
  exact and_congr_left fun page => same x page

/-- One page more. -/
theorem pageSpans_add {list list' : List Span} {piece : Span} (nodup : list.Nodup)
    (nodup' : list'.Nodup) (fresh : piece ∉ list) (page : piece.IsPage)
    (same : ∀ x : Span, x.IsPage → (x ∈ list' ↔ x ∈ list ∨ x = piece)) :
    pageSpans list' = pageSpans list + 1 := by
  have more : pageSpans list' = pageSpans (piece :: list) :=
    pageSpans_congr (List.nodup_cons.mpr ⟨fresh, nodup⟩) nodup' fun x xPage => by
      rw [same x xPage, List.mem_cons, or_comm]
  rw [more, pageSpans, List.filter_cons_of_pos (by simpa using page), List.length_cons]
  rfl

namespace SpanWf

variable {l l' : Local} {spans : Nat → List Span} {s : Nat}

theorem nodup (wf : SpanWf l spans) (member : s ∈ l.segments) : (spans s).Nodup :=
  (wf.layout.segment s member).tiles.nodup

/-- The layout and the queues do not depend on the counters of the segment headers. -/
theorem modifySeg (wf : SpanWf l spans) {f : SegmentHeader → SegmentHeader}
    (decommit : ∀ m, (f m).decommitMask = m.decommitMask)
    (commit : ∀ m, (f m).commitMask = m.commitMask) : SpanWf (l.modifySeg s f) spans := by
  obtain ⟨⟨base, segment, xblock⟩, ⟨queues, ⟨list, queued⟩⟩, ok⟩ := wf
  refine ⟨⟨base, fun r rMember => ?_, xblock⟩, ⟨queues, ⟨list, queued⟩⟩, ok.congr rfl (fun r => ?_)
    (fun r => ?_) rfl⟩
  · obtain ⟨tiles, first, recorded, separate⟩ := segment r rMember
    exact ⟨tiles, first, recorded, separate⟩
  · rw [Local.modifySeg_segs]
    split
    · exact decommit _
    · rfl
  · rw [Local.modifySeg_segs]
    split
    · exact commit _
    · rfl

end SpanWf

namespace SegmentsWf

variable {l l' : Local} {spans spans' : Nat → List Span} {s : Nat}

/-- The page placed on an empty page pointer is no page. -/
theorem empty_not_page (wf : SegmentsWf l spans) : ¬IsPage l.segments spans l.heap.pageEmptyPtr := by
  rintro ⟨r, rMember, span, inSpans, _, _, same⟩
  have bounds := (wf.span.layout.segment r rMember).bounds inSpans
  have := wf.apart r rMember
  simp only [Span.header, getPageHeaderPtr_eq] at same
  simp only [Apart, segmentSize, osPageSize] at this
  omega

/-- Spans of one segment change, and its header counts its pages again. -/
theorem recount (wf : SegmentsWf l spans) (member : s ∈ l.segments) (frame : SpanFrame l l' spans)
    (after : SpanWf l' spans') (first : ⟨0, 1, .used⟩ ∈ spans' s)
    (others : ∀ r, r ≠ s → spans' r = spans r) {f : SegmentHeader → SegmentHeader}
    (decommit : ∀ m, (f m).decommitMask = m.decommitMask)
    (commit : ∀ m, (f m).commitMask = m.commitMask)
    (owned : ∀ m threadId, Owned threadId m → Owned threadId (f m))
    (used : (f (l'.segs s)).used = pageSpans (spans' s)) :
    SegmentsWf (l'.modifySeg s f) spans' := by
  have mapped : ∀ p len, Mapped l p len → Mapped (l'.modifySeg s f) p len :=
    fun p len mapped => mapped.mono frame.oracle frame.calls
  have segments : (l'.modifySeg s f).segments = l.segments := frame.segments
  have heap : (l'.modifySeg s f).heap = l.heap := frame.heap
  refine ⟨after.modifySeg decommit commit, ?_, ?_, ?_, ?_, ?_, ?_, ?_, ?_⟩ <;>
    simp only [segments, heap]
  · intro r rMember
    by_cases same : r = s
    · exact same ▸ first
    · rw [others r same]
      exact wf.first r rMember
  · intro r outside
    rw [others r fun same => outside (same ▸ member)]
    exact wf.unlisted r outside
  · intro r rMember
    rw [Local.modifySeg_segs]
    by_cases same : r = s
    · subst same
      rw [if_pos rfl, used]
    · rw [if_neg same, (frame.segs r).used, others r same]
      exact wf.used r rMember
  · intro r rMember
    rw [Local.modifySeg_segs]
    have same := (frame.segs r).owned (wf.owned r rMember)
    split
    · exact owned _ _ same
    · exact same
  · exact fun r rMember => mapped r _ (wf.mapped r rMember)
  · exact mapped _ _ wf.empty
  · exact wf.apart
  · exact wf.nodup

end SegmentsWf

/-! ### The search -/

variable {l l' : Local} {spans spans' : Nat → List Span} {queues : Nat → List Nat}

theorem findInSpanQueue_sound {b n : Nat} (ok : SpanQueuesOk l spans queues) (fuel : Nat)
    {start slice : Nat} (place : start = 0 ∨ start ∈ queues b)
    (found : findInSpanQueue l n fuel start = .ok (some slice)) :
    slice ∈ queues b ∧ n ≤ (l.pages slice).count := by
  induction fuel generalizing start with
  | zero => cases found
  | succ fuel ih =>
      simp only [findInSpanQueue] at found
      by_cases null : start = 0
      · rw [if_pos null] at found
        cases found
      · rw [if_neg null] at found
        have member : start ∈ queues b := place.resolve_left null
        by_cases large : (l.pages start).count ≥ n
        · rw [if_pos large] at found
          cases found
          exact ⟨member, large⟩
        · rw [if_neg large] at found
          refine ih ?_ found
          obtain ⟨left, right, shape⟩ := List.append_of_mem member
          have list := ok.list b
          rw [shape] at list ⊢
          by_cases last : (l.pages start).next = 0
          · exact .inl last
          · exact .inr (List.mem_append_right _ (List.mem_cons_of_mem _ (list.next_mem last)))

/-- **The search returns an entry of the queue it names** that is long enough. -/
theorem findSpan_sound {n : Nat} (ok : SpanQueuesOk l spans queues) (fuel rounds : Nat)
    {b b' slice : Nat} (found : findSpan l n fuel rounds b = .ok (some (b', slice))) :
    slice ∈ queues b' ∧ n ≤ (l.pages slice).count := by
  induction rounds generalizing b with
  | zero => cases found
  | succ rounds ih =>
      simp only [findSpan] at found
      by_cases inRange : b ≤ segmentBinMax
      · rw [if_pos inRange] at found
        cases walk : findInSpanQueue l n fuel (l.tld.spanQueueHeaders b).first with
        | error error =>
            rw [walk] at found
            cases found
        | ok result =>
            rw [walk] at found
            cases result with
            | none => exact ih found
            | some slice' =>
                cases found
                refine findInSpanQueue_sound ok fuel ?_ walk
                by_cases null : (l.tld.spanQueueHeaders b').first = 0
                · exact .inl null
                · exact .inr ((ok.list b').first_mem null)
      · rw [if_neg inRange] at found
        cases found

/-- With fuel for every entry, the walk finds the first one that is long enough. -/
theorem findInSpanQueue_eq {n before fuel : Nat} {nodes : List Nat}
    (linked : Linked (fun a => (l.pages a).prev) (fun a => (l.pages a).next) before nodes 0)
    (nonNil : 0 ∉ nodes) (enough : nodes.length < fuel) :
    findInSpanQueue l n fuel (nodes.head?.getD 0) =
      .ok (nodes.find? fun a => decide ((l.pages a).count ≥ n)) := by
  induction nodes generalizing before fuel with
  | nil =>
      obtain ⟨fuel, rfl⟩ : ∃ f, fuel = f + 1 := ⟨fuel - 1, by omega⟩
      rfl
  | cons head tail ih =>
      obtain ⟨fuel, rfl⟩ : ∃ f, fuel = f + 1 := ⟨fuel - 1, by omega⟩
      have next : (l.pages head).next = tail.head?.getD 0 := linked.2.1
      have notNull : ¬head = 0 := fun null => nonNil (null ▸ List.mem_cons_self)
      show findInSpanQueue l n (fuel + 1) head = _
      rw [findInSpanQueue, if_neg notNull]
      by_cases large : (l.pages head).count ≥ n
      · rw [if_pos large, List.find?_cons, decide_eq_true large]
      · rw [if_neg large, List.find?_cons, decide_eq_false large, next]
        exact ih linked.2.2 (fun inTail => nonNil (List.mem_cons_of_mem _ inTail))
          (Nat.lt_of_succ_lt_succ enough)

/-- The first entry, from queue `b` up, that is long enough. -/
def firstFit (l : Local) (queues : Nat → List Nat) (n : Nat) : Nat → Nat → Option (Nat × Nat)
  | 0, _ => none
  | rounds + 1, b =>
      if b ≤ segmentBinMax then
        match (queues b).find? fun a => decide ((l.pages a).count ≥ n) with
        | some slice => some (b, slice)
        | none => firstFit l queues n rounds (b + 1)
      else none

/-- **With enough fuel the search finds the first entry that is long enough.** -/
theorem findSpan_eq {n fuel : Nat} (ok : SpanQueuesOk l spans queues)
    (enough : ∀ b ≤ segmentBinMax, (queues b).length < fuel) (rounds b : Nat) :
    findSpan l n fuel rounds b = .ok (firstFit l queues n rounds b) := by
  induction rounds generalizing b with
  | zero => rfl
  | succ rounds ih =>
      simp only [findSpan, firstFit]
      by_cases inRange : b ≤ segmentBinMax
      · have list := ok.list b
        rw [if_pos inRange, if_pos inRange, list.first_eq,
          findInSpanQueue_eq list.linked list.nonNil (enough b inRange)]
        cases (queues b).find? fun a => decide ((l.pages a).count ≥ n) with
        | none => exact ih (b + 1)
        | some slice => rfl
      · rw [if_neg inRange, if_neg inRange]

/-- The search misses nothing from queue `b` up. -/
theorem firstFit_none {n rounds b : Nat} (none : firstFit l queues n rounds b = none) :
    ∀ b', b ≤ b' → b' < b + rounds → b' ≤ segmentBinMax → ∀ a ∈ queues b',
      (l.pages a).count < n := by
  induction rounds generalizing b with
  | zero =>
      intro b' lower upper
      omega
  | succ rounds ih =>
      intro b' lower upper inRange a inQueue
      simp only [firstFit] at none
      rw [if_pos (by omega)] at none
      cases here : (queues b).find? fun a => decide ((l.pages a).count ≥ n) with
      | some slice =>
          rw [here] at none
          cases none
      | none =>
          rw [here] at none
          by_cases same : b' = b
          · subst same
            have short := List.find?_eq_none.mp here a inQueue
            simpa using short
          · exact ih none b' (by omega) (by omega) inRange a inQueue

/-! ### Allocating the span found -/

/-- The span of `page` is in use in `spans'`; otherwise the pages are those of `spans`. -/
structure NewPage (l' : Local) (spans spans' : Nat → List Span) (s k n : Nat) : Prop where
  member : s ∈ l'.segments
  positive : 0 < k
  placed : ⟨k, n, .used⟩ ∈ spans' s
  fresh : ⟨k, n, .used⟩ ∉ spans s
  pages : ∀ r (x : Span), x.IsPage →
    (x ∈ spans' r ↔ x ∈ spans r ∨ (r = s ∧ x = ⟨k, n, .used⟩))

/-- What follows a span of `n` slices cut from one of `c` slices. -/
def restOf (k n c : Nat) (right : List Span) : List Span :=
  if c > n then ⟨k + n, c - n, .unused⟩ :: right else right

theorem mem_restOf {k n c : Nat} {right : List Span} {x : Span} (used : x.kind ≠ .unused) :
    x ∈ restOf k n c right ↔ x ∈ right := by
  unfold restOf
  split
  · rw [List.mem_cons, or_iff_right]
    rintro rfl
    exact used rfl
  · exact Iff.rfl

/-- The queued span is popped and, when it is longer than needed, cut. -/
theorem SpanWf.takeQueued {s k c n : Nat} {left right : List Span} (wf : SpanWf l spans)
    (member : s ∈ l.segments) (shape : spans s = left ++ ⟨k, c, .unused⟩ :: right)
    (positive : 0 < n) (large : n ≤ c) :
    let popped := spanQueueDelete l (sliceBin c) (getPageHeaderPtr s k)
    ∃ l₁ spans₁,
      (if c > n then segmentSliceSplit popped (getPageHeaderPtr s k) c n else popped) = l₁ ∧
      SpanWf l₁ spans₁ ∧ SpanFrame l l₁ spans ∧
      spans₁ s = left ++ ⟨k, n, .popped⟩ :: restOf k n c right ∧ ∀ r, r ≠ s → spans₁ r = spans r := by
  intro popped
  have piece : (⟨k, c, .unused⟩ : Span) ∈ spans s := by rw [shape]; simp
  obtain ⟨wf', frame, _⟩ := wf.delete member shape (spanQueueDelete_unlinked l _ _)
  by_cases long : c > n
  · have shape' : Function.update spans s (left ++ ⟨k, c, .popped⟩ :: right) s =
        left ++ ⟨k, c, .popped⟩ :: right := Function.update_self ..
    have alone : ∀ y ∈ Function.update spans s (left ++ ⟨k, c, .popped⟩ :: right) s,
        y.start = k + c → y.kind ≠ .unused := by
      intro y yMember touch
      rcases mem_of_replace (m := [⟨k, c, .popped⟩]) shape yMember with old | ⟨_, inMid⟩
      · exact (wf.layout.segment s member).separate _ piece y old touch.symm rfl
      · rw [List.mem_singleton.mp inMid]
        simp
    obtain ⟨wf'', frame'⟩ := wf'.split (frame.segments ▸ member) shape' positive long alone
    refine ⟨_, _, if_pos long, wf'', frame.trans frame' fun r _ x inSpans used => ?_, ?_,
      fun r differs => ?_⟩
    · exact mem_replace (m := [⟨k, c, .popped⟩]) shape inSpans (by rintro rfl; simp at used)
    · rw [Function.update_self, restOf, if_pos long]
      rfl
    · rw [Function.update_of_ne differs, Function.update_of_ne differs]
  · have same : c = n := by omega
    subst same
    refine ⟨_, _, if_neg long, wf', frame, ?_, fun r differs => ?_⟩
    · rw [restOf, if_neg long]
      exact Function.update_self ..
    · rw [Function.update_of_ne differs]

/-- What `segments_page_find_and_allocate` does with the span from slice `k` of the segment `s`: its
first `n` slices come into use, the others stay unused. -/
structure TookSpan (l l' : Local) (spans : Nat → List Span) (s k n c : Nat) (left right : List Span) :
    Prop where
  member : s ∈ l.segments
  shape : spans s = left ++ ⟨k, c, .unused⟩ :: right
  large : n ≤ c
  segments : l'.segments = l.segments
  frame : PageFrame l l' spans
  wf : SegmentsWf l' (Function.update spans s (left ++ ⟨k, n, .used⟩ :: restOf k n c right))
  new : NewPage l' spans (Function.update spans s (left ++ ⟨k, n, .used⟩ :: restOf k n c right)) s k n

/-- **`segments_page_find_and_allocate`** brings the first slices of the span found into use. -/
theorem findAndAllocate_found {fuel n₀ n b slice : Nat} (wf : SegmentsWf l spans)
    (sizeEq : (if n₀ = 0 then 1 else n₀) = n)
    (search : findSpan l n fuel (segmentBinMax + 1) (sliceBin n₀) = .ok (some (b, slice))) :
    ∃ l' s k c left right, segmentsPageFindAndAllocate fuel l n₀ = .ok (slice, l') ∧
      slice = getPageHeaderPtr s k ∧ TookSpan l l' spans s k n c left right := by
  have positive : 0 < n := by
    rw [← sizeEq]
    split <;> omega
  obtain ⟨queues, queuesOk⟩ := wf.span.queues
  obtain ⟨inQueue, large⟩ := findSpan_sound queuesOk _ _ search
  obtain ⟨s, member, ⟨k, c, kind⟩, inSpans, rfl, atHeader, rfl⟩ := (queuesOk.queued _ _).mp inQueue
  simp only [Span.header, Nat.add_zero] at atHeader
  subst atHeader
  have segment := wf.span.layout.segment s member
  have bounds := segment.bounds inSpans
  have notFirst := segment.start_pos inSpans (.inl rfl)
  simp only at bounds notFirst
  have count : (l.pages (getPageHeaderPtr s k)).count = c := (segment.ok _ inSpans).1
  have aligned := wf.span.layout.aligned member
  obtain ⟨left, right, shape⟩ := List.append_of_mem inSpans
  obtain ⟨l₁, spans₁, taken, wf₁, frame₁, shape₁, others₁⟩ :=
    wf.span.takeQueued member shape positive (count ▸ large)
  have member₁ : s ∈ l₁.segments := frame₁.segments ▸ member
  obtain ⟨l₂, allocated, frame₂, wf₂⟩ := wf₁.allocate member₁ shape₁
  have sameSpans : Function.update spans₁ s (left ++ ⟨k, n, .used⟩ :: restOf k n c right) =
      Function.update spans s (left ++ ⟨k, n, .used⟩ :: restOf k n c right) := by
    funext r
    by_cases same : r = s
    · rw [same, Function.update_self, Function.update_self]
    · rw [Function.update_of_ne same, Function.update_of_ne same, others₁ r same]
  rw [sameSpans] at wf₂
  have result : segmentsPageFindAndAllocate fuel l n₀ = .ok (getPageHeaderPtr s k,
      l₂.modifySeg s fun m => { m with used := m.used + 1 }) := by
    simp only [segmentsPageFindAndAllocate, sizeEq, search, Except.bind, bind, count,
      ptrSegment_header aligned (k := k) (by simp only [slicesPerSegment]; omega), taken, allocated,
      Bool.not_true, Bool.false_eq_true, if_false]
    rfl
  have fresh : (⟨k, n, .used⟩ : Span) ∉ spans s := fun old => by
    have := segment.tiles.eq_of_start_eq inSpans old rfl
    simp at this
  have usedMembers : ∀ x : Span, x.kind ≠ .unused →
      (x ∈ left ++ ⟨k, n, .used⟩ :: restOf k n c right ↔
        x ∈ spans s ∨ x = ⟨k, n, .used⟩) := by
    intro x used
    have : x ≠ ⟨k, c, .unused⟩ := by rintro rfl; simp at used
    rw [shape]
    simp only [List.mem_append, List.mem_cons, mem_restOf used]
    tauto
  have others : ∀ r, r ≠ s → Function.update spans s
      (left ++ ⟨k, n, .used⟩ :: restOf k n c right) r = spans r :=
    fun r differs => Function.update_of_ne differs ..
  have frame : SpanFrame l l₂ spans := frame₁.trans frame₂ fun r rMember x xMember used => by
    by_cases same : r = s
    · subst same
      have := (usedMembers x (by simp [used])).mpr (.inl xMember)
      rw [shape₁]
      simp only [List.mem_append, List.mem_cons] at this ⊢
      rcases this with inLeft | same | inRight
      · exact .inl inLeft
      · exact absurd (same ▸ xMember) fresh
      · exact .inr (.inr inRight)
    · rw [others₁ r same]
      exact xMember
  refine ⟨_, s, k, c, left, right, result, rfl, member, shape, count ▸ large, frame.segments,
    (PageFrame.ofSpan frame).andThen (.modifySeg _ _ _), wf.recount member frame wf₂ ?_ others
      (fun _ => rfl) (fun _ => rfl) (fun _ _ owned => ⟨owned.1, owned.2, owned.3⟩) ?_, ?_⟩
  · rw [Function.update_self]
    exact (usedMembers _ (by simp)).mpr (.inl (wf.first s member))
  · rw [Function.update_self, (frame.segs s).used, wf.used s member]
    have nodup' := wf₂.nodup (s := s) (by rw [frame.segments]; exact member)
    rw [Function.update_self] at nodup'
    exact (pageSpans_add (wf.span.nodup member) nodup' fresh ⟨by simp, notFirst⟩
      fun x page => usedMembers x page.1).symm
  · refine ⟨by rw [Local.modifySeg_segments, frame.segments]; exact member, notFirst, ?_, fresh,
      fun r x page => ?_⟩
    · rw [Function.update_self]
      simp
    · by_cases same : r = s
      · subst same
        rw [Function.update_self, usedMembers x page.1]
        simp
      · rw [others r same]
        simp [same]

/-- It returns null and changes nothing, or adds a page. -/
theorem findAndAllocate_spec {fuel n₀ page : Nat} (wf : SegmentsWf l spans)
    (result : segmentsPageFindAndAllocate fuel l n₀ = .ok (page, l')) :
    (page = 0 ∧ l' = l) ∨ ∃ spans' s k, page = getPageHeaderPtr s k ∧ SegmentsWf l' spans' ∧
      PageFrame l l' spans ∧ NewPage l' spans spans' s k (if n₀ = 0 then 1 else n₀) := by
  generalize sizeEq : (if n₀ = 0 then 1 else n₀) = n
  cases search : findSpan l n fuel (segmentBinMax + 1) (sliceBin n₀) with
  | error error =>
      simp only [segmentsPageFindAndAllocate, sizeEq, search] at result
      cases result
  | ok found =>
      cases found with
      | none =>
          simp only [segmentsPageFindAndAllocate, sizeEq, search] at result
          cases result
          exact .inl ⟨rfl, rfl⟩
      | some found =>
          obtain ⟨b, slice⟩ := found
          obtain ⟨l₁, s, k, c, left, right, found, header, took⟩ :=
            findAndAllocate_found wf sizeEq search
          rw [found] at result
          cases result
          exact .inr ⟨_, s, k, header, took.wf, took.frame, took.new⟩

end VerusMimalloc
