/-
**Merging a freed span with its neighbours.**

The span of a page that is given back is the only popped span. It takes in the unused span after it,
then the one before it, and is queued.

* `Merged`: what a merge keeps;
* `coalesceAfter_merged`, `coalesceBefore_merged`: the two merges;
* `segmentSpanFreeCoalesce_spec`: the span is queued and no unused span is next to it;
* `segmentPageClearSpan_spec`: the segment has one page less.
-/

import VerusMimalloc.Model.Page
import VerusMimalloc.Proof.Span.Find

namespace VerusMimalloc

open Library

variable {l l' : Local} {spans spans' : Nat → List Span} {s k c j m : Nat} {left right : List Span}

/-- The span `⟨j, m⟩` of `spans'` took in unused spans of `spans`; it is the only popped span. -/
structure Merged (l l' : Local) (spans spans' : Nat → List Span) (s j m : Nat) : Prop where
  wf : SpanWf l' spans'
  frame : SpanFrame l l' spans
  piece : ⟨j, m, .popped⟩ ∈ spans' s
  others : ∀ r, r ≠ s → spans' r = spans r
  used : ∀ x : Span, x.kind = .used → (x ∈ spans' s ↔ x ∈ spans s)
  alone : ∀ x ∈ spans' s, x.kind = .popped → x = ⟨j, m, .popped⟩
  unused : ∀ x ∈ spans' s, x.kind = .unused → x ∈ spans s

theorem Merged.refl (wf : SpanWf l spans) (piece : ⟨k, c, .popped⟩ ∈ spans s)
    (alone : ∀ x ∈ spans s, x.kind = .popped → x = ⟨k, c, .popped⟩) : Merged l l spans spans s k c :=
  ⟨wf, .refl l spans, piece, fun _ _ => rfl, fun _ _ => Iff.rfl, alone, fun _ member _ => member⟩

theorem Merged.trans {l'' : Local} {spans'' : Nat → List Span} {j' m' : Nat}
    (first : Merged l l' spans spans' s j m) (second : Merged l' l'' spans' spans'' s j' m') :
    Merged l l'' spans spans'' s j' m' := by
  refine ⟨second.wf, first.frame.trans second.frame fun r _ x inSpans used => ?_, second.piece,
    fun r differs => (second.others r differs).trans (first.others r differs),
    fun x used => (second.used x used).trans (first.used x used), second.alone,
    fun x inSpans unused => first.unused x (second.unused x inSpans unused) unused⟩
  by_cases same : r = s
  · subst same
    exact (first.used x used).mpr inSpans
  · rw [first.others r same]
    exact inSpans

/-- A popped span and an unused neighbour, in either order: the neighbour leaves its queue and the
two become one. -/
theorem Merged.join {x y unused : Span} (wf : SpanWf l spans) (member : s ∈ l.segments)
    (shape : spans s = left ++ x :: y :: right) (notFirst : 0 < x.start)
    (neighbour : (x.kind = .popped ∧ y.kind = .unused ∧ unused = y) ∨
      (x.kind = .unused ∧ y.kind = .popped ∧ unused = x))
    (alone : ∀ z ∈ spans s, z.kind = .popped → z = x ∨ z = y) :
    Merged l (spanQueueUnlink l (sliceBin unused.count) (getPageHeaderPtr s unused.start)) spans
      (Function.update spans s (left ++ ⟨x.start, x.count + y.count, .popped⟩ :: right)) s x.start
      (x.count + y.count) := by
  have tiles := (wf.layout.segment s member).tiles
  have nodup := tiles.nodup
  rw [shape] at tiles nodup
  have touch : y.start = x.start + x.count := tiles.split.2.2.1
  obtain ⟨spans₁, wf₁, frame, shape₁, others₁⟩ : ∃ spans₁, SpanWf (spanQueueUnlink l
      (sliceBin unused.count) (getPageHeaderPtr s unused.start)) spans₁ ∧ SpanFrame l
      (spanQueueUnlink l (sliceBin unused.count) (getPageHeaderPtr s unused.start)) spans ∧
      spans₁ s = left ++ ⟨x.start, x.count, .popped⟩ :: ⟨y.start, y.count, .popped⟩ :: right ∧
      ∀ r, r ≠ s → spans₁ r = spans r := by
    obtain ⟨xStart, xCount, xKind⟩ := x
    obtain ⟨yStart, yCount, yKind⟩ := y
    rcases neighbour with ⟨popped, queued, rfl⟩ | ⟨queued, popped, rfl⟩ <;>
      simp only at popped queued <;> subst popped queued
    · have shape' : spans s = (left ++ [⟨xStart, xCount, .popped⟩]) ++ ⟨yStart, yCount, .unused⟩ ::
        right := by rw [shape]; simp
      obtain ⟨wf₁, frame, _⟩ := wf.delete member shape' (spanQueueUnlink_unlinked l _ _)
      exact ⟨_, wf₁, frame, by rw [Function.update_self]; simp,
        fun r differs => Function.update_of_ne differs ..⟩
    · obtain ⟨wf₁, frame, _⟩ := wf.delete member shape (spanQueueUnlink_unlinked l _ _)
      exact ⟨_, wf₁, frame, Function.update_self .., fun r differs => Function.update_of_ne differs ..⟩
  rw [touch] at shape₁
  have merged := wf₁.merge (frame.segments ▸ member) shape₁ notFirst
  have spansEq : Function.update spans₁ s (left ++ ⟨x.start, x.count + y.count, .popped⟩ :: right) =
      Function.update spans s (left ++ ⟨x.start, x.count + y.count, .popped⟩ :: right) := by
    funext r
    by_cases same : r = s
    · rw [same, Function.update_self, Function.update_self]
    · rw [Function.update_of_ne same, Function.update_of_ne same, others₁ r same]
  rw [spansEq] at merged
  have notUsed : x.kind ≠ .used ∧ y.kind ≠ .used := by
    rcases neighbour with ⟨first, second, _⟩ | ⟨first, second, _⟩ <;> rw [first, second] <;> simp
  refine ⟨merged, frame, ?_, fun r differs => Function.update_of_ne differs .., fun z used => ?_,
    fun z inSpans popped => ?_, fun z inSpans unused => ?_⟩
  · rw [Function.update_self]
    simp
  · have apart : z ≠ x ∧ z ≠ y ∧ z ≠ ⟨x.start, x.count + y.count, .popped⟩ := by
      refine ⟨?_, ?_, ?_⟩ <;> rintro rfl
      · exact notUsed.1 used
      · exact notUsed.2 used
      · simp at used
    rw [Function.update_self, shape]
    simp only [List.mem_append, List.mem_cons, apart, false_or]
  · rw [Function.update_self] at inSpans
    simp only [List.mem_append, List.mem_cons] at inSpans
    obtain ⟨_, restNodup, apart⟩ := List.nodup_append.mp nodup
    obtain ⟨notInRest, rightNodup⟩ := List.nodup_cons.mp restNodup
    have notInRight := (List.nodup_cons.mp rightNodup).1
    rcases inSpans with inLeft | same | inRight
    · rcases alone z (by rw [shape]; simp [inLeft]) popped with rfl | rfl
      · exact absurd rfl (apart z inLeft z (by simp))
      · exact absurd rfl (apart z inLeft z (by simp))
    · exact same
    · rcases alone z (by rw [shape]; simp [inRight]) popped with rfl | rfl
      · exact absurd (List.mem_cons_of_mem _ inRight) notInRest
      · exact absurd inRight notInRight
  · rw [Function.update_self] at inSpans
    rw [shape]
    simp only [List.mem_append, List.mem_cons] at inSpans ⊢
    rcases inSpans with inLeft | rfl | inRight
    · exact .inl inLeft
    · simp at unused
    · exact .inr (.inr (.inr inRight))

/-- At most one unused span, of `d` slices from slice `k` on. -/
def MaybeUnused (list : List Span) (k d : Nat) : Prop :=
  (list = [] ∧ d = 0) ∨ (0 < d ∧ list = [⟨k, d, .unused⟩])

/-- **The merge with the span after.** -/
theorem coalesceAfter_merged (wf : SpanWf l spans) (member : s ∈ l.segments) (notFirst : 0 < k)
    (shape : spans s = left ++ ⟨k, c, .popped⟩ :: right)
    (alone : ∀ x ∈ spans s, x.kind = .popped → x = ⟨k, c, .popped⟩)
    (count : (l.pages (getPageHeaderPtr s k)).count = c) :
    ∃ d next rest l' spans', segmentSpanFreeCoalesceAfter l s (getPageHeaderPtr s k) = (c + d, l') ∧
      Merged l l' spans spans' s k (c + d) ∧ right = next ++ rest ∧ MaybeUnused next (k + c) d ∧
      spans' s = left ++ ⟨k, c + d, .popped⟩ :: rest ∧
      ∀ y ∈ rest, y.start = k + (c + d) → y.kind ≠ .unused := by
  have piece : (⟨k, c, .popped⟩ : Span) ∈ spans s := by rw [shape]; simp
  have segment := wf.layout.segment s member
  have bounds := segment.bounds piece
  have tiles := segment.tiles
  simp only at bounds
  rw [shape] at tiles
  have behind : Tiles Span.start Span.count (k + c) right 512 := tiles.split.2.2
  simp only [segmentSpanFreeCoalesceAfter, count, addOffsetAndCheck_header]
  have stays : (∀ y ∈ right, y.start = k + c → y.kind ≠ .unused) →
      ¬((decide (k + c < slicesPerSegment)) = true ∧
        (l.pages (getPageHeaderPtr s (k + c))).xblockSize = 0) →
      ∃ d next rest l' spans', (if (decide (k + c < slicesPerSegment)) = true ∧
          (l.pages (getPageHeaderPtr s (k + c))).xblockSize = 0 then
            (c + (l.pages (getPageHeaderPtr s (k + c))).count, spanQueueUnlink l
              (sliceBin (l.pages (getPageHeaderPtr s (k + c))).count) (getPageHeaderPtr s (k + c)))
          else (c, l)) = (c + d, l') ∧ Merged l l' spans spans' s k (c + d) ∧ right = next ++ rest ∧
        MaybeUnused next (k + c) d ∧ spans' s = left ++ ⟨k, c + d, .popped⟩ :: rest ∧
        ∀ y ∈ rest, y.start = k + (c + d) → y.kind ≠ .unused := by
    intro busy apart
    rw [if_neg apart]
    exact ⟨0, [], right, l, spans, rfl, .refl wf piece alone, rfl, .inl ⟨rfl, rfl⟩, shape, busy⟩
  cases right with
  | nil =>
      have last : k + c = 512 := behind
      refine stays (fun y inside => absurd inside List.not_mem_nil) fun both => ?_
      have below := of_decide_eq_true both.1
      simp only [slicesPerSegment] at below
      omega
  | cons y rest =>
      obtain ⟨yStart, positive, further⟩ := behind
      obtain ⟨start, length, kind⟩ := y
      simp only at yStart positive further
      subst yStart
      have yMember : (⟨k + c, length, kind⟩ : Span) ∈ spans s := by rw [shape]; simp
      have yBounds := segment.bounds yMember
      simp only at yBounds
      have later : ∀ z ∈ rest, z.start ≠ k + c := fun z inside same => by
        have := (further.bounds inside).1
        omega
      cases kind with
      | popped =>
          have same := alone _ yMember rfl
          simp only [Span.mk.injEq] at same
          omega
      | used =>
          refine stays (fun z inside touch => ?_) fun both => (segment.ok _ yMember).2.1 both.2
          rcases List.mem_cons.mp inside with rfl | inRest
          · simp
          · exact absurd touch (later z inRest)
      | unused =>
          have nCount : (l.pages (getPageHeaderPtr s (k + c))).count = length :=
            (segment.ok _ yMember).1
          have free : (l.pages (getPageHeaderPtr s (k + c))).xblockSize = 0 :=
            wf.layout.xblock_eq_zero member yMember (by simp) (i := 0) positive
          have merged := Merged.join wf member shape notFirst (.inl ⟨rfl, rfl, rfl⟩)
            fun z inSpans popped => .inl (alone z inSpans popped)
          rw [if_pos ⟨decide_eq_true (by simp only [slicesPerSegment]; omega), free⟩, nCount]
          refine ⟨length, _, rest, _, _, rfl, merged, (List.singleton_append ..).symm,
            .inr ⟨positive, rfl⟩, Function.update_self .., fun z inside touch unused => ?_⟩
          exact segment.separate _ yMember z (by rw [shape]; simp [inside])
            (by simp only; omega) rfl unused

/-- **The merge with the span before.** -/
theorem coalesceBefore_merged (wf : SpanWf l spans) (member : s ∈ l.segments) (notFirst : 0 < k)
    (shape : spans s = left ++ ⟨k, c, .popped⟩ :: right)
    (alone : ∀ x ∈ spans s, x.kind = .popped → x = ⟨k, c, .popped⟩) :
    ∃ j d prev rest l' spans', segmentSpanFreeCoalesceBefore l s (getPageHeaderPtr s k) c =
        ((getPageHeaderPtr s j, d + c), l') ∧
      Merged l l' spans spans' s j (d + c) ∧ 0 < j ∧ j + d = k ∧ left = rest ++ prev ∧
      MaybeUnused prev j d ∧ spans' s = rest ++ ⟨j, d + c, .popped⟩ :: right ∧
      ∀ y ∈ rest, y.start + y.count = j → y.kind ≠ .unused := by
  have piece : (⟨k, c, .popped⟩ : Span) ∈ spans s := by rw [shape]; simp
  have segment := wf.layout.segment s member
  have tiles := segment.tiles
  rw [shape] at tiles
  have ahead : Tiles Span.start Span.count 0 left k := tiles.split.1
  rcases List.eq_nil_or_concat left with rfl | ⟨rest, x, rfl⟩
  · have zero : 0 = k := ahead
    omega
  rw [List.concat_eq_append] at shape ahead ⊢
  rw [List.append_assoc, List.singleton_append] at shape
  obtain ⟨before, _, touch⟩ := ahead.split
  obtain ⟨j, d, kind⟩ := x
  change j + d = k at touch
  simp only at before
  subst touch
  have xMember : (⟨j, d, kind⟩ : Span) ∈ spans s := by rw [shape]; simp
  have bounds := segment.bounds xMember
  simp only at bounds
  have last : subOffset (getPageHeaderPtr s (j + d)) 1 = getPageHeaderPtr s (j + (d - 1)) := by
    rw [subOffset_header (by omega), ← Nat.add_sub_assoc (by omega)]
  have found : kind ≠ .popped →
      calculatePagePtrSubtractOffset (getPageHeaderPtr s (j + (d - 1)))
        (l.pages (getPageHeaderPtr s (j + (d - 1)))).offset = getPageHeaderPtr s j := by
    intro notPopped
    have offset : (l.pages (getPageHeaderPtr s (j + (d - 1)))).offset = (d - 1) * 80 := by
      cases kind with
      | used => exact (segment.ok _ xMember).2.2 (d - 1) (by simp only; omega)
      | unused => exact (segment.ok _ xMember).2.2
      | popped => exact absurd rfl notPopped
    rw [offset, calculatePagePtrSubtractOffset_header (by omega), Nat.add_sub_cancel]
  have behind : isGt0thSlice (getPageHeaderPtr s (j + d)) s = true := by
    rw [isGt0thSlice_header, decide_eq_true_eq]
    omega
  simp only [segmentSpanFreeCoalesceBefore, behind, if_true, last]
  cases kind with
  | popped =>
      have same := alone _ xMember rfl
      simp only [Span.mk.injEq] at same
      omega
  | used =>
      have busy : (l.pages (getPageHeaderPtr s j)).xblockSize ≠ 0 := (segment.ok _ xMember).2.1
      rw [found (by simp), if_neg busy]
      refine ⟨j + d, 0, [], rest ++ [⟨j, d, .used⟩], l, spans, ?_, ?_, notFirst, rfl, by simp,
        .inl ⟨rfl, rfl⟩, ?_, fun y inside meets => ?_⟩
      · rw [Nat.zero_add]
      · rw [Nat.zero_add]
        exact .refl wf piece alone
      · rw [Nat.zero_add, shape]
        simp
      · rcases List.mem_append.mp inside with inRest | same
        · have := (before.bounds inRest).2.2
          omega
        · rw [List.mem_singleton.mp same]
          simp
  | unused =>
      have free : (l.pages (getPageHeaderPtr s j)).xblockSize = 0 :=
        wf.layout.xblock_eq_zero member xMember (by simp) (i := 0) bounds.1
      have nCount : (l.pages (getPageHeaderPtr s j)).count = d := (segment.ok _ xMember).1
      have positive := segment.start_pos xMember (.inl rfl)
      have merged := Merged.join wf member shape positive (.inr ⟨rfl, rfl, rfl⟩)
        fun z inSpans popped => .inr (alone z inSpans popped)
      rw [found (by simp), if_pos free, nCount, Nat.add_comm c d]
      refine ⟨j, d, _, rest, _, _, rfl, merged, positive, rfl, rfl, .inr ⟨bounds.1, rfl⟩,
        Function.update_self .., fun y inside meets unused => ?_⟩
      exact segment.separate y (by rw [shape]; simp [inside]) _ xMember meets unused rfl

/-- The popped span `⟨k, c⟩` of `old` and its unused neighbours are one unused span of `new`. -/
def Absorbed (old new : List Span) (k c : Nat) : Prop :=
  ∃ j d e left prev next right, j + d = k ∧ MaybeUnused prev j d ∧ MaybeUnused next (k + c) e ∧
    old = left ++ prev ++ ⟨k, c, .popped⟩ :: (next ++ right) ∧
    new = left ++ ⟨j, d + c + e, .unused⟩ :: right ∧
    (∀ x ∈ left, x.start + x.count = j → x.kind ≠ .unused) ∧
    ∀ y ∈ right, y.start = k + c + e → y.kind ≠ .unused

/-- The other spans are as before. -/
theorem Absorbed.mem_iff {old new : List Span} (absorbed : Absorbed old new k c) (nodup : old.Nodup)
    (alone : ∀ x ∈ old, x.kind = .popped → x = ⟨k, c, .popped⟩) {x : Span} (busy : x.kind ≠ .unused) :
    x ∈ new ↔ x ∈ old ∧ x ≠ ⟨k, c, .popped⟩ := by
  obtain ⟨j, d, e, left, prev, next, right, _, before, after, rfl, rfl, _⟩ := absorbed
  have notBefore : x ∉ prev := by
    rcases before with ⟨rfl, _⟩ | ⟨_, rfl⟩
    · exact List.not_mem_nil
    · rw [List.mem_singleton]
      rintro rfl
      exact busy rfl
  have notAfter : x ∉ next := by
    rcases after with ⟨rfl, _⟩ | ⟨_, rfl⟩
    · exact List.not_mem_nil
    · rw [List.mem_singleton]
      rintro rfl
      exact busy rfl
  have notMerged : x ≠ ⟨j, d + c + e, .unused⟩ := by
    rintro rfl
    exact busy rfl
  obtain ⟨_, restNodup, apart⟩ := List.nodup_append.mp nodup
  have notRight := (List.nodup_cons.mp restNodup).1
  simp only [List.mem_append, List.mem_cons, notBefore, notAfter, notMerged, or_false, false_or]
    at notRight apart ⊢
  constructor
  · rintro (inLeft | inRight)
    · exact ⟨.inl inLeft, apart x (.inl inLeft) _ (.inl rfl)⟩
    · refine ⟨.inr (.inr inRight), ?_⟩
      rintro rfl
      exact notRight (.inr inRight)
  · rintro ⟨inLeft | same | inRight, differs⟩
    · exact .inl inLeft
    · exact absurd same differs
    · exact .inr inRight

/-- **`segment_span_free_coalesce`**: the popped span, with its unused neighbours, is queued. -/
theorem segmentSpanFreeCoalesce_spec (wf : SpanWf l spans) (member : s ∈ l.segments)
    (notFirst : 0 < k) (piece : ⟨k, c, .popped⟩ ∈ spans s)
    (alone : ∀ x ∈ spans s, x.kind = .popped → x = ⟨k, c, .popped⟩)
    (count : (l.pages (getPageHeaderPtr s k)).count = c)
    (thread : (l.segs s).threadId ≠ 0) (normal : (l.segs s).kind = .normal) :
    ∃ l' spans', segmentSpanFreeCoalesce l (getPageHeaderPtr s k) = .ok l' ∧
      SpanWf l' spans' ∧ SpanFrame l l' spans ∧ (∀ r, r ≠ s → spans' r = spans r) ∧
      Absorbed (spans s) (spans' s) k c := by
  have aligned := wf.layout.aligned member
  have bounds := (wf.layout.segment s member).bounds piece
  simp only at bounds
  have notHuge : (l.segs s).kind ≠ .huge := by simp [normal]
  unfold segmentSpanFreeCoalesce
  rw [ptrSegment_header aligned (k := k) (by simp only [slicesPerSegment]; omega)]
  simp only
  rw [if_neg thread, if_neg notHuge]
  obtain ⟨left, right, shape⟩ := List.append_of_mem piece
  obtain ⟨e, next, rest, l₁, spans₁, after, merged₁, rightEq, nextOk, shape₁, clear₁⟩ :=
    coalesceAfter_merged wf member notFirst shape alone count
  have member₁ : s ∈ l₁.segments := merged₁.frame.segments ▸ member
  obtain ⟨j, d, prev, front, l₂, spans₂, before, merged₂, positive, touch, leftEq, prevOk, shape₂,
    clear₂⟩ := coalesceBefore_merged merged₁.wf member₁ notFirst shape₁ merged₁.alone
  have merged := merged₁.trans merged₂
  have member₂ : s ∈ l₂.segments := merged.frame.segments ▸ member
  have segment₂ := merged₂.wf.layout.segment s member₂
  have bounds₂ := segment₂.bounds merged₂.piece
  have tiles₂ := segment₂.tiles
  rw [shape₂] at tiles₂
  simp only at bounds₂
  -- an unused span next to the merged one stands next to it in the list
  have clearBefore : ∀ y ∈ spans₂ s, y.start + y.count = j → y.kind ≠ .unused := by
    intro y inside meets
    rw [shape₂] at inside
    rcases List.mem_append.mp inside with inFront | later
    · exact clear₂ y inFront meets
    · have lower := (tiles₂.bounds (List.mem_append_right _ later)).2
      rcases List.mem_cons.mp later with rfl | inRest
      · simp only at meets lower
        omega
      · have : j + (d + (c + e)) ≤ y.start := tiles₂.clear_of_split.2 y inRest
        omega
  have clearAfter : ∀ y ∈ spans₂ s, y.start = j + (d + (c + e)) → y.kind ≠ .unused := by
    intro y inside meets
    rw [shape₂] at inside
    rcases List.mem_append.mp inside with inFront | later
    · have : y.start + y.count ≤ j := tiles₂.clear_of_split.1 y inFront
      omega
    · rcases List.mem_cons.mp later with rfl | inRest
      · simp
      · exact clear₁ y inRest (by omega)
  obtain ⟨l₃, freed, frame₃, wf₃⟩ := merged₂.wf.free member₂ shape₂ positive true clearBefore clearAfter
  simp only [after, before, getIndex_header aligned (k := j)
    (by simp only [slicesPerSegment]; omega), freed]
  refine ⟨l₃, _, rfl, wf₃, merged.frame.trans frame₃ fun r _ x inSpans used => ?_, fun r differs => ?_,
    j, d, e, front, prev, next, rest, touch, prevOk, nextOk, ?_, ?_, clear₂, fun y inside meets => ?_⟩
  · by_cases same : r = s
    · subst same
      exact (merged.used x used).mpr inSpans
    · rw [merged.others r same]
      exact inSpans
  · rw [Function.update_of_ne differs, merged.others r differs]
  · rw [shape, leftEq, rightEq]
  · rw [Function.update_self, Nat.add_assoc]
  · exact clear₁ y inside (by omega)

/-- **The end of `segment_page_clear`**: the segment has one page less. -/
theorem segmentPageClearSpan_spec (wf : SegmentsWf l spans) (member : s ∈ l.segments)
    (notFirst : 0 < k) (piece : ⟨k, c, .popped⟩ ∈ spans s)
    (alone : ∀ x ∈ spans s, x.kind = .popped → x = ⟨k, c, .popped⟩)
    (count : (l.pages (getPageHeaderPtr s k)).count = c) (thread : l.heap.threadId ≠ 0) :
    ∃ l' spans', segmentPageClearSpan l (getPageHeaderPtr s k) = .ok l' ∧
      SegmentsWf l' spans' ∧ PageFrame l l' spans ∧ l'.segments = l.segments ∧
      (l'.segs s).used + 1 = (l.segs s).used ∧
      (∀ r (x : Span), x.kind ≠ .unused →
        (x ∈ spans' r ↔ x ∈ spans r ∧ ¬(r = s ∧ x = ⟨k, c, .popped⟩))) ∧
      (∀ r, r ≠ s → spans' r = spans r) ∧ Absorbed (spans s) (spans' s) k c ∧
      ∀ x, SameBlocks (l.pages x) (l'.pages x) := by
  have aligned := wf.span.layout.aligned member
  have bounds := (wf.span.layout.segment s member).bounds piece
  simp only at bounds
  obtain ⟨own, normal, _⟩ := wf.owned s member
  obtain ⟨l₁, spans', coalesced, wf', frame, others, absorbed⟩ :=
    segmentSpanFreeCoalesce_spec wf.span member notFirst piece alone count (own ▸ thread) normal
  have members : ∀ x : Span, x.kind ≠ .unused →
      (x ∈ spans' s ↔ x ∈ spans s ∧ x ≠ ⟨k, c, .popped⟩) := fun x busy =>
    absorbed.mem_iff (wf.span.nodup member) alone busy
  have nodup' := wf'.nodup (s := s) (frame.segments ▸ member)
  have gone : (⟨k, c, .popped⟩ : Span) ∉ spans' s := fun inSpans =>
    ((members _ (by simp)).mp inSpans).2 rfl
  have counted := pageSpans_add nodup' (wf.span.nodup member) gone ⟨by simp, notFirst⟩
    fun x page => by
      rw [members x page.1]
      by_cases same : x = ⟨k, c, .popped⟩
      · simp [same, piece]
      · simp [same]
  have used : (l₁.segs s).used = pageSpans (spans' s) + 1 := by
    rw [(frame.segs s).used, wf.used s member, counted]
  unfold segmentPageClearSpan
  rw [ptrSegment_header aligned (k := k) (by simp only [slicesPerSegment]; omega)]
  simp only [bind, Except.bind, coalesced]
  rw [if_neg (by omega)]
  refine ⟨_, spans', rfl, wf.recount member frame wf' ((members _ (by simp)).mpr
    ⟨wf.first s member, by simp⟩) others (fun _ => rfl) (fun _ => rfl)
    (fun _ _ owned => ⟨owned.1, owned.2, owned.3⟩) ?_,
    (PageFrame.ofSpan frame).andThen (.modifySeg _ _ _), frame.segments, ?_, fun r x busy => ?_, others,
    absorbed, frame.blocks⟩
  · rw [used, Nat.add_sub_cancel]
  · rw [Local.modifySeg_segs, if_pos rfl, ← (frame.segs s).used, used]
    rfl
  · by_cases same : r = s
    · subst same
      rw [members x busy]
      simp
    · rw [others r same]
      simp [same]

end VerusMimalloc
