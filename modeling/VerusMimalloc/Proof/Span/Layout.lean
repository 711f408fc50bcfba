/-
**The span layout of segments.**

Each segment is a list of spans that tile its slices; a span is in use, unused, or popped: taken out
of its queue and not yet in use. `LayoutOk` says that the page headers record the layout;
`SpanQueuesOk` that the unused spans are exactly the entries of the span queues.

* `LayoutOk.replace`: changing one span and its headers;
* `queued_replace`: what that does to the queue members;
* `SpanQueuesOk.unlink`, `SpanQueuesOk.link`: one entry less, one more.
-/

import VerusMimalloc.Library.DList
import VerusMimalloc.Library.Tiling
import VerusMimalloc.Model.Segment

namespace VerusMimalloc

open Library

inductive SpanKind where
  | used
  | unused
  | popped
  deriving DecidableEq

/-- A span of slices of a segment. -/
structure Span where
  start : Nat
  count : Nat
  kind : SpanKind

/-- The header of a span's slice. -/
def Span.header (span : Span) (s i : Nat) : Nat := getPageHeaderPtr s (span.start + i)

/-- Two headers record the same about the span. -/
structure SameMeta (p q : Page) : Prop where
  count : q.count = p.count
  offset : q.offset = p.offset
  xblockSize : q.xblockSize = p.xblockSize

theorem SameMeta.refl (p : Page) : SameMeta p p := ⟨rfl, rfl, rfl⟩

/-- The headers record the span. Only the first and the last slice of an unused span are kept
accurate. -/
def SpanOk (l : Local) (s : Nat) (span : Span) : Prop :=
  match span.kind with
  | .used =>
      (l.pages (span.header s 0)).count = span.count ∧ (l.pages (span.header s 0)).xblockSize ≠ 0 ∧
        ∀ i < span.count, (l.pages (span.header s i)).offset = i * 80
  | .unused =>
      (l.pages (span.header s 0)).count = span.count ∧ (l.pages (span.header s 0)).offset = 0 ∧
        (l.pages (span.header s (span.count - 1))).offset = (span.count - 1) * 80
  | .popped => True

theorem SpanOk.congr {l l' : Local} {s : Nat} {span : Span} (ok : SpanOk l s span)
    (positive : 0 < span.count)
    (same : ∀ i < span.count, SameMeta (l.pages (span.header s i)) (l'.pages (span.header s i))) :
    SpanOk l' s span := by
  have atFirst := same 0 positive
  have atLast := same (span.count - 1) (by omega)
  unfold SpanOk at ok ⊢
  cases kind : span.kind with
  | used =>
      simp only [kind] at ok ⊢
      obtain ⟨count, xblock, offset⟩ := ok
      exact ⟨atFirst.count.trans count, by rw [atFirst.xblockSize]; exact xblock,
        fun i inside => (same i inside).offset.trans (offset i inside)⟩
  | unused =>
      simp only [kind] at ok ⊢
      exact ⟨atFirst.count.trans ok.1, atFirst.offset.trans ok.2.1, atLast.offset.trans ok.2.2⟩
  | popped => trivial

/-- The spans of one segment. -/
structure SegmentOk (l : Local) (s : Nat) (spans : List Span) : Prop where
  tiles : Tiles Span.start Span.count 0 spans 512
  first : ∃ kind, kind ≠ .unused ∧ ⟨0, 1, kind⟩ ∈ spans
  ok : ∀ span ∈ spans, SpanOk l s span
  separate : ∀ x ∈ spans, ∀ y ∈ spans, x.start + x.count = y.start →
    x.kind = .unused → y.kind ≠ .unused

/-- The spans of all segments. -/
structure LayoutOk (l : Local) (spans : Nat → List Span) : Prop where
  base : ∀ s ∈ l.segments, segmentSize ∣ s ∧ 0 < s ∧ s + segmentSize < 2 ^ 64
  segment : ∀ s ∈ l.segments, SegmentOk l s (spans s)
  xblock : ∀ a, (l.pages a).xblockSize ≠ 0 →
    ∃ s ∈ l.segments, ∃ span ∈ spans s, span.kind = .used ∧ a = span.header s 0

/-- An entry of the span queue `b`: the first header of an unused span of that bin. -/
def Queued (segments : List Nat) (spans : Nat → List Span) (b a : Nat) : Prop :=
  ∃ s ∈ segments, ∃ span ∈ spans s, span.kind = .unused ∧ a = span.header s 0 ∧
    b = sliceBin span.count

/-- The span queues are doubly linked lists of the unused spans. -/
structure SpanQueuesOk (l : Local) (spans : Nat → List Span) (queues : Nat → List Nat) : Prop where
  list : ∀ b, IsDList (fun a => (l.pages a).prev) (fun a => (l.pages a).next) 0
    (l.tld.spanQueueHeaders b).first (l.tld.spanQueueHeaders b).last (queues b)
  queued : ∀ b a, a ∈ queues b ↔ Queued l.segments spans b a

variable {l l' : Local} {spans : Nat → List Span} {s s' : Nat} {piece span other : Span}
  {left m right : List Span} {a b : Nat}

/-! ### Headers and spans -/

namespace SegmentOk

theorem bounds {list : List Span} (ok : SegmentOk l s list) (member : span ∈ list) :
    0 < span.count ∧ span.start + span.count ≤ 512 :=
  (ok.tiles.bounds member).2

/-- A span that starts the segment is the single slice of the headers. -/
theorem first_eq {list : List Span} (ok : SegmentOk l s list) (member : span ∈ list)
    (zero : span.start = 0) : span.count = 1 ∧ span.kind ≠ .unused := by
  obtain ⟨kind, busy, first⟩ := ok.first
  have same : span = ⟨0, 1, kind⟩ := ok.tiles.eq_of_start_eq member first zero
  rw [same]
  exact ⟨rfl, busy⟩

theorem start_pos {list : List Span} (ok : SegmentOk l s list) (member : span ∈ list)
    (later : span.kind = .unused ∨ 1 < span.count) : 0 < span.start := by
  by_contra zero
  obtain ⟨single, busy⟩ := ok.first_eq member (by omega)
  rcases later with unused | long
  · exact busy unused
  · omega

end SegmentOk

namespace LayoutOk

theorem aligned (layout : LayoutOk l spans) (member : s ∈ l.segments) : segmentSize ∣ s :=
  (layout.base s member).1

/-- A header belongs to one slice of one span of one segment. -/
theorem header_inj (layout : LayoutOk l spans) (inSegments : s ∈ l.segments)
    (otherSegments : s' ∈ l.segments) (member : span ∈ spans s) (otherMember : other ∈ spans s')
    {i j : Nat} (inside : i < span.count) (otherInside : j < other.count)
    (same : span.header s i = other.header s' j) : s = s' ∧ span = other ∧ i = j := by
  have bounds := (layout.segment s inSegments).bounds member
  have otherBounds := (layout.segment s' otherSegments).bounds otherMember
  obtain ⟨rfl, slices⟩ := (VerusMimalloc.header_inj (layout.aligned inSegments)
    (layout.aligned otherSegments) (by simp only [slicesPerSegment]; omega)
    (by simp only [slicesPerSegment]; omega)).mp same
  have pieces : span = other := (layout.segment s inSegments).tiles.eq_of_overlap member otherMember
    (x := span.start + i) (by omega) (by omega)
  subst pieces
  exact ⟨rfl, rfl, by omega⟩

/-- **Changing one span.** The headers outside its slices keep what they record, the spans in its
place tile it and are recorded, and no two unused spans come to be neighbours. -/
theorem replace (layout : LayoutOk l spans) (member : s ∈ l.segments)
    (shape : spans s = left ++ piece :: right)
    (notFirst : piece.start = 0 → ∃ kind, kind ≠ .unused ∧ ⟨0, 1, kind⟩ ∈ m)
    (inner : Tiles Span.start Span.count piece.start m (piece.start + piece.count))
    (sameSegments : l'.segments = l.segments)
    (outside : ∀ x, (∀ i < piece.count, x ≠ piece.header s i) →
      SameMeta (l.pages x) (l'.pages x))
    (midOk : ∀ x ∈ m, SpanOk l' s x)
    (midSeparate : ∀ x ∈ m, ∀ y ∈ m, x.start + x.count = y.start →
      x.kind = .unused → y.kind ≠ .unused)
    (alone : ∀ x ∈ m, x.kind = .unused → ∀ y ∈ spans s, y.kind = .unused →
      x.start + x.count ≠ y.start ∧ y.start + y.count ≠ x.start)
    (midXblock : ∀ i < piece.count, (l'.pages (piece.header s i)).xblockSize ≠ 0 →
      ∃ x ∈ m, x.kind = .used ∧ x.start = piece.start + i) :
    LayoutOk l' (Function.update spans s (left ++ (m ++ right))) := by
  have old := layout.segment s member
  have pieceMember : piece ∈ spans s := by rw [shape]; simp
  have kept : ∀ x, x ∈ left ∨ x ∈ right → x ∈ spans s ∧ x ≠ piece := by
    intro x place
    refine ⟨by rw [shape]; simp only [List.mem_append, List.mem_cons]; tauto, ?_⟩
    rintro rfl
    have nodup := old.tiles.nodup
    rw [shape] at nodup
    rcases place with inLeft | inRight
    · exact (List.nodup_append.mp nodup).2.2 x inLeft x (by simp) rfl
    · exact (List.nodup_cons.mp (List.nodup_append.mp nodup).2.1).1 inRight
  have keptOk : ∀ r ∈ l.segments, ∀ x ∈ spans r, (r = s → x ≠ piece) → SpanOk l' r x := by
    intro r rMember x xMember differs
    have bounds := (layout.segment r rMember).bounds xMember
    refine ((layout.segment r rMember).ok x xMember).congr bounds.1 fun i inside => ?_
    refine outside _ fun j pieceInside same => ?_
    obtain ⟨sameSegment, samePiece, _⟩ :=
      layout.header_inj rMember member xMember pieceMember inside pieceInside same
    exact differs sameSegment samePiece
  constructor
  · rw [sameSegments]
    exact layout.base
  · rw [sameSegments]
    intro r rMember
    by_cases same : r = s
    · subst same
      rw [Function.update_self]
      have tiles := old.tiles
      rw [shape] at tiles
      refine ⟨tiles.replace inner, ?_, ?_, ?_⟩
      · obtain ⟨kind, busy, firstMember⟩ := old.first
        rw [shape] at firstMember
        simp only [List.mem_append, List.mem_cons] at firstMember ⊢
        rcases firstMember with inLeft | same | inRight
        · exact ⟨kind, busy, .inl inLeft⟩
        · obtain ⟨kind', busy', inMid⟩ := notFirst (by rw [← same])
          exact ⟨kind', busy', .inr (.inl inMid)⟩
        · exact ⟨kind, busy, .inr (.inr inRight)⟩
      · intro x xMember
        simp only [List.mem_append] at xMember
        rcases xMember with inLeft | inMid | inRight
        · exact keptOk r member x (kept x (.inl inLeft)).1 fun _ => (kept x (.inl inLeft)).2
        · exact midOk x inMid
        · exact keptOk r member x (kept x (.inr inRight)).1 fun _ => (kept x (.inr inRight)).2
      · intro x xMember y yMember touch unused unused'
        have place : ∀ z ∈ left ++ (m ++ right), z ∈ m ∨ z ∈ spans r := by
          intro z zMember
          simp only [List.mem_append] at zMember
          rcases zMember with inLeft | inMid | inRight
          · exact .inr (kept z (.inl inLeft)).1
          · exact .inl inMid
          · exact .inr (kept z (.inr inRight)).1
        rcases place x xMember with xMid | xOld <;> rcases place y yMember with yMid | yOld
        · exact midSeparate x xMid y yMid touch unused unused'
        · exact (alone x xMid unused y yOld unused').1 touch
        · exact (alone y yMid unused' x xOld unused).2 touch
        · exact old.separate x xOld y yOld touch unused unused'
    · rw [Function.update_of_ne same]
      have segment := layout.segment r rMember
      exact ⟨segment.tiles, segment.first,
        fun x xMember => keptOk r rMember x xMember fun equal => absurd equal same,
        segment.separate⟩
  · rw [sameSegments]
    intro x nonzero
    by_cases inPiece : ∃ i < piece.count, x = piece.header s i
    · obtain ⟨i, inside, rfl⟩ := inPiece
      obtain ⟨y, yMember, yUsed, yStart⟩ := midXblock i inside nonzero
      refine ⟨s, member, y, ?_, yUsed, ?_⟩
      · rw [Function.update_self]
        simp [yMember]
      · simp only [Span.header, yStart, Nat.add_zero]
    · push Not at inPiece
      rw [(outside x inPiece).xblockSize] at nonzero
      obtain ⟨r, rMember, y, yMember, yUsed, rfl⟩ := layout.xblock x nonzero
      refine ⟨r, rMember, y, ?_, yUsed, rfl⟩
      by_cases same : r = s
      · subst same
        rw [Function.update_self]
        rw [shape] at yMember
        simp only [List.mem_append, List.mem_cons] at yMember ⊢
        rcases yMember with inLeft | rfl | inRight
        · exact .inl inLeft
        · exact absurd rfl (inPiece 0 (old.bounds pieceMember).1)
        · exact .inr (.inr inRight)
      · rw [Function.update_of_ne same]
        exact yMember

/-- Members of a queue are queued in one bin only. -/
theorem queued_bin (layout : LayoutOk l spans) {b' : Nat} (queued : Queued l.segments spans b a)
    (other : Queued l.segments spans b' a) : b = b' := by
  obtain ⟨r, rMember, x, xMember, _, atX, rfl⟩ := queued
  obtain ⟨r', rMember', y, yMember, _, atY, rfl⟩ := other
  obtain ⟨_, rfl, _⟩ := layout.header_inj rMember rMember' xMember yMember
    ((layout.segment r rMember).bounds xMember).1 ((layout.segment r' rMember').bounds yMember).1
    (atX.symm.trans atY)
  rfl

/-- **The queue members after a change** of one span. -/
theorem queued_replace (layout : LayoutOk l spans) (member : s ∈ l.segments)
    (shape : spans s = left ++ piece :: right) :
    Queued l.segments (Function.update spans s (left ++ (m ++ right))) b a ↔
      (Queued l.segments spans b a ∧ a ≠ piece.header s 0) ∨
        ∃ x ∈ m, x.kind = .unused ∧ a = x.header s 0 ∧ b = sliceBin x.count := by
  have old := layout.segment s member
  have pieceMember : piece ∈ spans s := by rw [shape]; simp
  have pieceBounds := old.bounds pieceMember
  have nodup := old.tiles.nodup
  rw [shape] at nodup
  have fresh : ∀ x, x ∈ left ∨ x ∈ right → x ∈ spans s ∧ x.header s 0 ≠ piece.header s 0 := by
    intro x place
    have xMember : x ∈ spans s := by
      rw [shape]; simp only [List.mem_append, List.mem_cons]; tauto
    refine ⟨xMember, fun same => ?_⟩
    obtain ⟨_, rfl, _⟩ := layout.header_inj member member xMember pieceMember
      (old.bounds xMember).1 pieceBounds.1 same
    rcases place with inLeft | inRight
    · exact (List.nodup_append.mp nodup).2.2 x inLeft x (by simp) rfl
    · exact (List.nodup_cons.mp (List.nodup_append.mp nodup).2.1).1 inRight
  constructor
  · rintro ⟨r, rMember, x, xMember, unused, rfl, rfl⟩
    by_cases same : r = s
    · subst same
      rw [Function.update_self] at xMember
      simp only [List.mem_append] at xMember
      rcases xMember with inLeft | inMid | inRight
      · exact .inl ⟨⟨r, member, x, (fresh x (.inl inLeft)).1, unused, rfl, rfl⟩,
          (fresh x (.inl inLeft)).2⟩
      · exact .inr ⟨x, inMid, unused, rfl, rfl⟩
      · exact .inl ⟨⟨r, member, x, (fresh x (.inr inRight)).1, unused, rfl, rfl⟩,
          (fresh x (.inr inRight)).2⟩
    · rw [Function.update_of_ne same] at xMember
      refine .inl ⟨⟨r, rMember, x, xMember, unused, rfl, rfl⟩, fun equal => same ?_⟩
      exact (layout.header_inj rMember member xMember pieceMember
        ((layout.segment r rMember).bounds xMember).1 pieceBounds.1 equal).1
  · rintro (⟨⟨r, rMember, x, xMember, unused, rfl, rfl⟩, differs⟩ | ⟨x, inMid, unused, rfl, rfl⟩)
    · refine ⟨r, rMember, x, ?_, unused, rfl, rfl⟩
      by_cases same : r = s
      · subst same
        rw [Function.update_self]
        rw [shape] at xMember
        simp only [List.mem_append, List.mem_cons] at xMember ⊢
        rcases xMember with inLeft | rfl | inRight
        · exact .inl inLeft
        · exact absurd rfl differs
        · exact .inr (.inr inRight)
      · rw [Function.update_of_ne same]
        exact xMember
    · refine ⟨s, member, x, ?_, unused, rfl, rfl⟩
      rw [Function.update_self]
      simp [inMid]

end LayoutOk

/-! ### Queue members -/

namespace SpanQueuesOk

variable {spans' : Nat → List Span} {queues : Nat → List Nat} {node : Nat}

/-- Only the links of queue members and the queue headers matter. -/
theorem congr (ok : SpanQueuesOk l spans queues)
    (samePrev : ∀ b, ∀ x ∈ queues b, (l'.pages x).prev = (l.pages x).prev)
    (sameNext : ∀ b, ∀ x ∈ queues b, (l'.pages x).next = (l.pages x).next)
    (sameHeads : l'.tld.spanQueueHeaders = l.tld.spanQueueHeaders)
    (sameMembers : ∀ b a, Queued l'.segments spans' b a ↔ Queued l.segments spans b a) :
    SpanQueuesOk l' spans' queues := by
  refine ⟨fun b => ?_, fun b a => (ok.queued b a).trans (sameMembers b a).symm⟩
  rw [sameHeads]
  exact (ok.list b).congr (samePrev b) (sameNext b)

/-- **One entry less.** -/
theorem unlink (layout : LayoutOk l spans) (ok : SpanQueuesOk l spans queues)
    (member : Queued l.segments spans b node)
    (next : ∀ x, (l'.pages x).next =
      if (l.pages node).prev ≠ 0 ∧ x = (l.pages node).prev then (l.pages node).next
      else (l.pages x).next)
    (prev : ∀ x, (l'.pages x).prev =
      if (l.pages node).next ≠ 0 ∧ x = (l.pages node).next then (l.pages node).prev
      else (l.pages x).prev)
    (heads : ∀ i, l'.tld.spanQueueHeaders i =
      if i = b then
        { first := if (l.pages node).prev = 0 then (l.pages node).next
            else (l.tld.spanQueueHeaders b).first
          last := if (l.pages node).next = 0 then (l.pages node).prev
            else (l.tld.spanQueueHeaders b).last }
      else l.tld.spanQueueHeaders i)
    (members : ∀ i a, Queued l'.segments spans' i a ↔ Queued l.segments spans i a ∧ a ≠ node) :
    ∃ queues', SpanQueuesOk l' spans' queues' := by
  obtain ⟨before, after, shape⟩ := List.append_of_mem ((ok.queued b node).mpr member)
  have list := ok.list b
  rw [shape] at list
  have nodup := list.nodup
  have notZero : ∀ x ∈ before ++ node :: after, x ≠ 0 := fun x inside zero =>
    list.nonNil (zero ▸ inside)
  have neighbours : ∀ x, (x = (l.pages node).prev ∨ x = (l.pages node).next) → x ≠ 0 →
      x ∈ queues b := by
    rintro x (rfl | rfl) nonzero
    · rw [shape]
      exact List.mem_append_left _ (list.prev_mem nonzero)
    · rw [shape]
      exact List.mem_append_right _ (List.mem_cons_of_mem _ (list.next_mem nonzero))
  refine ⟨Function.update queues b (before ++ after), fun i => ?_, fun i a => ?_⟩
  · by_cases same : i = b
    · subst same
      rw [Function.update_self, heads, if_pos rfl]
      refine list.remove (fun x inside => ?_) (fun x inside => ?_) rfl rfl
      · have nonzero := notZero x (by simp only [List.mem_append, List.mem_cons] at inside ⊢; tauto)
        rw [next]
        by_cases atPrev : x = (l.pages node).prev
        · rw [if_pos ⟨atPrev ▸ nonzero, atPrev⟩, if_pos atPrev]
        · rw [if_neg fun both => atPrev both.2, if_neg atPrev]
      · have nonzero := notZero x (by simp only [List.mem_append, List.mem_cons] at inside ⊢; tauto)
        rw [prev]
        by_cases atNext : x = (l.pages node).next
        · rw [if_pos ⟨atNext ▸ nonzero, atNext⟩, if_pos atNext]
        · rw [if_neg fun both => atNext both.2, if_neg atNext]
    · rw [Function.update_of_ne same, heads, if_neg same]
      have elsewhere : ∀ x ∈ queues i, x ∉ queues b := fun x inI inB => same
        (layout.queued_bin ((ok.queued i x).mp inI) ((ok.queued b x).mp inB))
      refine (ok.list i).congr (fun x inside => ?_) (fun x inside => ?_)
      · rw [prev, if_neg]
        rintro ⟨nonzero, rfl⟩
        exact elsewhere _ inside (neighbours _ (.inr rfl) nonzero)
      · rw [next, if_neg]
        rintro ⟨nonzero, rfl⟩
        exact elsewhere _ inside (neighbours _ (.inl rfl) nonzero)
  · rw [members]
    by_cases same : i = b
    · subst same
      rw [Function.update_self, ← ok.queued, shape]
      have fresh := List.nodup_append.mp nodup
      have notAfter := (List.nodup_cons.mp fresh.2.1).1
      simp only [List.mem_append, List.mem_cons]
      constructor
      · rintro (inside | inside)
        · exact ⟨.inl inside, fun equal => fresh.2.2 a inside node (by simp) equal⟩
        · exact ⟨.inr (.inr inside), fun equal => notAfter (equal ▸ inside)⟩
      · rintro ⟨inside | rfl | inside, differs⟩
        · exact .inl inside
        · exact absurd rfl differs
        · exact .inr inside
    · rw [Function.update_of_ne same, ← ok.queued]
      refine ⟨fun inside => ⟨inside, ?_⟩, fun inside => inside.1⟩
      rintro rfl
      exact same (layout.queued_bin ((ok.queued i a).mp inside) member)

/-- **One entry more**, at the front of its queue. -/
theorem link (node b : Nat) (layout : LayoutOk l spans) (ok : SpanQueuesOk l spans queues)
    (fresh : ∀ i, ¬Queued l.segments spans i node) (nonzero : node ≠ 0)
    (next : ∀ x, (l'.pages x).next =
      if x = node then (l.tld.spanQueueHeaders b).first else (l.pages x).next)
    (prev : ∀ x, (l'.pages x).prev =
      if x = node then 0
      else if (l.tld.spanQueueHeaders b).first ≠ 0 ∧ x = (l.tld.spanQueueHeaders b).first then node
      else (l.pages x).prev)
    (heads : ∀ i, l'.tld.spanQueueHeaders i =
      if i = b then
        { first := node
          last := if (l.tld.spanQueueHeaders b).first = 0 then node
            else (l.tld.spanQueueHeaders b).last }
      else l.tld.spanQueueHeaders i)
    (members : ∀ i a, Queued l'.segments spans' i a ↔
      Queued l.segments spans i a ∨ (a = node ∧ i = b)) :
    ∃ queues', SpanQueuesOk l' spans' queues' := by
  have list := ok.list b
  have notNode : ∀ i, ∀ x ∈ queues i, x ≠ node := fun i x inside equal =>
    fresh i (equal ▸ (ok.queued i x).mp inside)
  refine ⟨Function.update queues b (node :: queues b), fun i => ?_, fun i a => ?_⟩
  · by_cases same : i = b
    · subst same
      rw [Function.update_self, heads, if_pos rfl]
      refine list.pushFront (fun inside => notNode i node inside rfl) nonzero (fun x inside => ?_)
        (fun x inside => ?_) ?_ ?_ rfl
      · rw [next, if_neg (notNode i x inside)]
      · rw [prev, if_neg (notNode i x inside)]
        by_cases atFirst : x = (l.tld.spanQueueHeaders i).first
        · have : x ≠ 0 := fun zero => list.nonNil (zero ▸ inside)
          rw [if_pos ⟨atFirst ▸ this, atFirst⟩, if_pos atFirst]
        · rw [if_neg fun both => atFirst both.2, if_neg atFirst]
      · rw [next, if_pos rfl]
      · rw [prev, if_pos rfl]
    · rw [Function.update_of_ne same, heads, if_neg same]
      refine (ok.list i).congr (fun x inside => ?_) (fun x inside => ?_)
      · rw [prev, if_neg (notNode i x inside), if_neg]
        rintro ⟨firstNonzero, rfl⟩
        exact same (layout.queued_bin ((ok.queued i _).mp inside)
          ((ok.queued b _).mp (list.first_mem firstNonzero)))
      · rw [next, if_neg (notNode i x inside)]
  · rw [members]
    by_cases same : i = b
    · subst same
      rw [Function.update_self, List.mem_cons, ← ok.queued]
      tauto
    · rw [Function.update_of_ne same, ← ok.queued]
      tauto

end SpanQueuesOk

end VerusMimalloc
