/-
**The spans of every segment.**

The spans are those that a walk over the page headers finds: `headerSpans` starts at slice `0` and
goes on by the count that the header of each span's first slice records.

* `spans_tile`: they tile the segment, and offsets and counters agree with them;
* `unused_spans_queued`: the unused ones are in the span queues, and no two of them are neighbours;
* `slices_committed`: the slices of the others are committed, and committed slices are accessible.
-/

import VerusMimalloc.Proof.Runs

namespace VerusMimalloc

open Library

variable {sys : Sys} {l : Local} {spans : Nat → List Span} {nodes : Nat → List Nat} {s k c a : Nat}

/-! ### Walking over the headers -/

/-- At most `n` spans, from slice `k` on. -/
def walk (l : Local) (s : Nat) : Nat → Nat → List (Nat × Nat)
  | 0, _ => []
  | n + 1, k =>
      if k < slicesPerSegment then
        let count := (l.pages (getPageHeaderPtr s k)).count
        (k, count) :: walk l s n (k + count)
      else []

/-- The spans of a segment, by first slice and number of slices, as the page headers record them. -/
def headerSpans (l : Local) (s : Nat) : List (Nat × Nat) := walk l s slicesPerSegment 0

/-- The span from slice `k` on is in use: it holds a page, or the headers. -/
def SpanInUse (l : Local) (s k : Nat) : Prop := (l.pages (getPageHeaderPtr s k)).xblockSize ≠ 0

instance : Decidable (SpanInUse l s k) := inferInstanceAs (Decidable (_ ≠ _))

/-- First slice and number of slices. -/
def Span.range (span : Span) : Nat × Nat := (span.start, span.count)

/-- The walk finds pieces whose counts the headers record. -/
theorem walk_eq {list : List Span} (tiles : Tiles Span.start Span.count k list 512)
    (recorded : ∀ span ∈ list, (l.pages (span.header s 0)).count = span.count) {n : Nat}
    (enough : 512 ≤ k + n) : walk l s n k = list.map Span.range := by
  induction list generalizing k n with
  | nil =>
      obtain rfl : k = 512 := tiles
      cases n <;> rfl
  | cons span rest ih =>
      obtain ⟨rfl, positive, behind⟩ := tiles
      have below := behind.le
      obtain ⟨m, rfl⟩ : ∃ m, n = m + 1 := ⟨n - 1, by omega⟩
      have count : (l.pages (getPageHeaderPtr s span.start)).count = span.count :=
        recorded span List.mem_cons_self
      have tail : walk l s m (span.start + span.count) = rest.map Span.range :=
        ih behind (fun other inside => recorded other (List.mem_cons_of_mem _ inside)) (by omega)
      rw [walk, if_pos (by simp only [slicesPerSegment]; omega)]
      simp only [count, tail]
      rfl

namespace SegmentsWf

variable (wf : SegmentsWf l spans) (member : s ∈ l.segments)
include wf member

/-- **The walk finds the spans**, where the headers of popped spans record their counts too. -/
theorem headerSpans_eq (popped : ∀ span ∈ spans s, span.kind = .popped →
    (l.pages (span.header s 0)).count = span.count) : headerSpans l s = (spans s).map Span.range := by
  have segment := wf.span.layout.segment s member
  refine walk_eq segment.tiles (fun span inSpans => ?_) (by simp)
  have ok := segment.ok span inSpans
  cases kind : span.kind with
  | used =>
      simp only [SpanOk, kind] at ok
      exact ok.1
  | unused =>
      simp only [SpanOk, kind] at ok
      exact ok.1
  | popped => exact popped span inSpans kind

/-- The spans in use are those that are neither unused nor popped. -/
theorem spanInUse_iff {span : Span} (inSpans : span ∈ spans s) :
    SpanInUse l s span.start ↔ span.kind = .used := by
  have segment := wf.span.layout.segment s member
  constructor
  · intro nonzero
    by_contra other
    exact nonzero (wf.span.layout.xblock_eq_zero member inSpans other (i := 0)
      (segment.bounds inSpans).1)
  · intro used
    have ok := segment.ok span inSpans
    simp only [SpanOk, used] at ok
    exact ok.2.1

/-- A span that is not in use is unused when none is popped. -/
theorem unused_of_not_inUse {span : Span} (inSpans : span ∈ spans s) (whole : span.kind ≠ .popped)
    (notUsed : ¬SpanInUse l s span.start) : span.kind = .unused := by
  cases kind : span.kind with
  | used => exact absurd ((wf.spanInUse_iff member inSpans).mpr kind) notUsed
  | unused => rfl
  | popped => exact absurd kind whole

end SegmentsWf

theorem mem_range_iff {list : List Span} : (k, c) ∈ list.map Span.range ↔
    ∃ kind, ⟨k, c, kind⟩ ∈ list := by
  rw [List.mem_map]
  constructor
  · rintro ⟨⟨start, count, kind⟩, inSpans, same⟩
    cases same
    exact ⟨kind, inSpans⟩
  · rintro ⟨kind, inSpans⟩
    exact ⟨_, inSpans, rfl⟩

namespace WfWith

variable (wf : WfWith l spans nodes) (member : s ∈ l.segments)
include wf member

theorem headerSpans_eq : headerSpans l s = (spans s).map Span.range :=
  wf.segments.headerSpans_eq member fun span inSpans kind => (wf.popped s span inSpans kind).2.2

theorem mem_headerSpans : (k, c) ∈ headerSpans l s ↔ ∃ kind, ⟨k, c, kind⟩ ∈ spans s := by
  rw [wf.headerSpans_eq member, mem_range_iff]

theorem spanInUse_iff {span : Span} (inSpans : span ∈ spans s) :
    SpanInUse l s span.start ↔ span.kind = .used := wf.segments.spanInUse_iff member inSpans

omit member in
/-- No span is popped, unless a page is being given back. -/
theorem not_popped (alive : ∀ a, l.held ≠ .destroying a) :
    ∀ r, ∀ span ∈ spans r, span.kind ≠ .popped := fun r span inSpans kind =>
  alive _ (wf.popped r span inSpans kind).1

/-- A span that is not in use is unused, unless its page is being given back. -/
theorem unused_of_not_inUse {span : Span} (inSpans : span ∈ spans s)
    (alive : ∀ a, l.held ≠ .destroying a) (notUsed : ¬SpanInUse l s span.start) :
    span.kind = .unused :=
  wf.segments.unused_of_not_inUse member inSpans (wf.not_popped alive s span inSpans) notUsed

end WfWith

/-! ### Tiling -/

/-- The spans of a segment tile it, as its headers record. -/
structure SegmentTiled (l : Local) (s : Nat) : Prop where
  tiles : Tiles Prod.fst Prod.snd 0 (headerSpans l s) slicesPerSegment
  header : (0, 1) ∈ headerSpans l s ∧ SpanInUse l s 0
  used : ∀ k c, (k, c) ∈ headerSpans l s → SpanInUse l s k → ∀ i < c,
    (l.pages (getPageHeaderPtr s (k + i))).offset = i * sizeofPageHeader
  unused : ∀ k c, (k, c) ∈ headerSpans l s → ¬SpanInUse l s k →
    (l.pages (getPageHeaderPtr s k)).offset = 0 ∧
      (l.pages (getPageHeaderPtr s (k + (c - 1)))).offset = (c - 1) * sizeofPageHeader
  counted : (l.segs s).used =
    (headerSpans l s).countP fun span => decide (span.1 ≠ 0 ∧ SpanInUse l s span.1)

/-- No page is being given back to its segment. -/
def Settled (sys : Sys) : Prop := sys.owner = none ∨ ∀ a, sys.st.loc.held ≠ .destroying a

theorem Reachable.settled (reachable : Reachable sys) (settled : Settled sys) (a : Nat) :
    sys.st.loc.held ≠ .destroying a := by
  rcases settled with none | other
  · rw [(reachable.sysInv.idle none).held]
    simp
  · exact other a

theorem tiles_range {a b : Nat} {list : List Span} (tiles : Tiles Span.start Span.count a list b) :
    Tiles Prod.fst Prod.snd a (list.map Span.range) b := by
  induction list generalizing a with
  | nil => exact tiles
  | cons span rest ih => exact ⟨tiles.1, tiles.2.1, ih tiles.2.2⟩

/-- **In every reachable state the spans of every segment tile it**, except while a page is being
given back. -/
theorem spans_tile (reachable : Reachable sys) (settled : Settled sys) :
    ∀ s ∈ sys.st.loc.segments, SegmentTiled sys.st.loc s := by
  intro s member
  have alive := reachable.settled settled
  obtain ⟨spans, nodes, wf⟩ := reachable.sysInv.inv.wf
  have segment := wf.segments.span.layout.segment s member
  have first := wf.segments.first s member
  refine ⟨?_, ⟨(wf.mem_headerSpans member).mpr ⟨_, first⟩, (wf.spanInUse_iff member first).mpr rfl⟩,
    fun k c inside inUse i small => ?_, fun k c inside notUsed => ?_, ?_⟩
  · rw [wf.headerSpans_eq member]
    exact tiles_range segment.tiles
  · obtain ⟨kind, inSpans⟩ := (wf.mem_headerSpans member).mp inside
    have ok := segment.ok _ inSpans
    obtain rfl : kind = .used := (wf.spanInUse_iff member inSpans).mp inUse
    exact ok.2.2 i small
  · obtain ⟨kind, inSpans⟩ := (wf.mem_headerSpans member).mp inside
    have ok := segment.ok _ inSpans
    obtain rfl : kind = .unused := wf.unused_of_not_inUse member inSpans alive notUsed
    exact ok.2
  · rw [wf.segments.used s member, pageSpans, wf.headerSpans_eq member, List.countP_map,
      ← List.countP_eq_length_filter]
    refine List.countP_congr fun span inSpans => ?_
    have same : span.IsPage ↔ span.start ≠ 0 ∧ SpanInUse sys.st.loc s span.start := by
      constructor
      · rintro ⟨notUnused, behind⟩
        refine ⟨by omega, ?_⟩
        by_contra notUsed
        exact notUnused (wf.unused_of_not_inUse member inSpans alive notUsed)
      · rintro ⟨behind, inUse⟩
        exact ⟨by simp [(wf.spanInUse_iff member inSpans).mp inUse], by omega⟩
    rw [Function.comp_apply, decide_eq_true_eq, decide_eq_true_eq]
    exact same

theorem spans_tile_served : plainServed.st.loc.segments = [5 * 2 ^ 27] ∧
    ∀ s ∈ plainServed.st.loc.segments, SegmentTiled plainServed.st.loc s :=
  ⟨by decide +kernel, spans_tile plainServed_reachable (.inl rfl)⟩

/-! ### Queues -/

/-- The unused spans are in the span queues, and they are maximal. -/
structure UnusedQueued (l : Local) (queues : Nat → List Nat) : Prop where
  list : ∀ b, IsDList (fun a => (l.pages a).prev) (fun a => (l.pages a).next) 0
    (l.tld.spanQueueHeaders b).first (l.tld.spanQueueHeaders b).last (queues b)
  queued : ∀ s ∈ l.segments, ∀ k c, (k, c) ∈ headerSpans l s → ¬SpanInUse l s k → ∀ b,
    getPageHeaderPtr s k ∈ queues b ↔ b = sliceBin c
  known : ∀ b, ∀ a ∈ queues b, ∃ s ∈ l.segments, ∃ k c, (k, c) ∈ headerSpans l s ∧
    ¬SpanInUse l s k ∧ a = getPageHeaderPtr s k
  separate : ∀ s ∈ l.segments, ∀ k c c', (k, c) ∈ headerSpans l s → (k + c, c') ∈ headerSpans l s →
    SpanInUse l s k ∨ SpanInUse l s (k + c)

/-- The span queues hold the unused spans, when no span is popped. -/
theorem SegmentsWf.unusedQueued {queues : Nat → List Nat} (wf : SegmentsWf l spans)
    (whole : ∀ r, ∀ span ∈ spans r, span.kind ≠ .popped) (ok : SpanQueuesOk l spans queues) :
    UnusedQueued l queues := by
  have layout := wf.span.layout
  have header : ∀ s ∈ l.segments, headerSpans l s = (spans s).map Span.range := fun s member =>
    wf.headerSpans_eq member fun span inSpans kind => absurd kind (whole s span inSpans)
  have unused : ∀ s ∈ l.segments, ∀ k c, (k, c) ∈ headerSpans l s → ¬SpanInUse l s k →
      ⟨k, c, .unused⟩ ∈ spans s := by
    intro s member k c inside notUsed
    rw [header s member] at inside
    obtain ⟨kind, inSpans⟩ := mem_range_iff.mp inside
    obtain rfl : kind = .unused :=
      wf.unused_of_not_inUse member inSpans (whole s _ inSpans) notUsed
    exact inSpans
  refine ⟨ok.list, fun s member k c inside notUsed b => ?_, fun b a inQueue => ?_,
    fun s member k c c' first second => ?_⟩
  · have own : Queued l.segments spans (sliceBin c) (getPageHeaderPtr s k) :=
      ⟨s, member, _, unused s member k c inside notUsed, rfl, rfl, rfl⟩
    constructor
    · intro inQueue
      exact layout.queued_bin ((ok.queued b _).mp inQueue) own
    · rintro rfl
      exact (ok.queued _ _).mpr own
  · obtain ⟨s, member, ⟨k, c, kind⟩, inSpans, rfl, rfl, _⟩ := (ok.queued b a).mp inQueue
    have inside : (k, c) ∈ headerSpans l s := by
      rw [header s member]
      exact mem_range_iff.mpr ⟨_, inSpans⟩
    refine ⟨s, member, k, c, inside, fun inUse => ?_, rfl⟩
    have used := (wf.spanInUse_iff member inSpans).mp inUse
    cases used
  · by_contra both
    rw [not_or] at both
    exact (layout.segment s member).separate _ (unused s member k c first both.1) _
      (unused s member (k + c) c' second both.2) rfl rfl rfl

/-- **In every reachable state the unused spans are queued by their size and maximal**, except while
a page is being given back. -/
theorem unused_spans_queued (reachable : Reachable sys) (settled : Settled sys) :
    ∃ queues, UnusedQueued sys.st.loc queues := by
  obtain ⟨spans, nodes, wf⟩ := reachable.sysInv.inv.wf
  obtain ⟨queues, ok⟩ := wf.segments.span.queues
  exact ⟨queues, wf.segments.unusedQueued (wf.not_popped (reachable.settled settled)) ok⟩

theorem unused_spans_queued_served : ∃ queues, UnusedQueued plainServed.st.loc queues :=
  unused_spans_queued plainServed_reachable (.inl rfl)

/-! ### Committed memory -/

/-- The committed slices of a segment. -/
structure Committed (l : Local) (s : Nat) : Prop where
  subset : ∀ j, (l.segs s).decommitMask.bit j = true → (l.segs s).commitMask.bit j = true
  header : (l.segs s).commitMask.bit 0 = true ∧ (l.segs s).decommitMask.bit 0 = false
  used : ∀ k c, (k, c) ∈ headerSpans l s → SpanInUse l s k → ∀ j, k ≤ j → j < k + c →
    (l.segs s).commitMask.bit j = true ∧ (l.segs s).decommitMask.bit j = false
  accessible : ∀ j, (l.segs s).commitMask.bit j = true → ∀ byte, s + j * sliceSize ≤ byte →
    byte < s + (j + 1) * sliceSize → l.os.accessible byte = true

/-- **In every reachable state the slices in use are committed**, and the committed slices are
readable and writable. -/
theorem slices_committed (reachable : Reachable sys) :
    ∀ s ∈ sys.st.loc.segments, Committed sys.st.loc s := by
  intro s member
  obtain ⟨spans, nodes, wf⟩ := reachable.sysInv.inv.wf
  have commit := wf.segments.span.commit
  have busy : ∀ k c, (k, c) ∈ headerSpans sys.st.loc s → SpanInUse sys.st.loc s k → ∀ j, k ≤ j →
      j < k + c → BusySlice spans s j := by
    intro k c inside inUse j lower upper
    obtain ⟨kind, inSpans⟩ := (wf.mem_headerSpans member).mp inside
    exact ⟨_, inSpans, (wf.spanInUse_iff member inSpans).mp inUse, lower, upper⟩
  have first := wf.segments.first s member
  exact ⟨commit.subset s member, commit.busy s member 0 ⟨_, first, rfl, Nat.le_refl _, Nat.one_pos⟩,
    fun k c inside inUse j lower upper =>
      commit.busy s member j (busy k c inside inUse j lower upper),
    fun j bit byte lower upper => commit.accessible s member j bit byte ⟨lower, upper⟩⟩

theorem slices_committed_served : plainServed.st.loc.segments = [5 * 2 ^ 27] ∧
    ∀ s ∈ plainServed.st.loc.segments, Committed plainServed.st.loc s :=
  ⟨by decide +kernel, slices_committed plainServed_reachable⟩

end VerusMimalloc
