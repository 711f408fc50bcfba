/-
**The search for a span.**

`segments_page_find_and_allocate` starts at the queue of its argument and takes the first span that is
long enough.

* `UnusedSpan`: an unused span, as the headers record it;
* `SpanTaken`: the first slices of an unused span came into use, and nothing else changed;
* `span_search`: the search ends, returns null only when no span is long enough, and takes a span
  otherwise.
-/

import VerusMimalloc.Result.Spans

namespace VerusMimalloc

variable {sys : Sys} {l l' : Local} {spans : Nat → List Span} {queues queues' : Nat → List Nat}
  {s k c n page : Nat}

/-- The `c` slices from slice `k` on are an unused span. -/
def UnusedSpan (l : Local) (s k c : Nat) : Prop := (k, c) ∈ headerSpans l s ∧ ¬SpanInUse l s k

/-- The spans left behind the first `n` of `c` slices. -/
def restSpan (k n c : Nat) : List (Nat × Nat) := if n < c then [(k + n, c - n)] else []

/-- The first `n` slices of the unused span of `c` slices from slice `k` on are in use in `l'`, the
rest of it is unused, and nothing else differs from `l`. -/
structure SpanTaken (l l' : Local) (s k n c : Nat) : Prop where
  member : s ∈ l.segments
  unused : UnusedSpan l s k c
  large : n ≤ c
  cut : ∃ left right, headerSpans l s = left ++ (k, c) :: right ∧
    headerSpans l' s = left ++ (k, n) :: (restSpan k n c ++ right)
  inUse : SpanInUse l' s k
  rest : n < c → UnusedSpan l' s (k + n) (c - n)
  segments : l'.segments = l.segments
  heap : l'.heap = l.heap
  others : ∀ r ∈ l.segments, r ≠ s → headerSpans l' r = headerSpans l r
  kept : ∀ r ∈ l.segments, ∀ j d, (j, d) ∈ headerSpans l r → (r ≠ s ∨ j ≠ k) →
    (SpanInUse l' r j ↔ SpanInUse l r j)
  pages : ∀ r ∈ l.segments, ∀ j d, (j, d) ∈ headerSpans l r → SpanInUse l r j → ∀ i < d,
    l'.pages (getPageHeaderPtr r (j + i)) = l.pages (getPageHeaderPtr r (j + i))

/-- The queues differ by the span taken and by the rest of it. -/
structure EntryTaken (queues queues' : Nat → List Nat) (s k n c : Nat) : Prop where
  gone : ∀ b, getPageHeaderPtr s k ∉ queues' b
  rest : n < c → ∀ b, getPageHeaderPtr s (k + n) ∈ queues' b ↔ b = sliceBin (c - n)
  others : ∀ b a, a ≠ getPageHeaderPtr s k → (n < c → a ≠ getPageHeaderPtr s (k + n)) →
    (a ∈ queues' b ↔ a ∈ queues b)

/-! ### Nothing is missed -/

/-- Longer spans are in later queues. -/
theorem sliceBin_mono (order : n ≤ c) (positive : 1 ≤ n) (small : c ≤ 512) :
    sliceBin n ≤ sliceBin c := by
  have step : ∀ i < 512, 1 ≤ i → sliceBin i ≤ sliceBin (i + 1) := by decide +kernel
  obtain ⟨d, rfl⟩ := Nat.exists_eq_add_of_le order
  clear order
  induction d with
  | zero => exact Nat.le_refl _
  | succ d ih => exact (ih (by omega)).trans (step (n + d) (by omega) (by omega))

theorem firstFit_complete (wf : SegmentsWf l spans) (ok : SpanQueuesOk l spans queues)
    (positive : 1 ≤ n) (none : firstFit l queues n (segmentBinMax + 1) (sliceBin n) = none)
    (member : s ∈ l.segments) (inSpans : ⟨k, c, .unused⟩ ∈ spans s) : c < n := by
  by_contra long
  have segment := wf.span.layout.segment s member
  have inside := (segment.bounds inSpans).2
  have count : (l.pages (getPageHeaderPtr s k)).count = c := (segment.ok _ inSpans).1
  simp only at inside
  have bound : sliceBin c ≤ segmentBinMax := sliceBin_le c (by omega)
  have queued : getPageHeaderPtr s k ∈ queues (sliceBin c) :=
    (ok.queued _ _).mpr ⟨s, member, _, inSpans, rfl, rfl, rfl⟩
  have short := firstFit_none none (sliceBin c) (sliceBin_mono (by omega) positive (by omega))
    (by omega) bound _ queued
  omega

/-! ### What is taken -/

theorem restOf_range (right : List Span) :
    (restOf k n c right).map Span.range = restSpan k n c ++ right.map Span.range := by
  unfold restOf restSpan
  by_cases long : n < c
  · rw [if_pos long, if_pos long]
    rfl
  · rw [if_neg long, if_neg long]
    rfl

namespace TookSpan

variable {left right : List Span} (took : TookSpan l l' spans s k n c left right)
  (wf : SegmentsWf l spans) (whole : ∀ r, ∀ x ∈ spans r, x.kind ≠ .popped)
include took wf

/-- The spans of a segment before and after. -/
theorem members {r : Nat} {x : Span} :
    x ∈ Function.update spans s (left ++ ⟨k, n, .used⟩ :: restOf k n c right) r ↔
      (x ∈ spans r ∧ ¬(r = s ∧ x = ⟨k, c, .unused⟩)) ∨ (r = s ∧ x = ⟨k, n, .used⟩) ∨
        (r = s ∧ n < c ∧ x = ⟨k + n, c - n, .unused⟩) := by
  have nodup := wf.span.nodup took.member
  rw [took.shape] at nodup
  by_cases same : r = s
  · subst same
    rw [Function.update_self, took.shape]
    have once : ⟨k, c, .unused⟩ ∉ left ∧ ⟨k, c, .unused⟩ ∉ right := by
      rw [List.nodup_append, List.nodup_cons] at nodup
      exact ⟨fun inside => nodup.2.2 _ inside _ List.mem_cons_self rfl, nodup.2.1.1⟩
    have rest : x ∈ restOf k n c right ↔ (n < c ∧ x = ⟨k + n, c - n, .unused⟩) ∨ x ∈ right := by
      unfold restOf
      by_cases long : n < c
      · rw [if_pos long, List.mem_cons]
        tauto
      · rw [if_neg long]
        tauto
    simp only [List.mem_append, List.mem_cons, rest, true_and]
    by_cases removed : x = ⟨k, c, .unused⟩
    · subst removed
      simp [once.1, once.2]
    · tauto
  · rw [Function.update_of_ne same]
    simp [same]

include whole

/-- No span is popped afterwards either. -/
theorem whole' : ∀ r, ∀ x ∈ Function.update spans s (left ++ ⟨k, n, .used⟩ :: restOf k n c right) r,
    x.kind ≠ .popped := by
  intro r x inside
  rcases (took.members wf).mp inside with ⟨old, _⟩ | ⟨_, rfl⟩ | ⟨_, _, rfl⟩
  · exact whole r x old
  · simp
  · simp

/-- **What is in the headers afterwards.** -/
theorem spanTaken : SpanTaken l l' s k n c := by
  have whole' := took.whole' wf whole
  have wf' := took.wf
  have header : ∀ r ∈ l.segments, headerSpans l r = (spans r).map Span.range := fun r member =>
    wf.headerSpans_eq member fun x inSpans kind => absurd kind (whole r x inSpans)
  have header' : ∀ r ∈ l.segments, headerSpans l' r = (Function.update spans s
      (left ++ ⟨k, n, .used⟩ :: restOf k n c right) r).map Span.range := fun r member =>
    wf'.headerSpans_eq (took.segments ▸ member) fun x inSpans kind => absurd kind (whole' r x inSpans)
  have piece : (⟨k, c, .unused⟩ : Span) ∈ spans s := by rw [took.shape]; simp
  have inUse' : ∀ r ∈ l.segments, ∀ x ∈ Function.update spans s
      (left ++ ⟨k, n, .used⟩ :: restOf k n c right) r, (SpanInUse l' r x.start ↔ x.kind = .used) :=
    fun r member x inSpans => wf'.spanInUse_iff (took.segments ▸ member) inSpans
  refine ⟨took.member, ⟨?_, fun inUse => ?_⟩, took.large,
    ⟨left.map Span.range, right.map Span.range, ?_, ?_⟩, ?_, fun long => ⟨?_, fun inUse => ?_⟩,
    took.segments, took.frame.heap, fun r member differs => ?_, fun r member j d inside away => ?_,
    fun r member j d inside inUse i small => ?_⟩
  · rw [header s took.member]
    exact mem_range_iff.mpr ⟨_, piece⟩
  · have used := (wf.spanInUse_iff took.member piece).mp inUse
    cases used
  · rw [header s took.member, took.shape, List.map_append, List.map_cons]
    rfl
  · rw [header' s took.member, Function.update_self, List.map_append, List.map_cons, restOf_range]
    rfl
  · exact (inUse' s took.member _ ((took.members wf).mpr (.inr (.inl ⟨rfl, rfl⟩)))).mpr rfl
  · rw [header' s took.member]
    exact mem_range_iff.mpr ⟨_, (took.members wf).mpr (.inr (.inr ⟨rfl, long, rfl⟩))⟩
  · have used := (inUse' s took.member _
      ((took.members wf).mpr (.inr (.inr ⟨rfl, long, rfl⟩)))).mp inUse
    cases used
  · rw [header r member, header' r member, Function.update_of_ne differs]
  · rw [header r member] at inside
    obtain ⟨kind, inSpans⟩ := mem_range_iff.mp inside
    have stays := (took.members wf).mpr (.inl ⟨inSpans, fun both => by
      obtain ⟨same, equal⟩ := both
      cases equal
      exact away.elim (fun differs => differs same) fun differs => differs rfl⟩)
    rw [inUse' r member _ stays, wf.spanInUse_iff member inSpans]
  · rw [header r member] at inside
    obtain ⟨kind, inSpans⟩ := mem_range_iff.mp inside
    exact took.frame.busy r member _ inSpans ((wf.spanInUse_iff member inSpans).mp inUse) i small

omit whole in
/-- **What is in the queues afterwards.** -/
theorem entryTaken (ok : SpanQueuesOk l spans queues) (ok' : SpanQueuesOk l' (Function.update spans s
    (left ++ ⟨k, n, .used⟩ :: restOf k n c right)) queues') : EntryTaken queues queues' s k n c := by
  have wf' := took.wf
  have layout := wf.span.layout
  have layout' := wf'.span.layout
  have placed := (took.members wf (r := s)).mpr (.inr (.inl ⟨rfl, rfl⟩))
  refine ⟨fun b inQueue => ?_, fun long b => ?_, fun b a notPage notRest => ?_⟩
  · exact queued_not_busy layout' ((ok'.queued _ _).mp inQueue) (took.segments ▸ took.member) placed
      (by simp) (i := 0) ((layout'.segment s (took.segments ▸ took.member)).bounds placed).1 rfl
  · have own : Queued l'.segments (Function.update spans s
        (left ++ ⟨k, n, .used⟩ :: restOf k n c right)) (sliceBin (c - n)) (getPageHeaderPtr s (k + n)) :=
      ⟨s, took.segments ▸ took.member, _, (took.members wf).mpr (.inr (.inr ⟨rfl, long, rfl⟩)), rfl,
        rfl, rfl⟩
    rw [ok'.queued]
    constructor
    · exact fun other => layout'.queued_bin other own
    · rintro rfl
      exact own
  · rw [ok'.queued, ok.queued]
    constructor
    · rintro ⟨r, member, x, inSpans, unused, rfl, rfl⟩
      rcases (took.members wf).mp inSpans with ⟨old, _⟩ | ⟨rfl, rfl⟩ | ⟨rfl, long, rfl⟩
      · exact ⟨r, took.segments ▸ member, x, old, unused, rfl, rfl⟩
      · cases unused
      · exact absurd rfl (notRest long)
    · rintro ⟨r, member, x, inSpans, unused, rfl, rfl⟩
      refine ⟨r, took.segments ▸ member, x, (took.members wf).mpr (.inl ⟨inSpans, ?_⟩), unused, rfl,
        rfl⟩
      rintro ⟨rfl, rfl⟩
      exact notPage rfl

end TookSpan

/-! ### The search -/

/-- Only the search for a span depends on the fuel. -/
theorem findAndAllocate_congr {fuel fuel' : Nat} (positive : 1 ≤ n)
    (same : findSpan l n fuel (segmentBinMax + 1) (sliceBin n) =
      findSpan l n fuel' (segmentBinMax + 1) (sliceBin n)) :
    segmentsPageFindAndAllocate fuel l n = segmentsPageFindAndAllocate fuel' l n := by
  have size : (if n = 0 then 1 else n) = n := if_neg (by omega)
  simp only [segmentsPageFindAndAllocate, size, same]

/-- The search for `n` slices ends, whatever the fuel beyond some bound. It returns null exactly when
no unused span is long enough, and then changes nothing; otherwise it takes one. -/
def SearchExact (l : Local) (n : Nat) : Prop :=
  ∃ enough page l', (∀ fuel ≥ enough, segmentsPageFindAndAllocate fuel l n = .ok (page, l')) ∧
    (page = 0 ↔ ¬∃ s ∈ l.segments, ∃ k c, UnusedSpan l s k c ∧ n ≤ c) ∧ (page = 0 → l' = l) ∧
    (page ≠ 0 → ∃ s k c queues queues', page = getPageHeaderPtr s k ∧ SpanTaken l l' s k n c ∧
      UnusedQueued l queues ∧ UnusedQueued l' queues' ∧ EntryTaken queues queues' s k n c)

/-- **The search for a span is complete and exact** in every reachable state, except while a page is
being given back, when nothing searches. -/
theorem span_search (reachable : Reachable sys) (settled : Settled sys) (positive : 1 ≤ n) :
    SearchExact sys.st.loc n := by
  obtain ⟨spans, nodes, wf⟩ := reachable.sysInv.inv.wf
  have whole := wf.not_popped (reachable.settled settled)
  obtain ⟨queues, ok⟩ := wf.segments.span.queues
  obtain ⟨enough, bound⟩ : ∃ enough, ∀ b ≤ segmentBinMax, (queues b).length < enough :=
    ⟨(Finset.range (segmentBinMax + 1)).sup (fun b => (queues b).length) + 1, fun b small =>
      Nat.lt_succ_of_le (Finset.le_sup (f := fun b => (queues b).length)
        (Finset.mem_range.mpr (Nat.lt_succ_of_le small)))⟩
  have search : ∀ fuel ≥ enough, findSpan sys.st.loc n fuel (segmentBinMax + 1) (sliceBin n) =
      .ok (firstFit sys.st.loc queues n (segmentBinMax + 1) (sliceBin n)) := fun fuel more =>
    findSpan_eq ok (fun b small => (bound b small).trans_le more) _ _
  have same : ∀ fuel ≥ enough, segmentsPageFindAndAllocate fuel sys.st.loc n =
      segmentsPageFindAndAllocate enough sys.st.loc n := fun fuel more =>
    findAndAllocate_congr positive ((search fuel more).trans (search enough (Nat.le_refl _)).symm)
  have size : (if n = 0 then 1 else n) = n := if_neg (by omega)
  have first := search enough (Nat.le_refl _)
  cases fit : firstFit sys.st.loc queues n (segmentBinMax + 1) (sliceBin n) with
  | none =>
      rw [fit] at first
      refine ⟨enough, 0, sys.st.loc, fun fuel more => ?_, ⟨fun _ => ?_, fun _ => rfl⟩, fun _ => rfl,
        fun nonzero => absurd rfl nonzero⟩
      · rw [same fuel more]
        simp only [segmentsPageFindAndAllocate, size, first]
        rfl
      · rintro ⟨s, member, k, c, ⟨inside, notUsed⟩, long⟩
        obtain ⟨kind, inSpans⟩ := (wf.mem_headerSpans member).mp inside
        obtain rfl : kind = .unused :=
          wf.unused_of_not_inUse member inSpans (reachable.settled settled) notUsed
        have short := firstFit_complete wf.segments ok positive fit member inSpans
        omega
  | some found =>
      obtain ⟨b, slice⟩ := found
      rw [fit] at first
      obtain ⟨l', s, k, c, left, right, result, rfl, took⟩ :=
        findAndAllocate_found wf.segments size first
      have taken := took.spanTaken wf.segments whole
      have nonzero : getPageHeaderPtr s k ≠ 0 := by
        rw [getPageHeaderPtr_eq]
        omega
      obtain ⟨queues', ok'⟩ := took.wf.span.queues
      refine ⟨enough, _, l', fun fuel more => (same fuel more).trans result,
        ⟨fun null => absurd null nonzero, fun none => ?_⟩, fun null => absurd null nonzero, fun _ =>
        ⟨s, k, c, queues, queues', rfl, taken, wf.segments.unusedQueued whole ok,
          took.wf.unusedQueued (took.whole' wf.segments whole) ok', took.entryTaken wf.segments ok ok'⟩⟩
      exact absurd ⟨s, taken.member, k, c, taken.unused, taken.large⟩ none

theorem span_search_served : SearchExact plainServed.st.loc 3 :=
  span_search plainServed_reachable (.inl rfl) (by decide)

end VerusMimalloc
