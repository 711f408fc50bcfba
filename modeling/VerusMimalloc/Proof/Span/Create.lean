/-
**Creating segments and allocating the span of a page.**

A new segment lies in memory that no call of `mmap` has returned before. Its header span is in use,
the rest is one queued span.

* `segmentOsAlloc_fresh`: the memory of a new segment;
* `SegmentsWf.create`, `SpanWf.openSegment`: one segment more, with two popped spans, and then these in place;
* `SegmentsWf.opened`, `Opened.segmentsWf`: what that changes, and that the invariant holds again;
* `segmentAlloc_spec`, `segmentPageAlloc_spec`: the results of `segment_alloc` and
  `segment_page_alloc`.
-/

import VerusMimalloc.Proof.Span.Find

namespace VerusMimalloc

open Library

variable {l l' : Local} {spans spans' : Nat → List Span} {s k n p size : Nat} {readWrite : Bool}

/-! ### Fresh memory -/

/-- The range `p` is the answer to a new call of `mmap`. -/
structure Answered (l l' : Local) (p size : Nat) (readWrite : Bool) : Prop where
  frame : CommitFrame l l'
  segs : l'.segs = l.segs
  mapped : ∃ i, l.os.calls ≤ i ∧ i < l'.os.calls ∧ l.os.oracle.mmap i size = some p
  inside : ∀ byte, p ≤ byte → byte < p + size → l'.os.accessible byte = readWrite
  outside : ∀ byte, ¬(p ≤ byte ∧ byte < p + size) → l'.os.accessible byte = l.os.accessible byte

theorem mmap_answered (result : mmap l size readWrite = (some p, l')) :
    Answered l l' p size readWrite := by
  unfold mmap at result
  cases answer : l.os.oracle.mmap l.os.calls size with
  | none =>
      rw [answer] at result
      cases result
  | some q =>
      rw [answer] at result
      cases result
      refine ⟨(CommitFrame.tick l).trans (.setAccessible _ _ _ _), rfl,
        ⟨l.os.calls, Nat.le_refl _, Nat.lt_succ_self _, answer⟩, fun byte lower upper => ?_,
        fun byte away => ?_⟩
      · exact if_pos ⟨lower, upper⟩
      · exact if_neg away

theorem Answered.afterTick {l₁ : Local} (answered : Answered l₁ l' p size readWrite)
    (frame : CommitFrame l l₁) (segs : l₁.segs = l.segs)
    (accessible : l₁.os.accessible = l.os.accessible) : Answered l l' p size readWrite := by
  obtain ⟨i, before, after, answer⟩ := answered.mapped
  refine ⟨frame.trans answered.frame, answered.segs.trans segs, ⟨i, frame.calls.trans before, after,
    by rw [← frame.oracle]; exact answer⟩, answered.inside, fun byte away => ?_⟩
  rw [answered.outside byte away, accessible]

theorem mmap_failed (result : mmap l size readWrite = (none, l')) : l' = l.tick := by
  unfold mmap at result
  cases answer : l.os.oracle.mmap l.os.calls size with
  | none =>
      rw [answer] at result
      cases result
      rfl
  | some q =>
      rw [answer] at result
      cases result

theorem unixMmapx_answered (result : unixMmapx l size readWrite = (p, l')) (nonzero : p ≠ 0) :
    Answered l l' p size readWrite := by
  obtain ⟨hint, hinted⟩ : ∃ hint, osGetAlignedHint l = (hint, l.tick) := ⟨_, rfl⟩
  have again : ∀ l₁ answer l₂, mmap l₁ size readWrite = (answer, l₂) → CommitFrame l l₁ →
      l₁.segs = l.segs → l₁.os.accessible = l.os.accessible → (answer.getD 0, l₂) = (p, l') →
      Answered l l' p size readWrite := by
    intro l₁ answer l₂ second frame segs accessible result
    cases answer with
    | some q =>
        cases result
        exact (mmap_answered second).afterTick frame segs accessible
    | none =>
        cases result
        exact absurd rfl nonzero
  simp only [unixMmapx, hinted] at result
  by_cases useHint : hint ≠ 0
  · rw [if_pos useHint] at result
    cases first : mmap l.tick size readWrite with
    | mk answer l₁ =>
        rw [first] at result
        cases answer with
        | some q =>
            cases result
            exact (mmap_answered first).afterTick (.tick l) rfl rfl
        | none =>
            rw [mmap_failed first] at result
            cases second : mmap l.tick.tick size readWrite with
            | mk answer l₂ =>
                rw [second] at result
                exact again _ _ _ second ((CommitFrame.tick l).trans (.tick _)) rfl rfl
                  (by cases answer <;> exact result)
  · rw [if_neg useHint] at result
    cases second : mmap l.tick size readWrite with
    | mk answer l₂ =>
        rw [second] at result
        exact again _ _ _ second (.tick l) rfl rfl (by cases answer <;> exact result)

/-- Aligned memory from the operating system. -/
theorem osAllocAligned_answered {commit large : Bool} {isLarge : Bool}
    (result : osAllocAligned l segmentSize segmentAlign commit large = .ok (p, isLarge, l')) :
    Answered l l' p segmentSize commit ∧ segmentSize ∣ p ∧ p ≠ 0 := by
  have good : osGoodAllocSize segmentSize = segmentSize := by decide +kernel
  have align : alignUp segmentAlign osPageSize = segmentSize := by decide +kernel
  have power : osPageSize ≤ segmentSize ∧ segmentSize &&& (segmentSize - 1) = 0 := by decide +kernel
  have positive : ¬segmentSize = 0 := by decide
  simp only [osAllocAligned, good, align, if_neg positive, osMemAllocAligned, if_neg (not_not.mpr power)]
    at result
  cases mapping : unixMmapx l segmentSize commit with
  | mk q l₁ =>
      by_cases nonzero : q ≠ 0
      · simp only [unixMmap, mapping, if_pos nonzero, bind, Except.bind, if_neg nonzero] at result
        by_cases misaligned : q % segmentSize ≠ 0
        · rw [if_pos misaligned] at result
          cases result
        · rw [if_neg misaligned] at result
          cases result
          exact ⟨unixMmapx_answered mapping nonzero, Nat.dvd_of_mod_eq_zero (not_not.mp misaligned),
            nonzero⟩
      · simp only [unixMmap, mapping, if_neg nonzero, bind, Except.bind] at result
        cases result

/-- The memory of a new segment: slices of its commit mask are accessible. -/
structure FreshMemory (l l' : Local) (memory : SegmentMemory) : Prop where
  frame : CommitFrame l l'
  segs : l'.segs = l.segs
  aligned : segmentSize ∣ memory.segment
  nonzero : memory.segment ≠ 0
  mapped : ∃ i, l.os.calls ≤ i ∧ i < l'.os.calls ∧
    l.os.oracle.mmap i segmentSize = some memory.segment
  accessible : ∀ j, memory.commitMask.bit j = true → ∀ byte, InBytes memory.segment j 1 byte →
    l'.os.accessible byte = true
  outside : ∀ byte, ¬InBytes memory.segment 0 512 byte →
    l'.os.accessible byte = l.os.accessible byte

/-- **`segment_os_alloc`** of a segment without huge page. -/
theorem segmentOsAlloc_fresh {eagerDelay commit : Bool} {memory : SegmentMemory}
    (result : segmentOsAlloc l 0 eagerDelay 512 1 commit = .ok (memory, l')) :
    FreshMemory l l' memory := by
  have size : 512 * sliceSize = segmentSize := by decide
  simp only [segmentOsAlloc, size, arenaAllocAligned] at result
  rw [if_neg (by decide : ¬(0 : Nat) > 0)] at result
  simp only [if_neg (by decide : ¬(0 : Nat) > segmentSize), if_true] at result
  cases alloc : osAllocAligned l segmentSize segmentAlign commit (!eagerDelay) with
  | error error =>
      rw [alloc] at result
      cases result
  | ok answer =>
      obtain ⟨q, isLarge, l₁⟩ := answer
      obtain ⟨answered, aligned, nonzero⟩ := osAllocAligned_answered alloc
      have bound : q + segmentSize < 2 ^ 64 := by
        obtain ⟨i, _, _, answer⟩ := answered.mapped
        exact l.os.oracle.mmap_bound answer
      have range : ∀ byte, InBytes q 0 512 byte ↔ q ≤ byte ∧ byte < q + segmentSize := by
        intro byte
        simp only [InBytes, segmentSize]
        omega
      have inRange512 : ∀ j byte, j < 512 → InBytes q j 1 byte → q ≤ byte ∧ byte < q + segmentSize := by
        intro j byte small here
        simp only [InBytes, segmentSize] at here ⊢
        omega
      have outside : ∀ byte, ¬InBytes q 0 512 byte → l₁.os.accessible byte = l.os.accessible byte :=
        fun byte away => answered.outside byte fun here => away ((range byte).mpr here)
      rw [alloc] at result
      simp only [bind, Except.bind, pure, Except.pure, if_neg nonzero] at result
      have bits : ∀ j, (CommitMask.empty.create 0 1).bit j = inRange 0 1 j :=
        CommitMask.bit_create (by omega)
      cases commit with
      | true =>
          simp only [if_true] at result
          have full : (CommitMask.createFull.allSet (CommitMask.empty.create 0 1)) = true := by
            rw [CommitMask.allSet_iff]
            intro j set
            have := CommitMask.lt_of_bit set
            simpa using this
          simp only [full, Bool.not_true, Bool.false_eq_true, if_false] at result
          cases result
          refine ⟨answered.frame, answered.segs, aligned, nonzero, answered.mapped,
            fun j set byte here => ?_, outside⟩
          obtain ⟨lower, upper⟩ := inRange512 j byte (CommitMask.lt_of_bit set) here
          exact answered.inside byte lower upper
      | false =>
          simp only [Bool.false_eq_true, if_false] at result
          have missing : (CommitMask.createEmpty.allSet (CommitMask.empty.create 0 1)) = false := by
            rw [Bool.eq_false_iff, ne_eq, CommitMask.allSet_iff]
            intro all
            have := all 0 (by rw [bits]; rfl)
            simp at this
          have committed : osCommit l₁ q (1 * commitSize) = (true, l₁.protect q 65536 true) := by
            have := osCommitx_slices (k := 0) (n := 1) l₁ true false aligned (by omega) bound
              (by decide) (by decide)
            simpa only [osCommit, commitSize, sliceSize, Nat.zero_mul, Nat.add_zero, Nat.one_mul]
              using this
          simp only [missing, committed, Bool.not_false, Bool.not_true, if_true, Bool.false_eq_true,
            if_false] at result
          cases result
          refine ⟨answered.frame.trans (.protect _ _ _ _), answered.segs, aligned, nonzero,
            answered.mapped, fun j set byte here => ?_, fun byte away => ?_⟩
          · simp only [CommitMask.bit_set, CommitMask.bit_createEmpty, Bool.false_or, bits, inRange,
              decide_eq_true_eq] at set
            simp only [InBytes] at here
            exact if_pos (by omega)
          · rw [← outside byte away]
            refine if_neg fun here => away ?_
            simp only [InBytes]
            omega

/-! ### The headers of a new segment -/

theorem initPageHeaders_frame (segment rounds : Nat) (l : Local) :
    LinkFrame l (initPageHeaders segment rounds l) ∧
      (initPageHeaders segment rounds l).tld = l.tld := by
  induction rounds generalizing l with
  | zero => exact ⟨⟨rfl, rfl, rfl, rfl, rfl, rfl⟩, rfl⟩
  | succ rounds ih =>
      obtain ⟨⟨segs, segments, heap, os, taken, held⟩, tld⟩ :=
        ih (l.modifyPage (getPageHeaderPtr segment rounds) fun _ => {})
      exact ⟨⟨segs, segments, heap, os, taken, held⟩, tld⟩

theorem initPageHeaders_pages (segment rounds : Nat) (l : Local) (x : Nat) :
    ((∃ j < rounds, x = getPageHeaderPtr segment j) →
      (initPageHeaders segment rounds l).pages x = {}) ∧
    ((∀ j < rounds, x ≠ getPageHeaderPtr segment j) →
      (initPageHeaders segment rounds l).pages x = l.pages x) := by
  induction rounds generalizing l with
  | zero => exact ⟨fun ⟨j, absent, _⟩ => absurd absent (Nat.not_lt_zero j), fun _ => rfl⟩
  | succ rounds ih =>
      obtain ⟨written, kept⟩ := ih (l.modifyPage (getPageHeaderPtr segment rounds) fun _ => {})
      constructor
      · rintro ⟨j, inside, rfl⟩
        by_cases earlier : j < rounds
        · exact written ⟨j, earlier, rfl⟩
        · have last : j = rounds := by omega
          subst last
          refine (kept fun i earlier same => ?_).trans (if_pos rfl)
          rw [getPageHeaderPtr_inj] at same
          omega
      · intro away
        exact (kept fun j earlier => away j (by omega)).trans (if_neg (away rounds (by omega)))

/-- What `segment_alloc` does up to its first span: the memory, the segment header, all page
headers. -/
structure Created (l l' : Local) (memory : SegmentMemory) : Prop where
  segments : l'.segments = memory.segment :: l.segments
  header : (l'.segs memory.segment).commitMask = memory.commitMask ∧
    (l'.segs memory.segment).decommitMask = .empty
  others : ∀ r, r ≠ memory.segment → l'.segs r = l.segs r
  tld : l'.tld = l.tld
  inside : ∀ j < 513, l'.pages (getPageHeaderPtr memory.segment j) = {}
  outside : ∀ x, (∀ j < 513, x ≠ getPageHeaderPtr memory.segment j) → l'.pages x = l.pages x

/-- The spans of a segment whose header span is being set up. -/
def newSpans : List Span := [⟨0, 1, .popped⟩, ⟨1, 511, .popped⟩]

namespace SegmentsWf

/-- Memory that `mmap` returned now lies apart from what it returned before. -/
theorem mapped_apart {l₁ : Local} {memory : SegmentMemory} (fresh : FreshMemory l l₁ memory)
    (mapped : Mapped l p size) : Apart p size memory.segment segmentSize := by
  obtain ⟨i, before, answer⟩ := mapped
  obtain ⟨j, later, _, answer'⟩ := fresh.mapped
  exact l.os.oracle.mmap_disjoint (by omega : i ≠ j) answer answer'

theorem fresh_not_mem {l₁ : Local} {memory : SegmentMemory} (wf : SegmentsWf l spans)
    (fresh : FreshMemory l l₁ memory) : memory.segment ∉ l.segments := by
  intro member
  have := mapped_apart fresh (wf.mapped _ member)
  simp only [Apart, segmentSize] at this
  omega

/-- **One segment more.** Its spans are popped. -/
theorem create {l₁ : Local} {memory : SegmentMemory} (wf : SegmentsWf l spans)
    (fresh : FreshMemory l l₁ memory) (created : Created l l' memory) (os : l'.os = l₁.os) :
    SpanWf l' (Function.update spans memory.segment newSpans) ∧
      ∀ r ∈ l.segments, ∀ j ≤ 512, l'.pages (getPageHeaderPtr r j) = l.pages (getPageHeaderPtr r j) := by
  have new := wf.fresh_not_mem fresh
  have differs : ∀ r ∈ l.segments, r ≠ memory.segment := fun r member same => new (same ▸ member)
  have kept : ∀ r ∈ l.segments, ∀ j ≤ 512,
      l'.pages (getPageHeaderPtr r j) = l.pages (getPageHeaderPtr r j) := by
    intro r member j inside
    refine created.outside _ fun i small same => differs r member ?_
    exact ((VerusMimalloc.header_inj (wf.span.layout.aligned member) fresh.aligned inside
      (by simp only [slicesPerSegment]; omega)).mp same).1
  have bound : memory.segment + segmentSize < 2 ^ 64 := by
    obtain ⟨i, _, _, answer⟩ := fresh.mapped
    exact l.os.oracle.mmap_bound answer
  have base : ∀ s ∈ l'.segments, segmentSize ∣ s ∧ 0 < s ∧ s + segmentSize < 2 ^ 64 := by
    rw [created.segments]
    intro s member
    rcases List.mem_cons.mp member with rfl | old
    · exact ⟨fresh.aligned, Nat.pos_of_ne_zero fresh.nonzero, bound⟩
    · exact wf.span.layout.base s old
  have spanKept : ∀ r ∈ l.segments, ∀ span ∈ spans r, ∀ i < span.count,
      l'.pages (span.header r i) = l.pages (span.header r i) := by
    intro r member span inSpans i inside
    have bounds := (wf.span.layout.segment r member).bounds inSpans
    exact kept r member _ (by omega)
  obtain ⟨queues, queuesOk⟩ := wf.span.queues
  refine ⟨⟨⟨base, ?_, ?_⟩, ⟨queues, ?_⟩, ⟨base, ?_, ?_, ?_⟩⟩, kept⟩
  · rw [created.segments]
    intro s member
    rcases List.mem_cons.mp member with rfl | old
    · rw [Function.update_self]
      refine ⟨⟨rfl, by decide, rfl, by decide, rfl⟩, ⟨.popped, by simp, by simp [newSpans]⟩, ?_, ?_⟩
      · intro span inSpans
        simp only [newSpans, List.mem_cons, List.not_mem_nil, or_false] at inSpans
        rcases inSpans with rfl | rfl <;> trivial
      · intro x inSpans y _ _ unused
        simp only [newSpans, List.mem_cons, List.not_mem_nil, or_false] at inSpans
        rcases inSpans with rfl | rfl <;> simp at unused
    · rw [Function.update_of_ne (differs s old)]
      obtain ⟨tiles, first, ok, separate⟩ := wf.span.layout.segment s old
      refine ⟨tiles, first, fun span inSpans => ?_, separate⟩
      exact (ok span inSpans).congr (tiles.bounds inSpans).2.1 fun i inside => by
        rw [spanKept s old span inSpans i inside]
        exact .refl _
  · intro x nonzero
    have away : ∀ j < 513, x ≠ getPageHeaderPtr memory.segment j := by
      rintro j small rfl
      rw [created.inside j small] at nonzero
      exact nonzero rfl
    rw [created.outside x away] at nonzero
    obtain ⟨r, member, span, inSpans, rest⟩ := wf.span.layout.xblock x nonzero
    refine ⟨r, created.segments ▸ List.mem_cons_of_mem _ member, span, ?_, rest⟩
    rw [Function.update_of_ne (differs r member)]
    exact inSpans
  · have same : ∀ b, ∀ x ∈ queues b, l'.pages x = l.pages x := by
      intro b x inQueue
      obtain ⟨r, member, span, inSpans, _, rfl, _⟩ := (queuesOk.queued b x).mp inQueue
      exact spanKept r member span inSpans 0
        ((wf.span.layout.segment r member).bounds inSpans).1
    refine queuesOk.congr (fun b x inQueue => by rw [same b x inQueue])
      (fun b x inQueue => by rw [same b x inQueue]) (by rw [created.tld]) fun b a => ?_
    rw [created.segments]
    constructor
    · rintro ⟨r, member, span, inSpans, unused, rest⟩
      by_cases isNew : r = memory.segment
      · subst isNew
        rw [Function.update_self] at inSpans
        simp only [newSpans, List.mem_cons, List.not_mem_nil, or_false] at inSpans
        rcases inSpans with rfl | rfl <;> simp at unused
      · rw [Function.update_of_ne isNew] at inSpans
        exact ⟨r, (List.mem_cons.mp member).resolve_left isNew, span, inSpans, unused, rest⟩
    · rintro ⟨r, member, span, inSpans, rest⟩
      refine ⟨r, List.mem_cons_of_mem _ member, span, ?_, rest⟩
      rw [Function.update_of_ne (differs r member)]
      exact inSpans
  · rw [created.segments]
    intro s member j set
    rcases List.mem_cons.mp member with rfl | old
    · rw [created.header.2, CommitMask.bit_empty] at set
      cases set
    · rw [created.others s (differs s old)] at set ⊢
      exact wf.span.commit.subset s old j set
  · rw [created.segments]
    intro s member j busy
    obtain ⟨span, inSpans, used, range⟩ := busy
    rcases List.mem_cons.mp member with rfl | old
    · rw [Function.update_self] at inSpans
      simp only [newSpans, List.mem_cons, List.not_mem_nil, or_false] at inSpans
      rcases inSpans with rfl | rfl <;> simp at used
    · rw [Function.update_of_ne (differs s old)] at inSpans
      rw [created.others s (differs s old)]
      exact wf.span.commit.busy s old j ⟨span, inSpans, used, range⟩
  · rw [created.segments, os]
    intro s member j set byte here
    rcases List.mem_cons.mp member with rfl | old
    · rw [created.header.1] at set
      exact fresh.accessible j set byte here
    · rw [created.others s (differs s old)] at set
      rw [fresh.outside]
      · exact wf.span.commit.accessible s old j set byte here
      · intro there
        have apart := mapped_apart fresh (wf.mapped s old)
        have small := CommitMask.lt_of_bit set
        simp only [Apart, segmentSize, InBytes] at apart here there
        omega

end SegmentsWf

theorem segmentInit_created (l : Local) (memory : SegmentMemory) :
    Created l (segmentInit l memory 0) memory ∧
      (segmentInit l memory 0).heap = l.heap ∧ (segmentInit l memory 0).os = l.os ∧
      (segmentInit l memory 0).taken = l.taken ∧ (segmentInit l memory 0).held = l.held ∧
      ((segmentInit l memory 0).segs memory.segment).used = 0 ∧
      Owned l.heap.threadId ((segmentInit l memory 0).segs memory.segment) := by
  obtain ⟨input, init, segs, segments, rest⟩ : ∃ input : Local,
      segmentInit l memory 0 = initPageHeaders memory.segment (slicesPerSegment + 1) input ∧
      (∀ r, input.segs r = if r = memory.segment then
        { memIsPinned := memory.isPinned
          allowDecommit := optionAllowDecommit && !memory.isPinned && !memory.memLarge
          commitMask := memory.commitMask
          threadId := l.heap.threadId } else l.segs r) ∧
      input.segments = memory.segment :: l.segments ∧ input.pages = l.pages ∧ input.heap = l.heap ∧
      input.os = l.os ∧ input.taken = l.taken ∧ input.held = l.held ∧ input.tld = l.tld := by
    unfold segmentInit
    exact ⟨_, rfl, fun _ => rfl, rfl, rfl, rfl, rfl, rfl, rfl, rfl⟩
  obtain ⟨samePages, sameHeap, sameOs, sameTaken, sameHeld, sameTld⟩ := rest
  rw [init]
  obtain ⟨frame, tld⟩ := initPageHeaders_frame memory.segment (slicesPerSegment + 1) input
  have pages := initPageHeaders_pages memory.segment (slicesPerSegment + 1) input
  have header := fun r => congrFun frame.segs r
  refine ⟨⟨frame.segments.trans segments, ?_, fun r differs => ?_, tld.trans sameTld,
    fun j small => (pages _).1 ⟨j, small, rfl⟩,
    fun x away => ((pages x).2 away).trans (by rw [samePages])⟩, frame.heap.trans sameHeap,
    frame.os.trans sameOs, frame.taken.trans sameTaken, frame.held.trans sameHeld, ?_, ?_⟩
  · rw [header, segs, if_pos rfl]
    exact ⟨rfl, rfl⟩
  · rw [header, segs, if_neg differs]
  · rw [header, segs, if_pos rfl]
  · rw [header, segs, if_pos rfl]
    exact ⟨rfl, rfl, rfl⟩

theorem FreshMemory.created {l₁ : Local} {memory : SegmentMemory} (fresh : FreshMemory l l₁ memory) :
    Created l (segmentInit l₁ memory 0) memory := by
  obtain ⟨created, _⟩ := segmentInit_created l₁ memory
  have frame := fresh.frame
  exact ⟨by rw [created.segments, frame.segments], created.header,
    fun r differs => by rw [created.others r differs, fresh.segs], created.tld.trans frame.tld, created.inside,
    fun x away => by rw [created.outside x away, frame.pages]⟩

/-- The spans of a segment without pages. -/
def emptySpans : List Span := [⟨0, 1, .used⟩, ⟨1, 511, .unused⟩]

/-- A page that is counted and then not counted. -/
theorem modifySeg_used_undone (l : Local) (s : Nat) :
    (l.modifySeg s fun m => { m with used := m.used + 1 }).modifySeg s
      (fun m => { m with used := m.used - 1 }) = l := by
  have segs : ∀ r, ((l.modifySeg s fun m => { m with used := m.used + 1 }).modifySeg s
      (fun m => { m with used := m.used - 1 })).segs r = l.segs r := by
    intro r
    rw [Local.modifySeg_segs, Local.modifySeg_segs]
    split <;> rfl
  rw [Local.modifySeg, Local.modifySeg]
  exact congrArg (fun segs => { l with segs }) (funext segs)

/-- **The spans of `segment_alloc`**: the header span comes into use, and the rest is queued. -/
theorem SpanWf.openSegment (wf : SpanWf l (Function.update spans s newSpans)) (member : s ∈ l.segments) :
    ∃ l₁ l₂, segmentSpanAllocate l s (getPageHeaderPtr s 0) 1 =
        (true, l₁.modifySeg s fun m => { m with used := m.used + 1 }) ∧
      segmentSpanFree l₁ s 1 (slicesPerSegment - 1) false = .ok l₂ ∧
      SpanFrame l l₂ (Function.update spans s newSpans) ∧
      SpanWf l₂ (Function.update spans s emptySpans) := by
  obtain ⟨l₁, allocated, frame₁, wf₁⟩ := wf.allocate member
    (Function.update_self _ ([] ++ ⟨0, 1, .popped⟩ :: [⟨1, 511, .popped⟩]) spans)
  have shape : Function.update (Function.update spans s newSpans) s
      ([] ++ [⟨0, 1, .used⟩, ⟨1, 511, .popped⟩]) s = [⟨0, 1, .used⟩] ++ ⟨1, 511, .popped⟩ :: [] := by
    rw [Function.update_self]
    rfl
  obtain ⟨l₂, freed, frame₂, wf₂⟩ := wf₁.free (frame₁.segments ▸ member) shape (by decide) false
    (by rw [shape]; simp) (by rw [shape]; simp)
  rw [Function.update_idem, Function.update_idem, List.singleton_append] at wf₂
  refine ⟨l₁, l₂, allocated, freed, frame₁.trans frame₂ fun r _ span inSpans used => ?_, wf₂⟩
  by_cases same : r = s
  · subst same
    rw [Function.update_self] at inSpans
    simp only [newSpans, List.mem_cons, List.not_mem_nil, or_false] at inSpans
    rcases inSpans with rfl | rfl <;> simp at used
  · rw [Function.update_of_ne same]
    exact inSpans

/-- What `segment_alloc` does: one segment more, without pages. -/
structure Opened (l l' : Local) (spans : Nat → List Span) (memory : SegmentMemory) : Prop where
  span : SpanWf l' (Function.update spans memory.segment emptySpans)
  segments : l'.segments = memory.segment :: l.segments
  header : (l'.segs memory.segment).used = 0 ∧ Owned l.heap.threadId (l'.segs memory.segment)
  others : ∀ r ∈ l.segments, SameSegment (l.segs r) (l'.segs r)
  mapped : Mapped l' memory.segment segmentSize
  frame : PageFrame l l' spans

/-- **A new segment**: fresh memory, its headers, and its spans. -/
theorem SegmentsWf.opened {l₁ : Local} {memory : SegmentMemory} (wf : SegmentsWf l spans)
    (fresh : FreshMemory l l₁ memory)
    (frame : SpanFrame (segmentInit l₁ memory 0) l' (Function.update spans memory.segment newSpans))
    (span : SpanWf l' (Function.update spans memory.segment emptySpans)) : Opened l l' spans memory := by
  have created := fresh.created
  obtain ⟨_, heap₂, os₂, taken₂, held₂, used₂, owned₂⟩ := segmentInit_created l₁ memory
  generalize segmentInit l₁ memory 0 = l₂ at *
  have frame₁ := fresh.frame
  obtain ⟨_, kept⟩ := wf.create fresh created os₂
  have new := wf.fresh_not_mem fresh
  have differs : ∀ r ∈ l.segments, r ≠ memory.segment := fun r member same => new (same ▸ member)
  have segments := frame.segments.trans created.segments
  have oracle : l'.os.oracle = l.os.oracle := by rw [frame.oracle, os₂, frame₁.oracle]
  have calls : l₁.os.calls ≤ l'.os.calls := by
    rw [← os₂]
    exact frame.calls
  refine ⟨span, segments, ⟨?_, ?_⟩, fun r member => ?_, ?_, ⟨?_, ?_, ?_, ?_, oracle,
    frame₁.calls.trans calls, fun x blank => ?_, fun r member span inSpans used i inside => ?_⟩⟩
  · rw [(frame.segs _).used, used₂]
  · rw [← frame₁.heap]
    exact (frame.segs _).owned owned₂
  · rw [← created.others r (differs r member)]
    exact frame.segs r
  · obtain ⟨i, _, after, answer⟩ := fresh.mapped
    exact ⟨i, by omega, by rw [oracle]; exact answer⟩
  · rw [segments]
    exact fun r member => List.mem_cons_of_mem _ member
  · rw [frame.heap, heap₂, frame₁.heap]
  · rw [frame.taken, taken₂, frame₁.taken]
  · rw [frame.held, held₂, frame₁.held]
  · refine (frame.blocks x).blank ?_
    by_cases inside : ∃ j < 513, x = getPageHeaderPtr memory.segment j
    · obtain ⟨j, small, rfl⟩ := inside
      rw [created.inside j small]
      exact ⟨⟨rfl, rfl, rfl, rfl⟩, rfl, rfl, rfl⟩
    · push Not at inside
      rw [created.outside x inside]
      exact blank
  · have bounds := (wf.span.layout.segment r member).bounds inSpans
    have inSpans₂ : span ∈ Function.update spans memory.segment newSpans r := by
      rw [Function.update_of_ne (differs r member)]
      exact inSpans
    rw [frame.busy r (created.segments ▸ List.mem_cons_of_mem _ member) span inSpans₂ used i inside]
    exact kept r member _ (by omega)

/-- The invariant of the segments, with the new one. -/
theorem Opened.segmentsWf {l₁ : Local} {memory : SegmentMemory} (opened : Opened l l' spans memory)
    (wf : SegmentsWf l spans) (fresh : FreshMemory l l₁ memory) :
    SegmentsWf l' (Function.update spans memory.segment emptySpans) := by
  have new := wf.fresh_not_mem fresh
  have frame := opened.frame
  have differs : ∀ r ∈ l.segments, r ≠ memory.segment := fun r member same => new (same ▸ member)
  have others : ∀ r ∈ l.segments, Function.update spans memory.segment emptySpans r = spans r :=
    fun r member => Function.update_of_ne (differs r member) ..
  refine ⟨opened.span, ?_, ?_, ?_, ?_, ?_, ?_, ?_, ?_⟩
  · rw [opened.segments]
    intro r member
    rcases List.mem_cons.mp member with rfl | old
    · rw [Function.update_self]
      simp [emptySpans]
    · rw [others r old]
      exact wf.first r old
  · rw [opened.segments]
    intro r outside
    simp only [List.mem_cons, not_or] at outside
    rw [Function.update_of_ne outside.1]
    exact wf.unlisted r outside.2
  · rw [opened.segments]
    intro r member
    rcases List.mem_cons.mp member with rfl | old
    · rw [Function.update_self, opened.header.1]
      rfl
    · rw [(opened.others r old).used, others r old]
      exact wf.used r old
  · rw [opened.segments, frame.heap]
    intro r member
    rcases List.mem_cons.mp member with rfl | old
    · exact opened.header.2
    · exact (opened.others r old).owned (wf.owned r old)
  · rw [opened.segments]
    intro r member
    rcases List.mem_cons.mp member with rfl | old
    · exact opened.mapped
    · exact (wf.mapped r old).mono frame.oracle frame.calls
  · rw [frame.heap]
    exact wf.empty.mono frame.oracle frame.calls
  · rw [opened.segments, frame.heap]
    intro r member
    rcases List.mem_cons.mp member with rfl | old
    · exact SegmentsWf.mapped_apart fresh wf.empty
    · exact wf.apart r old
  · rw [opened.segments]
    exact List.nodup_cons.mpr ⟨new, wf.nodup⟩

/-- **`segment_alloc`** returns a new segment without pages. -/
theorem segmentAlloc_spec {segment : Nat} (wf : SegmentsWf l spans)
    (result : segmentAlloc l 0 0 = .ok (segment, l')) :
    ∃ spans', SegmentsWf l' spans' ∧ PageFrame l l' spans ∧
      ∀ r (x : Span), (x.kind = .popped ∨ x.IsPage) → (x ∈ spans' r ↔ x ∈ spans r) := by
  have slices : segmentCalculateSlices 0 = (512, 1) := by decide +kernel
  obtain ⟨threads, counted⟩ : ∃ threads, currentThreadCount l = (threads, l.tick) := ⟨_, rfl⟩
  simp only [segmentAlloc, slices, counted] at result
  generalize (decide (threads > 1) && decide (l.tick.tld.count < optionEagerCommitDelay)) = eager
    at result
  generalize (!eager && optionEagerCommit || decide ((0 : Nat) > 0)) = commit at result
  cases alloc : segmentOsAlloc l.tick 0 eager 512 1 commit with
  | error error =>
      rw [alloc] at result
      cases result
  | ok answer =>
      obtain ⟨memory, l₁⟩ := answer
      have freshTick := segmentOsAlloc_fresh alloc
      have fresh : FreshMemory l l₁ memory := by
        obtain ⟨i, before, after, answer⟩ := freshTick.mapped
        exact ⟨(CommitFrame.tick l).trans freshTick.frame, freshTick.segs, freshTick.aligned,
          freshTick.nonzero, ⟨i, Nat.le_of_succ_le before, after, answer⟩, freshTick.accessible,
          freshTick.outside⟩
      rw [alloc] at result
      simp only [bind, Except.bind, if_neg fresh.nonzero] at result
      obtain ⟨span₂, _⟩ := wf.create fresh fresh.created (segmentInit_created l₁ memory).2.2.1
      obtain ⟨l₃, l₄, allocated, freed, frame, span⟩ :=
        span₂.openSegment (fresh.created.segments ▸ List.mem_cons_self)
      simp only [allocated, Bool.not_true, Bool.false_eq_true, if_false, Local.modifySeg_segs, if_true,
        Nat.add_one_ne_zero, modifySeg_used_undone, freed] at result
      cases result
      have opened := wf.opened fresh frame span
      refine ⟨_, opened.segmentsWf wf fresh, opened.frame, fun r x kind => ?_⟩
      by_cases same : r = memory.segment
      · subst same
        rw [Function.update_self, wf.unlisted _ (wf.fresh_not_mem fresh)]
        simp only [emptySpans, List.mem_cons, List.not_mem_nil, or_false, iff_false, not_or]
        constructor <;> rintro rfl <;> simp [Span.IsPage] at kind
      · rw [Function.update_of_ne same]

/-! ### The span of a page -/

/-- The slices that `segments_page_alloc` asks for. -/
def slicesNeeded (required : Nat) : Nat :=
  alignUp required (if required > mediumPageSize then mediumPageSize else sliceSize) / sliceSize

/-- **`segments_page_alloc`** adds a page, or returns null without one. -/
theorem segmentsPageAlloc_spec (fuel : Nat) {required page : Nat} (wf : SegmentsWf l spans)
    (positive : slicesNeeded required ≠ 0)
    (result : segmentsPageAlloc fuel l required = .ok (page, l')) :
    ∃ spans', SegmentsWf l' spans' ∧ PageFrame l l' spans ∧
      ((page = 0 ∧ ∀ r (x : Span), (x.kind = .popped ∨ x.IsPage) → (x ∈ spans' r ↔ x ∈ spans r)) ∨
        ∃ s k, page = getPageHeaderPtr s k ∧ NewPage l' spans spans' s k (slicesNeeded required)) := by
  induction fuel generalizing l spans with
  | zero => cases result
  | succ fuel ih =>
      unfold segmentsPageAlloc at result
      change (segmentsPageFindAndAllocate fuel l (slicesNeeded required) >>= _) = _ at result
      cases found : segmentsPageFindAndAllocate fuel l (slicesNeeded required) with
      | error error =>
          rw [found] at result
          cases result
      | ok answer =>
          obtain ⟨slice, l₁⟩ := answer
          rw [found] at result
          simp only [bind, Except.bind] at result
          rcases findAndAllocate_spec wf found with ⟨rfl, rfl⟩ | ⟨spans', s, k, rfl, after⟩
          · rw [if_pos rfl] at result
            cases alloc : segmentAlloc l₁ 0 0 with
            | error error =>
                rw [alloc] at result
                cases result
            | ok answer =>
                obtain ⟨segment, l₂⟩ := answer
                rw [alloc] at result
                simp only at result
                obtain ⟨spans₂, wf₂, frame₂, members₂⟩ := segmentAlloc_spec wf alloc
                by_cases null : segment = 0
                · rw [if_pos null] at result
                  cases result
                  exact ⟨spans₂, wf₂, frame₂, .inl ⟨rfl, members₂⟩⟩
                · rw [if_neg null] at result
                  obtain ⟨spans', wf', frame', outcome⟩ := ih wf₂ result
                  refine ⟨spans', wf', frame₂.trans frame' fun r member x inSpans used => ?_, ?_⟩
                  · by_cases first : x.start = 0
                    · have same := (wf.span.layout.segment r member).tiles.eq_of_start_eq inSpans
                        (wf.first r member) first
                      rw [same]
                      exact wf₂.first r (frame₂.segments r member)
                    · exact (members₂ r x (.inr ⟨by simp [used], by omega⟩)).mpr inSpans
                  · rcases outcome with ⟨rfl, same⟩ | ⟨s, k, rfl, new⟩
                    · exact .inl ⟨rfl, fun r x kind => (same r x kind).trans (members₂ r x kind)⟩
                    · refine .inr ⟨s, k, rfl, new.member, new.positive, new.placed, fun old => ?_,
                        fun r x isPage => ?_⟩
                      · exact new.fresh ((members₂ s _ (.inr ⟨by simp, new.positive⟩)).mpr old)
                      · rw [new.pages r x isPage, members₂ r x (.inr isPage)]
          · have nonzero : ¬getPageHeaderPtr s k = 0 := by
              rw [getPageHeaderPtr_eq]
              omega
            rw [if_neg nonzero] at result
            cases result
            rw [if_neg positive] at after
            exact ⟨spans', after.1, after.2.1, .inr ⟨s, k, rfl, after.2.2⟩⟩

/-- The slices of a page of small or medium blocks. -/
def pageSlices (blockSize : Nat) : Nat := if blockSize ≤ smallObjSizeMax then 1 else 8

theorem slicesNeeded_small {blockSize : Nat} (positive : 0 < blockSize)
    (small : blockSize ≤ smallObjSizeMax) : slicesNeeded blockSize = 1 := by
  have below : blockSize ≤ 16384 := small
  rw [slicesNeeded, if_neg (by simp only [mediumPageSize]; omega),
    alignUp_eq (by decide) (by decide) (by simp only [sliceSize]; omega)]
  simp only [sliceSize]
  omega

theorem slicesNeeded_medium : slicesNeeded mediumPageSize = 8 := by decide +kernel

/-- **`segment_page_alloc`** for small and medium blocks. -/
theorem segmentPageAlloc_spec (fuel : Nat) {blockSize page : Nat} (wf : SegmentsWf l spans)
    (positive : 0 < blockSize) (medium : blockSize ≤ mediumObjSizeMax)
    (result : segmentPageAlloc fuel l blockSize 0 = .ok (page, l')) :
    ∃ spans', SegmentsWf l' spans' ∧ PageFrame l l' spans ∧
      ((page = 0 ∧ ∀ r (x : Span), (x.kind = .popped ∨ x.IsPage) → (x ∈ spans' r ↔ x ∈ spans r)) ∨
        ∃ s k, page = getPageHeaderPtr s k ∧ NewPage l' spans spans' s k (pageSlices blockSize)) := by
  unfold segmentPageAlloc at result
  rw [if_neg (by decide)] at result
  by_cases small : blockSize ≤ smallObjSizeMax
  · have slices := slicesNeeded_small positive small
    rw [if_pos small] at result
    have outcome := segmentsPageAlloc_spec fuel wf (by omega) result
    rw [pageSlices, if_pos small, ← slices]
    exact outcome
  · have slices := slicesNeeded_medium
    rw [if_neg small, if_pos medium] at result
    have outcome := segmentsPageAlloc_spec fuel wf (by omega) result
    rw [pageSlices, if_neg small, ← slices]
    exact outcome

end VerusMimalloc
