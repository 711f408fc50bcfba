/-
**Giving a page back.**

`page_free` unlinks an empty page from its queue, clears its header and merges its span with the unused
spans next to it.

* `SpanMerged`: one span of the headers is unused, with what was unused next to it;
* `PageFreed`: what `page_free` does to the headers;
* `StartsBlank`: every page that a search returns starts with nothing of an earlier life;
* `page_free_reusable`: these hold, and the call returns where no protection change is refused.
-/

import VerusMimalloc.Proof.Solo.Delayed
import VerusMimalloc.Proof.Scripts
import VerusMimalloc.Result.Spans

namespace VerusMimalloc

open Library

variable {sys : Sys} {s t : State} {l l' : Local} {spans spans' : Nat → List Span}
  {nodes : Nat → List Nat} {segment k c a x : Nat}

/-! ### What is given back -/

/-- At most one unused span, of `d` slices from slice `k` on, as the headers record it. -/
def MaybeFree (l : Local) (segment : Nat) (list : List (Nat × Nat)) (k d : Nat) : Prop :=
  (list = [] ∧ d = 0) ∨ (0 < d ∧ list = [(k, d)] ∧ ¬SpanInUse l segment k)

/-- The span of `c` slices from slice `k` on is unused in `l'`, together with the unused spans on both
sides of it. The other spans, and what touches the merged one, are as before. -/
def SpanMerged (l l' : Local) (segment k c : Nat) : Prop :=
  ∃ j d e left prev next right, j + d = k ∧ MaybeFree l segment prev j d ∧
    MaybeFree l segment next (k + c) e ∧
    headerSpans l segment = left ++ prev ++ (k, c) :: (next ++ right) ∧
    headerSpans l' segment = left ++ (j, d + c + e) :: right ∧ ¬SpanInUse l' segment j ∧
    (∀ x ∈ left, x.1 + x.2 = j → SpanInUse l segment x.1) ∧
    (∀ y ∈ right, y.1 = k + c + e → SpanInUse l segment y.1) ∧
    ∀ i < d + c + e, Blank (l'.pages (getPageHeaderPtr segment (j + i)))

/-- A header of which nothing is left, but for the address of the heap. -/
structure ClearedHeader (p : Page) : Prop extends Blank p where
  xblockSize : p.xblockSize = 0
  reserved : p.reserved = 0

/-- What the owner's state is after the empty page `a` was given back; `link` is what happens to the
headers of the other pages. -/
structure HeaderFreed (link : Nat → Page → Page) (l l' : Local) (a : Nat) : Prop where
  held : l'.held = .nothing
  taken : l'.taken = l.taken
  used : (l'.segs (ptrSegment a)).used + 1 = (l.segs (ptrSegment a)).used
  header : ClearedHeader (l'.pages a)
  xheap : (l'.pages a).xheap = (l.pages a).xheap
  inUse : ∀ x, InUse l' x ↔ InUse l x ∧ x ≠ a
  others : ∀ x, InUse l x → x ≠ a → l'.pages x = link x (l.pages x)
  span : ∃ k c, a = getPageHeaderPtr (ptrSegment a) k ∧ SpanMerged l l' (ptrSegment a) k c
  elsewhere : ∀ r ∈ l.segments, r ≠ ptrSegment a → headerSpans l' r = headerSpans l r

/-- The neighbours of `a` in its queue are linked to each other. -/
def bypass (l : Local) (a x : Nat) (p : Page) : Page :=
  { p with
    next := if x = (l.pages a).prev then (l.pages a).next else p.next
    prev := if x = (l.pages a).next then (l.pages a).prev else p.prev }

/-- A page that a search for a span returns has no block, no flag and a null word. -/
def StartsBlank (s : State) : Prop :=
  ∀ fuel size page l', size ≤ mediumObjSizeMax →
    segmentPageAlloc fuel s.loc (queueBlockSize (bin size)) 0 = .ok (page, l') → page ≠ 0 →
      Blank (l'.pages page) ∧ s.sh.xthreadFree page = { list := [], delay := .useDelayedFree }

/-! ### The span -/

/-- The walk depends on the counts only. -/
theorem walk_congr (same : ∀ x, (l'.pages x).count = (l.pages x).count) (n k : Nat) :
    walk l' segment n k = walk l segment n k := by
  induction n generalizing k with
  | zero => rfl
  | succ n ih => simp only [walk, same, ih]

theorem headerSpans_congr (same : ∀ x, (l'.pages x).count = (l.pages x).count) :
    headerSpans l' segment = headerSpans l segment := walk_congr same _ _

/-- **The span in the headers.** The page is in use in `l₀`; its header is cleared in `l`, and its span is
given back in `l'`. -/
theorem WfWith.merged (l₀ : Local) (wf : WfWith l spans nodes) (wf' : WfWith l' spans' nodes)
    (held : l.held = .destroying a) (given : GivenBack l l' spans spans' a)
    (counts : ∀ x, (l.pages x).count = (l₀.pages x).count)
    (sizes : ∀ x, x ≠ a → (l.pages x).xblockSize = (l₀.pages x).xblockSize) :
    (∃ k c, a = getPageHeaderPtr (ptrSegment a) k ∧ SpanMerged l₀ l' (ptrSegment a) k c) ∧
      ∀ r ∈ l.segments, r ≠ ptrSegment a → headerSpans l' r = headerSpans l₀ r := by
  obtain ⟨segment, member, k, c, rfl, absorbed, others⟩ := given.absorbed
  have member' : ∀ r ∈ l.segments, r ∈ l'.segments := fun r inside => given.segments ▸ inside
  obtain ⟨j, d, e, left, prev, next, right, touch, before, after, shape, shape', clearLeft, clearRight⟩ :=
    absorbed
  have piece : (⟨k, c, .popped⟩ : Span) ∈ spans segment := by rw [shape]; simp
  have ok := wf.segments.span.layout.segment segment member
  have bounds := ok.bounds piece
  simp only at bounds
  have own : ptrSegment (getPageHeaderPtr segment k) = segment :=
    ptrSegment_header (wf.segments.span.layout.aligned member) (by simp only [slicesPerSegment]; omega)
  rw [own]
  refine ⟨⟨k, c, rfl, ?_⟩, fun r inside differs => ?_⟩
  · have alone := wf.popped_alone held member piece segment
    have merged : (⟨j, d + c + e, .unused⟩ : Span) ∈ spans' segment := by rw [shape']; simp
    have old : ∀ i, i ≠ k → (SpanInUse l₀ segment i ↔ SpanInUse l segment i) := by
      intro i away
      unfold SpanInUse
      rw [sizes _ fun same => away (getPageHeaderPtr_inj.mp same)]
    have inUse : ∀ x : Span, x ∈ spans segment → x.kind ≠ .unused → x.start ≠ k →
        SpanInUse l₀ segment x.start := by
      intro x inSpans busy away
      refine (old _ away).mpr ((wf.spanInUse_iff member inSpans).mpr ?_)
      cases kind : x.kind with
      | used => rfl
      | unused => exact absurd kind busy
      | popped => exact absurd (congrArg Span.start (alone x inSpans kind).2) away
    have free : ∀ list j' d', j' ≠ k ∨ d' = 0 → (∀ x ∈ list, x ∈ spans segment) →
        MaybeUnused list j' d' → MaybeFree l₀ segment (list.map Span.range) j' d' := by
      rintro list j' d' away inside (⟨rfl, rfl⟩ | ⟨positive, rfl⟩)
      · exact .inl ⟨rfl, rfl⟩
      · refine .inr ⟨positive, rfl, fun used => ?_⟩
        have used' := (old j' (away.resolve_right (by omega))).mp used
        have kind := (wf.spanInUse_iff member (inside _ List.mem_cons_self)).mp used'
        cases kind
    refine ⟨j, d, e, left.map Span.range, prev.map Span.range, next.map Span.range,
      right.map Span.range, touch, free prev _ _ (by omega) (fun x inside => ?_) before,
      free next _ _ (by omega) (fun x inside => ?_) after, ?_, ?_, fun used => ?_, ?_, ?_,
      fun i small => ?_⟩
    · rw [shape]; simp [inside]
    · rw [shape]; simp [inside]
    · rw [← headerSpans_congr counts, wf.headerSpans_eq member, shape]
      simp [Span.range]
    · rw [wf'.headerSpans_eq (member' segment member), shape']
      simp [Span.range]
    · have kind := (wf'.spanInUse_iff (member' segment member) merged).mp used
      cases kind
    · rintro _ inLeft meets
      obtain ⟨x, inside, rfl⟩ := List.mem_map.mp inLeft
      simp only [Span.range] at meets
      have inSpans : x ∈ spans segment := by rw [shape]; simp [inside]
      have positive := (ok.bounds inSpans).1
      exact inUse x inSpans (clearLeft x inside meets) (by omega)
    · rintro _ inRight meets
      obtain ⟨y, inside, rfl⟩ := List.mem_map.mp inRight
      simp only [Span.range] at meets
      exact inUse y (by rw [shape]; simp [inside]) (clearRight y inside meets) (by omega)
    · refine wf'.blank _ fun page => page.1 ?_
      exact wf'.segments.span.layout.xblock_eq_zero (member' segment member) merged (by simp) small
  · rw [← headerSpans_congr counts, wf.headerSpans_eq inside, wf'.headerSpans_eq (member' r inside),
      others r differs]

/-! ### The header -/

/-- What `segment_page_clear` writes before it looks at the page's word. -/
theorem segmentPageClearHeader_eq (l : Local) (a : Nat) :
    segmentPageClearHeader l a = .ok (l.modifyPage a fun p => { p.setIsZeroInit false with
      capacity := 0, reserved := 0, free := [], flags1 := 0, flags2 := 0, used := 0, xblockSize := 0,
      localFree := [] }) := by
  unfold segmentPageClearHeader
  simp only [optionPageReset, Bool.and_false, Bool.false_eq_true, if_false]

/-- **`segment_page_clear`** on the headers. -/
theorem Cleared.freed (cleared : Cleared l l' a) (wf : WfWith l spans nodes)
    (held : l.held = .unlinked a) : HeaderFreed (fun _ p => p) l l' a := by
  obtain ⟨l₁, l₂, header, span, rfl⟩ := cleared.steps
  obtain ⟨page, _⟩ := wf.unlinked a held
  obtain ⟨⟨spans₁, nodes₁, wf₁⟩, inUse, _, _, segments₁, _, _⟩ := wf.clearHeader held header
  obtain ⟨l₂', spans', result, wf', given, inUse', _⟩ := wf₁.clearSpan rfl
  obtain rfl : l₂' = l₂ := by
    rw [result] at span
    exact Except.ok.inj span
  rw [segmentPageClearHeader_eq] at header
  have l₁Eq := Except.ok.inj header
  generalize clearedEq : ({ l₁ with held := .destroying a } : Local) = m at *
  have pages : ∀ x, m.pages x = if x = a then { (l.pages x).setIsZeroInit false with
      capacity := 0, reserved := 0, free := [], flags1 := 0, flags2 := 0, used := 0, xblockSize := 0,
      localFree := [] } else l.pages x := by
    intro x
    rw [← clearedEq, ← l₁Eq]
    rfl
  have given' : GivenBack m { l₂' with held := .nothing } spans₁ spans' a :=
    ⟨given.segments, given.pages, given.blocks, given.absorbed⟩
  obtain ⟨merged, elsewhere⟩ := wf₁.merged l wf' (by rw [← clearedEq]) given'
    (fun x => by
      rw [pages]
      split
      · rfl
      · rfl)
    fun x differs => by rw [pages, if_neg differs]
  have segments : l₂'.segments = l.segments := given.segments.trans (by rw [← clearedEq]; exact segments₁)
  have blocks := given.blocks a
  refine ⟨rfl, cleared.taken, cleared.used, ⟨blocks.blank (wf₁.blank a fun page' => ((inUse a).mp page').2 rfl), ?_, ?_⟩,
    ?_, fun x => (inUse' x).trans (inUse x), fun x page' differs => ?_, merged, fun r inside => ?_⟩
  · by_contra nonzero
    refine cleared.gone ⟨nonzero, fun r inside => page.2 r ?_⟩
    rw [← segments]
    exact inside
  · rw [blocks.reserved, pages, if_pos rfl]
  · rw [blocks.xheap, pages, if_pos rfl]
    rfl
  · rw [given'.pages x ((inUse x).mpr ⟨page', differs⟩), pages, if_neg differs]
  · refine elsewhere r ?_
    rw [← given.segments, segments]
    exact inside

/-! ### The queue -/

theorem heapQueueFirstUpdate_pages (l : Local) (pq : Nat) : (heapQueueFirstUpdate l pq).pages = l.pages := by
  unfold heapQueueFirstUpdate
  simp only
  split
  · rfl
  · rw [apply_ite Local.pages, setDirect_eq]
    exact ite_self _

/-- **What `page_queue_remove` writes to the headers**: the neighbours are linked to each other. -/
theorem pageQueueRemove_pages (l : Local) (pq : Nat) (nonzero : x ≠ 0) :
    (pageQueueRemove l pq a).pages x = bypass l a x (l.pages x) := by
  have updated : ∀ (l : Local) (P : Prop) [Decidable P] (f : PageQueue → PageQueue),
      (if P then heapQueueFirstUpdate (l.modifyQueue pq f) pq else l.modifyQueue pq f).pages = l.pages := by
    intro l P _ f
    split
    · exact heapQueueFirstUpdate_pages ..
    · rfl
  have linked : ∀ (l : Local) (y : Nat) (f : Page → Page),
      (if y ≠ 0 then l.modifyPage y f else l).pages x = if x = y then f (l.pages x) else l.pages x := by
    intro l y f
    by_cases null : y = 0
    · subst null
      rw [if_neg (not_not.mpr rfl), if_neg nonzero]
    · rw [if_pos null]
      rfl
  unfold pageQueueRemove
  simp only
  rw [setPageCount]
  simp only [updated, linked]
  unfold bypass
  by_cases next : x = (l.pages a).next
  · rw [if_pos next, if_pos next]
    split
    · rfl
    · rfl
  · rw [if_neg next, if_neg next]
    split
    · rfl
    · rfl

/-- **The first part of `page_free`** on the headers. -/
theorem pageFree_pages (l : Local) (pq : Nat) (nonzero : x ≠ 0) (differs : x ≠ a) :
    (pageFree l a pq).pages x = bypass l a x (l.pages x) := by
  have same : (l.modifyPage a fun p => p.setHasAligned false).pages x = l.pages x := if_neg differs
  have links : ∀ y, ((l.modifyPage a fun p => p.setHasAligned false).pages y).prev = (l.pages y).prev ∧
      ((l.modifyPage a fun p => p.setHasAligned false).pages y).next = (l.pages y).next := by
    intro y
    rw [Local.modifyPage_pages]
    split
    · exact ⟨rfl, rfl⟩
    · exact ⟨rfl, rfl⟩
  change (pageQueueRemove (l.modifyPage a fun p => p.setHasAligned false) pq a).pages x = _
  rw [pageQueueRemove_pages _ pq nonzero, same]
  unfold bypass
  rw [(links a).1, (links a).2]

/-- **`page_free`** on the headers, from the clearing of the unlinked page. -/
theorem HeaderFreed.unqueued {pq : Nat} (freed : HeaderFreed (fun _ p => p) (pageFree l a pq) l' a)
    (frame : MoveFrame l (pageFree l a pq) a ((l.pages a).setHasAligned false).flags1)
    (placed : ∀ x, InUse l x → x ≠ 0) : HeaderFreed (bypass l a) l l' a := by
  have segs : (pageFree l a pq).segs = l.segs := frame.queue.segs
  have segments : (pageFree l a pq).segments = l.segments := frame.queue.segments
  have spans : ∀ r, headerSpans (pageFree l a pq) r = headerSpans l r := fun r =>
    headerSpans_congr fun x => (frame.same x).1
  have inUse : ∀ r k, SpanInUse (pageFree l a pq) r k ↔ SpanInUse l r k := fun r k => by
    unfold SpanInUse
    rw [(frame.same _).2.2.1]
  have taken : (pageFree l a pq).taken = l.taken := frame.queue.taken
  obtain ⟨held, kept, used, header, xheap, members, others, ⟨k, c, here, merged⟩, elsewhere⟩ := freed
  refine ⟨held, kept.trans taken, segs ▸ used, header, xheap.trans (frame.same a).2.2.2.2.1, fun x => (members x).trans (and_congr_left fun _ => frame.inUse_iff),
    fun x page differs => ?_, ⟨k, c, here, ?_⟩, fun r inside differs => ?_⟩
  · rw [others x (frame.inUse_iff.mpr page) differs]
    exact pageFree_pages l pq (placed x page) differs
  · unfold SpanMerged MaybeFree at merged ⊢
    simp only [spans, inUse] at merged
    exact merged
  · rw [elsewhere r (segments ▸ inside) differs, spans]

/-! ### The call -/

/-- Another page in use has its slices in the same segment. -/
def SharesSegment (l : Local) (a : Nat) : Prop :=
  ∃ b, InUse l b ∧ b ≠ a ∧ ptrSegment b = ptrSegment a

/-- The page `a` was given back, and no header of a page that is not in use has a word. -/
structure PageFreed (link : Nat → Page → Page) (s t : State) (a : Nat) : Prop where
  headers : HeaderFreed link s.loc t.loc a
  words : ∀ x, ¬InUse t.loc x → t.sh.xthreadFree x = { list := [], delay := .useDelayedFree }
  invariant : Inv t

/-- A segment that two pages share counts at least two. -/
theorem WfWith.used_ne_one (wf : WfWith l spans nodes) (page : InUse l a) (shared : SharesSegment l a) :
    (l.segs (ptrSegment a)).used ≠ 1 := by
  obtain ⟨b, other, differs, same⟩ := shared
  obtain ⟨segment, k, c, place, inSpans⟩ := wf.exists_pageAt page
  obtain ⟨segment', k', c', place', inSpans'⟩ := wf.exists_pageAt other
  have home : ∀ {r j d x}, PageAt l r j d x → ptrSegment x = r := fun {r j d x} at' => by
    have inside := at'.inside
    rw [at'.header, ptrSegment_header at'.base.1 (by simp only [slicesPerSegment]; omega)]
  obtain rfl : segment' = segment := by rw [← home place', ← home place, same]
  rw [home place, wf.segments.used segment' place.member]
  intro one
  have first : (⟨k, c, .used⟩ : Span) ∈ (spans segment').filter fun span => decide span.IsPage :=
    List.mem_filter.mpr ⟨inSpans, decide_eq_true ⟨by simp, place.behind⟩⟩
  have second : (⟨k', c', .used⟩ : Span) ∈ (spans segment').filter fun span => decide span.IsPage :=
    List.mem_filter.mpr ⟨inSpans', decide_eq_true ⟨by simp, place'.behind⟩⟩
  obtain ⟨only, shape⟩ := List.length_eq_one_iff.mp one
  rw [shape, List.mem_singleton] at first second
  have equal := second.trans first.symm
  simp only [Span.mk.injEq, and_true] at equal
  exact differs (by rw [place'.header, place.header, equal.1])

/-- The rest of `page_free`, for a page that left its queue. -/
theorem segmentPageFree_frees (inv : Inv s) (held : s.loc.held = .unlinked a)
    (shared : SharesSegment s.loc a) (fuel : Nat) :
    FreesUnlessRefused s (segmentPageFree (fuel + 1) a) fun t => PageFreed (fun _ p => p) s t a := by
  obtain ⟨spans, nodes, wf⟩ : Wf s.loc := inv.wf
  have several := wf.used_ne_one (wf.unlinked a held).1 shared
  have safe : OwnerSafe False (fun e => e = .mprotect ∧ s.loc.os.oracle.Refuses)
      (segmentPageFree (fuel + 1) a) (fun _ l' => Cleared s.loc l' a) s.loc :=
    segmentPageFree_safe (fun none => nomatch none) (fun refuses => ⟨rfl, refuses⟩)
      (fun one => absurd one several) held
  exact (safe.freesUnlessRefused inv).mono fun t ⟨inv', cleared⟩ =>
    ⟨cleared.freed wf held, fun x outside => inv'.protocol.unused x outside, inv'⟩

/-- **`page_free`**, from its beginning. -/
theorem pageFreeCall_frees (inv : Inv s) (held : s.loc.held = .nothing) (page : InUse s.loc a)
    (empty : (s.loc.pages a).used = 0) (shared : SharesSegment s.loc a) (fuel : Nat) :
    FreesUnlessRefused s (pageFreeCall (fuel + 1) a (pageQueueOf s.loc a)) fun t =>
      PageFreed (bypass s.loc a) s t a := by
  obtain ⟨spans, nodes, wf⟩ : Wf s.loc := inv.wf
  have several := wf.used_ne_one page shared
  have placed : ∀ x, InUse s.loc x → x ≠ 0 := fun x inUse => by
    obtain ⟨_, _, _, place, _⟩ := wf.exists_pageAt inUse
    exact place.nonzero
  have unqueued : ∀ sh, Inv ⟨s.loc, sh⟩ → Inv ⟨pageFree s.loc a (pageQueueOf s.loc a), sh⟩ ∧
      MoveFrame s.loc (pageFree s.loc a (pageQueueOf s.loc a)) a
        ((s.loc.pages a).setHasAligned false).flags1 :=
    fun sh inv => inv.toCore.unqueue (fun x _ => inv.full x) held page empty
  have safe : OwnerSafe False (fun e => e = .mprotect ∧ s.loc.os.oracle.Refuses)
      (pageFreeCall (fuel + 1) a (pageQueueOf s.loc a))
      (fun _ l' => HeaderFreed (bypass s.loc a) s.loc l' a) s.loc := by
    refine OwnerSafe.seq (Q := fun _ l' => l' = pageFree s.loc a (pageQueueOf s.loc a))
      (safe_localUpdate fun sh inv => ?_) ?_
    · obtain ⟨inv', frame⟩ := unqueued sh inv
      exact ⟨inv', frame.kept.kept, inv.toCore.unqueue_moves held page empty, rfl⟩
    · rintro _ l₁ rfl
      obtain ⟨inv', frame⟩ := unqueued s.sh inv
      obtain ⟨spans', nodes', wf'⟩ : Wf (pageFree s.loc a (pageQueueOf s.loc a)) := inv'.wf
      have segs : (pageFree s.loc a (pageQueueOf s.loc a)).segs = s.loc.segs := frame.queue.segs
      have oracle : (pageFree s.loc a (pageQueueOf s.loc a)).os.oracle = s.loc.os.oracle :=
        congrArg Os.oracle frame.queue.os
      refine Discipline.Safe.mono (segmentPageFree_safe (fun none => nomatch none)
        (fun refuses => ⟨rfl, oracle ▸ refuses⟩) (fun one => absurd (segs ▸ one) several) rfl)
        fun _ l' cleared => ?_
      exact (cleared.freed wf' rfl).unqueued frame placed
  exact (safe.freesUnlessRefused inv).mono fun t ⟨inv', freed⟩ =>
    ⟨freed, fun x outside => inv'.protocol.unused x outside, inv'⟩

/-! ### A later life -/

/-- **What a search returns** starts with nothing of an earlier life. -/
theorem Inv.startsBlank (inv : Inv s) : StartsBlank s := by
  intro fuel size page l' medium result nonzero
  obtain ⟨spans, nodes, wf⟩ : Wf s.loc := inv.wf
  obtain ⟨lower, upper⟩ := bin_bounds medium
  obtain ⟨sizeLower, sizeUpper, _⟩ := queueBlockSize_bounds _ upper lower
  obtain ⟨spans', wf', frame, ⟨null, _⟩ | ⟨r, k, rfl, new⟩⟩ := segmentPageAlloc_spec fuel wf.segments
    (by omega) (by simpa only [mediumObjSizeMax] using sizeUpper) result
  · exact absurd null nonzero
  · have before := new.not_inUse wf.segments wf' frame
    exact ⟨frame.blank _ (wf.blank _ before), inv.protocol.unused _ before⟩

/-- **Giving a page back**, in every reachable state and for every empty page that is not alone in its
segment. Between blocks the owner may call `page_free`; in the middle of one it has unlinked the page. The
call returns unless a protection change is refused, and in every later state a new page starts blank. -/
theorem page_free_reusable (reachable : Reachable sys) :
    StartsBlank sys.st ∧ ∀ a, InUse sys.st.loc a → (sys.st.loc.pages a).used = 0 →
      SharesSegment sys.st.loc a → ∀ fuel,
        (sys.st.loc.held = .nothing →
          FreesUnlessRefused sys.st (pageFreeCall (fuel + 1) a (pageQueueOf sys.st.loc a)) fun t =>
            PageFreed (bypass sys.st.loc a) sys.st t a ∧ (sys.owner = none →
              ∀ later, Relation.ReflTransGen Step { st := t, owner := none } later →
                StartsBlank later.st)) ∧
        (sys.st.loc.held = .unlinked a →
          FreesUnlessRefused sys.st (segmentPageFree (fuel + 1) a) fun t =>
            PageFreed (fun _ p => p) sys.st t a) := by
  obtain ⟨inv, idle, _⟩ := reachable.sysInv
  refine ⟨inv.startsBlank, fun a page empty shared fuel => ⟨fun held => ?_, fun held => ?_⟩⟩
  · refine (pageFreeCall_frees inv held page empty shared fuel).mono fun t freed =>
      ⟨freed, fun between later run => ?_⟩
    have start : SysInv { st := t, owner := none } :=
      ⟨freed.invariant, fun _ => ⟨freed.headers.held, freed.headers.taken.trans (idle between).taken⟩,
        fun p same => nomatch same⟩
    exact (start.run run).1.inv.startsBlank
  · exact segmentPageFree_frees inv held shared fuel

/-- Two pages of 128 KiB blocks in one queue, the first of them empty: four blocks fill a page, the fifth
takes a second one; the fifth and one of the others go back. -/
def twoPages : List ScriptCall :=
  [.malloc 131072, .malloc 131072, .malloc 131072, .malloc 131072, .malloc 131072,
    .free 671678464, .free 671154176]

/-- The header address of the empty page; the other one is `firstPage`. -/
def emptyPage : Nat := 671089624

/-- The empty page is in front of the other one. -/
def EmptyInFront (s : State) : Bool :=
  decide ((s.loc.pages emptyPage).used = 0 ∧ (s.loc.pages emptyPage).xblockSize = 131072 ∧
    (s.loc.pages firstPage).xblockSize = 131072 ∧ (s.loc.pages emptyPage).prev = 0 ∧
    (s.loc.pages emptyPage).next = firstPage ∧ (s.loc.pages firstPage).prev = emptyPage ∧
    s.loc.segments = [5 * 2 ^ 27] ∧ (s.loc.pages emptyPage).xheap ≠ 0)

theorem twoPages_reachable :
    ∃ s, (Reachable { st := s, owner := none } ∧ s.loc.os.oracle.Grants) ∧ EmptyInFront s = true :=
  performed_reachable 20 twoPages EmptyInFront (by decide +kernel)

/-- The two pages are in use, in one segment. -/
theorem EmptyInFront.pages (front : EmptyInFront s = true) :
    InUse s.loc emptyPage ∧ (s.loc.pages emptyPage).used = 0 ∧ InUse s.loc firstPage ∧
      SharesSegment s.loc emptyPage := by
  obtain ⟨used, size, size', _, _, _, segments, _⟩ := of_decide_eq_true front
  have first : InUse s.loc emptyPage := by
    refine ⟨by rw [size]; decide, fun r inside => ?_⟩
    rw [segments, List.mem_singleton] at inside
    subst inside
    decide
  have second : InUse s.loc firstPage := by
    refine ⟨by rw [size']; decide, fun r inside => ?_⟩
    rw [segments, List.mem_singleton] at inside
    subst inside
    decide
  exact ⟨first, used, second, firstPage, second, by decide, by decide⟩

/-- `page_free` of the empty page `a` between two blocks, to its end in `t`. -/
structure GivesBack (sys : Sys) (a : Nat) (t : State) : Prop where
  reachable : Reachable sys
  page : InUse sys.st.loc a
  empty : (sys.st.loc.pages a).used = 0
  shared : SharesSegment sys.st.loc a
  held : sys.st.loc.held = .nothing
  returned : Returns sys.st (pageFreeCall 1 a (pageQueueOf sys.st.loc a)) () t

/-- The page in front of the other one is given back. -/
theorem twoPages_givesBack :
    ∃ s t, EmptyInFront s = true ∧ GivesBack { st := s, owner := none } emptyPage t ∧
      PageFreed (bypass s.loc emptyPage) s t emptyPage := by
  obtain ⟨s, ⟨reachable, grants⟩, front⟩ := twoPages_reachable
  obtain ⟨page, empty, _, shared⟩ := EmptyInFront.pages front
  have held : s.loc.held = .nothing := (reachable.sysInv.idle rfl).held
  have frees := pageFreeCall_frees reachable.sysInv.inv held page empty shared 0
  obtain ⟨t, run⟩ := (frees.frees grants).alone
  have returned := returns_of_run run
  exact ⟨s, t, front, ⟨reachable, page, empty, shared, held, returned⟩, frees.returns t returned⟩

/-- **The other page is not left alone**: it was behind the empty page in the queue, and its link back to
it is cleared. And the address of the heap stays in the header. -/
theorem page_free_relinks :
    (¬∀ sys a t, GivesBack sys a t →
      ∀ x, InUse sys.st.loc x → x ≠ a → t.loc.pages x = sys.st.loc.pages x) ∧
    ¬∀ sys a t, GivesBack sys a t → (t.loc.pages a).xheap = 0 := by
  obtain ⟨s, t, front, gives, freed⟩ := twoPages_givesBack
  obtain ⟨_, _, other, _⟩ := EmptyInFront.pages front
  obtain ⟨_, _, _, prev, next, back, _, xheap⟩ := of_decide_eq_true front
  refine ⟨fun alone => ?_, fun forgets => ?_⟩
  · have same := alone _ emptyPage t gives firstPage other (by decide)
    have links := freed.headers.others firstPage other (by decide)
    have cleared : (t.loc.pages firstPage).prev = 0 := by
      rw [links]
      change (if firstPage = (s.loc.pages emptyPage).next then (s.loc.pages emptyPage).prev else _) = 0
      rw [next, if_pos rfl, prev]
    simp only at same
    rw [same, back] at cleared
    cases cleared
  · exact xheap (freed.headers.xheap.symm.trans (forgets _ emptyPage t gives))

/-- The page in front of another one is given back. -/
theorem page_free_reusable_front :
    ∃ s, Reachable { st := s, owner := none } ∧ StartsBlank s ∧
      Frees s (pageFreeCall 1 emptyPage (pageQueueOf s.loc emptyPage)) fun t =>
        PageFreed (bypass s.loc emptyPage) s t emptyPage := by
  obtain ⟨s, ⟨reachable, grants⟩, front⟩ := twoPages_reachable
  obtain ⟨page, empty, other, shared⟩ := EmptyInFront.pages front
  obtain ⟨blank, frees⟩ := page_free_reusable reachable
  exact ⟨s, reachable, blank, (((frees emptyPage page empty shared 0).1
    (reachable.sysInv.idle rfl).held).frees grants).mono fun t both => both.1⟩

end VerusMimalloc
