/-
**The invariant of the token machine.**

What the threads hold is read through three views, which do not mention the tokens that are in
between: the heap of a thread (`heapOf`), its segments (`segmentOf`) and its pages (`pageOf`). The
invariant has five parts, each over a few shards.

* `Heaps`: threads, their heaps and the identifiers set aside for new heaps;
* `Segments`: every segment has one thread, and enabled segments are deposited;
* `Pages`: pages lie in enabled segments, enabled pages are deposited, primary pages have a heap;
* `Delays`: actors against delay states and against the pages the threads have checked;
* `Blocks`: every block token fits its page, its slice and its segment;
* `Pages.owner_unique`: a page has one thread.
-/

import VerusMimalloc.Model.Tokens

namespace VerusMimalloc.Mim

open Library (FMap)

variable {A : Accesses} {s : State A} {t u : ThreadId} {ts ts' : ThreadState A}
  {g : SegmentId A.Provenance} {p : PageId A.Provenance}

/-! ### Views -/

def State.heapOf (s : State A) (t : ThreadId) : Option (HeapId A.Provenance × HeapState A) :=
  (s.threadLocalState.lookup t).map fun ts => (ts.heapId, ts.heap)

def State.segmentOf (s : State A) (t : ThreadId) (g : SegmentId A.Provenance) :
    Option (SegmentState A) :=
  (s.threadLocalState.lookup t).bind fun ts => ts.segments.lookup g

def State.pageOf (s : State A) (t : ThreadId) (p : PageId A.Provenance) : Option (PageState A) :=
  (s.threadLocalState.lookup t).bind fun ts => ts.pages.lookup p

/-- `s` with another state of one thread. -/
def State.setThread (s : State A) (t : ThreadId) (ts : ThreadState A) : State A :=
  { s with threadLocalState := s.threadLocalState.insert t ts }

theorem heapOf_of_thread (found : s.threadLocalState.lookup t = some ts) :
    s.heapOf t = some (ts.heapId, ts.heap) := by
  rw [State.heapOf, found, Option.map_some]

theorem segmentOf_of_thread (found : s.threadLocalState.lookup t = some ts) :
    s.segmentOf t g = ts.segments.lookup g := by
  rw [State.segmentOf, found, Option.bind_some]

theorem pageOf_of_thread (found : s.threadLocalState.lookup t = some ts) :
    s.pageOf t p = ts.pages.lookup p := by
  rw [State.pageOf, found, Option.bind_some]

theorem heapOf_eq_none : s.heapOf t = none ↔ s.threadLocalState.lookup t = none := by
  rw [State.heapOf, Option.map_eq_none_iff]

theorem heapOf_setThread :
    (s.setThread t ts).heapOf u = if u = t then some (ts.heapId, ts.heap) else s.heapOf u := by
  rw [State.heapOf, State.setThread, FMap.lookup_insert]
  by_cases same : u = t
  · rw [if_pos same, if_pos same, Option.map_some]
  · rw [if_neg same, if_neg same, State.heapOf]

theorem segmentOf_setThread :
    (s.setThread t ts).segmentOf u g = if u = t then ts.segments.lookup g else s.segmentOf u g := by
  rw [State.segmentOf, State.setThread, FMap.lookup_insert]
  by_cases same : u = t
  · rw [if_pos same, if_pos same, Option.bind_some]
  · rw [if_neg same, if_neg same, State.segmentOf]

theorem pageOf_setThread :
    (s.setThread t ts).pageOf u p = if u = t then ts.pages.lookup p else s.pageOf u p := by
  rw [State.pageOf, State.setThread, FMap.lookup_insert]
  by_cases same : u = t
  · rw [if_pos same, if_pos same, Option.bind_some]
  · rw [if_neg same, if_neg same, State.pageOf]

/-- A thread that keeps its heap. -/
theorem heapOf_setThread_of_same (found : s.threadLocalState.lookup t = some ts)
    (same : (ts'.heapId, ts'.heap) = (ts.heapId, ts.heap)) : (s.setThread t ts').heapOf = s.heapOf := by
  funext u
  rw [heapOf_setThread]
  by_cases this : u = t
  · rw [if_pos this, same, this, heapOf_of_thread found]
  · rw [if_neg this]

/-- A thread that keeps its segments. -/
theorem segmentOf_setThread_of_same (found : s.threadLocalState.lookup t = some ts)
    (same : ts'.segments = ts.segments) : (s.setThread t ts').segmentOf = s.segmentOf := by
  funext u g
  rw [segmentOf_setThread]
  by_cases this : u = t
  · rw [if_pos this, same, this, segmentOf_of_thread found]
  · rw [if_neg this]

/-- A thread that keeps its pages. -/
theorem pageOf_setThread_of_same (found : s.threadLocalState.lookup t = some ts)
    (same : ts'.pages = ts.pages) : (s.setThread t ts').pageOf = s.pageOf := by
  funext u p
  rw [pageOf_setThread]
  by_cases this : u = t
  · rw [if_pos this, same, this, pageOf_of_thread found]
  · rw [if_neg this]

/-! ### Fresh identifiers -/

theorem uniq_le_segmentUMax {gs : Finset (SegmentId A.Provenance)} (inside : g ∈ gs) :
    g.uniq ≤ segmentUMax gs :=
  (Finset.le_fold_max _).mpr (.inr ⟨g, inside, le_refl _⟩)

theorem uniq_le_heapUMax {h : HeapId A.Provenance} {hs : Finset (HeapId A.Provenance)}
    (inside : h ∈ hs) : h.uniq ≤ heapUMax hs :=
  (Finset.le_fold_max _).mpr (.inr ⟨h, inside, le_refl _⟩)

/-- `lemma_segment_get_unused_uniq_field`. -/
theorem segmentGetUnusedUniqField_ne {gs : Finset (SegmentId A.Provenance)} (inside : g ∈ gs) :
    g.uniq ≠ segmentGetUnusedUniqField gs := by
  have := uniq_le_segmentUMax inside
  rw [segmentGetUnusedUniqField]
  omega

/-- `lemma_heap_get_unused_uniq_field`. -/
theorem heapGetUnusedUniqField_ne {h : HeapId A.Provenance} {hs : Finset (HeapId A.Provenance)}
    (inside : h ∈ hs) : h.uniq ≠ heapGetUnusedUniqField hs := by
  have := uniq_le_heapUMax inside
  rw [heapGetUnusedUniqField]
  omega

/-- The slices of a range. -/
theorem mem_rangeFrom {n : Nat} {q : PageId A.Provenance} :
    q ∈ rangeFrom p 0 n ↔ q.segmentId = p.segmentId ∧ p.idx ≤ q.idx ∧ q.idx < p.idx + n := by
  rw [rangeFrom, Finset.mem_image]
  constructor
  · rintro ⟨k, inside, rfl⟩
    rw [Finset.mem_range] at inside
    show _ ∧ p.idx ≤ ((p.idx : Int) + 0 + k).toNat ∧ ((p.idx : Int) + 0 + k).toNat < p.idx + n
    exact ⟨rfl, by omega, by omega⟩
  · rintro ⟨segment, lower, upper⟩
    refine ⟨q.idx - p.idx, Finset.mem_range.mpr (by omega), ?_⟩
    have idx : ((p.idx : Int) + 0 + (q.idx - p.idx : Nat)).toNat = q.idx := by omega
    rw [idx, ← segment]

/-! ### The invariant -/

structure Heaps (s : State A) : Prop where
  reserved : ∀ h ∈ s.reservedUniq, h.id = 0 ∧ h.provenance = A.null
  reserved_fresh : ∀ h ∈ s.reservedUniq, ∀ h' v, s.heapSharedAccess.lookup h' = some v →
    h.uniq ≠ h'.uniq
  right_to_set_inst : s.rightToSetInst = true ↔ s.myInst = none
  heap_wf : ∀ h v, s.heapSharedAccess.lookup h = some v →
    ∃ inst, s.myInst = some inst ∧ A.wf2 v h inst = true
  right_to_use_thread : ∀ t, s.rightToUseThread t = true ↔ s.heapOf t = none
  checked_threads : ∀ t, s.heapOf t = none ↔ s.threadCheckedState.lookup t = none
  heap_of_thread : ∀ t h heap, s.heapOf t = some (h, heap) →
    s.heapSharedAccess.lookup h = some heap.sharedAccess ∧ s.heapToThread.lookup h = some t
  thread_of_heap : ∀ h t, s.heapToThread.lookup h = some t → ∃ heap, s.heapOf t = some (h, heap)

structure Segments (s : State A) : Prop where
  thread_of_segment : ∀ g t, s.threadOfSegment.lookup g = some t ↔ ∃ st, s.segmentOf t g = some st
  segment_access : ∀ g v, s.segmentSharedAccess.lookup g = some v ↔
    ∃ t, s.segmentOf t g = some ⟨v, true⟩

structure Pages (s : State A) : Prop where
  page_segment : ∀ t p page, s.pageOf t p = some page → ∃ v, s.segmentOf t p.segmentId = some ⟨v, true⟩
  page_access : ∀ p v, s.pageSharedAccess.lookup p = some v ↔
    ∃ t page, s.pageOf t p = some page ∧ page.isEnabled = true ∧ page.sharedAccess = v
  heap_of_page : ∀ p h, s.heapOfPage.lookup p = some h ↔
    ∃ t page heap, s.pageOf t p = some page ∧ page.offset = 0 ∧ s.heapOf t = some (h, heap)
  heap_of_page_delay : ∀ p, s.delay.lookup p = none ↔ s.heapOfPage.lookup p = none

structure Delays (s : State A) : Prop where
  delay_state : ∀ p, s.delay.lookup p ≠ some .neverDelayedFree
  delay_actor_freeing : ∀ p, s.delay.lookup p = some .freeing ↔ s.delayActor.lookup p ≠ none
  delay_actor : ∀ p a, s.delayActor.lookup p = some a →
    ∃ t page, s.pageOf t p = some page ∧ page.isEnabled = true ∧
      ∀ h hsa psa, a = .heap h hsa psa → s.heapOf t = some (h, ⟨hsa⟩) ∧ page.sharedAccess = psa
  /-- A page may be gone while it is still recorded as checked. -/
  checked : ∀ t cs p, s.threadCheckedState.lookup t = some cs → p ∈ cs.pages →
    s.delayActor.lookup p = none ∧ s.threadOfSegment.lookup p.segmentId = some t ∧
      ∀ page, s.pageOf t p = some page → page.numBlocks = 0

/-- `block_properties`, read through the views. -/
structure BlockOk (s : State A) (t : ThreadId) (b : BlockId A.Provenance) (bs : BlockState A)
    (page slice : PageState A) : Prop where
  page_of : s.pageOf t b.pageId = some page
  page_enabled : page.isEnabled = true
  page_offset : page.offset = 0
  page_size : page.blockSize = b.blockSize
  page_access : page.sharedAccess = bs.pageSharedAccess
  idx_lt : b.idx < page.numBlocks
  slice_of : s.pageOf t b.pageIdForSlice = some slice
  slice_enabled : slice.isEnabled = true
  slice_access : slice.sharedAccess = bs.pageSliceSharedAccess
  slice_offset : slice.offset = (b.sliceIdx : Int) - b.pageId.idx
  segment_of : s.segmentOf t b.pageId.segmentId = some ⟨bs.segmentSharedAccess, true⟩
  heap_of : ∀ h, bs.heapId = some h → ∃ heap, s.heapOf t = some (h, heap)

structure Blocks (s : State A) : Prop where
  block_valid : ∀ b bs, s.block.lookup b = some bs → ∃ t page slice, BlockOk s t b bs page slice
  block_right : ∀ b bs, s.block.lookup b = some bs → b.sliceIdxIsRight

structure Inv (s : State A) : Prop where
  heaps : Heaps s
  segments : Segments s
  pages : Pages s
  delays : Delays s
  blocks : Blocks s

/-! ### Consequences -/

theorem Segments.owner_unique (inv : Segments s) {st st' : SegmentState A}
    (first : s.segmentOf t g = some st) (second : s.segmentOf u g = some st') : t = u := by
  have owner := (inv.thread_of_segment g t).mpr ⟨st, first⟩
  rw [(inv.thread_of_segment g u).mpr ⟨st', second⟩] at owner
  exact (Option.some.inj owner).symm

/-- A page is held by the thread of its segment. -/
theorem Inv.page_owner (inv : Inv s) {page : PageState A} (found : s.pageOf t p = some page) :
    s.threadOfSegment.lookup p.segmentId = some t := by
  obtain ⟨v, segment⟩ := inv.pages.page_segment t p page found
  exact (inv.segments.thread_of_segment _ t).mpr ⟨_, segment⟩

/-- **A page has one thread.** -/
theorem Inv.owner_unique (inv : Inv s) {page page' : PageState A} (first : s.pageOf t p = some page)
    (second : s.pageOf u p = some page') : t = u := by
  have owner := inv.page_owner first
  rw [inv.page_owner second] at owner
  exact (Option.some.inj owner).symm

/-- The page of a delay state is a primary page of a thread. -/
theorem Inv.delay_page (inv : Inv s) (found : s.delay.lookup p ≠ none) :
    ∃ t page, s.pageOf t p = some page ∧ page.offset = 0 := by
  obtain ⟨h, heap⟩ := Option.ne_none_iff_exists'.mp fun none =>
    found ((inv.pages.heap_of_page_delay p).mpr none)
  obtain ⟨t, page, _, at_, offset, _⟩ := (inv.pages.heap_of_page p h).mp heap
  exact ⟨t, page, at_, offset⟩

/-- An actor stands on a primary page. -/
theorem Inv.actor_page (inv : Inv s) (found : s.delayActor.lookup p ≠ none) :
    ∃ t page, s.pageOf t p = some page ∧ page.offset = 0 ∧ page.isEnabled = true := by
  obtain ⟨a, actor⟩ := Option.ne_none_iff_exists'.mp found
  obtain ⟨t, page, here, enabled, _⟩ := inv.delays.delay_actor p a actor
  have freeing := (inv.delays.delay_actor_freeing p).mpr found
  obtain ⟨u, page', there, offset⟩ := inv.delay_page (p := p) (by rw [freeing]; exact Option.some_ne_none _)
  cases inv.owner_unique here there
  rw [here] at there
  cases there
  exact ⟨t, page, here, offset, enabled⟩

/-- The tokens of a page's blocks are told apart by their index. -/
theorem Inv.block_unique (inv : Inv s) {b b' : BlockId A.Provenance} {bs bs' : BlockState A}
    (first : s.block.lookup b = some bs) (second : s.block.lookup b' = some bs')
    (page : b.pageId = b'.pageId) (idx : b.idx = b'.idx) : b = b' := by
  obtain ⟨t, q, _, ok⟩ := inv.blocks.block_valid b bs first
  obtain ⟨u, q', _, ok'⟩ := inv.blocks.block_valid b' bs' second
  have there := ok'.page_of
  rw [← page] at there
  cases inv.owner_unique ok.page_of there
  rw [ok.page_of] at there
  cases there
  have size : b.blockSize = b'.blockSize := by rw [← ok.page_size, ok'.page_size]
  have right := inv.blocks.block_right b bs first
  have right' := inv.blocks.block_right b' bs' second
  unfold BlockId.sliceIdxIsRight at right right'
  rw [page, idx, size, ← right'] at right
  cases b
  cases b'
  cases page
  cases idx
  cases size
  cases right
  rfl

/-! ### Parts that are not touched -/

variable {s' : State A} {d d' : DelayState}

theorem Heaps.setThread (inv : Heaps s) (views : (s.setThread t ts').heapOf = s.heapOf) :
    Heaps (s.setThread t ts') := by
  refine { inv with
    right_to_use_thread := fun u => ?_
    checked_threads := fun u => ?_
    heap_of_thread := fun u h heap owner => ?_
    thread_of_heap := fun h u owner => ?_ }
  · rw [views]
    exact inv.right_to_use_thread u
  · rw [views]
    exact inv.checked_threads u
  · rw [views] at owner
    exact inv.heap_of_thread u h heap owner
  · rw [views]
    exact inv.thread_of_heap h u owner

theorem Segments.frame (inv : Segments s) (owners : s'.threadOfSegment = s.threadOfSegment)
    (segments : s'.segmentOf = s.segmentOf)
    (access : s'.segmentSharedAccess = s.segmentSharedAccess) : Segments s' := by
  refine ⟨fun g t => ?_, fun g v => ?_⟩
  · rw [owners, segments]
    exact inv.thread_of_segment g t
  · rw [access, segments]
    exact inv.segment_access g v

/-- The delay state of a page that has one may change. -/
theorem Pages.setDelay (inv : Pages s) (found : s.delay.lookup p = some d) :
    Pages { s with delay := s.delay.insert p d' } := by
  refine { inv with heap_of_page_delay := fun q => ?_ }
  have known := inv.heap_of_page_delay q
  show (s.delay.insert p d').lookup q = none ↔ s.heapOfPage.lookup q = none
  rw [FMap.lookup_insert, ← known]
  by_cases same : q = p
  · rw [if_pos same, same, found]
    exact iff_of_false (Option.some_ne_none _) (Option.some_ne_none _)
  · rw [if_neg same]

/-- Pages stay as they are while heaps and segments only come. -/
theorem Pages.mono (inv : Pages s) (access : s'.pageSharedAccess = s.pageSharedAccess)
    (heapOfPage : s'.heapOfPage = s.heapOfPage) (delay : s'.delay = s.delay)
    (pages : s'.pageOf = s.pageOf)
    (heaps : ∀ t p page, s.pageOf t p = some page → s'.heapOf t = s.heapOf t)
    (segments : ∀ t g st, s.segmentOf t g = some st → s'.segmentOf t g = some st) : Pages s' := by
  refine ⟨fun t p page found => ?_, fun p v => ?_, fun p h => ?_, fun p => ?_⟩
  · rw [pages] at found
    obtain ⟨v, segment⟩ := inv.page_segment t p page found
    exact ⟨v, segments _ _ _ segment⟩
  · rw [access, pages]
    exact inv.page_access p v
  · rw [heapOfPage, pages, inv.heap_of_page p h]
    refine exists_congr fun t => exists_congr fun page => exists_congr fun heap => ?_
    refine and_congr_right fun found => ?_
    rw [heaps t p page found]
  · rw [delay, heapOfPage]
    exact inv.heap_of_page_delay p

/-- Delays, while heaps, segments and checked threads only come. -/
theorem Delays.mono (inv : Delays s) (delay : s'.delay = s.delay)
    (actors : s'.delayActor = s.delayActor) (pages : s'.pageOf = s.pageOf)
    (heaps : ∀ t h heap, s.heapOf t = some (h, heap) → s'.heapOf t = some (h, heap))
    (owners : ∀ g t, s.threadOfSegment.lookup g = some t → s'.threadOfSegment.lookup g = some t)
    (checked : ∀ t cs p, s'.threadCheckedState.lookup t = some cs → p ∈ cs.pages →
      ∃ cs', s.threadCheckedState.lookup t = some cs' ∧ p ∈ cs'.pages) : Delays s' := by
  refine ⟨fun p => ?_, fun p => ?_, fun p a actor => ?_, fun t cs p recorded member => ?_⟩
  · rw [delay]
    exact inv.delay_state p
  · rw [delay, actors]
    exact inv.delay_actor_freeing p
  · rw [actors] at actor
    obtain ⟨t, page, here, enabled, heap⟩ := inv.delay_actor p a actor
    rw [pages]
    refine ⟨t, page, here, enabled, fun h hsa psa same => ?_⟩
    exact ⟨heaps t h _ (heap h hsa psa same).1, (heap h hsa psa same).2⟩
  · obtain ⟨cs', recorded', member'⟩ := checked t cs p recorded member
    rw [actors, pages]
    obtain ⟨none, owner, empty⟩ := inv.checked t cs' p recorded' member'
    exact ⟨none, owners _ _ owner, empty⟩

theorem BlockOk.mono {b : BlockId A.Provenance} {bs : BlockState A} {page slice : PageState A}
    (ok : BlockOk s t b bs page slice)
    (heaps : ∀ t h heap, s.heapOf t = some (h, heap) → s'.heapOf t = some (h, heap))
    (segments : ∀ t g st, s.segmentOf t g = some st → s'.segmentOf t g = some st)
    (pages : ∀ t p page, s.pageOf t p = some page → s'.pageOf t p = some page) :
    BlockOk s' t b bs page slice := by
  refine { ok with
    page_of := pages _ _ _ ok.page_of
    slice_of := pages _ _ _ ok.slice_of
    segment_of := segments _ _ _ ok.segment_of
    heap_of := fun h same => ?_ }
  obtain ⟨heap, owner⟩ := ok.heap_of h same
  exact ⟨heap, heaps t h heap owner⟩

/-- Blocks, while heaps, segments and pages only come. -/
theorem Blocks.mono (inv : Blocks s) (block : s'.block = s.block)
    (heaps : ∀ t h heap, s.heapOf t = some (h, heap) → s'.heapOf t = some (h, heap))
    (segments : ∀ t g st, s.segmentOf t g = some st → s'.segmentOf t g = some st)
    (pages : ∀ t p page, s.pageOf t p = some page → s'.pageOf t p = some page) : Blocks s' := by
  refine ⟨fun b bs found => ?_, fun b bs found => ?_⟩
  · rw [block] at found
    obtain ⟨t, page, slice, ok⟩ := inv.block_valid b bs found
    exact ⟨t, page, slice, ok.mono heaps segments pages⟩
  · rw [block] at found
    exact inv.block_right b bs found

/-- Blocks, in a state with the same views. -/
theorem Blocks.frame (inv : Blocks s) (block : s'.block = s.block) (heaps : s'.heapOf = s.heapOf)
    (segments : s'.segmentOf = s.segmentOf) (pages : s'.pageOf = s.pageOf) : Blocks s' :=
  inv.mono block (fun _ _ _ found => by rw [heaps]; exact found)
    (fun _ _ _ found => by rw [segments]; exact found) fun _ _ _ found => by rw [pages]; exact found

end VerusMimalloc.Mim
