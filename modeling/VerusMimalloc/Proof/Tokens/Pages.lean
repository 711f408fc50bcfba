/-
**Pages.**

The transitions that create, enable, disable and destroy pages, and that make and destroy the tokens
of their blocks, keep the invariant. All of them change the pages of one thread on a set of page
identifiers (`pageOf_change`), which lie in enabled segments of the thread.

* `Inv.changePages`: what such a change means for heaps, segments and pages;
* a page range that is disabled is the whole of a page without blocks and without an actor, since
  the actors and the blocks of its slices belong to its first slice;
* as many tokens as a page has blocks are all the tokens of the page (`all_blocks`).
-/

import VerusMimalloc.Proof.Tokens.Threads

namespace VerusMimalloc.Mim

open Library (FMap Ensures)

variable {A : Accesses} {s : State A} {p q : PageId A.Provenance} {t u : ThreadId}
  {ts ts' : ThreadState A} {D : Finset (PageId A.Provenance)}
  {f : PageId A.Provenance → Option (PageState A)} {page : PageState A}

theorem pageId_eq (segment : q.segmentId = p.segmentId) (idx : q.idx = p.idx) : q = p := by
  cases q
  cases p
  cases segment
  cases idx
  rfl

theorem pageOf_change (found : s.threadLocalState.lookup t = some ts)
    (change : ∀ q, ts'.pages.lookup q = if q ∈ D then f q else ts.pages.lookup q) :
    (s.setThread t ts').pageOf u q = if u = t ∧ q ∈ D then f q else s.pageOf u q := by
  rw [pageOf_setThread]
  by_cases this : u = t
  · subst this
    rw [if_pos rfl, change, pageOf_of_thread found]
    by_cases inside : q ∈ D
    · rw [if_pos inside, if_pos ⟨rfl, inside⟩]
    · rw [if_neg inside, if_neg fun both => inside both.2]
  · rw [if_neg this, if_neg fun both => this both.1]

/-- **The pages of one thread change.** -/
theorem Inv.changePages (inv : Inv s) (ts' : ThreadState A)
    (psa : FMap (PageId A.Provenance) A.PageSharedAccess)
    (hop : FMap (PageId A.Provenance) (HeapId A.Provenance)) (del : FMap (PageId A.Provenance) DelayState)
    (found : s.threadLocalState.lookup t = some ts)
    (change : ∀ q, ts'.pages.lookup q = if q ∈ D then f q else ts.pages.lookup q)
    (heap : (ts'.heapId, ts'.heap) = (ts.heapId, ts.heap)) (segments : ts'.segments = ts.segments)
    (lies : ∀ q ∈ D, ∃ v, s.segmentOf t q.segmentId = some ⟨v, true⟩)
    (access : ∀ q w, psa.lookup q = some w ↔
      if q ∈ D then ∃ page, f q = some page ∧ page.isEnabled = true ∧ page.sharedAccess = w
      else s.pageSharedAccess.lookup q = some w)
    (heapOfPage : ∀ q h, hop.lookup q = some h ↔
      if q ∈ D then ∃ page, f q = some page ∧ page.offset = 0 ∧ ts.heapId = h
      else s.heapOfPage.lookup q = some h)
    (delay : ∀ q, del.lookup q = none ↔ hop.lookup q = none) :
    Heaps (s.setThread t ts') ∧ Segments (s.setThread t ts') ∧
      Pages { s.setThread t ts' with pageSharedAccess := psa, heapOfPage := hop, delay := del } := by
  have heaps := heapOf_setThread_of_same found heap
  have same := segmentOf_setThread_of_same found segments
  have pages : ∀ u q, (s.setThread t ts').pageOf u q =
      if u = t ∧ q ∈ D then f q else s.pageOf u q := fun u q => pageOf_change found change
  have own : ∀ u q page, q ∈ D → s.pageOf u q = some page → u = t := by
    intro u q page inside there
    obtain ⟨v, segment⟩ := inv.pages.page_segment u q page there
    obtain ⟨v', segment'⟩ := lies q inside
    exact inv.segments.owner_unique segment segment'
  have split : ∀ q, q ∈ D → ∀ u page, (s.setThread t ts').pageOf u q = some page ↔
      u = t ∧ f q = some page := by
    intro q inside u page
    rw [pages]
    by_cases this : u = t
    · rw [if_pos ⟨this, inside⟩]
      exact ⟨fun at_ => ⟨this, at_⟩, And.right⟩
    · rw [if_neg fun both => this both.1]
      exact ⟨fun there => absurd (own u q page inside there) this, fun both => absurd both.1 this⟩
  refine ⟨inv.heaps.setThread heaps, inv.segments.frame rfl same rfl, ⟨fun u q page there => ?_,
    fun q w => ?_, fun q h => ?_, delay⟩⟩
  · show ∃ v, (s.setThread t ts').segmentOf u q.segmentId = some ⟨v, true⟩
    change (s.setThread t ts').pageOf u q = some page at there
    rw [same]
    by_cases inside : q ∈ D
    · rw [((split q inside u page).mp there).1]
      exact lies q inside
    · rw [pages, if_neg fun both => inside both.2] at there
      exact inv.pages.page_segment u q page there
  · show psa.lookup q = some w ↔ ∃ u page, (s.setThread t ts').pageOf u q = some page ∧ _
    rw [access]
    by_cases inside : q ∈ D
    · rw [if_pos inside]
      constructor
      · rintro ⟨page, new, rest⟩
        exact ⟨t, page, (split q inside t page).mpr ⟨rfl, new⟩, rest⟩
      · rintro ⟨u, page, there, rest⟩
        exact ⟨page, ((split q inside u page).mp there).2, rest⟩
    · rw [if_neg inside, inv.pages.page_access]
      refine exists_congr fun u => exists_congr fun page => ?_
      rw [pages, if_neg fun both => inside both.2]
  · show hop.lookup q = some h ↔ ∃ u page heap, (s.setThread t ts').pageOf u q = some page ∧
      page.offset = 0 ∧ (s.setThread t ts').heapOf u = some (h, heap)
    rw [heapOfPage, heaps]
    by_cases inside : q ∈ D
    · rw [if_pos inside]
      constructor
      · rintro ⟨page, new, offset, rfl⟩
        exact ⟨t, page, ts.heap, (split q inside t page).mpr ⟨rfl, new⟩, offset,
          heapOf_of_thread found⟩
      · rintro ⟨u, page, heap, there, offset, owner⟩
        obtain ⟨rfl, new⟩ := (split q inside u page).mp there
        rw [heapOf_of_thread found] at owner
        cases owner
        exact ⟨page, new, offset, rfl⟩
    · rw [if_neg inside, inv.pages.heap_of_page]
      refine exists_congr fun u => exists_congr fun page => exists_congr fun heap => ?_
      rw [pages, if_neg fun both => inside both.2]

/-- **Pages without blocks and actors change.** -/
theorem Inv.changeIdlePages (inv : Inv s) (ts' : ThreadState A)
    (psa : FMap (PageId A.Provenance) A.PageSharedAccess)
    (hop : FMap (PageId A.Provenance) (HeapId A.Provenance)) (del : FMap (PageId A.Provenance) DelayState)
    (found : s.threadLocalState.lookup t = some ts)
    (change : ∀ q, ts'.pages.lookup q = if q ∈ D then f q else ts.pages.lookup q)
    (heap : (ts'.heapId, ts'.heap) = (ts.heapId, ts.heap)) (segments : ts'.segments = ts.segments)
    (lies : ∀ q ∈ D, ∃ v, s.segmentOf t q.segmentId = some ⟨v, true⟩)
    (access : ∀ q w, psa.lookup q = some w ↔
      if q ∈ D then ∃ page, f q = some page ∧ page.isEnabled = true ∧ page.sharedAccess = w
      else s.pageSharedAccess.lookup q = some w)
    (heapOfPage : ∀ q h, hop.lookup q = some h ↔
      if q ∈ D then ∃ page, f q = some page ∧ page.offset = 0 ∧ ts.heapId = h
      else s.heapOfPage.lookup q = some h)
    (delay : ∀ q, del.lookup q = none ↔ hop.lookup q = none)
    (idle : ∀ q, (q ∈ D → del.lookup q ≠ some .freeing ∧ del.lookup q ≠ some .neverDelayedFree) ∧
      (q ∉ D → del.lookup q = s.delay.lookup q))
    (actors : ∀ q ∈ D, s.delayActor.lookup q = none)
    (blocks : ∀ b bs, s.block.lookup b = some bs → b.pageId ∉ D ∧ b.pageIdForSlice ∉ D)
    (empty : ∀ q ∈ D, ∀ page, f q = some page → (∀ old, s.pageOf t q = some old → old.numBlocks = 0) →
      page.numBlocks = 0) :
    Inv { s.setThread t ts' with pageSharedAccess := psa, heapOfPage := hop, delay := del } := by
  obtain ⟨heapsPart, segmentsPart, pagesPart⟩ :=
    inv.changePages ts' psa hop del found change heap segments lies access heapOfPage delay
  have heaps := heapOf_setThread_of_same found heap
  have same := segmentOf_setThread_of_same found segments
  have pages : ∀ u q, (s.setThread t ts').pageOf u q =
      if u = t ∧ q ∈ D then f q else s.pageOf u q := fun u q => pageOf_change found change
  have kept : ∀ u q page, q ∉ D → s.pageOf u q = some page →
      (s.setThread t ts').pageOf u q = some page := by
    intro u q page outside old
    rw [pages, if_neg fun both => outside both.2]
    exact old
  refine ⟨{ heapsPart with }, { segmentsPart with }, pagesPart, ⟨fun q => ?_, fun q => ?_,
    fun q a actor => ?_, fun u cs q recorded member => ?_⟩, fun b bs token => ?_,
    inv.blocks.block_right⟩
  · show del.lookup q ≠ some .neverDelayedFree
    by_cases inside : q ∈ D
    · exact ((idle q).1 inside).2
    · rw [(idle q).2 inside]
      exact inv.delays.delay_state q
  · show del.lookup q = some .freeing ↔ s.delayActor.lookup q ≠ none
    by_cases inside : q ∈ D
    · exact iff_of_false ((idle q).1 inside).1 (not_not.mpr (actors q inside))
    · rw [(idle q).2 inside]
      exact inv.delays.delay_actor_freeing q
  · change s.delayActor.lookup q = some a at actor
    obtain ⟨u, page, here, enabled, owner⟩ := inv.delays.delay_actor q a actor
    have outside : q ∉ D := fun inside => by
      rw [actors q inside] at actor
      cases actor
    exact ⟨u, page, kept u q page outside here, enabled, fun h hsa psa same =>
      ⟨(congrFun heaps u).trans (owner h hsa psa same).1, (owner h hsa psa same).2⟩⟩
  · obtain ⟨none, owner, old⟩ := inv.delays.checked u cs q recorded member
    refine ⟨none, owner, fun page here => ?_⟩
    change (s.setThread t ts').pageOf u q = some page at here
    rw [pages] at here
    by_cases this : u = t ∧ q ∈ D
    · rw [if_pos this] at here
      rw [this.1] at old
      exact empty q this.2 page here old
    · rw [if_neg this] at here
      exact old page here
  · obtain ⟨u, page, slice, ok⟩ := inv.blocks.block_valid b bs token
    obtain ⟨first, second⟩ := blocks b bs token
    refine ⟨u, page, slice, { ok with
      page_of := kept u _ page first ok.page_of
      slice_of := kept u _ slice second ok.slice_of
      segment_of := (congrFun (congrFun same u) _).trans ok.segment_of
      heap_of := fun h known => ?_ }⟩
    obtain ⟨heap, owner⟩ := ok.heap_of h known
    exact ⟨heap, (congrFun heaps u).trans owner⟩

/-! ### Creation -/

theorem lookup_union_keys {m n : FMap (PageId A.Provenance) (PageState A)} :
    (m ∪ n).lookup q = if q ∈ m.keys then m.lookup q else n.lookup q := by
  by_cases inside : q ∈ m.keys
  · rw [if_pos inside, Finmap.lookup_union_left (Finmap.mem_keys.mp inside)]
  · rw [if_neg inside, Finmap.lookup_union_right fun here => inside (Finmap.mem_keys.mpr here)]

/-- Pages that nobody holds, disabled and without blocks. -/
theorem Inv.newPages (inv : Inv s) (found : s.threadLocalState.lookup t = some ts)
    {pageMap : FMap (PageId A.Provenance) (PageState A)} {v : A.SegmentSharedAccess}
    (segment : s.segmentOf t p.segmentId = some ⟨v, true⟩)
    (lies : ∀ q page, pageMap.lookup q = some page → q.segmentId = p.segmentId ∧
      page.offset + p.idx = q.idx)
    (off : ∀ q page, pageMap.lookup q = some page → page.isEnabled = false)
    (empty : ∀ q page, pageMap.lookup q = some page → page.numBlocks = 0)
    (first : pageMap.lookup p = some page)
    (absent : ∀ q, q ∈ pageMap.keys → ∀ u, s.pageOf u q = none) :
    Inv { s.setThread t { ts with pages := pageMap ∪ ts.pages } with
      heapOfPage := s.heapOfPage.insert p ts.heapId
      delay := s.delay.insert p .useDelayedFree } := by
  have member : p ∈ pageMap.keys := FMap.mem_keys_iff.mpr ⟨page, first⟩
  have unheaped : ∀ q ∈ pageMap.keys, s.heapOfPage.lookup q = none := by
    intro q inside
    by_contra heap
    obtain ⟨h, heap⟩ := Option.ne_none_iff_exists'.mp heap
    obtain ⟨u, page', _, there, _⟩ := (inv.pages.heap_of_page q h).mp heap
    rw [absent q inside] at there
    cases there
  refine inv.changeIdlePages (f := fun q => pageMap.lookup q) { ts with pages := pageMap ∪ ts.pages }
    s.pageSharedAccess (s.heapOfPage.insert p ts.heapId) (s.delay.insert p .useDelayedFree)
    found (fun q => lookup_union_keys) rfl rfl (fun q inside => ?_) (fun q w => ?_) (fun q h => ?_)
    (fun q => ?_) (fun q => ⟨fun inside => ?_, fun outside => ?_⟩) (fun q inside => ?_)
    (fun b bs token => ?_) fun q _ page here _ => empty q page here
  · obtain ⟨page, here⟩ := FMap.mem_keys_iff.mp inside
    rw [(lies q page here).1]
    exact ⟨v, segment⟩
  · by_cases inside : q ∈ pageMap.keys
    · rw [if_pos inside]
      refine iff_of_false (fun deposited => ?_) ?_
      · obtain ⟨u, page, there, _⟩ := (inv.pages.page_access q w).mp deposited
        rw [absent q inside] at there
        cases there
      · rintro ⟨page, here, enabled, _⟩
        rw [off q page here] at enabled
        cases enabled
    · rw [if_neg inside]
  · rw [FMap.lookup_insert]
    by_cases inside : q ∈ pageMap.keys
    · rw [if_pos inside, unheaped q inside]
      obtain ⟨page', here⟩ := FMap.mem_keys_iff.mp inside
      obtain ⟨segment, position⟩ := lies q page' here
      by_cases this : q = p
      · rw [if_pos this]
        rw [this] at position here ⊢
        refine ⟨fun same => ⟨page', here, by omega, Option.some.inj same⟩, ?_⟩
        rintro ⟨_, _, _, rfl⟩
        rfl
      · rw [if_neg this]
        refine iff_of_false (Option.some_ne_none h).symm ?_
        rintro ⟨page'', here', offset, _⟩
        rw [here] at here'
        cases here'
        exact this (pageId_eq segment (by omega))
    · rw [if_neg inside, if_neg]
      rintro rfl
      exact inside member
  · have := inv.pages.heap_of_page_delay q
    rw [FMap.lookup_insert, FMap.lookup_insert]
    by_cases same : q = p
    · rw [if_pos same, if_pos same]
      exact iff_of_false (Option.some_ne_none _) (Option.some_ne_none _)
    · rw [if_neg same, if_neg same]
      exact this
  · have := (inv.pages.heap_of_page_delay q).mpr (unheaped q inside)
    grind [FMap.lookup_insert]
  · rw [FMap.lookup_insert, if_neg]
    rintro rfl
    exact outside member
  · by_contra actor
    obtain ⟨u, page', here, _⟩ := inv.actor_page actor
    rw [absent q inside] at here
    cases here
  · obtain ⟨u, page, slice, ok⟩ := inv.blocks.block_valid b bs token
    have first := ok.page_of
    have second := ok.slice_of
    refine ⟨fun inside => ?_, fun inside => ?_⟩
    · rw [absent _ inside] at first
      cases first
    · rw [absent _ inside] at second
      cases second

theorem createPageMkTokens_keeps (inv : Inv s) (threadId : ThreadId) (pageId : PageId A.Provenance)
    (nSlices blockSize : Nat) (pageMap : FMap (PageId A.Provenance) (PageState A)) :
    Ensures (createPageMkTokens threadId pageId nSlices blockSize pageMap) s fun _ t => Inv t := by
  refine .bind (.remove fun ts found => .bind (.entry fun segment enabled => .bind (.require fun on =>
    .bind (.require fun range => .bind (.require fun offset => .bind (.require fun off =>
    .bind (.require fun empty => .bind (.entry fun page first => .bind (.require fun size =>
    .bind (.require fun apart => ?_))))))))))
  change s.threadLocalState.lookup threadId = some ts at found
  rw [← segmentOf_of_thread found] at enabled
  obtain ⟨v, _⟩ := segment
  cases on
  have lies : ∀ q page, pageMap.lookup q = some page → q.segmentId = pageId.segmentId ∧
      page.offset + pageId.idx = q.idx := by
    intro q page here
    have inside := FMap.mem_keys_iff.mpr ⟨page, here⟩
    rw [range] at inside
    exact ⟨(mem_rangeFrom.mp inside).1, FMap.all_iff.mp offset q page here⟩
  have absent : ∀ q ∈ pageMap.keys, ∀ u, s.pageOf u q = none := by
    intro q inside u
    by_contra held
    obtain ⟨page', there⟩ := Option.ne_none_iff_exists'.mp held
    obtain ⟨page, here⟩ := FMap.mem_keys_iff.mp inside
    obtain ⟨w, segment⟩ := inv.pages.page_segment u q page' there
    rw [(lies q page here).1] at segment
    cases inv.segments.owner_unique segment enabled
    rw [pageOf_of_thread found] at there
    exact Finset.disjoint_left.mp apart (FMap.mem_keys_iff.mpr ⟨page', there⟩) inside
  have unheaped : s.heapOfPage.lookup pageId = none := by
    by_contra heap
    obtain ⟨h, heap⟩ := Option.ne_none_iff_exists'.mp heap
    obtain ⟨u, page', _, there, _⟩ := (inv.pages.heap_of_page pageId h).mp heap
    rw [absent pageId (FMap.mem_keys_iff.mpr ⟨page, first⟩)] at there
    cases there
  refine .bind (.add (Finmap.lookup_erase _ _) (.bind (.add unheaped (.add
    ((inv.pages.heap_of_page_delay pageId).mpr unheaped) ?_))))
  show Inv { s with
    threadLocalState := (s.threadLocalState.erase threadId).insert threadId
      { ts with pages := pageMap ∪ ts.pages }
    heapOfPage := s.heapOfPage.insert pageId ts.heapId
    delay := s.delay.insert pageId .useDelayedFree }
  rw [FMap.insert_erase]
  exact inv.newPages found enabled lies (FMap.all_iff.mp off) (FMap.all_iff.mp empty) first absent

/-! ### Enabled and disabled pages -/

/-- Blocks lie on enabled pages. -/
theorem Inv.blocks_enabled (inv : Inv s) (off : ∀ q ∈ D, ∃ page, s.pageOf t q = some page ∧
    page.isEnabled = false) {b : BlockId A.Provenance} {bs : BlockState A}
    (token : s.block.lookup b = some bs) : b.pageId ∉ D ∧ b.pageIdForSlice ∉ D := by
  obtain ⟨u, page, slice, ok⟩ := inv.blocks.block_valid b bs token
  refine ⟨fun inside => ?_, fun inside => ?_⟩
  · obtain ⟨old, here, disabled⟩ := off _ inside
    cases inv.owner_unique here ok.page_of
    rw [ok.page_of] at here
    cases here
    exact absurd ok.page_enabled (by rw [disabled]; exact Bool.false_ne_true)
  · obtain ⟨old, here, disabled⟩ := off _ inside
    cases inv.owner_unique here ok.slice_of
    rw [ok.slice_of] at here
    cases here
    exact absurd ok.slice_enabled (by rw [disabled]; exact Bool.false_ne_true)

/-- Actors stand on enabled pages. -/
theorem Inv.actors_enabled (inv : Inv s) (off : ∀ q ∈ D, ∃ page, s.pageOf t q = some page ∧
    page.isEnabled = false) (inside : q ∈ D) : s.delayActor.lookup q = none := by
  by_contra actor
  obtain ⟨u, page, there, _, enabled⟩ := inv.actor_page actor
  obtain ⟨old, here, disabled⟩ := off q inside
  cases inv.owner_unique here there
  rw [there] at here
  cases here
  rw [disabled] at enabled
  cases enabled

/-- A page of a thread is not deposited twice: disabled pages are not deposited. -/
theorem Inv.disabled_not_deposited (inv : Inv s) (here : s.pageOf t q = some page)
    (disabled : page.isEnabled = false) : s.pageSharedAccess.lookup q = none := by
  by_contra deposited
  obtain ⟨v, deposited⟩ := Option.ne_none_iff_exists'.mp deposited
  obtain ⟨u, page', there, enabled, _⟩ := (inv.pages.page_access q v).mp deposited
  cases inv.owner_unique here there
  rw [here] at there
  cases there
  rw [disabled] at enabled
  cases enabled

/-- Pages that keep their offsets keep their heaps. -/
theorem Inv.heap_of_page_keeps (inv : Inv s) (found : s.threadLocalState.lookup t = some ts)
    (keeps : ∀ q ∈ D, ∃ old page, s.pageOf t q = some old ∧ f q = some page ∧
      page.offset = old.offset) (q : PageId A.Provenance) (h : HeapId A.Provenance) :
    s.heapOfPage.lookup q = some h ↔
      if q ∈ D then ∃ page, f q = some page ∧ page.offset = 0 ∧ ts.heapId = h
      else s.heapOfPage.lookup q = some h := by
  by_cases inside : q ∈ D
  · obtain ⟨old, page, here, new, offset⟩ := keeps q inside
    rw [if_pos inside, new, inv.pages.heap_of_page]
    constructor
    · rintro ⟨u, page', heap, there, first, owner⟩
      cases inv.owner_unique here there
      rw [here] at there
      cases there
      rw [heapOf_of_thread found] at owner
      cases owner
      exact ⟨page, rfl, offset.trans first, rfl⟩
    · rintro ⟨_, ⟨⟩, first, rfl⟩
      exact ⟨t, old, ts.heap, here, offset.symm.trans first, heapOf_of_thread found⟩
  · rw [if_neg inside]

/-- Disabled pages are enabled, with new shared accesses. -/
theorem Inv.enablePages (inv : Inv s) (found : s.threadLocalState.lookup t = some ts)
    {pageMap : FMap (PageId A.Provenance) (PageState A)}
    {psaMap : FMap (PageId A.Provenance) A.PageSharedAccess}
    (psa : ∀ q, psaMap.lookup q = (pageMap.lookup q).map PageState.sharedAccess)
    (old : ∀ q page, pageMap.lookup q = some page → ∃ old, s.pageOf t q = some old ∧
      old.isEnabled = false ∧
      page = { old with isEnabled := true, sharedAccess := page.sharedAccess }) :
    Inv { s.setThread t { ts with pages := pageMap ∪ ts.pages } with
      pageSharedAccess := psaMap ∪ s.pageSharedAccess } := by
  have off : ∀ q ∈ pageMap.keys, ∃ page, s.pageOf t q = some page ∧ page.isEnabled = false := by
    intro q inside
    obtain ⟨page, here⟩ := FMap.mem_keys_iff.mp inside
    obtain ⟨was, there, disabled, _⟩ := old q page here
    exact ⟨was, there, disabled⟩
  refine inv.changeIdlePages (f := fun q => pageMap.lookup q) { ts with pages := pageMap ∪ ts.pages }
    (psaMap ∪ s.pageSharedAccess) s.heapOfPage s.delay found (fun q => lookup_union_keys) rfl rfl
    (fun q inside => ?_) (fun q w => ?_) (inv.heap_of_page_keeps found fun q inside => ?_)
    inv.pages.heap_of_page_delay (fun q => ⟨fun inside => ⟨fun freeing => ?_, inv.delays.delay_state q⟩, fun _ => rfl⟩)
    (fun q inside => inv.actors_enabled off inside) (fun b bs token => inv.blocks_enabled off token)
    fun q _ page here empty => ?_
  · obtain ⟨page, here, _⟩ := off q inside
    exact inv.pages.page_segment t q page here
  · rw [FMap.lookup_union, psa]
    by_cases inside : q ∈ pageMap.keys
    · obtain ⟨page, here⟩ := FMap.mem_keys_iff.mp inside
      obtain ⟨was, _, _, same⟩ := old q page here
      rw [if_pos inside, here, Option.map_some, Option.some_or]
      refine ⟨fun deposited => ⟨page, rfl, by rw [same], Option.some.inj deposited⟩, ?_⟩
      rintro ⟨_, ⟨⟩, _, rfl⟩
      rfl
    · rw [if_neg inside, Finmap.lookup_eq_none.mpr fun here => inside (Finmap.mem_keys.mpr here),
        Option.map_none, Option.none_or]
  · obtain ⟨page, here⟩ := FMap.mem_keys_iff.mp inside
    obtain ⟨was, there, _, same⟩ := old q page here
    exact ⟨was, page, there, here, by rw [same]⟩
  · exact (inv.delays.delay_actor_freeing q).mp freeing (inv.actors_enabled off inside)
  · obtain ⟨was, there, _, same⟩ := old q page here
    rw [same]
    exact empty was there

theorem pageEnable_keeps (inv : Inv s) (threadId : ThreadId) (pageId : PageId A.Provenance)
    (nSlices : Nat) (pageMap : FMap (PageId A.Provenance) (PageState A))
    (psaMap : FMap (PageId A.Provenance) A.PageSharedAccess) :
    Ensures (pageEnable threadId pageId nSlices pageMap psaMap) s fun _ t => Inv t := by
  refine .bind (.remove fun ts found => .bind (.require fun range => .bind (.require fun keys =>
    .bind (.require fun psa => .bind (.require fun offset => .bind (.require fun off =>
    .bind (.require fun new => ?_)))))))
  change s.threadLocalState.lookup threadId = some ts at found
  have access : ∀ q, psaMap.lookup q = (pageMap.lookup q).map PageState.sharedAccess := by
    intro q
    cases here : pageMap.lookup q with
    | none =>
        rw [Option.map_none, Finmap.lookup_eq_none]
        intro inside
        have := Finmap.mem_keys.mpr inside
        rw [← keys, Finmap.mem_keys] at this
        exact Finmap.lookup_eq_none.mp here this
    | some page => exact FMap.all_iff.mp psa q page here
  have old : ∀ q page, pageMap.lookup q = some page → ∃ old, s.pageOf threadId q = some old ∧
      old.isEnabled = false ∧
      page = { old with isEnabled := true, sharedAccess := page.sharedAccess } := by
    intro q page here
    have disabled := FMap.all_iff.mp off q page here
    have same := FMap.all_iff.mp new q page here
    rw [pageOf_of_thread found]
    rw [FMap.all_iff.mp psa q page here] at same
    cases was : ts.pages.lookup q with
    | none =>
        rw [was] at disabled
        cases disabled
    | some old =>
        rw [was] at disabled same
        exact ⟨old, rfl, beq_iff_eq.mp disabled, beq_iff_eq.mp same⟩
  refine .bind (.add (Finmap.lookup_erase _ _) (.addAll (fun q v here => ?_) ?_))
  · rw [access] at here
    obtain ⟨page, here, _⟩ := Option.map_eq_some_iff.mp here
    obtain ⟨was, there, disabled, _⟩ := old q page here
    exact inv.disabled_not_deposited there disabled
  · show Inv { s with
      threadLocalState := (s.threadLocalState.erase threadId).insert threadId
        { ts with pages := pageMap ∪ ts.pages }
      pageSharedAccess := psaMap ∪ s.pageSharedAccess }
    rw [FMap.insert_erase]
    exact inv.enablePages found access old

/-- A page without blocks whose thread has recorded it as checked, with all its slices. -/
theorem Inv.disablePages (inv : Inv s) (found : s.threadLocalState.lookup t = some ts)
    {cs : ThreadCheckedState A} (recorded : s.threadCheckedState.lookup t = some cs)
    (member : p ∈ cs.pages) (empty : ∀ page, s.pageOf t p = some page → page.numBlocks = 0)
    (range : ∀ q ∈ D, q.segmentId = p.segmentId ∧ ∃ page, s.pageOf t q = some page ∧
      page.isEnabled = true ∧ page.offset = (q.idx : Int) - p.idx)
    (change : ∀ q, ts'.pages.lookup q =
      if q ∈ D then (s.pageOf t q).map fun page => { page with isEnabled := false }
      else ts.pages.lookup q)
    (heap : (ts'.heapId, ts'.heap) = (ts.heapId, ts.heap)) (segments : ts'.segments = ts.segments) :
    Inv { s.setThread t ts' with pageSharedAccess := FMap.removeKeys s.pageSharedAccess D } := by
  have first : ∀ u q page, q ∈ D → s.pageOf u q = some page → page.offset = 0 → q = p := by
    intro u q page inside there offset
    obtain ⟨segment, page', here, _, position⟩ := range q inside
    cases inv.owner_unique here there
    rw [here] at there
    cases there
    exact pageId_eq segment (by omega)
  have actors : ∀ q ∈ D, s.delayActor.lookup q = none := by
    intro q inside
    by_contra actor
    obtain ⟨u, page, there, offset, _⟩ := inv.actor_page actor
    rw [first u q page inside there offset] at actor
    exact actor (inv.delays.checked t cs p recorded member).1
  refine inv.changeIdlePages ts' (FMap.removeKeys s.pageSharedAccess D) s.heapOfPage s.delay found
    change heap segments (fun q inside => ?_) (fun q w => ?_)
    (inv.heap_of_page_keeps found fun q inside => ?_) inv.pages.heap_of_page_delay
    (fun q => ⟨fun inside => ⟨fun freeing => ?_, inv.delays.delay_state q⟩, fun _ => rfl⟩) actors
    (fun b bs token => ?_) fun q inside page here empty => ?_
  · obtain ⟨_, page, here, _⟩ := range q inside
    exact inv.pages.page_segment t q page here
  · rw [FMap.lookup_removeKeys]
    by_cases inside : q ∈ D
    · rw [if_pos inside, if_pos inside]
      refine iff_of_false (Option.some_ne_none w).symm ?_
      rintro ⟨page, off, enabled, _⟩
      obtain ⟨_, _, rfl⟩ := Option.map_eq_some_iff.mp off
      cases enabled
    · rw [if_neg inside, if_neg inside]
  · obtain ⟨_, page, here, _⟩ := range q inside
    refine ⟨page, { page with isEnabled := false }, here, ?_, rfl⟩
    rw [here, Option.map_some]
  · exact (inv.delays.delay_actor_freeing q).mp freeing (actors q inside)
  · -- the slice of a block belongs to the page of the block
    obtain ⟨u, page, slice, ok⟩ := inv.blocks.block_valid b bs token
    have other : b.pageId ≠ p := by
      rintro rfl
      have owner := inv.page_owner ok.page_of
      rw [(inv.delays.checked t cs b.pageId recorded member).2.1] at owner
      cases owner
      have := empty page ok.page_of
      have := ok.idx_lt
      omega
    refine ⟨fun inside => other (first u _ page inside ok.page_of ok.page_offset), fun inside => ?_⟩
    obtain ⟨segment, slice', here, _, position⟩ := range _ inside
    cases inv.owner_unique here ok.slice_of
    rw [ok.slice_of] at here
    cases here
    have offset := ok.slice_offset
    change slice.offset = (b.sliceIdx : Int) - p.idx at position
    exact other (pageId_eq segment (by omega))
  · obtain ⟨_, was, there, _⟩ := range q inside
    rw [there, Option.map_some] at here
    cases here
    exact empty was there

theorem pageDisable_ensures (inv : Inv s) (threadId : ThreadId) (pageId : PageId A.Provenance)
    (nSlices : Nat) : Ensures (pageDisable threadId pageId nSlices) s fun _ t =>
      Inv t ∧ t.block = s.block ∧ t.delayActor = s.delayActor ∧
        t.segmentSharedAccess = s.segmentSharedAccess ∧ t.heapSharedAccess = s.heapSharedAccess ∧
        t.pageSharedAccess = FMap.removeKeys s.pageSharedAccess (rangeFrom pageId 0 nSlices) := by
  refine .bind (.remove fun ts found => .bind (.holds fun cs recorded => .bind (.entry fun page here =>
    .bind (.require fun on => .bind (.require fun member => .bind (.require fun empty =>
    .bind (.require fun inside => .bind (.require fun slices => ?_))))))))
  change s.threadLocalState.lookup threadId = some ts at found
  change s.threadCheckedState.lookup threadId = some cs at recorded
  have range : ∀ q ∈ rangeFrom pageId 0 nSlices, q.segmentId = pageId.segmentId ∧
      ∃ page, s.pageOf threadId q = some page ∧ page.isEnabled = true ∧
        page.offset = (q.idx : Int) - pageId.idx := by
    intro q within
    have fits := slices q within
    rw [pageOf_of_thread found]
    refine ⟨(mem_rangeFrom.mp within).1, ?_⟩
    cases there : ts.pages.lookup q with
    | none =>
        rw [there] at fits
        cases fits
    | some page =>
        rw [there, Option.any_some, Bool.and_eq_true, beq_iff_eq] at fits
        exact ⟨page, rfl, fits⟩
  have keys : (FMap.collect (rangeFrom pageId 0 nSlices) fun pid =>
      (ts.pages.lookup pid).map PageState.sharedAccess).keys = rangeFrom pageId 0 nSlices := by
    ext q
    rw [FMap.mem_keys_iff, FMap.lookup_collect]
    by_cases within : q ∈ rangeFrom pageId 0 nSlices
    · obtain ⟨_, page, there, _⟩ := range q within
      rw [pageOf_of_thread found] at there
      rw [if_pos within, there]
      exact iff_of_true ⟨_, rfl⟩ within
    · rw [if_neg within]
      exact iff_of_false (by rintro ⟨_, ⟨⟩⟩) within
  refine .bind (.add (Finmap.lookup_erase _ _) (.withdrawAll (fun q v deposit => ?_) ?_))
  · rw [FMap.lookup_collect] at deposit
    by_cases within : q ∈ rangeFrom pageId 0 nSlices
    · obtain ⟨_, page, there, enabled, _⟩ := range q within
      rw [if_pos within, ← pageOf_of_thread found, there] at deposit
      exact (inv.pages.page_access q v).mpr ⟨threadId, page, there, enabled, Option.some.inj deposit⟩
    · rw [if_neg within] at deposit
      cases deposit
  · rw [keys]
    refine ⟨?_, rfl, rfl, rfl, rfl, rfl⟩
    show Inv { s with
      threadLocalState := (s.threadLocalState.erase threadId).insert threadId { ts with
        pages := (FMap.collect (rangeFrom pageId 0 nSlices) fun pid =>
          (ts.pages.lookup pid).map fun p => { p with isEnabled := false }) ∪ ts.pages }
      pageSharedAccess := FMap.removeKeys s.pageSharedAccess (rangeFrom pageId 0 nSlices) }
    rw [FMap.insert_erase]
    refine inv.disablePages found recorded member (fun page' there => ?_) range (fun q => ?_) rfl rfl
    · rw [pageOf_of_thread found, here] at there
      cases there
      exact empty
    · show (_ ∪ ts.pages).lookup q = _
      rw [FMap.lookup_union, FMap.lookup_collect, pageOf_of_thread found]
      by_cases within : q ∈ rangeFrom pageId 0 nSlices
      · rw [if_pos within, if_pos within]
        cases ts.pages.lookup q with
        | none => rfl
        | some page => rfl
      · rw [if_neg within, if_neg within, Option.none_or]

/-! ### Destruction -/

/-- A disabled page goes, with all its slices. -/
theorem Inv.destroyPages (inv : Inv s) (found : s.threadLocalState.lookup t = some ts)
    (range : ∀ q ∈ D, ∃ page, s.pageOf t q = some page ∧ page.isEnabled = false ∧
      (q ≠ p → page.offset ≠ 0)) (first : p ∈ D) :
    Inv { s.setThread t { ts with pages := FMap.removeKeys ts.pages D } with
      heapOfPage := s.heapOfPage.erase p
      delay := s.delay.erase p } := by
  have off : ∀ q ∈ D, ∃ page, s.pageOf t q = some page ∧ page.isEnabled = false := by
    intro q inside
    obtain ⟨page, here, disabled, _⟩ := range q inside
    exact ⟨page, here, disabled⟩
  have unheaped : ∀ q ∈ D, q ≠ p → s.heapOfPage.lookup q = none := by
    intro q inside other
    by_contra heap
    obtain ⟨h, heap⟩ := Option.ne_none_iff_exists'.mp heap
    obtain ⟨u, page, _, there, offset, _⟩ := (inv.pages.heap_of_page q h).mp heap
    obtain ⟨page', here, _, later⟩ := range q inside
    cases inv.owner_unique here there
    rw [here] at there
    cases there
    exact later other offset
  have gone : ∀ q ∈ D, (s.heapOfPage.erase p).lookup q = none := by
    intro q inside
    rw [FMap.lookup_erase]
    by_cases this : q = p
    · rw [if_pos this]
    · rw [if_neg this]
      exact unheaped q inside this
  have outside : ∀ q, q ∉ D → q ≠ p := by
    rintro q away rfl
    exact away first
  have delays : ∀ q, (s.delay.erase p).lookup q = none ↔ (s.heapOfPage.erase p).lookup q = none := by
    intro q
    have := inv.pages.heap_of_page_delay q
    rw [FMap.lookup_erase, FMap.lookup_erase]
    by_cases same : q = p
    · rw [if_pos same, if_pos same]
      exact iff_of_true rfl rfl
    · rw [if_neg same, if_neg same]
      exact this
  refine inv.changeIdlePages (f := fun _ => none) { ts with pages := FMap.removeKeys ts.pages D }
    s.pageSharedAccess (s.heapOfPage.erase p) (s.delay.erase p) found
    (fun q => FMap.lookup_removeKeys _ _) rfl rfl (fun q inside => ?_) (fun q w => ?_) (fun q h => ?_)
    delays (fun q => ⟨fun inside => ?_, fun away => ?_⟩)
    (fun q inside => inv.actors_enabled off inside) (fun b bs token => inv.blocks_enabled off token)
    fun q _ page wrong _ => by cases wrong
  · obtain ⟨page, here, _⟩ := off q inside
    exact inv.pages.page_segment t q page here
  · by_cases inside : q ∈ D
    · obtain ⟨page, here, disabled⟩ := off q inside
      rw [if_pos inside, inv.disabled_not_deposited here disabled]
      exact iff_of_false (Option.some_ne_none w).symm (by rintro ⟨_, ⟨⟩, _⟩)
    · rw [if_neg inside]
  · by_cases inside : q ∈ D
    · rw [if_pos inside, gone q inside]
      exact iff_of_false (Option.some_ne_none h).symm (by rintro ⟨_, ⟨⟩, _⟩)
    · rw [if_neg inside, FMap.lookup_erase, if_neg (outside q inside)]
  · rw [(delays q).mpr (gone q inside)]
    exact ⟨(Option.some_ne_none _).symm, (Option.some_ne_none _).symm⟩
  · rw [FMap.lookup_erase, if_neg (outside q away)]

theorem pageDestroyTokens_keeps (inv : Inv s) (threadId : ThreadId) (pageId : PageId A.Provenance)
    (nSlices : Nat) : Ensures (pageDestroyTokens threadId pageId nSlices) s fun _ t => Inv t := by
  refine .bind (.remove fun _ _ => .bind (.remove fun _ _ => .bind (.remove fun ts found =>
    .bind (.require fun inside => .bind (.require fun nonempty => .bind (.require fun off =>
    .bind (.require fun later => .add (Finmap.lookup_erase _ _) ?_)))))))
  change s.threadLocalState.lookup threadId = some ts at found
  show Inv { s with
    threadLocalState := (s.threadLocalState.erase threadId).insert threadId
      { ts with pages := FMap.removeKeys ts.pages (rangeFrom pageId 0 nSlices) }
    heapOfPage := s.heapOfPage.erase pageId
    delay := s.delay.erase pageId }
  rw [FMap.insert_erase]
  refine inv.destroyPages found (fun q within => ?_) (mem_rangeFrom.mpr ⟨rfl, by omega, by omega⟩)
  obtain ⟨page, here⟩ := FMap.mem_keys_iff.mp (inside within)
  have disabled := off q within
  rw [here, Option.all_some, beq_iff_eq] at disabled
  refine ⟨page, (pageOf_of_thread found).trans here, disabled, fun other => ?_⟩
  have offset := later q within other.symm
  rw [here, Option.all_some, bne_iff_ne] at offset
  exact offset

end VerusMimalloc.Mim
