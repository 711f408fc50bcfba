/-
**Threads and segments.**

The transitions that set identifiers aside, register a thread with its heap, and give a thread a
segment keep the invariant. A new heap is not deposited because its `uniq` was set aside; a new
segment belongs to nobody because its `uniq` is above all others.
-/

import VerusMimalloc.Proof.Tokens.Delays

namespace VerusMimalloc.Mim

open Library (FMap Ensures)

variable {A : Accesses} {s : State A} {p : PageId A.Provenance} {t u : ThreadId}
  {ts : ThreadState A} {g k : SegmentId A.Provenance}

theorem reserveUniqIdentifier_keeps (inv : Inv s) :
    Ensures reserveUniqIdentifier s fun _ t => Inv t := by
  have fresh : ∀ h ∈ s.heapSharedAccess.keys ∪ s.reservedUniq,
      h.uniq ≠ heapGetUnusedUniqField (s.heapSharedAccess.keys ∪ s.reservedUniq) :=
    fun h inside => heapGetUnusedUniqField_ne inside
  refine .bind (.pre (.bind (.assert (fun inside => ?_) (.replace ?_))))
  · exact fresh _ (Finset.mem_union_right _ inside) rfl
  · refine ⟨?_, { inv.segments with }, { inv.pages with }, { inv.delays with },
      inv.blocks.frame rfl rfl rfl rfl⟩
    refine { inv.heaps with
      reserved := fun h inside => ?_
      reserved_fresh := fun h inside h' v deposited => ?_ }
    · rcases Finset.mem_insert.mp inside with rfl | old
      · exact ⟨rfl, rfl⟩
      · exact inv.heaps.reserved h old
    · rcases Finset.mem_insert.mp inside with rfl | old
      · have := fresh h' (Finset.mem_union_left _ (FMap.mem_keys_iff.mpr ⟨v, deposited⟩))
        exact fun same => this same.symm
      · exact inv.heaps.reserved_fresh h old h' v deposited

/-! ### A new thread -/

theorem lookup_of_keys_empty {K V : Type} [DecidableEq K] {m : FMap K V} (empty : m.keys = ∅)
    (k : K) : m.lookup k = none := by
  refine Finmap.lookup_eq_none.mpr fun inside => ?_
  have := Finmap.mem_keys.mpr inside
  rw [empty] at this
  exact absurd this (Finset.notMem_empty k)

theorem segmentOf_newThread (unowned : s.threadLocalState.lookup t = none)
    (empty : ts.segments.keys = ∅) : (s.setThread t ts).segmentOf = s.segmentOf := by
  funext u g
  rw [segmentOf_setThread, lookup_of_keys_empty empty]
  by_cases this : u = t
  · rw [if_pos this, this, State.segmentOf, unowned, Option.bind_none]
  · rw [if_neg this]

theorem pageOf_newThread (unowned : s.threadLocalState.lookup t = none) (empty : ts.pages.keys = ∅) :
    (s.setThread t ts).pageOf = s.pageOf := by
  funext u p
  rw [pageOf_setThread, lookup_of_keys_empty empty]
  by_cases this : u = t
  · rw [if_pos this, this, State.pageOf, unowned, Option.bind_none]
  · rw [if_neg this]

theorem heapOf_newThread (unowned : s.threadLocalState.lookup t = none) {h : HeapId A.Provenance}
    {heap : HeapState A} (owner : s.heapOf u = some (h, heap)) :
    (s.setThread t ts).heapOf u = some (h, heap) := by
  rw [heapOf_setThread, if_neg]
  · exact owner
  · rintro rfl
    rw [heapOf_eq_none.mpr unowned] at owner
    cases owner

/-- Heaps after `create_thread_mk_tokens`. -/
theorem Heaps.newThread (inv : Heaps s) {inst : A.InstanceId} (set : s.myInst = some inst)
    (wf : A.wf2 ts.heap.sharedAccess ts.heapId inst = true)
    (unowned : s.threadLocalState.lookup t = none)
    (fresh : s.heapSharedAccess.lookup ts.heapId = none) :
    Heaps { s.setThread t ts with
      rightToUseThread := Function.update s.rightToUseThread t false
      reservedUniq := s.reservedUniq.erase ⟨0, A.null, ts.heapId.uniq⟩
      heapSharedAccess := s.heapSharedAccess.insert ts.heapId ts.heap.sharedAccess
      heapToThread := s.heapToThread.insert ts.heapId t
      threadCheckedState := s.threadCheckedState.insert t ⟨∅⟩ } := by
  have absent := heapOf_eq_none.mpr unowned
  have heaps : ∀ u, (s.setThread t ts).heapOf u =
      if u = t then some (ts.heapId, ts.heap) else s.heapOf u := fun u => heapOf_setThread
  refine ⟨fun h inside => ?_, fun h inside h' v deposited => ?_, inv.right_to_set_inst,
    fun h v deposited => ?_, fun u => ?_, fun u => ?_, fun u h heap owner => ?_, fun h u owner => ?_⟩
  · exact inv.reserved h (Finset.mem_of_mem_erase inside)
  · obtain ⟨different, old⟩ := Finset.mem_erase.mp inside
    rw [FMap.lookup_insert] at deposited
    by_cases this : h' = ts.heapId
    · rintro same
      obtain ⟨id, provenance⟩ := inv.reserved h old
      apply different
      rw [← this, ← same, ← id, ← provenance]
    · rw [if_neg this] at deposited
      exact inv.reserved_fresh h old h' v deposited
  · rw [FMap.lookup_insert] at deposited
    by_cases this : h = ts.heapId
    · rw [if_pos this] at deposited
      cases deposited
      exact ⟨inst, set, this ▸ wf⟩
    · rw [if_neg this] at deposited
      exact inv.heap_wf h v deposited
  · show Function.update s.rightToUseThread t false u = true ↔ (s.setThread t ts).heapOf u = none
    have := inv.right_to_use_thread u
    grind [Function.update_apply]
  · show (s.setThread t ts).heapOf u = none ↔ (s.threadCheckedState.insert t ⟨∅⟩).lookup u = none
    have := inv.checked_threads u
    grind [FMap.lookup_insert]
  · change (s.setThread t ts).heapOf u = some (h, heap) at owner
    have := inv.heap_of_thread u h heap
    grind [FMap.lookup_insert]
  · change (s.heapToThread.insert ts.heapId t).lookup h = some u at owner
    show ∃ heap, (s.setThread t ts).heapOf u = some (h, heap)
    have := inv.thread_of_heap h u
    grind [FMap.lookup_insert]

theorem createThreadMkTokens_keeps (inv : Inv s) (threadId : ThreadId) (threadState : ThreadState A) :
    Ensures (createThreadMkTokens threadId threadState) s fun _ t => Inv t := by
  refine .bind (.pre (.bind (.require fun right => .bind (.replace (.bind (.require fun reserved =>
    .bind (.replace ?_)))))))
  refine .bind (.require fun noPages => .bind (.require fun noSegments => .bind
    (haveInst_ensures fun inst set => .bind (.require fun wf => ?_))))
  change s.rightToUseThread threadId = true at right
  change s.myInst = some inst at set
  have absent := (inv.heaps.right_to_use_thread threadId).mp right
  have unowned := heapOf_eq_none.mp absent
  have unchecked := (inv.heaps.checked_threads threadId).mp absent
  have fresh : s.heapSharedAccess.lookup threadState.heapId = none := by
    by_contra deposited
    obtain ⟨v, deposited⟩ := Option.ne_none_iff_exists'.mp deposited
    exact inv.heaps.reserved_fresh _ reserved _ v deposited rfl
  refine .bind (.add fresh (.bind (.replace (.bind (.add unowned (.add unchecked ?_))))))
  show Inv { s.setThread threadId threadState with
    rightToUseThread := Function.update s.rightToUseThread threadId false
    reservedUniq := s.reservedUniq.erase ⟨0, A.null, threadState.heapId.uniq⟩
    heapSharedAccess := s.heapSharedAccess.insert threadState.heapId threadState.heap.sharedAccess
    heapToThread := s.heapToThread.insert threadState.heapId threadId
    threadCheckedState := s.threadCheckedState.insert threadId ⟨∅⟩ }
  have segments := segmentOf_newThread unowned noSegments
  have pages := pageOf_newThread unowned noPages
  refine ⟨inv.heaps.newThread set wf unowned fresh, inv.segments.frame rfl segments rfl,
    inv.pages.mono rfl rfl rfl pages (fun u p page found => ?_) fun _ _ _ found => ?_,
    inv.delays.mono rfl rfl pages (fun _ _ _ => heapOf_newThread unowned) (fun _ _ found => found)
      fun u cs p recorded member => ?_,
    inv.blocks.mono rfl (fun _ _ _ => heapOf_newThread unowned) (fun _ _ _ found => ?_)
      fun _ _ _ found => ?_⟩
  · refine heapOf_setThread.trans (if_neg ?_)
    rintro rfl
    rw [State.pageOf, unowned] at found
    cases found
  · exact (congrFun (congrFun segments _) _).trans found
  · change (s.threadCheckedState.insert threadId ⟨∅⟩).lookup u = some cs at recorded
    rw [FMap.lookup_insert] at recorded
    by_cases this : u = threadId
    · rw [if_pos this] at recorded
      cases recorded
      exact absurd member (Finset.notMem_empty p)
    · rw [if_neg this] at recorded
      exact ⟨cs, recorded, member⟩
  · exact (congrFun (congrFun segments _) _).trans found
  · exact (congrFun (congrFun pages _) _).trans found

/-! ### Segments -/

/-- A new state of one segment of a thread. -/
theorem segmentOf_insert (found : s.threadLocalState.lookup t = some ts) {st : SegmentState A} :
    (s.setThread t { ts with segments := ts.segments.insert g st }).segmentOf u k =
      if u = t ∧ k = g then some st else s.segmentOf u k := by
  rw [segmentOf_setThread]
  by_cases this : u = t
  · subst this
    rw [if_pos rfl, FMap.lookup_insert, segmentOf_of_thread found]
    by_cases key : k = g
    · rw [if_pos key, if_pos ⟨rfl, key⟩]
    · rw [if_neg key, if_neg fun both => key both.2]
  · rw [if_neg this, if_neg fun both => this both.1]

/-- A segment of a new identifier. -/
theorem Inv.newSegment (inv : Inv s) (found : s.threadLocalState.lookup t = some ts)
    (fresh : s.threadOfSegment.lookup g = none) (unowned : ∀ u, s.segmentOf u g = none)
    {st : SegmentState A} (disabled : st.isEnabled = false) :
    Inv { s.setThread t { ts with segments := ts.segments.insert g st } with
      threadOfSegment := s.threadOfSegment.insert g t } := by
  have segments : ∀ u k, (s.setThread t { ts with segments := ts.segments.insert g st }).segmentOf u k =
      if u = t ∧ k = g then some st else s.segmentOf u k := fun u k => segmentOf_insert found
  generalize new : ({ ts with segments := ts.segments.insert g st } : ThreadState A) = ts' at *
  have heaps : (s.setThread t ts').heapOf = s.heapOf := heapOf_setThread_of_same found (by rw [← new])
  have pages : (s.setThread t ts').pageOf = s.pageOf := pageOf_setThread_of_same found (by rw [← new])
  have kept : ∀ u k st, s.segmentOf u k = some st → (s.setThread t ts').segmentOf u k = some st := by
    intro u k st old
    rw [segments, if_neg]
    · exact old
    · rintro ⟨_, rfl⟩
      rw [unowned] at old
      cases old
  refine ⟨{ inv.heaps.setThread heaps with }, ⟨fun k u => ?_, fun k v => ?_⟩,
    inv.pages.mono rfl rfl rfl pages (fun u _ _ _ => congrFun heaps u) kept,
    inv.delays.mono rfl rfl pages (fun u h heap owner => (congrFun heaps u).trans owner)
      (fun k u owner => ?_) (fun u cs p recorded member => ⟨cs, recorded, member⟩),
    inv.blocks.mono rfl (fun u h heap owner => (congrFun heaps u).trans owner) kept
      fun u p page old => (congrFun (congrFun pages u) p).trans old⟩
  · show (s.threadOfSegment.insert g t).lookup k = some u ↔
      ∃ st, (s.setThread t ts').segmentOf u k = some st
    rw [FMap.lookup_insert, segments]
    by_cases key : k = g
    · rw [if_pos key, key]
      by_cases this : u = t
      · rw [if_pos ⟨this, rfl⟩, this]
        exact iff_of_true rfl ⟨_, rfl⟩
      · rw [if_neg fun both => this both.1, unowned]
        exact iff_of_false (fun same => this (Option.some.inj same).symm) (by rintro ⟨_, ⟨⟩⟩)
    · rw [if_neg key, if_neg fun both => key both.2]
      exact inv.segments.thread_of_segment k u
  · show s.segmentSharedAccess.lookup k = some v ↔
      ∃ u, (s.setThread t ts').segmentOf u k = some ⟨v, true⟩
    rw [inv.segments.segment_access]
    refine exists_congr fun u => ?_
    rw [segments]
    by_cases key : u = t ∧ k = g
    · rw [if_pos key, key.2, unowned]
      grind
    · rw [if_neg key]
  · show (s.threadOfSegment.insert g t).lookup k = some u
    rw [FMap.lookup_insert, if_neg]
    · exact owner
    · rintro rfl
      rw [fresh] at owner
      cases owner

/-- A segment that becomes enabled. -/
theorem Inv.enableSegment (inv : Inv s) (found : s.threadLocalState.lookup t = some ts)
    {old : SegmentState A} {v : A.SegmentSharedAccess} (here : s.segmentOf t g = some old)
    (off : old.isEnabled = false) :
    Inv { s.setThread t { ts with segments := ts.segments.insert g ⟨v, true⟩ } with
      segmentSharedAccess := s.segmentSharedAccess.insert g v } := by
  have segments : ∀ u k, (s.setThread t
      { ts with segments := ts.segments.insert g ⟨v, true⟩ }).segmentOf u k =
        if u = t ∧ k = g then some ⟨v, true⟩ else s.segmentOf u k := fun u k => segmentOf_insert found
  generalize new : ({ ts with segments := ts.segments.insert g ⟨v, true⟩ } : ThreadState A) = ts' at *
  have heaps : (s.setThread t ts').heapOf = s.heapOf := heapOf_setThread_of_same found (by rw [← new])
  have pages : (s.setThread t ts').pageOf = s.pageOf := pageOf_setThread_of_same found (by rw [← new])
  have alone : ∀ u st, s.segmentOf u g = some st → u = t := fun u st there =>
    inv.segments.owner_unique there here
  have kept : ∀ u k w, s.segmentOf u k = some ⟨w, true⟩ →
      (s.setThread t ts').segmentOf u k = some ⟨w, true⟩ := by
    intro u k w enabled
    rw [segments, if_neg]
    · exact enabled
    · rintro ⟨rfl, rfl⟩
      rw [here] at enabled
      cases enabled
      cases off
  refine ⟨{ inv.heaps.setThread heaps with }, ⟨fun k u => ?_, fun k w => ?_⟩,
    ⟨fun u p page found => ?_, fun p w => ?_, fun p h => ?_, inv.pages.heap_of_page_delay⟩,
    inv.delays.mono rfl rfl pages (fun u h heap owner => (congrFun heaps u).trans owner)
      (fun k u owner => owner) (fun u cs p recorded member => ⟨cs, recorded, member⟩),
    fun b bs token => ?_, inv.blocks.block_right⟩
  · show s.threadOfSegment.lookup k = some u ↔ ∃ st, (s.setThread t ts').segmentOf u k = some st
    rw [inv.segments.thread_of_segment, segments]
    by_cases key : u = t ∧ k = g
    · rw [if_pos key, key.1, key.2]
      exact iff_of_true ⟨_, here⟩ ⟨_, rfl⟩
    · rw [if_neg key]
  · show (s.segmentSharedAccess.insert g v).lookup k = some w ↔
      ∃ u, (s.setThread t ts').segmentOf u k = some ⟨w, true⟩
    rw [FMap.lookup_insert]
    by_cases key : k = g
    · rw [if_pos key, key]
      constructor
      · rintro ⟨⟩
        exact ⟨t, (segments t g).trans (if_pos ⟨rfl, rfl⟩)⟩
      · rintro ⟨u, enabled⟩
        rw [segments] at enabled
        grind
    · rw [if_neg key, inv.segments.segment_access]
      refine exists_congr fun u => ?_
      rw [segments, if_neg fun both => key both.2]
  · change (s.setThread t ts').pageOf u p = some page at found
    rw [pages] at found
    obtain ⟨w, enabled⟩ := inv.pages.page_segment u p page found
    exact ⟨w, kept u _ w enabled⟩
  · exact Iff.trans (inv.pages.page_access p w) (by rw [← pages]; rfl)
  · exact Iff.trans (inv.pages.heap_of_page p h) (by rw [← pages, ← heaps]; rfl)
  · obtain ⟨u, page, slice, ok⟩ := inv.blocks.block_valid b bs token
    refine ⟨u, page, slice, { ok with
      page_of := (congrFun (congrFun pages u) _).trans ok.page_of
      slice_of := (congrFun (congrFun pages u) _).trans ok.slice_of
      segment_of := kept u _ _ ok.segment_of
      heap_of := fun h same => ?_ }⟩
    obtain ⟨heap, owner⟩ := ok.heap_of h same
    exact ⟨heap, (congrFun heaps u).trans owner⟩

theorem createSegmentMkTokens_keeps (inv : Inv s) (threadId : ThreadId)
    (preSegmentId : SegmentId A.Provenance) (segmentState : SegmentState A) :
    Ensures (createSegmentMkTokens threadId preSegmentId segmentState) s fun _ t => Inv t := by
  refine .bind (.pre (.bind (.require fun disabled => .bind (.remove fun ts found => ?_))))
  change s.threadLocalState.lookup threadId = some ts at found
  set g := mkFreshSegmentId s.threadOfSegment preSegmentId with new
  have fresh : s.threadOfSegment.lookup g = none := by
    refine Finmap.lookup_eq_none.mpr fun inside => ?_
    refine segmentGetUnusedUniqField_ne (Finmap.mem_keys.mpr inside) ?_
    rw [new]
    rfl
  have unowned : ∀ u, s.segmentOf u g = none := by
    intro u
    by_contra held
    have := (inv.segments.thread_of_segment g u).mpr (Option.ne_none_iff_exists'.mp held)
    rw [fresh] at this
    cases this
  refine .bind (.assert ?_ (.bind (.assert ⟨rfl, rfl⟩ (.bind (.add (Finmap.lookup_erase _ _)
    (.add fresh ?_))))))
  · refine Finmap.lookup_eq_none.mp ?_
    rw [← segmentOf_of_thread found]
    exact unowned threadId
  · show Inv { s with
      threadLocalState := (s.threadLocalState.erase threadId).insert threadId
        { ts with segments := ts.segments.insert g segmentState }
      threadOfSegment := s.threadOfSegment.insert g threadId }
    rw [FMap.insert_erase]
    exact inv.newSegment found fresh unowned disabled

theorem segmentEnable_keeps (inv : Inv s) (threadId : ThreadId) (segmentId : SegmentId A.Provenance)
    (sharedAccess : A.SegmentSharedAccess) :
    Ensures (segmentEnable threadId segmentId sharedAccess) s fun _ t => Inv t := by
  refine .bind (.remove fun ts found => .bind (.entry fun segment here => .bind (.require fun off =>
    .bind (.add (Finmap.lookup_erase _ _) (.add ?_ ?_)))))
  all_goals
    change s.threadLocalState.lookup threadId = some ts at found
    rw [← segmentOf_of_thread found] at here
  · by_contra deposited
    obtain ⟨v, deposited⟩ := Option.ne_none_iff_exists'.mp deposited
    obtain ⟨u, enabled⟩ := (inv.segments.segment_access _ _).mp deposited
    cases inv.segments.owner_unique here enabled
    rw [here] at enabled
    cases enabled
    cases off
  · show Inv { s with
      threadLocalState := (s.threadLocalState.erase threadId).insert threadId
        { ts with segments := ts.segments.insert segmentId ⟨sharedAccess, true⟩ }
      segmentSharedAccess := s.segmentSharedAccess.insert segmentId sharedAccess }
    rw [FMap.insert_erase]
    exact inv.enableSegment found here off

end VerusMimalloc.Mim
