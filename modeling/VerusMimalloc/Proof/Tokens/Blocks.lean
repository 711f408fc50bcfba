/-
**Block tokens.**

The transitions that make and destroy the tokens of a page's blocks, that record a page as checked,
and that compare block tokens keep the invariant.

* `Inv.renumber`: the number of blocks of a page changes, no token being beyond the new number;
* `Inv.addBlocks`, `Inv.removeBlocks`: the tokens alone;
* `all_blocks`: as many tokens as a page has blocks are all its tokens.
-/

import VerusMimalloc.Proof.Tokens.Pages

namespace VerusMimalloc.Mim

open Library (FMap Ensures)

variable {A : Accesses} {s : State A} {p : PageId A.Provenance} {t u : ThreadId}
  {ts : ThreadState A} {page : PageState A} {b : BlockId A.Provenance} {bs : BlockState A}

theorem mem_rangeBlockIds {lo hi size : Nat} :
    b ∈ rangeBlockIds lo hi p size ↔
      b.pageId = p ∧ lo ≤ b.idx ∧ b.idx < hi ∧ b.blockSize = size ∧ b.sliceIdxIsRight := by
  rw [rangeBlockIds, Finset.mem_image]
  constructor
  · rintro ⟨idx, inside, rfl⟩
    rw [Finset.mem_Ico] at inside
    exact ⟨rfl, inside.1, inside.2, rfl, rfl⟩
  · rintro ⟨rfl, lower, upper, rfl, right⟩
    refine ⟨b.idx, Finset.mem_Ico.mpr ⟨lower, upper⟩, ?_⟩
    rw [← (show b.sliceIdx = _ from right)]

/-- Tokens of new blocks. -/
theorem Inv.addBlocks (inv : Inv s) {m : FMap (BlockId A.Provenance) (BlockState A)}
    (fits : ∀ b bs, m.lookup b = some bs → b.sliceIdxIsRight ∧
      ∃ t page slice, BlockOk s t b bs page slice) : Inv { s with block := m ∪ s.block } := by
  refine ⟨{ inv.heaps with }, { inv.segments with }, { inv.pages with }, { inv.delays with },
    fun b bs token => ?_, fun b bs token => ?_⟩
  all_goals
    change (m ∪ s.block).lookup b = some bs at token
    rw [FMap.lookup_union] at token
    cases new : m.lookup b with
    | some bs' =>
        rw [new, Option.some_or] at token
        cases token
        obtain ⟨right, t, page, slice, ok⟩ := fits b bs new
        first
          | exact right
          | exact ⟨t, page, slice, { ok with }⟩
    | none =>
        rw [new, Option.none_or] at token
        first
          | exact inv.blocks.block_right b bs token
          | obtain ⟨t, page, slice, ok⟩ := inv.blocks.block_valid b bs token
            exact ⟨t, page, slice, { ok with }⟩

/-- Fewer tokens. -/
theorem Inv.removeBlocks (inv : Inv s) (keys : Finset (BlockId A.Provenance)) :
    Inv { s with block := FMap.removeKeys s.block keys } := by
  have fewer : ∀ b bs, (FMap.removeKeys s.block keys).lookup b = some bs →
      s.block.lookup b = some bs := by
    intro b bs token
    rw [FMap.lookup_removeKeys] at token
    by_cases inside : b ∈ keys
    · rw [if_pos inside] at token
      cases token
    · rw [if_neg inside] at token
      exact token
  refine ⟨{ inv.heaps with }, { inv.segments with }, { inv.pages with }, { inv.delays with },
    fun b bs token => ?_, fun b bs token => inv.blocks.block_right b bs (fewer b bs token)⟩
  obtain ⟨t, page, slice, ok⟩ := inv.blocks.block_valid b bs (fewer b bs token)
  exact ⟨t, page, slice, { ok with }⟩

/-- A page gets another number of blocks. -/
theorem Inv.renumber (inv : Inv s) (found : s.threadLocalState.lookup t = some ts)
    (here : s.pageOf t p = some page) {n : Nat}
    (below : ∀ b bs, s.block.lookup b = some bs → b.pageId = p → b.idx < n)
    (ch : FMap ThreadId (ThreadCheckedState A))
    (threads : ∀ u, ch.lookup u = none ↔ s.threadCheckedState.lookup u = none)
    (checked : ∀ u cs q, ch.lookup u = some cs → q ∈ cs.pages →
      (∃ cs', s.threadCheckedState.lookup u = some cs' ∧ q ∈ cs'.pages) ∧
        (u = t → q = p → n = 0)) :
    Inv { s.setThread t { ts with pages := ts.pages.insert p { page with numBlocks := n } } with
      threadCheckedState := ch } := by
  have change : ∀ q, (ts.pages.insert p { page with numBlocks := n }).lookup q =
      if q ∈ ({p} : Finset _) then some { page with numBlocks := n } else ts.pages.lookup q := by
    intro q
    rw [FMap.lookup_insert]
    by_cases this : q = p
    · rw [if_pos this, if_pos (Finset.mem_singleton.mpr this)]
    · rw [if_neg this, if_neg fun inside => this (Finset.mem_singleton.mp inside)]
  have pages : ∀ u q, (s.setThread t { ts with
      pages := ts.pages.insert p { page with numBlocks := n } }).pageOf u q =
        if u = t ∧ q = p then some { page with numBlocks := n } else s.pageOf u q := by
    intro u q
    rw [pageOf_change (f := fun _ => some { page with numBlocks := n }) found change]
    simp only [Finset.mem_singleton]
  have access : ∀ q w, s.pageSharedAccess.lookup q = some w ↔
      if q ∈ ({p} : Finset _) then ∃ page', some { page with numBlocks := n } = some page' ∧
        page'.isEnabled = true ∧ page'.sharedAccess = w
      else s.pageSharedAccess.lookup q = some w := by
    intro q w
    by_cases this : q ∈ ({p} : Finset _)
    · rw [if_pos this, Finset.mem_singleton.mp this, inv.pages.page_access]
      constructor
      · rintro ⟨u, page', there, enabled, same⟩
        cases inv.owner_unique here there
        rw [here] at there
        cases there
        exact ⟨_, rfl, enabled, same⟩
      · rintro ⟨_, ⟨⟩, enabled, same⟩
        exact ⟨t, page, here, enabled, same⟩
    · rw [if_neg this]
  obtain ⟨heapsPart, segmentsPart, pagesPart⟩ := inv.changePages
    { ts with pages := ts.pages.insert p { page with numBlocks := n } } s.pageSharedAccess
    s.heapOfPage s.delay found change rfl rfl
    (fun q inside => Finset.mem_singleton.mp inside ▸ inv.pages.page_segment t p page here) access
    (inv.heap_of_page_keeps found fun q inside =>
      ⟨page, _, Finset.mem_singleton.mp inside ▸ here, rfl, rfl⟩) inv.pages.heap_of_page_delay
  generalize new : ({ ts with pages := ts.pages.insert p { page with numBlocks := n } } :
    ThreadState A) = ts' at *
  have heaps : (s.setThread t ts').heapOf = s.heapOf := heapOf_setThread_of_same found (by rw [← new])
  have segments : (s.setThread t ts').segmentOf = s.segmentOf :=
    segmentOf_setThread_of_same found (by rw [← new])
  -- a page is as it was, but for the number of its blocks
  have kept : ∀ u q old, s.pageOf u q = some old → ∃ m, (q ≠ p → m = old.numBlocks) ∧ (q = p → m = n) ∧
      (s.setThread t ts').pageOf u q = some { old with numBlocks := m } := by
    intro u q old there
    rw [pages]
    by_cases this : q = p
    · subst this
      cases inv.owner_unique here there
      rw [here] at there
      cases there
      exact ⟨n, fun other => absurd rfl other, fun _ => rfl, if_pos ⟨rfl, rfl⟩⟩
    · refine ⟨old.numBlocks, fun _ => rfl, fun same => absurd same this, ?_⟩
      rw [if_neg fun both => this both.2]
      exact there
  refine ⟨{ heapsPart with checked_threads := fun u => ?_ }, { segmentsPart with },
    { pagesPart with }, ⟨inv.delays.delay_state, inv.delays.delay_actor_freeing,
      fun q a actor => ?_, fun u cs q recorded member => ?_⟩, fun b bs token => ?_,
    inv.blocks.block_right⟩
  · exact (heapsPart.checked_threads u).trans (threads u).symm
  · obtain ⟨u, old, there, enabled, owner⟩ := inv.delays.delay_actor q a actor
    obtain ⟨m, _, _, there'⟩ := kept u q old there
    exact ⟨u, _, there', enabled, fun h hsa psa same =>
      ⟨(congrFun heaps u).trans (owner h hsa psa same).1, (owner h hsa psa same).2⟩⟩
  · obtain ⟨⟨cs', recorded', member'⟩, zero⟩ := checked u cs q recorded member
    obtain ⟨none, owner, empty⟩ := inv.delays.checked u cs' q recorded' member'
    refine ⟨none, owner, fun page' there => ?_⟩
    change (s.setThread t ts').pageOf u q = some page' at there
    rw [pages] at there
    by_cases this : u = t ∧ q = p
    · rw [if_pos this] at there
      cases there
      exact zero this.1 this.2
    · rw [if_neg this] at there
      exact empty page' there
  · obtain ⟨u, old, slice, ok⟩ := inv.blocks.block_valid b bs token
    obtain ⟨m, other, same, first⟩ := kept u _ old ok.page_of
    obtain ⟨k, _, _, second⟩ := kept u _ slice ok.slice_of
    refine ⟨u, { old with numBlocks := m }, { slice with numBlocks := k }, { ok with
      page_of := first
      slice_of := second
      idx_lt := ?_
      segment_of := (congrFun (congrFun segments u) _).trans ok.segment_of
      heap_of := fun h known => ?_ }⟩
    · show b.idx < m
      by_cases this : b.pageId = p
      · rw [same this]
        exact below b bs token this
      · rw [other this]
        exact ok.idx_lt
    · obtain ⟨heap, owner⟩ := ok.heap_of h known
      exact ⟨heap, (congrFun heaps u).trans owner⟩

/-! ### Making and destroying tokens -/

/-- The blocks of a page are below its number of blocks. -/
theorem Inv.idx_lt (inv : Inv s) (here : s.pageOf t p = some page)
    (token : s.block.lookup b = some bs) (same : b.pageId = p) : b.idx < page.numBlocks := by
  obtain ⟨u, page', _, ok⟩ := inv.blocks.block_valid b bs token
  have there := ok.page_of
  rw [same] at there
  cases inv.owner_unique here there
  rw [here] at there
  cases there
  exact ok.idx_lt

/-- **As many tokens as a page has blocks are all its tokens.** -/
theorem Inv.all_blocks (inv : Inv s) (here : s.pageOf t p = some page)
    {blocks : FMap (BlockId A.Provenance) (BlockState A)}
    (tokens : ∀ b bs, blocks.lookup b = some bs → s.block.lookup b = some bs)
    (inside : ∀ b bs, blocks.lookup b = some bs → b.pageId = p)
    (count : blocks.keys.card = page.numBlocks) (token : s.block.lookup b = some bs)
    (same : b.pageId = p) : b ∈ blocks.keys := by
  have distinct : Set.InjOn BlockId.idx (blocks.keys : Set (BlockId A.Provenance)) := by
    intro b member b' member' idx
    obtain ⟨bs, found⟩ := FMap.mem_keys_iff.mp member
    obtain ⟨bs', found'⟩ := FMap.mem_keys_iff.mp member'
    exact inv.block_unique (tokens b bs found) (tokens b' bs' found')
      ((inside b bs found).trans (inside b' bs' found').symm) idx
  have image : blocks.keys.image BlockId.idx = Finset.range page.numBlocks := by
    refine Finset.eq_of_subset_of_card_le ?_ ?_
    · intro idx member
      obtain ⟨b, key, rfl⟩ := Finset.mem_image.mp member
      obtain ⟨bs, found⟩ := FMap.mem_keys_iff.mp key
      exact Finset.mem_range.mpr (inv.idx_lt here (tokens b bs found) (inside b bs found))
    · rw [Finset.card_image_of_injOn distinct, Finset.card_range, count]
  have hit := Finset.mem_range.mpr (inv.idx_lt here token same)
  rw [← image] at hit
  obtain ⟨b', member, idx⟩ := Finset.mem_image.mp hit
  obtain ⟨bs', found⟩ := FMap.mem_keys_iff.mp member
  rw [inv.block_unique token (tokens b' bs' found) (same.trans (inside b' bs' found).symm) idx.symm]
  exact member

theorem pageDestroyBlockTokens_ensures (inv : Inv s) (threadId : ThreadId)
    (pageId : PageId A.Provenance) (blocks : FMap (BlockId A.Provenance) (BlockState A)) :
    Ensures (pageDestroyBlockTokens threadId pageId blocks) s fun _ t =>
      Inv t ∧ t.delayActor = s.delayActor ∧ t.segmentSharedAccess = s.segmentSharedAccess ∧
        t.heapSharedAccess = s.heapSharedAccess ∧ t.pageSharedAccess = s.pageSharedAccess ∧
        ∀ b bs, t.block.lookup b = some bs ↔ s.block.lookup b = some bs ∧ b.pageId ≠ pageId := by
  refine .bind (.remove fun ts found => .bind (.entry fun page here => .bind (.require fun count =>
    .bind (.require fun inside => .bind (.removeAll fun tokens => .add (Finmap.lookup_erase _ _) ?_)))))
  change s.threadLocalState.lookup threadId = some ts at found
  rw [← pageOf_of_thread found] at here
  have rest : ∀ b bs, (FMap.removeKeys s.block blocks.keys).lookup b = some bs ↔
      s.block.lookup b = some bs ∧ b.pageId ≠ pageId := by
    intro b bs
    rw [FMap.lookup_removeKeys]
    by_cases member : b ∈ blocks.keys
    · rw [if_pos member]
      obtain ⟨bs', found⟩ := FMap.mem_keys_iff.mp member
      exact iff_of_false (Option.some_ne_none bs).symm
        fun both => both.2 (FMap.all_iff.mp inside b bs' found)
    · rw [if_neg member]
      exact ⟨fun token => ⟨token, fun same =>
        member (inv.all_blocks here tokens (FMap.all_iff.mp inside) count token same)⟩, And.left⟩
  refine ⟨?_, rfl, rfl, rfl, rfl, rest⟩
  show Inv { s with
    threadLocalState := (s.threadLocalState.erase threadId).insert threadId
      { ts with pages := ts.pages.insert pageId { page with numBlocks := 0 } }
    block := FMap.removeKeys s.block blocks.keys }
  rw [FMap.insert_erase]
  exact (inv.removeBlocks blocks.keys).renumber found here
    (fun b bs token same => absurd same ((rest b bs).mp token).2) s.threadCheckedState (fun u => Iff.rfl)
    fun u cs q recorded member => ⟨⟨cs, recorded, member⟩, fun _ _ => rfl⟩

theorem pageMkBlockTokens_keeps (inv : Inv s) (threadId : ThreadId) (pageId : PageId A.Provenance)
    (oldNumBlocks newNumBlocks blockSize : Nat) :
    Ensures (pageMkBlockTokens threadId pageId oldNumBlocks newNumBlocks blockSize) s
      fun _ t => Inv t := by
  refine .bind (.remove fun ts found => .bind (.remove fun cs recorded => .bind
    (.entry fun page here => .bind (.require fun enabled => .bind (.require fun old =>
    .bind (.require fun size => .bind (.require fun first => .bind (.require fun grows =>
    .bind (.require fun okay => ?_)))))))))
  change s.threadLocalState.lookup threadId = some ts at found
  change s.threadCheckedState.lookup threadId = some cs at recorded
  rw [← pageOf_of_thread found] at here
  obtain ⟨ssa, segment⟩ := inv.pages.page_segment threadId pageId page here
  have deposited := (inv.segments.segment_access _ _).mpr ⟨threadId, segment⟩
  set blockMap := FMap.collect (rangeBlockIds oldNumBlocks newNumBlocks pageId blockSize)
    fun blockId => (ts.pages.lookup blockId.pageIdForSlice).map fun slice =>
      (⟨ssa, page.sharedAccess, slice.sharedAccess, none⟩ : BlockState A) with made
  have blocks : ∀ b bs, blockMap.lookup b = some bs →
      b ∈ rangeBlockIds oldNumBlocks newNumBlocks pageId blockSize ∧
        ∃ slice, s.pageOf threadId b.pageIdForSlice = some slice ∧ slice.isEnabled = true ∧
          slice.offset = (b.sliceIdx : Int) - pageId.idx ∧
          bs = ⟨ssa, page.sharedAccess, slice.sharedAccess, none⟩ := by
    intro b bs new
    rw [made, FMap.lookup_collect] at new
    by_cases within : b ∈ rangeBlockIds oldNumBlocks newNumBlocks pageId blockSize
    · rw [if_pos within] at new
      obtain ⟨slice, there, rfl⟩ := Option.map_eq_some_iff.mp new
      refine ⟨within, slice, (pageOf_of_thread found).trans there, ?_⟩
      obtain ⟨same, lower, upper, same', right⟩ := mem_rangeBlockIds.mp within
      have fits := okay b.idx (Finset.mem_Ico.mpr ⟨lower, upper⟩)
      have position : b.sliceIdx = BlockId.getSliceIdx pageId b.idx blockSize := by
        rw [← same, ← same']
        exact right
      have slot : (⟨pageId.segmentId, BlockId.getSliceIdx pageId b.idx blockSize⟩ : PageId A.Provenance) =
          b.pageIdForSlice := by
        rw [BlockId.pageIdForSlice, same, position]
      rw [okayToAddBlock, slot, there, Option.any_some, Bool.and_eq_true, beq_iff_eq] at fits
      exact ⟨fits.1, fits.2, rfl⟩
    · rw [if_neg within] at new
      cases new
  have fresh : ∀ b bs, blockMap.lookup b = some bs → s.block.lookup b = none := by
    intro b bs new
    obtain ⟨same, lower, _⟩ := mem_rangeBlockIds.mp (blocks b bs new).1
    by_contra token
    obtain ⟨bs', token⟩ := Option.ne_none_iff_exists'.mp token
    have := inv.idx_lt here token same
    omega
  refine .bind (.index deposited (.bind (.addAll fresh (.bind
    (.add (Finmap.lookup_erase _ _) (.add (Finmap.lookup_erase _ _) ?_))))))
  show Inv { s with
    threadLocalState := (s.threadLocalState.erase threadId).insert threadId
      { ts with pages := ts.pages.insert pageId { page with numBlocks := newNumBlocks } }
    block := blockMap ∪ s.block
    threadCheckedState := (s.threadCheckedState.erase threadId).insert threadId
      ⟨cs.pages.erase pageId⟩ }
  rw [FMap.insert_erase, FMap.insert_erase]
  have renumbered := inv.renumber found here
    (fun b bs token same => (inv.idx_lt here token same).trans_le (old ▸ grows))
    (s.threadCheckedState.insert threadId ⟨cs.pages.erase pageId⟩) (fun u => ?_)
    fun u cs' q recorded' member => ?_
  · refine renumbered.addBlocks fun b bs new => ?_
    obtain ⟨within, slice, there, on, offset, rfl⟩ := blocks b bs new
    obtain ⟨same, lower, upper, same', right⟩ := mem_rangeBlockIds.mp within
    have pages : ∀ q old, s.pageOf threadId q = some old → ∃ m, (q = pageId → m = newNumBlocks) ∧
        (s.setThread threadId { ts with
          pages := ts.pages.insert pageId { page with numBlocks := newNumBlocks } }).pageOf threadId q =
            some { old with numBlocks := m } := by
      intro q old there
      rw [pageOf_setThread, if_pos rfl, FMap.lookup_insert]
      by_cases this : q = pageId
      · rw [this, here] at there
        cases there
        exact ⟨newNumBlocks, fun _ => rfl, if_pos this⟩
      · rw [if_neg this, ← pageOf_of_thread found]
        exact ⟨old.numBlocks, fun other => absurd other this, there⟩
    rw [← same] at here
    obtain ⟨m, equal, at_⟩ := pages _ page here
    obtain ⟨k, _, beyond⟩ := pages _ slice there
    have segments : (s.setThread threadId { ts with
        pages := ts.pages.insert pageId { page with numBlocks := newNumBlocks } }).segmentOf =
          s.segmentOf := segmentOf_setThread_of_same found rfl
    refine ⟨right, threadId, { page with numBlocks := m }, { slice with numBlocks := k }, {
      page_of := at_
      page_enabled := enabled
      page_offset := first
      page_size := size.trans same'.symm
      page_access := rfl
      idx_lt := ?_
      slice_of := beyond
      slice_enabled := on
      slice_access := rfl
      slice_offset := by rw [same]; exact offset
      segment_of := (congrFun (congrFun segments threadId) _).trans (by rw [same]; exact segment)
      heap_of := fun h known => by cases known }⟩
    show b.idx < m
    rw [equal same]
    exact upper
  · rw [FMap.lookup_insert]
    by_cases this : u = threadId
    · rw [if_pos this, this, recorded]
      exact iff_of_false (Option.some_ne_none _) (Option.some_ne_none _)
    · rw [if_neg this]
  · rw [FMap.lookup_insert] at recorded'
    by_cases this : u = threadId
    · rw [if_pos this] at recorded'
      cases recorded'
      obtain ⟨other, member⟩ := Finset.mem_erase.mp member
      exact ⟨⟨cs, this ▸ recorded, member⟩, fun _ same => absurd same other⟩
    · rw [if_neg this] at recorded'
      exact ⟨⟨cs', recorded', member⟩, fun same => absurd same this⟩

/-! ### Checked pages -/

theorem pageCheckDelayState_keeps (inv : Inv s) (threadId : ThreadId) (pageId : PageId A.Provenance) :
    Ensures (pageCheckDelayState threadId pageId) s fun _ t => Inv t := by
  refine .bind (.holds fun ts found => .bind (.remove fun cs recorded => .bind (.entry fun page here =>
    .bind (.require fun empty => .bind (.holds fun d delayed => .bind (.require fun calm =>
    .add (Finmap.lookup_erase _ _) ?_))))))
  change s.threadLocalState.lookup threadId = some ts at found
  change s.threadCheckedState.lookup threadId = some cs at recorded
  change s.delay.lookup pageId = some d at delayed
  rw [← pageOf_of_thread found] at here
  show Inv { s with
    threadCheckedState := (s.threadCheckedState.erase threadId).insert threadId
      ⟨insert pageId cs.pages⟩ }
  rw [FMap.insert_erase]
  have idle : s.delayActor.lookup pageId = none := by
    by_contra actor
    have freeing := (inv.delays.delay_actor_freeing pageId).mpr actor
    rw [delayed] at freeing
    exact calm (Option.some.inj freeing)
  refine ⟨{ inv.heaps with checked_threads := fun u => ?_ }, { inv.segments with },
    { inv.pages with }, { inv.delays with checked := fun u cs' q recorded' member => ?_ },
    inv.blocks.frame rfl rfl rfl rfl⟩
  · show _ ↔ (s.threadCheckedState.insert threadId ⟨insert pageId cs.pages⟩).lookup u = none
    rw [FMap.lookup_insert]
    by_cases this : u = threadId
    · rw [if_pos this, this]
      exact iff_of_false (fun none => by
        have := heapOf_eq_none.mp none
        rw [show s.threadLocalState.lookup threadId = some ts from found] at this
        cases this) (Option.some_ne_none _)
    · rw [if_neg this]
      exact inv.heaps.checked_threads u
  · rw [FMap.lookup_insert] at recorded'
    by_cases this : u = threadId
    · rw [if_pos this] at recorded'
      cases recorded'
      rw [this]
      rcases Finset.mem_insert.mp member with rfl | old
      · refine ⟨idle, inv.page_owner here, fun page' there => ?_⟩
        change s.pageOf threadId q = some page' at there
        rw [here] at there
        cases there
        exact empty
      · exact inv.delays.checked threadId cs q recorded old
    · rw [if_neg this] at recorded'
      exact inv.delays.checked u cs' q recorded' member

/-! ### Comparing tokens -/

theorem blockTokens_apart (inv : Inv s) {b' : BlockId A.Provenance} {bs' : BlockState A}
    (page : b.pageId = b'.pageId) (idx : b.idx = b'.idx) (first : s.block.lookup b = some bs)
    (second : (s.block.erase b).lookup b' = some bs') : False := by
  rw [FMap.lookup_erase] at second
  by_cases same : b' = b
  · rw [if_pos same] at second
    cases second
  · rw [if_neg same] at second
    exact same (inv.block_unique first second page idx).symm

theorem blockTokensDistinctRetain_keeps (inv : Inv s) (blockId1 blockId2 : BlockId A.Provenance) :
    Ensures (blockTokensDistinctRetain blockId1 blockId2) s fun _ t => Inv t :=
  .bind (.require fun page => .bind (.require fun idx => .bind (.remove fun _ first =>
    .bind (.remove fun _ second => (blockTokens_apart inv page idx first second).elim))))

theorem blockTokensDistinct_keeps (inv : Inv s) (blockId1 blockId2 : BlockId A.Provenance) :
    Ensures (blockTokensDistinct blockId1 blockId2) s fun _ t => Inv t :=
  .bind (.require fun page => .bind (.require fun idx => .bind (.remove fun _ first =>
    .bind (.remove fun _ second => (blockTokens_apart inv page idx first second).elim))))

theorem blockInRange_keeps (inv : Inv s) (threadId : ThreadId) (blockId : BlockId A.Provenance) :
    Ensures (blockInRange threadId blockId) s fun _ t => Inv t :=
  .bind (.holds fun _ found => .bind (.holds fun _ token => .bind (.entry fun _ here =>
    .assert (inv.idx_lt ((pageOf_of_thread found).trans here) token rfl) inv)))

end VerusMimalloc.Mim
