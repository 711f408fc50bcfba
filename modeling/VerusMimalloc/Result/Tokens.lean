/-
**The token machine keeps shared state alive.**

In every state that finitely many transitions reach, whichever threads take them:

* block tokens are unique, and every one fits its page, its slice and its segment;
* there is an actor for a page exactly while its delay state is `Freeing`;
* what block tokens and actors guard is deposited, and on enabled pages;
* a page recorded as checked has no blocks and no actor;
* no transition and no property fails one of its own safety conditions, and neither
  `page_disable` nor `page_destroy_block_tokens` takes away what is still guarded.
-/

import VerusMimalloc.Proof.Tokens.Blocks

namespace VerusMimalloc.Mim

open Library (FMap Ensures)

variable {A : Accesses} {s t : State A} {b : BlockId A.Provenance} {bs : BlockState A}
  {p : PageId A.Provenance} {a : DelayFreeingActor A}

/-! ### Transitions and properties -/

theorem initialState_inv : Inv (initialState : State A) where
  heaps := {
    reserved := fun h inside => absurd inside (Finset.notMem_empty h)
    reserved_fresh := fun h inside => absurd inside (Finset.notMem_empty h)
    right_to_set_inst := iff_of_true rfl rfl
    heap_wf := fun h v deposited => by cases deposited
    right_to_use_thread := fun t => iff_of_true rfl rfl
    checked_threads := fun t => iff_of_true rfl rfl
    heap_of_thread := fun t h heap owner => by cases owner
    thread_of_heap := fun h t owner => by cases owner }
  segments := {
    thread_of_segment := fun g t => iff_of_false (fun h => by cases h) (by rintro ⟨_, ⟨⟩⟩)
    segment_access := fun g v => iff_of_false (fun h => by cases h) (by rintro ⟨_, ⟨⟩⟩) }
  pages := {
    page_segment := fun t p page here => by cases here
    page_access := fun p v => iff_of_false (fun h => by cases h) (by rintro ⟨_, _, ⟨⟩, _⟩)
    heap_of_page := fun p h => iff_of_false (fun h => by cases h) (by rintro ⟨_, _, _, ⟨⟩, _⟩)
    heap_of_page_delay := fun p => iff_of_true rfl rfl }
  delays := {
    delay_state := fun p h => by cases h
    delay_actor_freeing := fun p => iff_of_false (fun h => by cases h) (fun h => h rfl)
    delay_actor := fun p a actor => by cases actor
    checked := fun t cs p recorded => by cases recorded }
  blocks := {
    block_valid := fun b bs token => by cases token
    block_right := fun b bs token => by cases token }

/-- Every transition keeps the invariant, and its own safety conditions hold. -/
theorem Transition.keeps (inv : Inv s) (transition : Transition A) :
    Ensures transition.action s fun _ t => Inv t := by
  cases transition with
  | setInst inst => exact setInst_keeps inv inst
  | actorMakeIdle threadId => exact actorMakeIdle_keeps inv threadId
  | actorAbandon threadId => exact actorAbandon_keeps inv threadId
  | setUseDelayedFree pageId => exact setUseDelayedFree_keeps inv pageId
  | delayEnterFreeing pageId blockId => exact delayEnterFreeing_keeps inv pageId blockId
  | delayLeaveFreeing pageId => exact delayLeaveFreeing_keeps inv pageId
  | delayLookupHeap blockId => exact delayLookupHeap_keeps inv blockId
  | blockSetHeapId blockId => exact blockSetHeapId_keeps inv blockId
  | reserveUniqIdentifier => exact reserveUniqIdentifier_keeps inv
  | createThreadMkTokens threadId threadState => exact createThreadMkTokens_keeps inv threadId threadState
  | createSegmentMkTokens threadId preSegmentId segmentState =>
      exact createSegmentMkTokens_keeps inv threadId preSegmentId segmentState
  | segmentEnable threadId segmentId sharedAccess =>
      exact segmentEnable_keeps inv threadId segmentId sharedAccess
  | createPageMkTokens threadId pageId nSlices blockSize pageMap =>
      exact createPageMkTokens_keeps inv threadId pageId nSlices blockSize pageMap
  | pageEnable threadId pageId nSlices pageMap psaMap =>
      exact pageEnable_keeps inv threadId pageId nSlices pageMap psaMap
  | pageMkBlockTokens threadId pageId oldNumBlocks newNumBlocks blockSize =>
      exact pageMkBlockTokens_keeps inv threadId pageId oldNumBlocks newNumBlocks blockSize
  | pageDestroyBlockTokens threadId pageId blocks =>
      exact (pageDestroyBlockTokens_ensures inv threadId pageId blocks).mono fun _ _ => And.left
  | pageCheckDelayState threadId pageId => exact pageCheckDelayState_keeps inv threadId pageId
  | pageDisable threadId pageId nSlices =>
      exact (pageDisable_ensures inv threadId pageId nSlices).mono fun _ _ => And.left
  | pageDestroyTokens threadId pageId nSlices => exact pageDestroyTokens_keeps inv threadId pageId nSlices
  | blockTokensDistinctRetain blockId1 blockId2 =>
      exact blockTokensDistinctRetain_keeps inv blockId1 blockId2
  | blockTokensDistinct blockId1 blockId2 => exact blockTokensDistinct_keeps inv blockId1 blockId2
  | blockInRange threadId blockId => exact blockInRange_keeps inv threadId blockId

/-- **The invariant holds in every reachable state.** -/
theorem Reachable.inv (reachable : Reachable s) : Inv s := by
  induction reachable with
  | start => exact initialState_inv
  | next transition _ ran ih => exact (transition.keeps ih).of_ok ran

/-! ### What tokens guard -/

/-- The deposits of a block token. -/
theorem Inv.block_deposits (inv : Inv s) (token : s.block.lookup b = some bs) :
    s.segmentSharedAccess.lookup b.pageId.segmentId = some bs.segmentSharedAccess ∧
      s.pageSharedAccess.lookup b.pageId = some bs.pageSharedAccess ∧
      s.pageSharedAccess.lookup b.pageIdForSlice = some bs.pageSliceSharedAccess := by
  obtain ⟨u, page, slice, ok⟩ := inv.blocks.block_valid b bs token
  exact ⟨(inv.segments.segment_access _ _).mpr ⟨u, ok.segment_of⟩,
    (inv.pages.page_access _ _).mpr ⟨u, page, ok.page_of, ok.page_enabled, ok.page_access⟩,
    (inv.pages.page_access _ _).mpr ⟨u, slice, ok.slice_of, ok.slice_enabled, ok.slice_access⟩⟩

/-- The deposits of an actor that has looked up its heap. -/
theorem Inv.actor_deposits (inv : Inv s) {h : HeapId A.Provenance} {hsa : A.HeapSharedAccess}
    {psa : A.PageSharedAccess} (actor : s.delayActor.lookup p = some (.heap h hsa psa)) :
    s.heapSharedAccess.lookup h = some hsa ∧ s.pageSharedAccess.lookup p = some psa := by
  obtain ⟨u, page, here, enabled, owner⟩ := inv.delays.delay_actor p _ actor
  obtain ⟨heap, access⟩ := owner h hsa psa rfl
  exact ⟨(inv.heaps.heap_of_thread u h _ heap).1,
    (inv.pages.page_access p psa).mpr ⟨u, page, here, enabled, access⟩⟩

/-- The thread that has the segment of a block, or its page, or the heap it belongs to, has the
page of the block. -/
theorem Inv.block_at (inv : Inv s) {u : ThreadId} {ts : ThreadState A}
    (token : s.block.lookup b = some bs) (found : s.threadLocalState.lookup u = some ts)
    (here : s.threadOfSegment.lookup b.pageId.segmentId = some u ∨ b.pageId ∈ ts.pages ∨
      bs.heapId = some ts.heapId) : ∃ page slice, BlockOk s u b bs page slice := by
  obtain ⟨v, page, slice, ok⟩ := inv.blocks.block_valid b bs token
  suffices same : u = v by
    rw [same]
    exact ⟨page, slice, ok⟩
  rcases here with segment | member | heap
  · rw [inv.page_owner ok.page_of] at segment
    exact (Option.some.inj segment).symm
  · obtain ⟨page', here⟩ := Finmap.mem_iff.mp member
    exact inv.owner_unique ((pageOf_of_thread found).trans here) ok.page_of
  · obtain ⟨state, owner⟩ := ok.heap_of _ heap
    have first := (inv.heaps.heap_of_thread u _ _ (heapOf_of_thread found)).2
    rw [(inv.heaps.heap_of_thread v _ _ owner).2] at first
    exact (Option.some.inj first).symm

/-- `block_properties` holds of the block tokens of a thread. -/
theorem BlockOk.properties {u : ThreadId} {ts : ThreadState A} {page slice : PageState A}
    (ok : BlockOk s u b bs page slice) (found : s.threadLocalState.lookup u = some ts) :
    blockProperties ts b bs = true := by
  have first := ok.page_of
  have second := ok.slice_of
  have third := ok.segment_of
  rw [pageOf_of_thread found] at first second
  rw [segmentOf_of_thread found] at third
  have heap : (bs.heapId.all fun heapId => heapId == ts.heapId) = true := by
    cases known : bs.heapId with
    | none => rfl
    | some h =>
        obtain ⟨heap, owner⟩ := ok.heap_of h known
        rw [heapOf_of_thread found] at owner
        cases owner
        exact beq_self_eq_true _
  rw [blockProperties, first, second, third, heap]
  simp [ok.page_enabled, ok.page_offset, ok.page_size, ok.page_access, ok.idx_lt, ok.slice_enabled,
    ok.slice_access, ok.slice_offset, BlockId.pageIdForSlice]

/-- Every property holds. -/
theorem Property.holds (inv : Inv s) (property : Property A) :
    Ensures property.action s fun _ _ => True := by
  cases property with
  | blockOnTheLocalThread threadId blockId =>
      refine .bind (.holds fun tid owner => .bind (.holds fun ts found => .bind (.holds fun bs token =>
        .bind (.require fun same => ?_))))
      subst same
      obtain ⟨page, slice, ok⟩ := inv.block_at token found (.inl owner)
      refine .bind (.assert ?_ (.assert ?_ trivial))
      · have segment := ok.segment_of
        rw [segmentOf_of_thread found] at segment
        exact Finmap.mem_of_lookup_eq_some segment
      · have here := ok.page_of
        rw [pageOf_of_thread found] at here
        rw [here]
        simp [ok.page_size, ok.page_offset, ok.idx_lt]
  | allocGuardsSegmentSharedAccess blockId =>
      exact .bind (.holds fun bs token => .guarded (inv.block_deposits token).1 trivial)
  | allocGuardsPageSliceSharedAccess blockId =>
      exact .bind (.holds fun bs token => .guarded (inv.block_deposits token).2.2 trivial)
  | allocGuardsPageSharedAccess blockId =>
      exact .bind (.holds fun bs token => .guarded (inv.block_deposits token).2.1 trivial)
  | delayGuardsHeapSharedAccess pageId =>
      exact .bind (haveHeapActor_ensures fun h hsa psa actor =>
        .guarded (inv.actor_deposits actor).1 trivial)
  | delayGuardsPageSharedAccess pageId =>
      exact .bind (haveHeapActor_ensures fun h hsa psa actor =>
        .guarded (inv.actor_deposits actor).2 trivial)
  | threadLocalStateGuardsPage threadId pageId =>
      refine .bind (.holds fun ts found => .bind (.entry fun page here => .bind (.require fun on =>
        .guarded ?_ trivial)))
      exact (inv.pages.page_access pageId _).mpr
        ⟨threadId, page, (pageOf_of_thread found).trans here, on, rfl⟩
  | threadLocalStateGuardsHeap threadId =>
      refine .bind (.holds fun ts found => .guarded ?_ trivial)
      exact (inv.heaps.heap_of_thread threadId _ _ (heapOf_of_thread found)).1
  | threadLocalStateGuardsSegment threadId segmentId =>
      refine .bind (.holds fun ts found => .bind (.entry fun segment here => .bind (.require fun on =>
        .guarded ?_ trivial)))
      refine (inv.segments.segment_access segmentId _).mpr
        ⟨threadId, (segmentOf_of_thread found).trans (here.trans ?_)⟩
      rw [← on]
  | heapOfPageAgreeWithThreadState pageId threadId =>
      refine .bind (.holds fun ts found => .bind (.holds fun h heap => .bind (.require fun member =>
        .assert ?_ trivial)))
      obtain ⟨page, here⟩ := Finmap.mem_iff.mp member
      obtain ⟨u, page', _, there, _, owner⟩ := (inv.pages.heap_of_page pageId h).mp heap
      cases inv.owner_unique ((pageOf_of_thread found).trans here) there
      rw [heapOf_of_thread found] at owner
      cases owner
      rfl
  | blockInHeapHasValidPage threadId blockId =>
      refine .bind (.holds fun ts found => .bind (.holds fun bs token => .bind (.require fun heap =>
        .assert ?_ trivial)))
      obtain ⟨page, slice, ok⟩ := inv.block_at token found (.inr (.inr heap))
      have here := ok.page_of
      rw [pageOf_of_thread found] at here
      rw [here]
      simp [ok.page_size, ok.page_offset]
  | getBlockProperties threadId blockId =>
      refine .bind (.holds fun bs token => .bind (.holds fun ts found => .bind (.require fun member =>
        .assert ?_ trivial)))
      obtain ⟨page, slice, ok⟩ := inv.block_at token found (.inr (.inl member))
      exact ok.properties found

/-! ### The theorem -/

/-- What a block token or an actor of `t` guards was deposited in `s`, and still is. -/
structure GuardsKept (s t : State A) : Prop where
  block_segment : ∀ b bs, t.block.lookup b = some bs →
    t.segmentSharedAccess.lookup b.pageId.segmentId = some bs.segmentSharedAccess ∧
      s.segmentSharedAccess.lookup b.pageId.segmentId = some bs.segmentSharedAccess
  block_page : ∀ b bs, t.block.lookup b = some bs →
    t.pageSharedAccess.lookup b.pageId = some bs.pageSharedAccess ∧
      s.pageSharedAccess.lookup b.pageId = some bs.pageSharedAccess
  block_slice : ∀ b bs, t.block.lookup b = some bs →
    t.pageSharedAccess.lookup b.pageIdForSlice = some bs.pageSliceSharedAccess ∧
      s.pageSharedAccess.lookup b.pageIdForSlice = some bs.pageSliceSharedAccess
  actor_page : ∀ p a, t.delayActor.lookup p = some a →
    ∃ v, t.pageSharedAccess.lookup p = some v ∧ s.pageSharedAccess.lookup p = some v
  actor_heap : ∀ p h hsa psa, t.delayActor.lookup p = some (.heap h hsa psa) →
    (t.heapSharedAccess.lookup h = some hsa ∧ s.heapSharedAccess.lookup h = some hsa) ∧
      t.pageSharedAccess.lookup p = some psa ∧ s.pageSharedAccess.lookup p = some psa

/-- What the tokens of a state say about the shared state, and that no transition breaks it. -/
structure KeepsAlive (s : State A) : Prop where
  block_unique : ∀ b b' bs bs', s.block.lookup b = some bs → s.block.lookup b' = some bs' →
    b.pageId = b'.pageId → b.idx = b'.idx → b = b'
  /-- The slice of a block is the one its index says, and is a slice of the span of its page. -/
  block_page : ∀ b bs, s.block.lookup b = some bs → ∃ t ts page slice,
    s.threadOfSegment.lookup b.pageId.segmentId = some t ∧ s.threadLocalState.lookup t = some ts ∧
      ts.pages.lookup b.pageId = some page ∧ page.isEnabled = true ∧ page.offset = 0 ∧
      page.blockSize = b.blockSize ∧ b.idx < page.numBlocks ∧ b.sliceIdxIsRight ∧
      ts.pages.lookup b.pageIdForSlice = some slice ∧ slice.isEnabled = true ∧
      slice.offset = (b.sliceIdx : Int) - b.pageId.idx
  block_deposits : ∀ b bs, s.block.lookup b = some bs →
    s.segmentSharedAccess.lookup b.pageId.segmentId = some bs.segmentSharedAccess ∧
      s.pageSharedAccess.lookup b.pageId = some bs.pageSharedAccess ∧
      s.pageSharedAccess.lookup b.pageIdForSlice = some bs.pageSliceSharedAccess
  actor_iff : ∀ p, (∃ a, s.delayActor.lookup p = some a) ↔ s.delay.lookup p = some .freeing
  actor_page : ∀ p a, s.delayActor.lookup p = some a → ∃ t ts page,
    s.threadOfSegment.lookup p.segmentId = some t ∧ s.threadLocalState.lookup t = some ts ∧
      ts.pages.lookup p = some page ∧ page.isEnabled = true ∧
      s.pageSharedAccess.lookup p = some page.sharedAccess ∧
      ∀ h hsa psa, a = .heap h hsa psa → psa = page.sharedAccess ∧ ts.heapId = h ∧
        s.heapToThread.lookup h = some t ∧ s.heapSharedAccess.lookup h = some hsa
  checked : ∀ t cs p, s.threadCheckedState.lookup t = some cs → p ∈ cs.pages →
    s.delayActor.lookup p = none ∧
      ∀ ts page, s.threadLocalState.lookup t = some ts → ts.pages.lookup p = some page →
        page.numBlocks = 0
  transitions_safe : ∀ transition : Transition A, transition.action s ≠ .error .violated
  properties_safe : ∀ property : Property A, property.action s ≠ .error .violated
  /-- All tokens and actors stay, and what they guard stays as it is. -/
  page_disable : ∀ threadId pageId nSlices t, pageDisable threadId pageId nSlices s = .ok ((), t) →
    t.block = s.block ∧ t.delayActor = s.delayActor ∧ GuardsKept s t
  /-- All tokens of the page go, and what the others and the actors guard stays as it is. -/
  page_destroy_block_tokens : ∀ threadId pageId blocks t,
    pageDestroyBlockTokens threadId pageId blocks s = .ok ((), t) →
      (∀ b bs, t.block.lookup b = some bs ↔ s.block.lookup b = some bs ∧ b.pageId ≠ pageId) ∧
        t.delayActor = s.delayActor ∧ GuardsKept s t

theorem Inv.guardsKept (inv : Inv s) (after : Inv t)
    (tokens : ∀ b bs, t.block.lookup b = some bs → s.block.lookup b = some bs)
    (actors : t.delayActor = s.delayActor)
    (pages : ∀ q v, t.pageSharedAccess.lookup q = some v → s.pageSharedAccess.lookup q = some v) :
    GuardsKept s t where
  block_segment b bs token :=
    ⟨(after.block_deposits token).1, (inv.block_deposits (tokens b bs token)).1⟩
  block_page b bs token :=
    ⟨(after.block_deposits token).2.1, (inv.block_deposits (tokens b bs token)).2.1⟩
  block_slice b bs token :=
    ⟨(after.block_deposits token).2.2, (inv.block_deposits (tokens b bs token)).2.2⟩
  actor_page p a actor := by
    obtain ⟨u, page, here, enabled, _⟩ := after.delays.delay_actor p a actor
    have deposited := (after.pages.page_access p _).mpr ⟨u, page, here, enabled, rfl⟩
    exact ⟨page.sharedAccess, deposited, pages p _ deposited⟩
  actor_heap p h hsa psa actor := by
    have before := actor
    rw [actors] at before
    exact ⟨⟨(after.actor_deposits actor).1, (inv.actor_deposits before).1⟩,
      (after.actor_deposits actor).2, (inv.actor_deposits before).2⟩

/-- **Tokens keep shared state alive**, in every reachable state. -/
theorem reachable_keepsAlive (reachable : Reachable s) : KeepsAlive s := by
  have inv := reachable.inv
  refine ⟨fun b b' bs bs' first second page idx => inv.block_unique first second page idx,
    fun b bs token => ?_, fun b bs token => inv.block_deposits token, fun p => ?_,
    fun p a actor => ?_, fun t cs p recorded member => ?_,
    fun transition => (transition.keeps inv).not_violated,
    fun property => (property.holds inv).not_violated, fun threadId pageId nSlices t ran => ?_,
    fun threadId pageId blocks t ran => ?_⟩
  · obtain ⟨u, page, slice, ok⟩ := inv.blocks.block_valid b bs token
    obtain ⟨ts, found, here⟩ := Option.bind_eq_some_iff.mp ok.page_of
    have beyond := ok.slice_of
    rw [pageOf_of_thread found] at beyond
    exact ⟨u, ts, page, slice, inv.page_owner ok.page_of, found, here, ok.page_enabled,
      ok.page_offset, ok.page_size, ok.idx_lt, inv.blocks.block_right b bs token, beyond,
      ok.slice_enabled, ok.slice_offset⟩
  · rw [inv.delays.delay_actor_freeing, Option.ne_none_iff_exists']
  · obtain ⟨u, page, here, enabled, owner⟩ := inv.delays.delay_actor p a actor
    obtain ⟨ts, found, at_⟩ := Option.bind_eq_some_iff.mp here
    refine ⟨u, ts, page, inv.page_owner here, found, at_, enabled,
      (inv.pages.page_access p _).mpr ⟨u, page, here, enabled, rfl⟩, fun h hsa psa same => ?_⟩
    obtain ⟨heap, access⟩ := owner h hsa psa same
    obtain ⟨deposited, thread⟩ := inv.heaps.heap_of_thread u h _ heap
    rw [heapOf_of_thread found] at heap
    exact ⟨access.symm, congrArg Prod.fst (Option.some.inj heap), thread, deposited⟩
  · obtain ⟨none, _, empty⟩ := inv.delays.checked t cs p recorded member
    exact ⟨none, fun ts page found here => empty page ((pageOf_of_thread found).trans here)⟩
  · obtain ⟨after, tokens, actors, _, _, pages⟩ :=
      (pageDisable_ensures inv threadId pageId nSlices).of_ok ran
    refine ⟨tokens, actors, inv.guardsKept after (fun b bs token => tokens ▸ token) actors
      fun q v deposited => ?_⟩
    rw [pages, FMap.lookup_removeKeys] at deposited
    by_cases within : q ∈ rangeFrom pageId 0 nSlices
    · rw [if_pos within] at deposited
      cases deposited
    · rw [if_neg within] at deposited
      exact deposited
  · obtain ⟨after, actors, _, _, pages, tokens⟩ :=
      (pageDestroyBlockTokens_ensures inv threadId pageId blocks).of_ok ran
    exact ⟨tokens, actors, inv.guardsKept after (fun b bs token => ((tokens b bs).mp token).1) actors
      fun q v deposited => pages ▸ deposited⟩

/-! ### A run -/

/-- Numbers for everything that is stored. -/
def numbers : Accesses where
  Provenance := Nat
  InstanceId := Nat
  SegmentSharedAccess := Nat
  PageSharedAccess := Nat
  HeapSharedAccess := Nat
  null := 0
  wf2 := fun _ _ inst => inst == 9
  decProvenance := inferInstance
  decInstanceId := inferInstance
  decSegment := inferInstance
  decPage := inferInstance
  decHeap := inferInstance

/-- The transitions one after the other; one that does not go through ends the run. -/
def run (s : State A) : List (Transition A) → State A
  | [] => s
  | transition :: rest =>
      match transition.action s with
      | .ok (_, t) => run t rest
      | .error _ => s

theorem Reachable.run (reachable : Reachable s) (transitions : List (Transition A)) :
    Reachable (run s transitions) := by
  induction transitions generalizing s with
  | nil => exact reachable
  | cons transition rest ih =>
      rw [Mim.run]
      cases ran : transition.action s with
      | ok result => exact ih (reachable.next transition ran)
      | error stop => exact reachable

/-- A thread sets up a segment and a page of 4096-byte blocks, and an actor enters on the page. -/
def firstPage : List (Transition numbers) :=
  let t : ThreadId := ⟨1⟩
  let g : SegmentId Nat := ⟨5, 0, 1⟩
  let p : PageId Nat := ⟨g, 1⟩
  let page : PageState numbers := ⟨0, 4096, 0, (7 : Nat), false⟩
  let b : BlockId Nat := ⟨p, 0, 1, 4096⟩
  [.setInst (9 : Nat), .reserveUniqIdentifier,
    .createThreadMkTokens t ⟨⟨3, (0 : Nat), 1⟩, ⟨(8 : Nat)⟩, ∅, ∅⟩,
    .createSegmentMkTokens t g ⟨(6 : Nat), false⟩, .segmentEnable t g (6 : Nat),
    .createPageMkTokens t p 1 4096 (Finmap.singleton p page),
    .pageEnable t p 1 (Finmap.singleton p { page with isEnabled := true })
      (Finmap.singleton p (7 : Nat)),
    .pageMkBlockTokens t p 0 2 4096, .delayEnterFreeing p b, .delayLookupHeap b, .blockSetHeapId b]

theorem reachable_keepsAlive_firstPage :
    (run initialState firstPage).block.keys.card = 2 ∧
      (run initialState firstPage).delay.lookup ⟨⟨5, (0 : Nat), 1⟩, 1⟩ = some .freeing ∧
      KeepsAlive (run initialState firstPage) :=
  ⟨by decide +kernel, by decide +kernel, reachable_keepsAlive (Reachable.start.run firstPage)⟩

end VerusMimalloc.Mim
