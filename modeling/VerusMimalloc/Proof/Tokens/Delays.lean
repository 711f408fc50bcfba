/-
**Delay states and actors.**

The transitions on the right to set the instance, on actors, on delay states and on the heap of a
block keep the invariant. An actor comes and goes with the state `Freeing`; while it is there, its
page is a primary page with a block token, so no thread has it recorded as checked.
-/

import VerusMimalloc.Proof.Tokens.Invariant

namespace VerusMimalloc.Mim

open Library (FMap Action Ensures)

variable {A : Accesses} {s : State A} {p : PageId A.Provenance}

theorem haveInst_ensures {R : A.InstanceId → State A → Prop}
    (post : ∀ inst, s.myInst = some inst → R inst s) : Ensures haveInst s R := by
  refine .bind (.pre ?_)
  cases found : s.myInst with
  | none => exact trivial
  | some inst => exact post inst found

theorem haveHeapActor_ensures {R : HeapId A.Provenance × A.HeapSharedAccess × A.PageSharedAccess →
      State A → Prop}
    (post : ∀ h hsa psa, s.delayActor.lookup p = some (.heap h hsa psa) → R (h, hsa, psa) s) :
    Ensures (haveHeapActor p) s R := by
  refine .bind (.holds fun a found => ?_)
  cases a with
  | heapUnknown => exact trivial
  | heap h hsa psa => exact post h hsa psa found

theorem setInst_keeps (inv : Inv s) (inst : A.InstanceId) :
    Ensures (setInst inst) s fun _ t => Inv t := by
  refine .bind (.pre (.bind (.require fun right => .bind (.replace (.bind (.assert ?_ (.replace ?_)))))))
  · exact .inl (inv.heaps.right_to_set_inst.mp right)
  · have unset := inv.heaps.right_to_set_inst.mp right
    show Inv { s with rightToSetInst := false, myInst := some inst }
    refine ⟨{ inv.heaps with right_to_set_inst := by simp, heap_wf := fun h v found => ?_ },
      { inv.segments with }, { inv.pages with }, { inv.delays with },
      inv.blocks.frame rfl rfl rfl rfl⟩
    obtain ⟨_, set, _⟩ := inv.heaps.heap_wf h v found
    rw [unset] at set
    cases set

/-- No part of the invariant reads the actors of threads. -/
theorem Inv.setActor (inv : Inv s) (actors : FMap ThreadId Actor) : Inv { s with actor := actors } :=
  ⟨{ inv.heaps with }, { inv.segments with }, { inv.pages with }, { inv.delays with },
    inv.blocks.frame rfl rfl rfl rfl⟩

theorem actorMakeIdle_keeps (inv : Inv s) (threadId : ThreadId) :
    Ensures (actorMakeIdle threadId) s fun _ t => Inv t :=
  .bind (.remove fun _ _ => .bind (.require fun _ => .add (Finmap.lookup_erase _ _) (inv.setActor _)))

theorem actorAbandon_keeps (inv : Inv s) (threadId : ThreadId) :
    Ensures (actorAbandon threadId) s fun _ t => Inv t :=
  .bind (.remove fun _ _ => .add (Finmap.lookup_erase _ _) (inv.setActor _))

theorem setUseDelayedFree_keeps (inv : Inv s) (pageId : PageId A.Provenance) :
    Ensures (setUseDelayedFree pageId) s fun _ t => Inv t := by
  refine .bind (.remove fun state found => .bind (.require fun no => .add ?_ ?_))
  · exact Finmap.lookup_erase _ _
  · change s.delay.lookup pageId = some state at found
    show Inv { s with delay := (s.delay.erase pageId).insert pageId .useDelayedFree }
    rw [FMap.insert_erase]
    refine ⟨{ inv.heaps with }, { inv.segments with }, inv.pages.setDelay found, ?_,
      inv.blocks.frame rfl rfl rfl rfl⟩
    have known := inv.delays.delay_actor_freeing
    refine { inv.delays with delay_state := fun p => ?_, delay_actor_freeing := fun p => ?_ }
    · have := inv.delays.delay_state p
      grind [FMap.lookup_insert]
    · grind [FMap.lookup_insert]

theorem delayEnterFreeing_keeps (inv : Inv s) (pageId : PageId A.Provenance)
    (blockId : BlockId A.Provenance) :
    Ensures (delayEnterFreeing pageId blockId) s fun _ t => Inv t := by
  refine .bind (.remove fun state found => .bind (.require fun use => .bind (.add ?_ (.bind
    (.require fun same => .bind (.holds fun bs token => .add ?_ ?_))))))
  · exact Finmap.lookup_erase _ _
  all_goals
    change s.delay.lookup pageId = some state at found
    change s.block.lookup blockId = some bs at token
    have known := inv.delays.delay_actor_freeing
    have free : s.delayActor.lookup pageId = none := by grind
  · exact free
  · show Inv { s with
      delay := (s.delay.erase pageId).insert pageId .freeing
      delayActor := s.delayActor.insert pageId .heapUnknown }
    rw [FMap.insert_erase]
    refine ⟨{ inv.heaps with }, { inv.segments with }, { inv.pages.setDelay found with }, ?_,
      inv.blocks.frame rfl rfl rfl rfl⟩
    obtain ⟨t, page, _, ok⟩ := inv.blocks.block_valid blockId bs token
    have here := ok.page_of
    rw [same] at here
    refine ⟨fun p => ?_, fun p => ?_, fun p a actor => ?_, fun u cs p recorded member => ?_⟩
    · have := inv.delays.delay_state p
      grind [FMap.lookup_insert]
    · grind [FMap.lookup_insert]
    · by_cases this : p = pageId
      · subst this
        rw [FMap.lookup_insert, if_pos rfl] at actor
        cases actor
        exact ⟨t, page, here, ok.page_enabled, fun h hsa psa wrong => by cases wrong⟩
      · rw [FMap.lookup_insert, if_neg this] at actor
        exact inv.delays.delay_actor p a actor
    · obtain ⟨none, owner, empty⟩ := inv.delays.checked u cs p recorded member
      refine ⟨?_, owner, empty⟩
      rw [FMap.lookup_insert, if_neg ?_]
      · exact none
      · rintro rfl
        have owner' := inv.page_owner here
        rw [owner] at owner'
        cases owner'
        have := empty page here
        have := ok.idx_lt
        omega

theorem delayLeaveFreeing_keeps (inv : Inv s) (pageId : PageId A.Provenance) :
    Ensures (delayLeaveFreeing pageId) s fun _ t => Inv t := by
  refine .bind (.remove fun prev found => .bind (.add ?_ (.bind (.remove fun a present =>
    .assert ?_ ?_))))
  · exact Finmap.lookup_erase _ _
  all_goals
    change s.delay.lookup pageId = some prev at found
    change s.delayActor.lookup pageId = some a at present
    have known := inv.delays.delay_actor_freeing
  · grind
  · show Inv { s with
      delay := (s.delay.erase pageId).insert pageId .noDelayedFree
      delayActor := s.delayActor.erase pageId }
    rw [FMap.insert_erase]
    refine ⟨{ inv.heaps with }, { inv.segments with }, { inv.pages.setDelay found with }, ?_,
      inv.blocks.frame rfl rfl rfl rfl⟩
    refine ⟨fun p => ?_, fun p => ?_, fun p a actor => ?_, fun u cs p recorded member => ?_⟩
    · have := inv.delays.delay_state p
      grind [FMap.lookup_insert]
    · grind [FMap.lookup_insert, FMap.lookup_erase]
    · refine inv.delays.delay_actor p a ?_
      grind [FMap.lookup_erase]
    · obtain ⟨none, rest⟩ := inv.delays.checked u cs p recorded member
      refine ⟨?_, rest⟩
      grind [FMap.lookup_erase]

theorem delayLookupHeap_keeps (inv : Inv s) (blockId : BlockId A.Provenance) :
    Ensures (delayLookupHeap blockId) s fun _ t => Inv t := by
  refine .bind (.holds fun h heapFound => .bind (.holds fun bs token => .bind
    (haveInst_ensures fun inst set => .bind (.remove fun a present => ?_))))
  change s.heapOfPage.lookup blockId.pageId = some h at heapFound
  change s.block.lookup blockId = some bs at token
  change s.delayActor.lookup blockId.pageId = some a at present
  obtain ⟨t, page, heap, here, _, owner⟩ := (inv.pages.heap_of_page _ _).mp heapFound
  have deposited := (inv.heaps.heap_of_thread t h heap owner).1
  refine .bind (.index deposited (.bind (.add ?_ (.assert ?_ ?_))))
  · exact Finmap.lookup_erase _ _
  · obtain ⟨inst', set', wf⟩ := inv.heaps.heap_wf h _ deposited
    rw [set] at set'
    cases set'
    exact wf
  · show Inv { s with
      delayActor := (s.delayActor.erase blockId.pageId).insert blockId.pageId
        (.heap h heap.sharedAccess bs.pageSharedAccess) }
    rw [FMap.insert_erase]
    refine ⟨{ inv.heaps with }, { inv.segments with }, { inv.pages with }, ?_,
      inv.blocks.frame rfl rfl rfl rfl⟩
    obtain ⟨u, page', _, ok⟩ := inv.blocks.block_valid blockId bs token
    cases inv.owner_unique here ok.page_of
    have same := ok.page_of
    rw [here] at same
    cases same
    refine { inv.delays with
      delay_actor_freeing := fun p => ?_
      delay_actor := fun p a actor => ?_
      checked := fun u cs p recorded member => ?_ }
    · have := inv.delays.delay_actor_freeing p
      grind [FMap.lookup_insert]
    · by_cases this : p = blockId.pageId
      · subst this
        rw [FMap.lookup_insert, if_pos rfl] at actor
        cases actor
        refine ⟨t, page, here, ok.page_enabled, fun h' hsa psa same => ?_⟩
        cases same
        exact ⟨owner, ok.page_access⟩
      · rw [FMap.lookup_insert, if_neg this] at actor
        exact inv.delays.delay_actor p a actor
    · obtain ⟨none, rest⟩ := inv.delays.checked u cs p recorded member
      refine ⟨?_, rest⟩
      grind [FMap.lookup_insert]

theorem blockSetHeapId_keeps (inv : Inv s) (blockId : BlockId A.Provenance) :
    Ensures (blockSetHeapId blockId) s fun _ t => Inv t := by
  refine .bind (haveHeapActor_ensures fun h hsa psa actor => .bind (.remove fun bs token =>
    .add ?_ ?_))
  · exact Finmap.lookup_erase _ _
  · change s.block.lookup blockId = some bs at token
    show Inv { s with
      block := (s.block.erase blockId).insert blockId { bs with heapId := some h } }
    rw [FMap.insert_erase]
    refine ⟨{ inv.heaps with }, { inv.segments with }, { inv.pages with }, { inv.delays with },
      fun b bs' found => ?_, fun b bs' found => ?_⟩
    · by_cases this : b = blockId
      · subst this
        rw [FMap.lookup_insert, if_pos rfl] at found
        cases found
        obtain ⟨t, page, slice, ok⟩ := inv.blocks.block_valid b bs token
        obtain ⟨u, page', here, _, heap⟩ := inv.delays.delay_actor _ _ actor
        cases inv.owner_unique here ok.page_of
        refine ⟨t, page, slice, { ok with heap_of := fun h' same => ?_ }⟩
        cases same
        exact ⟨_, (heap h hsa psa rfl).1⟩
      · rw [FMap.lookup_insert, if_neg this] at found
        obtain ⟨t, page, slice, ok⟩ := inv.blocks.block_valid b bs' found
        exact ⟨t, page, slice, { ok with }⟩
    · have right := inv.blocks.block_right
      grind [FMap.lookup_insert]

end VerusMimalloc.Mim
