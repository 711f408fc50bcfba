/-
**Allocating.**

* `popFree_safe`: the first free block of a page becomes live;
* `pageMalloc_safe`, `heapMallocZero_safe`: the block belongs to a page of the request's bin.
-/

import VerusMimalloc.Proof.Owner.Search

namespace VerusMimalloc

open Library

variable {ordered : Prop} {allowed : Abort → Prop} {l l' : Local} {sh : Shared} {a size : Nat}

/-! ### Taking a block -/

/-- A page that may serve a request: a page of its bin, or no page. -/
def Serves (l : Local) (size a : Nat) : Prop :=
  InUse l a → (l.pages a).xblockSize = queueBlockSize (bin size)

/-- The block that a call returns. -/
structure Served (l : Local) (size p : Nat) : Prop where
  nonzero : p ≠ 0
  page : ∃ a, InUse l a ∧ p ∈ blocksOf l a ∧ (l.pages a).xblockSize = queueBlockSize (bin size)

theorem Found.serves (found : Found l (bin size) a) (wf : Wf l) (medium : size ≤ mediumObjSizeMax) :
    Serves l size a := fun _ => (found.size wf (bin_bounds medium).2).2

/-- What the pop of `page_malloc` does. -/
structure Popped (l l' : Local) (size a : Nat) (popped : Option Nat) : Prop where
  idle : Idle l'
  none : popped = none → l' = l ∧ (l.pages a).free = []
  some : ∀ p, popped = some p → Served l' size p ∧ pageOfBlock l' p = a

/-- **The pop of `page_malloc`.** -/
theorem popFree_safe (idle : Idle l) (medium : size ≤ mediumObjSizeMax) (serves : Serves l size a) :
    OwnerSafe ⟨False, ordered⟩ allowed (popFree a size) (fun popped l' => Popped l l' size a popped) l := by
  refine safe_state (fun sh value t inv quiet result => ?_) fun sh e _ result => ?_
  · simp only at result
    split at result
    · rename_i free
      cases result
      exact ⟨inv, quiet, .refl l, .refl _, idle, fun _ => ⟨rfl, free⟩, fun p some => by cases some⟩
    · rename_i p rest free
      cases result
      have page : InUse l a := by
        by_contra unused
        obtain ⟨spans, nodes, wf⟩ : Wf l := inv.wf
        rw [(wf.blank a unused).free] at free
        cases free
      obtain ⟨_, inside, inv'⟩ := inv.popFree (n := size) idle.settled free
        (serves page ▸ le_queueBlockSize_bin medium)
      have frame : BlockFrame l (l.modifyPage a fun page =>
          { page with free := rest, used := page.used + 1 }) :=
        .modifyPage l a fun p => ⟨rfl, rfl, rfl, rfl, rfl, rfl, fun _ => rfl, rfl, rfl⟩
      have header : (l.modifyPage a fun page =>
          { page with free := rest, used := page.used + 1 }).pages a =
          { l.pages a with free := rest, used := (l.pages a).used + 1 } := if_pos rfl
      have blocks : blocksOf (l.modifyPage a fun page =>
          { page with free := rest, used := page.used + 1 }) a = blocksOf l a :=
        blocksOf_congr (by rw [header]) (by rw [header])
      have moves : OwnerMoves ⟨l, sh⟩ ⟨l.modifyPage a fun page =>
          { page with free := rest, used := page.used + 1 },
          { sh with live := (p, size) :: sh.live }⟩ := by
        refine frame.ownerMoves (a := a) (fun x differs => if_neg differs) (fun _ => Iff.rfl) rfl
          (.inr ⟨p, size, rfl⟩) (fun _ => List.Subset.refl _) (fun _ q inside => ?_) (fun _ used => ?_)
          (fun _ => .inr (List.cons_ne_self _ _)) (.popBlock free rfl rfl rfl rfl)
        · rw [header] at inside
          refine List.mem_append_left _ ((List.mem_append.mp inside).elim (fun inRest => ?_) fun inLocal => ?_)
          · exact List.mem_append_left _ (free ▸ List.mem_cons_of_mem _ inRest)
          · exact List.mem_append_right _ inLocal
        · rw [header] at used
          cases used
      refine ⟨inv', False.elim, (frame.kept fun x => ?_).kept, moves, ⟨idle.held, idle.taken⟩,
        fun none => (by cases none), fun q same => ?_⟩
      · rw [Local.modifyPage_pages]
        split <;> exact Nat.le_refl _
      · cases same
        obtain ⟨_, positive, on⟩ := inv.wf.of_mem_blocksOf page inside
        refine ⟨⟨by omega, a, frame.inUse_iff.mpr page, ?_, ?_⟩, by rw [frame.pageOfBlock_eq, on]⟩
        · rw [blocks]
          exact inside
        · exact (congrArg Page.xblockSize header).trans (serves page)
  · simp only at result
    split at result <;> cases result

/-! ### The calls -/

/-- `malloc_generic` finds a page and takes a block of it. -/
theorem mallocGenericWith_safe (expected : ∀ e, Expected e → allowed e)
    (segmentFree : allowed .segmentFree) (idle : Idle l) (medium : size ≤ mediumObjSizeMax)
    {take : Nat → P Nat} (taking : ∀ page l', Idle l' → Serves l' size page →
      OwnerSafe ⟨False, ordered⟩ allowed (take page) (fun p l' => Idle l' ∧ Served l' size p) l')
    (fuel : Nat) (zero : Bool) :
    OwnerSafe ⟨False, ordered⟩ allowed (mallocGenericWith take fuel size zero 0) (fun p l' =>
      Idle l' ∧ Served l' size p) l := by
  refine (heapDelayedFreePartial_safe expected segmentFree idle.held idle.taken fuel).seq
    fun _ l₁ ⟨held, taken⟩ => ?_
  refine (findPage_safe expected ⟨held, taken⟩ medium fuel).seq fun page l₂ ⟨idle₂, found⟩ => ?_
  by_cases none : page = 0
  · rw [if_pos none]
    exact expected _ (.inr (.inl rfl))
  · have found := (found.resolve_left none).2
    rw [if_neg none]
    refine OwnerSafe.seq (Q := fun blockSize l' => l' = l₂ ∧ blockSize ≠ 0 ∧ Serves l₂ size page)
      (safe_localRead fun sh inv => ⟨rfl, found.page.1, found.serves inv.wf medium⟩) ?_
    rintro blockSize l' ⟨rfl, nonzero, serves⟩
    rw [if_neg fun both => nonzero both.2]
    exact taking page l' idle₂ serves

/-- **`page_malloc`.** -/
theorem pageMalloc_safe (expected : ∀ e, Expected e → allowed e) (segmentFree : allowed .segmentFree)
    (idle : Idle l) (medium : size ≤ mediumObjSizeMax) (serves : Serves l size a) (fuel : Nat)
    (zero : Bool) :
    OwnerSafe ⟨False, ordered⟩ allowed (pageMalloc fuel a size zero) (fun p l' => Idle l' ∧ Served l' size p)
      l := by
  induction fuel generalizing l a with
  | zero => exact expected _ (.inl rfl)
  | succ fuel ih =>
      refine (popFree_safe idle medium serves).seq fun popped l₁ done => ?_
      cases popped with
      | some p => exact ⟨done.idle, (done.some p rfl).1⟩
      | none =>
          exact mallocGenericWith_safe expected segmentFree done.idle medium
            (fun page l' idle' serves' => ih idle' serves') fuel zero

/-- **The table of small sizes** leads to a page of the request's bin. -/
theorem serves_small (wf : Wf l) (small : size ≤ smallSizeMax) :
    Serves l size (heapGetFreeSmallPage l size) := by
  intro page
  have medium : size ≤ mediumObjSizeMax := by
    simp only [smallSizeMax, smallWsizeMax, intptrSize, mediumObjSizeMax] at small ⊢
    omega
  obtain ⟨spans, nodes, wfWith⟩ := id wf
  have direct := wfWith.direct ((size + 7) / 8) (by
    simp only [smallSizeMax, smallWsizeMax, intptrSize] at small
    omega)
  rw [bin_words] at direct
  rw [heapGetFreeSmallPage, direct, queueFirst] at page ⊢
  by_cases none : (l.heap.pages (bin size)).first = 0
  · rw [if_pos none] at page
    exact absurd page (wfWith.segments.pageEmptyPtr_not_inUse)
  · rw [if_neg none] at page ⊢
    have on := (wf.first_page (bin size)).resolve_left none
    exact (on.2.size wf (bin_bounds medium).2).2

/-- **`heap_malloc_zero`**, with `heap_malloc` as a special case. -/
theorem heapMallocZero_safe (expected : ∀ e, Expected e → allowed e)
    (segmentFree : allowed .segmentFree) (idle : Idle l) (medium : size ≤ mediumObjSizeMax) (fuel : Nat)
    (zero : Bool) :
    OwnerSafe ⟨False, ordered⟩ allowed (heapMallocZero fuel size zero) (fun p l' => Idle l' ∧ Served l' size p)
      l := by
  unfold heapMallocZero heapMallocZeroEx
  by_cases small : size ≤ smallSizeMax
  · rw [if_pos small]
    refine OwnerSafe.seq (Q := fun page l' => l' = l ∧ Serves l size page)
      (safe_localRead fun sh inv => ⟨rfl, serves_small inv.wf small⟩) ?_
    rintro page l' ⟨rfl, serves⟩
    exact pageMalloc_safe expected segmentFree idle medium serves fuel zero
  · rw [if_neg small]
    exact mallocGenericWith_safe expected segmentFree idle medium (fun page l' idle' serves' =>
      pageMalloc_safe expected segmentFree idle' medium serves' fuel zero) fuel zero

end VerusMimalloc
