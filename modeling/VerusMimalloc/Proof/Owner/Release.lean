/-
**Freeing by the owner.**

* `segmentPageFree_safe`: an empty page that left its queue is given back to its segment;
* `freeBlock_safe`: a block at hand goes back to its page;
* `free_safe`: `free` of a block that was live;
* `segmentPageFree_stuck`, `freeLocal_stuck`, `free_stuck`: with the last block of a segment they end in
  `segment_free`.
-/

import VerusMimalloc.Proof.Owner.Rules

namespace VerusMimalloc

open Library

variable {mode : Mode} {allowed : Abort → Prop} {l : Local} {a p : Nat}

/-! ### The word of a page -/

/-- A load of a page's word changes nothing. -/
theorem loadThreadFree_safe {K : Nat → Prop}
    (seen : ∀ sh, Inv ⟨l, sh⟩ → (mode.solo → Quiet ⟨l, sh⟩) → K (sh.xthreadFree a).word) :
    OwnerSafe mode allowed (loadThreadFree a) (fun word l' => l' = l ∧ K word) l := by
  refine safe_state (fun sh value t inv quiet result => ?_) fun sh e _ result => by cases result
  cases result
  exact ⟨inv, quiet, .refl l, .refl _, rfl, seen sh inv quiet⟩

/-- `check_is_good` finds the null word of a page that is being given back. -/
theorem checkIsGood_safe {fuel : Nat} (timeout : fuel = 0 → allowed .timeout)
    (held : l.held = .destroying a) :
    OwnerSafe mode allowed (checkIsGood fuel a) (fun _ l' => l' = l) l := by
  cases fuel with
  | zero => exact timeout rfl
  | succ fuel =>
      have null : ∀ sh, Inv ⟨l, sh⟩ → (mode.solo → Quiet ⟨l, sh⟩) → (sh.xthreadFree a).word = 0 := by
        intro sh inv _
        obtain ⟨spans, nodes, wf⟩ : Wf l := inv.wf
        have word : sh.xthreadFree a = _ := inv.protocol.unused a (wf.destroyed held).1
        rw [word]
        rfl
      refine Discipline.Safe.bind
        (?_ : OwnerSafe mode allowed _ (fun again l' => l' = l ∧ again = .inr ()) l) ?_
      · refine (loadThreadFree_safe (K := (· = 0)) null).seq fun word l' ⟨same, zero⟩ => ?_
        rw [zero]
        exact ⟨same, rfl⟩
      · rintro _ l' ⟨same, rfl⟩
        exact same

/-! ### The end of a page -/

/-- What `segment_page_clear` does to the owner's state. -/
structure Cleared (l l' : Local) (a : Nat) : Prop where
  held : l'.held = .nothing
  taken : l'.taken = l.taken
  used : (l'.segs (ptrSegment a)).used + 1 = (l.segs (ptrSegment a)).used
  abandoned : (l'.segs (ptrSegment a)).abandoned = 0
  gone : ¬InUse l' a
  oracle : l'.os.oracle = l.os.oracle
  steps : ∃ l₁ l₂, segmentPageClearHeader l a = .ok l₁ ∧
    segmentPageClearSpan { l₁ with held := .destroying a } a = .ok l₂ ∧ l' = { l₂ with held := .nothing }

/-- **`segment_page_clear`**; it may panic where its decommit is refused. -/
theorem segmentPageClear_safe {fuel : Nat} (timeout : fuel = 0 → allowed .timeout)
    (refused : l.os.oracle.Refuses → allowed .mprotect) (held : l.held = .unlinked a) :
    OwnerSafe mode allowed (segmentPageClear fuel a) (fun _ l' => Cleared l l' a) l := by
  have header : OwnerSafe mode allowed (localStep fun l => do
      let l ← segmentPageClearHeader l a
      return ((), { l with held := .destroying a })) (fun _ l' => l'.held = .destroying a ∧
        l'.taken = l.taken ∧ l'.segs = l.segs ∧ l'.os.oracle = l.os.oracle ∧
        ∃ l₁, segmentPageClearHeader l a = .ok l₁ ∧ l' = { l₁ with held := .destroying a }) l := by
    refine safe_localStep (fun sh value l' inv result => ?_) fun sh e inv result => ?_
    · obtain ⟨l₁, cleared, inv', kept, taken, segs⟩ := inv.clearHeader held
      simp only [cleared] at result
      cases result
      exact ⟨inv', kept, inv.clearHeader_kept held cleared, rfl, taken, segs, kept.oracle, l₁, cleared, rfl⟩
    · obtain ⟨l₁, cleared, _⟩ := inv.clearHeader held
      simp only [cleared] at result
      cases result
  refine header.seq fun _ l₁ ⟨held₁, taken₁, segs₁, oracle₁, l₀, header₁, l₁Eq⟩ => ?_
  refine (checkIsGood_safe timeout held₁).seq fun _ l₂ same => ?_
  subst same
  refine OwnerSafe.seq (Q := fun _ l' => l' = l₂)
    (safe_state (fun sh value t inv quiet result => ?_) fun sh e _ result => by cases result)
    fun _ l₃ same => ?_
  · cases result
    rw [inv.disable held₁]
    exact ⟨inv, quiet, .refl l₂, inv.disable_kept held₁, rfl⟩
  subst same
  refine safe_osStep (fun refuses => refused (oracle₁ ▸ refuses)) (fun sh value l' inv result => ?_)
    fun sh e inv result => ?_
  · obtain ⟨l₄, cleared, inv', kept, taken, used, abandoned, gone⟩ := inv.clearSpan held₁
    simp only [cleared] at result
    cases result
    rw [segs₁] at used
    exact ⟨inv', kept, fun _ => inv.clearSpan_kept held₁ cleared, rfl, taken.trans taken₁, used,
      abandoned, gone, kept.oracle.trans oracle₁, l₀, l₄, header₁, l₁Eq ▸ cleared, rfl⟩
  · obtain ⟨l₄, cleared, _⟩ := inv.clearSpan held₁
    simp only [cleared] at result
    cases result

/-- **`segment_page_free`** gives the page back; it ends in `segment_free` when this was the last page
of the segment. -/
theorem segmentPageFree_safe {fuel : Nat} (timeout : fuel = 0 → allowed .timeout)
    (refused : l.os.oracle.Refuses → allowed .mprotect)
    (segmentFree : (l.segs (ptrSegment a)).used = 1 → allowed .segmentFree)
    (held : l.held = .unlinked a) :
    OwnerSafe mode allowed (segmentPageFree fuel a) (fun _ l' => Cleared l l' a) l := by
  refine (segmentPageClear_safe timeout refused held).seq fun _ l₁ cleared => ?_
  have used := cleared.used
  have abandoned := cleared.abandoned
  refine safe_localStep (fun sh value l' inv result => ?_) fun sh e inv result => ?_
  all_goals
    by_cases last : (l₁.segs (ptrSegment a)).used = 0
    · rw [if_pos last] at result
      cases result
      try exact segmentFree (by omega)
    · have differs : (l₁.segs (ptrSegment a)).used ≠ (l₁.segs (ptrSegment a)).abandoned := by omega
      rw [if_neg last, if_neg differs] at result
      cases result
      try exact ⟨inv, .refl l₁, .refl _, cleared⟩

/-- **`segment_page_free`** of the last page of a segment does not return. -/
theorem segmentPageFree_stuck (one : (l.segs (ptrSegment a)).used = 1) (held : l.held = .unlinked a)
    (fuel : Nat) :
    OwnerSafe mode (fun _ => True) (segmentPageFree fuel a) (fun _ _ => False) l := by
  refine (segmentPageClear_safe (fun _ => trivial) (fun _ => trivial) held).seq fun _ l₁ cleared => ?_
  have used := cleared.used
  refine safe_localStep (fun sh value l' inv result => ?_) fun sh e inv result => trivial
  rw [if_pos (by omega)] at result
  cases result

/-- The last part of `page_free`. -/
theorem pageFreeRest_safe {fuel : Nat} (timeout : fuel = 0 → allowed .timeout)
    (refused : l.os.oracle.Refuses → allowed .mprotect) {freed : Bool}
    (segmentFree : freed = true → (l.segs (ptrSegment a)).used = 1 → allowed .segmentFree)
    (held : l.held = if freed then .unlinked a else .nothing) :
    OwnerSafe mode allowed (pageFreeRest fuel a freed) (fun _ l' =>
      if freed then Cleared l l' a else l' = l) l := by
  unfold pageFreeRest
  cases freed with
  | true => exact segmentPageFree_safe timeout refused (segmentFree rfl) held
  | false => exact ownerSafe_pure rfl

/-! ### Blocks go back -/

/-- A block at hand that may go back to its page now. -/
def Held.GoesBack (held : Held) (block : Nat) : Prop := held = .ready block ∨ held = .given block

theorem Held.GoesBack.direct {held : Held} (back : held.GoesBack p) : held.direct = [p] := by
  rcases back with rfl | rfl <;> rfl

/-- Nothing of its page waits for the owner. -/
theorem Held.GoesBack.collected (back : l.held.GoesBack p) {sh : Shared} (inv : Inv ⟨l, sh⟩)
    (use : (sh.xthreadFree a).delay = .useDelayedFree) : (sh.xthreadFree a).list = [] := by
  refine (inv.protocol.pending a use).resolve_right ?_
  rintro ⟨b, claimed, _⟩
  change l.held = .claimed b at claimed
  rcases back with same | same <;> simp [same] at claimed

/-- `p` is the last block of a page that `page_retire` does not keep, and the page is the last one of its
segment. -/
def LastOfSegment (l : Local) (p : Nat) : Prop :=
  ((l.pages (pageOfBlock l p)).used = 1 ∧ ¬Retained l (pageOfBlock l p)) ∧
    (l.segs (ptrSegment (pageOfBlock l p))).used = 1

instance (l : Local) (p : Nat) : Decidable (LastOfSegment l p) := by
  unfold LastOfSegment
  infer_instance

/-- The first part of a free by the owner, however it is written. -/
theorem freeFirst_safe {f : Local → Except Abort (Bool × Local)} (same : f l = freeBlockLocal l a p)
    (back : l.held.GoesBack p) (on : pageOfBlock l p = a) :
    OwnerSafe mode allowed (localStep f) (fun freed l' =>
      (l'.held = if freed then .unlinked a else .nothing) ∧ l'.taken = l.taken ∧ l'.segs = l.segs ∧
        l'.os = l.os ∧ (freed = true ↔ (l.pages a).used = 1 ∧ ¬Retained l a)) l := by
  refine safe_localStep (fun sh value l' inv result => ?_) fun sh e inv result => ?_
  · obtain ⟨freed, l₁, done, spec, iff, held⟩ :=
      freeBlockLocal_spec inv back.direct on fun use => back.collected inv use
    have moves := (freeBlockLocal_kept inv back.direct on (fun use => back.collected inv use) done).1
    rw [same, done] at result
    cases result
    exact ⟨spec.inv, spec.kept.kept, moves, held, spec.taken, spec.segs, spec.os, iff⟩
  · obtain ⟨freed, l₁, done, _⟩ :=
      freeBlockLocal_spec inv back.direct on fun use => back.collected inv use
    rw [same, done] at result
    cases result

/-- A free by the owner ends in `segment_free` only with the last block of a segment. -/
theorem freeLocal_safe {f : Local → Except Abort (Bool × Local)} (same : f l = freeBlockLocal l a p)
    {fuel : Nat} (timeout : fuel = 0 → allowed .timeout)
    (refused : l.os.oracle.Refuses → allowed .mprotect)
    (segmentFree : LastOfSegment l p → allowed .segmentFree) (back : l.held.GoesBack p)
    (on : pageOfBlock l p = a) :
    OwnerSafe mode allowed (localStep f >>= pageFreeRest fuel a) (fun _ l' => l'.held = .nothing ∧
      l'.taken = l.taken) l := by
  refine (freeFirst_safe same back on).seq fun freed l₁ ⟨held, taken, segs, os, iff⟩ => ?_
  refine (pageFreeRest_safe timeout (fun refuses => refused (os ▸ refuses)) (fun isFreed one => segmentFree ?_) held).mono fun _ l' after => ?_
  · subst on
    exact ⟨iff.mp isFreed, segs ▸ one⟩
  · cases freed with
    | true => exact ⟨after.held, after.taken.trans taken⟩
    | false =>
        rw [if_neg (by decide)] at after
        rw [after]
        exact ⟨held, taken⟩

/-- With the last block of a segment it does not return. -/
theorem freeLocal_stuck {f : Local → Except Abort (Bool × Local)} (same : f l = freeBlockLocal l a p)
    (last : LastOfSegment l p) (back : l.held.GoesBack p) (on : pageOfBlock l p = a) (fuel : Nat) :
    OwnerSafe mode (fun _ => True) (localStep f >>= pageFreeRest fuel a) (fun _ _ => False) l := by
  subst on
  refine (freeFirst_safe same back rfl).seq fun freed l₁ ⟨held, _, segs, _, iff⟩ => ?_
  obtain rfl : freed = true := iff.mpr last.1
  exact segmentPageFree_stuck (segs.symm ▸ last.2) held fuel

/-- **`free_block` by the owner.** -/
theorem freeBlock_safe {fuel : Nat} (timeout : fuel = 0 → allowed .timeout)
    (refused : l.os.oracle.Refuses → allowed .mprotect)
    (segmentFree : LastOfSegment l p → allowed .segmentFree) (back : l.held.GoesBack p)
    (on : pageOfBlock l p = a) :
    OwnerSafe mode allowed (freeBlock fuel a p) (fun _ l' => l'.held = .nothing ∧
      l'.taken = l.taken) l :=
  freeLocal_safe rfl timeout refused segmentFree back on

/-! ### `free` -/

/-- The direct path of `free` does what `free_block` does, on a page that is not full. -/
theorem plain_eq (plain : (l.pages a).notFullNorAligned = true) :
    (do
      let (used, l) ← insertFree l a p
      if used = 0 then return pageRetire l a else return (false, l)) = freeBlockLocal l a p := by
  have notFull := (l.pages a).getInFull_of_notFullNorAligned plain
  unfold freeBlockLocal insertFree
  by_cases none : (l.pages a).used = 0
  · rw [if_pos none]
    rfl
  · rw [if_neg none]
    by_cases last : (l.pages a).used - 1 = 0
    · simp only [bind, Except.bind, last]
      rfl
    · have same : (({ l.modifyPage a fun p' => { p' with
          free := p :: p'.free, used := (l.pages a).used - 1 } with held := .nothing } : Local).pages
          a).getInFull = (l.pages a).getInFull := by
        change (if a = a then _ else l.pages a : Page).getInFull = _
        rw [if_pos rfl]
        rfl
      simp only [bind, Except.bind, if_neg last, same, notFull]
      rfl

/-- The owner's test finds its own page. -/
theorem Inv.isLocal {sh : Shared} (inv : Inv ⟨l, sh⟩) (outside : 0 < outside l sh p) :
    l.heap.threadId = (l.segs (calculateSegmentPtrFromBlock p)).threadId := by
  have page := inv.accounting.placed p outside
  have inside := inv.accounting.of_outside outside
  obtain ⟨spans, nodes, wf⟩ : Wf l := inv.wf
  obtain ⟨s, k, c, place, _⟩ := wf.exists_pageAt page
  obtain ⟨_, _, _, _, segment, _⟩ := place.of_mem_blocksOf (wf.page _ page) inside
  rw [segment]
  exact (wf.segments.owned s place.member).thread.symm

/-- A block at hand is outside the lists of its page. -/
theorem outside_of_direct {sh : Shared} (direct : l.held.direct = [p]) : 0 < outside l sh p := by
  rw [outside_pos]
  simp [directBlocks, direct]

/-- Both paths of `free` are a free by the owner. -/
theorem free_cases {allowed : Abort → Prop} {post : Unit → Local → Prop} {fuel : Nat}
    (given : l.held = .given p) (nonzero : p ≠ 0)
    (body : ∀ f, f l = freeBlockLocal l (pageOfBlock l p) p →
      OwnerSafe mode allowed (localStep f >>= pageFreeRest fuel (pageOfBlock l p)) post l) :
    OwnerSafe mode allowed (free fuel p) post l := by
  have back : l.held.GoesBack p := .inr given
  unfold free
  rw [if_neg nonzero]
  refine OwnerSafe.seq (Q := fun read l' => l' = l ∧ read = (pageOfBlock l p, true,
    (l.pages (pageOfBlock l p)).notFullNorAligned)) (safe_localRead fun sh inv => ⟨rfl, ?_⟩) ?_
  · have same := inv.isLocal (outside_of_direct back.direct)
    simp only [same, decide_true]
  · rintro _ l' ⟨rfl, rfl⟩
    simp only [if_true]
    by_cases plain : (l'.pages (pageOfBlock l' p)).notFullNorAligned = true
    · rw [if_pos plain]
      exact body _ (plain_eq plain)
    · rw [if_neg plain]
      exact body _ rfl

/-- **`free`.** -/
theorem free_safe {fuel : Nat} (timeout : fuel = 0 → allowed .timeout)
    (refused : l.os.oracle.Refuses → allowed .mprotect)
    (segmentFree : LastOfSegment l p → allowed .segmentFree) (given : l.held = .given p)
    (nonzero : p ≠ 0) :
    OwnerSafe mode allowed (free fuel p) (fun _ l' => l'.held = .nothing ∧ l'.taken = l.taken) l :=
  free_cases given nonzero fun _ same => freeLocal_safe same timeout refused segmentFree (.inr given) rfl

/-- `free` of the last block of a segment does not return. -/
theorem free_stuck (last : LastOfSegment l p) (given : l.held = .given p) (nonzero : p ≠ 0)
    (fuel : Nat) : OwnerSafe mode (fun _ => True) (free fuel p) (fun _ _ => False) l :=
  free_cases given nonzero fun _ same => freeLocal_stuck same last (.inr given) rfl fuel

end VerusMimalloc
