/-
**Delayed frees.**

* `tryUseDelayedFree_safe`: a page whose block the owner popped uses delayed frees again, or a
  freeing thread is in the way;
* `freeDelayedBlock_safe`: the block goes back to its page, or stays popped;
* `heapDelayedFreePartial_safe`: the delayed list is taken and worked off.
-/

import VerusMimalloc.Proof.Owner.Release

namespace VerusMimalloc

open Library

variable {ordered : Prop} {mode : Mode} {allowed : Abort → Prop} {l l' : Local} {sh sh' : Shared} {a b : Nat}

/-! ### Claiming a block -/

/-- The owner's state is well formed whatever block is at hand. -/
theorem Wf.relabel (wf : Wf l) (frame : BlockFrame l l') (pages : l'.pages = l.pages)
    (before : l.held.Settled) (after : l'.held.Settled) : Wf l' := by
  obtain ⟨spans, nodes, wf⟩ := wf
  refine ⟨spans, nodes, wf.blocks frame (fun x => iff_of_false (after x).1 (before x).1)
    (fun x => iff_of_false (after x).2 (before x).2) (fun x page => ?_) (fun x page => ?_)
    (fun x page => ?_) fun x unlinked => absurd unlinked (before x).2⟩ <;> rw [pages]
  · exact (wf.page x page).capacity
  · exact wf.count x page
  · exact wf.blank x page

/-- A weak compare-exchange may fail. -/
theorem Inv.asked (inv : Inv ⟨l, sh⟩) :
    Inv ⟨{ l with os := { l.os with calls := l.os.calls + 1 } }, sh⟩ := by
  refine inv.regroup ⟨⟨rfl, rfl, rfl, ⟨rfl, Nat.le_succ _, rfl⟩, rfl, rfl, rfl, rfl, rfl, rfl,
    fun _ => .refl _⟩, rfl, .inl rfl, rfl, fun _ => rfl, fun _ => rfl, fun _ inside => inside,
    fun _ => rfl, fun _ member => .inl member⟩

/-- A popped block is outside, and its page does not use delayed frees. -/
theorem Inv.of_popped (inv : Inv ⟨l, sh⟩) (popped : l.held = .popped b) :
    0 < outside l sh b ∧ InUse l (pageOfBlock l b) ∧
      ((sh.xthreadFree (pageOfBlock l b)).delay = .freeing ∨
        (sh.xthreadFree (pageOfBlock l b)).delay = .noDelayedFree) := by
  have member : b ∈ delayedBlocks l sh := by simp [delayedBlocks, popped, Held.delayed]
  have positive : 0 < outside l sh b := outside_pos.mpr (List.mem_append.mpr (.inl member))
  refine ⟨positive, inv.accounting.placed b positive, ?_⟩
  have count := inv.protocol.delayed (pageOfBlock l b)
  have some : 0 < (delayedBlocks l sh).countP fun q => pageOfBlock l q == pageOfBlock l b :=
    List.countP_pos_iff.mpr ⟨b, member, by simp⟩
  simp only at count
  have never := inv.protocol.never (pageOfBlock l b)
  simp only at never
  cases delay : (sh.xthreadFree (pageOfBlock l b)).delay with
  | useDelayedFree =>
      rw [delay] at count
      simp only [if_true] at count
      omega
  | freeing => exact .inl rfl
  | noDelayedFree => exact .inr rfl
  | neverDelayedFree => exact absurd delay never

/-- **The page of a popped block uses delayed frees again.** -/
theorem Inv.claim (inv : Inv ⟨l, sh⟩) (popped : l.held = .popped b) (on : pageOfBlock l b = a)
    (delay : (sh.xthreadFree a).delay = .noDelayedFree) (frame : BlockFrame l l')
    (pages : l'.pages = l.pages) (taken : l'.taken = l.taken) (held : l'.held = .claimed b)
    (words : sh'.xthreadFree = fun x =>
      if x = a then { sh.xthreadFree a with delay := .useDelayedFree } else sh.xthreadFree x)
    (delayed : sh'.threadDelayedFree = sh.threadDelayedFree) (threads : sh'.threads = sh.threads)
    (live : sh'.live = sh.live) : Inv ⟨l', sh'⟩ := by
  have pageOf : pageOfBlock l' = pageOfBlock l := frame.pageOfBlock_eq
  have page : InUse l a := on ▸ (inv.of_popped popped).2.1
  have sameOutside : ∀ p, outside l' sh' p = outside l sh p := fun p => by
    simp only [outside, delayedBlocks, directBlocks, delayed, threads, live, frame.heapPtr, taken, held,
      popped, Held.delayed, Held.direct, List.count_append, List.count_nil]
    omega
  have fewer : ∀ x, (delayedBlocks l sh).countP (fun p => pageOfBlock l p == x) =
      (delayedBlocks l' sh').countP (fun p => pageOfBlock l p == x) + if x = a then 1 else 0 := by
    intro x
    have one : [b].countP (fun p => pageOfBlock l p == x) = if x = a then 1 else 0 := by
      by_cases same : x = a
      · rw [if_pos same, same, List.countP_singleton, on, if_pos (by simp)]
      · rw [if_neg same, List.countP_singleton, on, if_neg (by simpa using Ne.symm same)]
    simp only [delayedBlocks, delayed, threads, frame.heapPtr, taken, held, popped, Held.delayed,
      List.countP_append, List.countP_nil, one]
    omega
  have wordA : sh'.xthreadFree a = { sh.xthreadFree a with delay := .useDelayedFree } := by
    rw [words]
    exact if_pos rfl
  have others : ∀ x, x ≠ a → sh'.xthreadFree x = sh.xthreadFree x := fun x differs => by
    rw [words]
    exact if_neg differs
  have list : ∀ x, (sh'.xthreadFree x).list = (sh.xthreadFree x).list := fun x => by
    by_cases same : x = a
    · rw [same, wordA]
    · rw [others x same]
  have wf' : Wf l' := inv.wf.relabel frame pages (fun x => by simp [popped]) fun x => by simp [held]
  obtain ⟨⟨wf, ⟨placed, balance, sizes⟩, ⟨unused, never, counts, freeing, pending, known⟩⟩, full⟩ := inv
  refine ⟨⟨wf', ⟨fun p positive => ?_, fun x pageX p => ?_, fun p size inLive => ?_⟩,
    ⟨fun x notPage => ?_, fun x => ?_, fun x => ?_, fun x => ?_, fun x use => ?_,
    fun t member => ?_⟩⟩, fun x pageX use inFull _ => ?_⟩
  · rw [sameOutside] at positive
    rw [pageOf]
    exact frame.inUse_iff.mpr (placed p positive)
  · have blocks : blocksOf l' x = blocksOf l x := blocksOf_congr (by rw [pages]) (by rw [pages])
    rw [sameOutside, pageOf, blocks, listed, pages, list]
    exact balance x (frame.inUse_iff.mp pageX) p
  · rw [pageOf, pages]
    exact sizes p size (live ▸ inLive)
  · have unusedX : ¬InUse l x := fun inUse => notPage (frame.inUse_iff.mpr inUse)
    have differs : x ≠ a := fun same => unusedX (same ▸ page)
    exact (others x differs).trans (unused x unusedX)
  · change (sh'.xthreadFree x).delay ≠ _
    by_cases same : x = a
    · rw [same, wordA]
      simp
    · rw [others x same]
      exact never x
  · change (delayedBlocks l' sh').countP (fun p => pageOfBlock l' p == x) =
      if (sh'.xthreadFree x).delay = .useDelayedFree then 0 else 1
    have before := counts x
    change (delayedBlocks l sh).countP _ = _ at before
    rw [fewer x] at before
    rw [pageOf]
    by_cases same : x = a
    · subst same
      simp only [delay, reduceCtorEq, if_false, if_true, wordA] at before ⊢
      omega
    · rw [others x same]
      rw [if_neg same] at before
      exact before
  · change busyOn sh'.threads x = if (sh'.xthreadFree x).delay = .freeing then 1 else 0
    have before := freeing x
    change busyOn sh.threads x = _ at before
    rw [threads, before]
    by_cases same : x = a
    · subst same
      simp only [delay, wordA, reduceCtorEq, if_false]
    · rw [others x same]
  · change (sh'.xthreadFree x).delay = _ at use
    change (sh'.xthreadFree x).list = [] ∨ ∃ b, l'.held = .claimed b ∧ pageOfBlock l' b = x
    by_cases same : x = a
    · exact .inr ⟨b, held, by rw [pageOf, on, same]⟩
    · rw [others x same] at use ⊢
      refine (pending x use).imp id ?_
      rintro ⟨c, claimed, _⟩
      change l.held = .claimed c at claimed
      rw [popped] at claimed
      cases claimed
  · change t ∈ sh'.threads at member
    rw [threads] at member
    obtain ⟨onPage, heap⟩ := known t member
    exact ⟨fun notPushed => by rw [pageOf]; exact onPage notPushed,
      fun heap' read => by rw [frame.heapPtr]; exact heap heap' read⟩
  · change (sh'.xthreadFree x).delay = _ at use
    by_cases same : x = a
    · exact .inr ⟨b, .inl held, by rw [pageOf, on, same]⟩
    · rw [others x same] at use
      rw [pages] at inFull ⊢
      refine .inl ((full x (frame.inUse_iff.mp pageX) use inFull (by simp [popped])).resolve_right ?_)
      rintro ⟨c, claim, _⟩
      simp [popped] at claim

/-! ### Asking the page of a popped block -/

/-- The state of the owner up to its questions to the operating system. -/
structure Asked (l l' : Local) : Prop where
  frame : BlockFrame l l'
  pages : l'.pages = l.pages
  taken : l'.taken = l.taken

theorem Asked.refl (l : Local) : Asked l l := ⟨.refl l, rfl, rfl⟩

theorem Asked.trans {l'' : Local} (first : Asked l l') (second : Asked l' l'') : Asked l l'' :=
  ⟨first.frame.trans second.frame, second.pages.trans first.pages, second.taken.trans first.taken⟩

theorem Asked.next (l : Local) (held : Held) :
    Asked l { l with os := { l.os with calls := l.os.calls + 1 }, held := held } :=
  ⟨⟨rfl, rfl, rfl, ⟨rfl, Nat.le_succ _, rfl⟩, rfl, rfl, rfl, rfl, rfl, rfl, fun _ => .refl _⟩, rfl, rfl⟩

/-- The page of a popped block was asked: the block is claimed, or it stays popped. -/
def Claimed (mode : Mode) (b : Nat) (l : Local) (ok : Bool) (l' : Local) : Prop :=
  Asked l l' ∧ ((ok = true ∧ l'.held = .claimed b) ∨ (ok = false ∧ l'.held = .popped b ∧ ¬mode.solo))

/-- The owner has asked the operating system once more. -/
def ask (l : Local) : Local := { l with os := { l.os with calls := l.os.calls + 1 } }

/-- The compare-exchange of the owner, on a word that does not say `Freeing`. -/
theorem casSetDelay_safe (popped : l.held = .popped b) (on : pageOfBlock l b = a) {tfree : Nat}
    (state : tfree % 4 = 2) :
    OwnerSafe mode allowed (casSetDelay a tfree .useDelayedFree) (fun ok l' => Asked l l' ∧
      l'.held = if ok then .claimed b else .popped b) l := by
  have outcome : ∀ sh value, (if l.os.oracle.spurious l.os.calls = true ∨
      (sh.xthreadFree a).word ≠ tfree then Except.ok (false, ⟨ask l, sh⟩)
      else .ok (true, ⟨{ ask l with held := l.held.claim }, { sh with xthreadFree := fun x =>
        if x = a then { sh.xthreadFree a with delay := .useDelayedFree } else sh.xthreadFree x }⟩) :
        Except Abort (Bool × State)) = value →
      value = .ok (false, ⟨ask l, sh⟩) ∨ ((sh.xthreadFree a).word = tfree ∧
        value = .ok (true, ⟨{ ask l with held := .claimed b }, { sh with xthreadFree := fun x =>
          if x = a then { sh.xthreadFree a with delay := .useDelayedFree } else sh.xthreadFree x }⟩)) := by
    rintro sh _ rfl
    by_cases fails : l.os.oracle.spurious l.os.calls = true ∨ (sh.xthreadFree a).word ≠ tfree
    · exact .inl (if_pos fails)
    · refine .inr ⟨by_contra fun differs => fails (.inr differs), ?_⟩
      rw [if_neg fails, popped]
      rfl
  have settled : l.held.Settled := fun x => by simp [popped]
  refine safe_state (fun sh value t inv quiet result => ?_) fun sh e _ result => ?_
  · rcases outcome sh _ result with failed | ⟨word, done⟩
    · cases failed
      exact ⟨inv.asked, quiet, ⟨rfl, rfl, fun x page _ => ⟨page, rfl, Nat.le_refl _⟩⟩,
        (Asked.next l l.held).frame.ownerMoves_of_pages rfl settled settled rfl rfl (fun _ => rfl)
          (.same (.of_pages rfl rfl) rfl rfl),
        Asked.next l l.held, popped⟩
    · cases done
      have low := inv.word_mod a
      simp only [word, state] at low
      have delay : (sh.xthreadFree a).delay = .noDelayedFree := by
        cases delay : (sh.xthreadFree a).delay <;> simp [delay, DelayState.toNat] at low ⊢
      refine ⟨inv.claim popped on delay (Asked.next l _).frame rfl rfl rfl rfl rfl rfl rfl,
        fun alone => ⟨fun x => ?_, (quiet alone).2⟩, ⟨rfl, rfl, fun x page _ => ⟨page, rfl, Nat.le_refl _⟩⟩,
        (Asked.next l _).frame.ownerMoves_of_pages rfl settled (fun x => by simp) rfl rfl (fun x => ?_)
          (.setDelay (.of_pages rfl rfl) .useDelayedFree rfl fun _ => rfl),
        Asked.next l _, rfl⟩
      · change ((if x = a then _ else _ : ThreadFree)).delay ≠ _
        split
        · simp
        · exact (quiet alone).1 x
      · change ((if x = a then _ else _ : ThreadFree)).list = _
        by_cases same : x = a
        · rw [if_pos same, same]
        · rw [if_neg same]
  · rcases outcome sh _ result with failed | ⟨_, done⟩
    · cases failed
    · cases done

/-- **`try_use_delayed_free`** for the page of a popped block. -/
theorem tryUseDelayedFree_safe (timeout : allowed .timeout) (popped : l.held = .popped b)
    (on : pageOfBlock l b = a) (fuel : Nat) :
    OwnerSafe mode allowed (tryUseDelayedFree fuel a .useDelayedFree false) (Claimed mode b l) l := by
  refine Discipline.safe_loop (fun _ l' => Asked l l' ∧ l'.held = .popped b) timeout
    (fun yields l' given => ?_) fuel 0 l ⟨.refl l, popped⟩
  obtain ⟨asked, popped'⟩ := given
  have on' : pageOfBlock l' b = a := by rw [asked.frame.pageOfBlock_eq, on]
  have load : OwnerSafe mode allowed (loadThreadFree a) (fun word l'' => l'' = l' ∧
      (word % 4 = 1 ∧ ¬mode.solo ∨ word % 4 = 2)) l' := by
    refine loadThreadFree_safe fun sh inv quiet => ?_
    have low := inv.word_mod a
    simp only at low
    rcases (inv.of_popped popped').2.2 with freeing | noDelayed
    · rw [on'] at freeing
      rw [freeing] at low
      exact .inl ⟨low, fun alone => (quiet alone).1 a freeing⟩
    · rw [on'] at noDelayed
      rw [noDelayed] at low
      exact .inr low
  refine load.seq fun word l'' loaded => ?_
  obtain ⟨same, state⟩ := loaded
  subst same
  rcases state with ⟨busy, notSolo⟩ | state
  · rw [if_pos busy]
    by_cases enough : yields ≥ 4
    · rw [if_pos enough]
      exact ⟨asked, .inr ⟨rfl, popped', notSolo⟩⟩
    · rw [if_neg enough]
      exact ⟨asked, popped'⟩
  · rw [if_neg (by omega), if_neg (by simp only [DelayState.toNat]; omega), if_neg (by simp [state])]
    refine (casSetDelay_safe popped' on' state).seq fun ok l₁ swapped => ?_
    obtain ⟨asked₁, held⟩ := swapped
    cases ok with
    | true => exact ⟨asked.trans asked₁, .inl ⟨rfl, held⟩⟩
    | false => exact ⟨asked.trans asked₁, held⟩

/-- **`free_delayed_block`** of a popped block. -/
theorem freeDelayedBlock_safe (expected : ∀ e, Expected e → allowed e) (segmentFree : allowed .segmentFree)
    (popped : l.held = .popped b) (fuel : Nat) :
    OwnerSafe mode allowed (freeDelayedBlock fuel b) (fun ok l' => l'.taken = l.taken ∧
      ((ok = true ∧ l'.held = .nothing) ∨ (ok = false ∧ l'.held = .popped b ∧ ¬mode.solo))) l := by
  refine OwnerSafe.seq (Q := fun page l' => l' = l ∧ page = pageOfBlock l b ∧
    InUse l (pageOfBlock l b)) (safe_localRead fun sh inv => ⟨rfl, rfl, (inv.of_popped popped).2.1⟩) ?_
  rintro _ l' ⟨rfl, rfl, page⟩
  refine (tryUseDelayedFree_safe (expected _ (.inl rfl)) popped rfl fuel).seq fun ok l₁ answered => ?_
  obtain ⟨asked, ⟨rfl, claimed⟩ | ⟨rfl, popped', notSolo⟩⟩ := answered
  · rw [if_pos rfl]
    have page₁ : InUse l₁ (pageOfBlock l' b) := asked.frame.inUse_iff.mpr page
    refine (pageFreeCollect_safe page₁ (fun x => by simp [claimed]) false).seq fun _ l₂ kept => ?_
    have collected := kept.1
    have ready : l₂.held = .ready b := by
      rw [collected.held, claimed, Held.collect, asked.frame.pageOfBlock_eq, if_pos rfl]
    have on : pageOfBlock l₂ b = pageOfBlock l' b := by
      rw [collected.frame.pageOfBlock_eq, asked.frame.pageOfBlock_eq]
    refine (freeBlock_safe (fun _ => expected _ (.inl rfl)) (fun _ => expected _ (.inr (.inr rfl)))
      (fun _ => segmentFree) (.inl ready) on).seq fun _ l₃ freed => ?_
    exact ⟨freed.2.trans (collected.taken.trans asked.taken), .inl ⟨rfl, freed.1⟩⟩
  · exact ⟨asked.taken, .inr ⟨rfl, popped', notSolo⟩⟩

/-! ### The delayed list -/

/-- **`take`** of the delayed list. -/
theorem takeDelayed_safe (held : l.held = .nothing) (taken : l.taken = []) :
    OwnerSafe ⟨False, ordered⟩ allowed (takeDelayed l.heap.heapPtr) (fun _ l' => l'.held = .nothing) l := by
  have settled : l.held.Settled := fun x => by simp [held]
  refine OwnerSafe.seq (Q := fun _ l' => l' = l)
    (safe_state (fun sh value t inv quiet result => ?_) fun sh e _ result => by cases result)
    fun first l' same => ?_
  · cases result
    exact ⟨inv, False.elim, .refl l, .refl _, rfl⟩
  subst same
  by_cases none : first = 0
  · rw [if_pos none]
    refine safe_localUpdate fun sh inv => ?_
    have same : ({ l' with taken := [] } : Local) = l' := by rw [← taken]
    rw [same]
    exact ⟨inv, .refl _, { OwnerMoves.refl _ with relisted := .takeNone taken }, held⟩
  · rw [if_neg none]
    refine safe_state (fun sh value t inv quiet result => ?_) fun sh e _ result => by cases result
    cases result
    refine ⟨inv.regroup ⟨⟨rfl, rfl, rfl, .of_eq rfl, rfl, rfl, rfl, rfl, rfl, rfl, fun _ => .refl _⟩, rfl,
      .inl rfl, rfl, fun p => ?_, fun _ => rfl, fun _ inside => inside, fun _ => rfl,
      fun _ member => .inl member⟩, False.elim, ⟨rfl, rfl, fun x page _ => ⟨page, rfl, Nat.le_refl _⟩⟩,
      BlockFrame.ownerMoves_of_pages ⟨rfl, rfl, rfl, .of_eq rfl, rfl, rfl, rfl, rfl, rfl, rfl,
        fun _ => .refl _⟩ rfl settled settled rfl rfl (fun _ => rfl)
        (.take rfl rfl rfl fun _ => rfl), held⟩
    simp only [delayedBlocks, State.setDelayed, if_true, taken, List.count_append, List.count_nil]
    omega

/-- The compare-exchange that puts a popped block back on the delayed list. -/
theorem casInsertBlock_safe (popped : l.held = .popped b) (notSolo : ¬mode.solo) (next : Nat) :
    OwnerSafe mode allowed (casInsertBlock l.heap.heapPtr next b) (fun ok l' => Asked l l' ∧
      l'.held = if ok then .nothing else .popped b) l := by
  obtain ⟨pushed, pushedEq⟩ : ∃ pushed : Shared → Shared, ∀ sh, pushed sh = { sh with
      threadDelayedFree := fun x =>
        if x = l.heap.heapPtr then b :: sh.threadDelayedFree l.heap.heapPtr
        else sh.threadDelayedFree x } := ⟨_, fun _ => rfl⟩
  have outcome : ∀ sh value, (if l.os.oracle.spurious l.os.calls = true ∨
      (sh.threadDelayedFree l.heap.heapPtr).headD 0 ≠ next then Except.ok (false, ⟨ask l, sh⟩)
      else .ok (true, ⟨{ ask l with held := .nothing }, pushed sh⟩) : Except Abort (Bool × State)) =
        value →
      value = .ok (false, ⟨ask l, sh⟩) ∨
        value = .ok (true, ⟨{ ask l with held := .nothing }, pushed sh⟩) := by
    rintro sh _ rfl
    by_cases fails : l.os.oracle.spurious l.os.calls = true ∨
        (sh.threadDelayedFree l.heap.heapPtr).headD 0 ≠ next
    · exact .inl (if_pos fails)
    · exact .inr (if_neg fails)
  have settled : l.held.Settled := fun x => by simp [popped]
  refine safe_state (fun sh value t inv quiet result => ?_) fun sh e _ result => ?_ <;>
    simp only [pushedEq] at outcome
  · rcases outcome sh _ result with failed | done
    · cases failed
      exact ⟨inv.asked, quiet, ⟨rfl, rfl, fun x page _ => ⟨page, rfl, Nat.le_refl _⟩⟩,
        (Asked.next l l.held).frame.ownerMoves_of_pages rfl settled settled rfl rfl (fun _ => rfl)
          (.same (.of_pages rfl rfl) rfl rfl),
        Asked.next l l.held, popped⟩
    · cases done
      refine ⟨inv.regroup ⟨(Asked.next l .nothing).frame, rfl, .inr ⟨by rw [popped]; trivial, trivial⟩,
        rfl, fun p => ?_, fun p => ?_, fun _ inside => inside, fun _ => rfl, fun _ member => .inl member⟩,
        fun alone => absurd alone notSolo, ⟨rfl, rfl, fun x page _ => ⟨page, rfl, Nat.le_refl _⟩⟩,
        (Asked.next l .nothing).frame.ownerMoves_of_pages rfl settled (fun x => by simp) rfl rfl
          (fun _ => rfl) (.insertDelayed (.of_pages rfl rfl) rfl fun _ => rfl),
        Asked.next l .nothing, rfl⟩
      · simp only [delayedBlocks, ask, if_true, popped, Held.delayed, List.count_append, List.count_cons,
          List.count_nil]
        omega
      · simp only [directBlocks, popped, Held.direct]
  · rcases outcome sh _ result with failed | done
    · cases failed
    · cases done

/-- The owner puts a popped block back on the delayed list. -/
theorem atomicInsertBlock_safe (timeout : allowed .timeout) (popped : l.held = .popped b)
    (notSolo : ¬mode.solo) (fuel : Nat) :
    OwnerSafe mode allowed (atomicInsertBlock fuel l.heap.heapPtr b) (fun _ l' => l'.held = .nothing ∧
      l'.taken = l.taken) l := by
  refine Discipline.safe_loop (fun _ l' => Asked l l' ∧ l'.held = .popped b) timeout
    (fun _ l' ⟨asked, popped'⟩ => ?_) fuel () l ⟨.refl l, popped⟩
  refine OwnerSafe.seq (Q := fun _ l'' => l'' = l')
    (safe_state (fun sh value t inv quiet result => ?_) fun sh e _ result => by cases result)
    fun next l'' same => ?_
  · cases result
    exact ⟨inv, quiet, .refl l', .refl _, rfl⟩
  subst same
  rw [← asked.frame.heapPtr]
  refine (casInsertBlock_safe popped' notSolo next).seq fun ok l₁ ⟨asked₁, held⟩ => ?_
  cases ok with
  | true => exact ⟨held, (asked.trans asked₁).taken⟩
  | false => exact ⟨asked.trans asked₁, held⟩

/-- The next block of the taken list. -/
theorem popTaken_safe (held : l.held = .nothing) :
    OwnerSafe mode allowed (localStep fun l => .ok (popTaken l)) (fun popped l' =>
      (popped = none ∧ l'.held = .nothing ∧ l'.taken = []) ∨
        ∃ b, popped = some b ∧ l'.held = .popped b ∧ l.taken = b :: l'.taken) l := by
  refine safe_localStep (fun sh value l' inv result => ?_) fun sh e _ result => by cases result
  cases taken : l.taken with
  | nil =>
      simp only [popTaken, taken] at result
      cases result
      exact ⟨inv, .refl l, .refl _, .inl ⟨rfl, held, taken⟩⟩
  | cons b rest =>
      simp only [popTaken, taken] at result
      cases result
      refine ⟨inv.regroup ⟨⟨rfl, rfl, rfl, .of_eq rfl, rfl, rfl, rfl, rfl, rfl, rfl, fun _ => .refl _⟩, rfl,
        .inr ⟨by rw [held]; trivial, trivial⟩, rfl, fun p => ?_, fun p => ?_, fun _ inside => inside,
        fun _ => rfl, fun _ member => .inl member⟩, ⟨rfl, rfl, fun x page _ => ⟨page, rfl, Nat.le_refl _⟩⟩,
        BlockFrame.ownerMoves_of_pages ⟨rfl, rfl, rfl, .of_eq rfl, rfl, rfl, rfl, rfl, rfl, rfl,
          fun _ => .refl _⟩ rfl (fun x => by simp [held]) (fun x => by simp) rfl rfl (fun _ => rfl)
          (.popTaken taken rfl rfl),
        .inr ⟨b, rfl, rfl, rfl⟩⟩
      · simp only [delayedBlocks, taken, held, Held.delayed, List.count_append, List.count_cons,
          List.count_nil]
        omega
      · simp only [directBlocks, held, Held.direct]

/-- One round of the loop over the taken blocks. -/
theorem delayedRound_safe (expected : ∀ e, Expected e → allowed e) (segmentFree : allowed .segmentFree)
    (held : l.held = .nothing) (fuel : Nat) (allFreed : Bool) :
    OwnerSafe mode allowed (delayedRound fuel l.heap.heapPtr allFreed) (fun
      | .inl _, l' => l'.held = .nothing
      | .inr _, l' => l'.held = .nothing ∧ l'.taken = []) l := by
  refine (popTaken_safe held).heapPtr.seq fun popped l₁ ⟨outcome, heapPtr⟩ => ?_
  rcases outcome with ⟨rfl, held₁, taken⟩ | ⟨b, rfl, popped, _⟩
  · exact ⟨held₁, taken⟩
  refine (freeDelayedBlock_safe expected segmentFree popped fuel).heapPtr.seq
    fun ok l₂ ⟨⟨_, answer⟩, heapPtr₂⟩ => ?_
  rcases answer with ⟨rfl, held₂⟩ | ⟨rfl, popped₂, notSolo⟩
  · exact held₂
  · rw [if_neg (by simp), ← heapPtr, ← heapPtr₂]
    exact (atomicInsertBlock_safe (expected _ (.inl rfl)) popped₂ notSolo fuel).seq fun _ l₃ ⟨held₃, _⟩ => held₃

/-- **The loop of `heap_delayed_free_partial`.** -/
theorem delayedLoop_safe (expected : ∀ e, Expected e → allowed e) (segmentFree : allowed .segmentFree)
    (held : l.held = .nothing) (fuel rounds : Nat) (allFreed : Bool) :
    OwnerSafe mode allowed (.loop .timeout (delayedRound fuel l.heap.heapPtr) rounds allFreed)
      (fun _ l' => l'.held = .nothing ∧ l'.taken = []) l := by
  refine Discipline.safe_loop (fun _ l' => l'.held = .nothing ∧ l'.heap.heapPtr = l.heap.heapPtr)
    (expected _ (.inl rfl)) (fun allFreed l' ⟨held', heapPtr⟩ => ?_) rounds allFreed l ⟨held, rfl⟩
  rw [← heapPtr]
  refine (delayedRound_safe expected segmentFree held' fuel allFreed).heapPtr.mono
    fun value l'' ⟨post, heapPtr'⟩ => ?_
  cases value with
  | inl _ => exact ⟨post, heapPtr'⟩
  | inr _ => exact post

/-- **`heap_delayed_free_partial`.** -/
theorem heapDelayedFreePartial_safe (expected : ∀ e, Expected e → allowed e) (segmentFree : allowed .segmentFree)
    (held : l.held = .nothing) (taken : l.taken = []) (fuel : Nat) :
    OwnerSafe ⟨False, ordered⟩ allowed (heapDelayedFreePartial fuel) (fun _ l' => l'.held = .nothing ∧
      l'.taken = []) l := by
  refine OwnerSafe.seq (Q := fun heap l' => l' = l ∧ heap = l.heap.heapPtr)
    (safe_localRead fun sh inv => ⟨rfl, rfl⟩) ?_
  rintro _ l' ⟨rfl, rfl⟩
  refine (takeDelayed_safe held taken).heapPtr.seq fun _ l₁ ⟨held₁, heapPtr⟩ => ?_
  rw [← heapPtr]
  exact delayedLoop_safe expected segmentFree held₁ fuel fuel true

end VerusMimalloc
