/-
**The discipline of the owner.**

Between two steps of the owner the invariant holds and freeing threads may move; a step of the owner
keeps every page that a block is missing from.

* `Mode`, `ownerDiscipline`: the discipline, also for an owner that runs alone and for runs from the
  start of the heap;
* `safe_state`, `safe_localStep`, `safe_osStep`, `safe_localRead`, `safe_localUpdate`: the rules for its
  actions;
* `pageFreeCollect_safe`: collecting the blocks of a page.
-/

import VerusMimalloc.Proof.Blocks.Moves
import VerusMimalloc.Proof.Span.Abort

namespace VerusMimalloc

open Library

variable {α β : Type} {mode : Mode} {allowed : Abort → Prop} {l l' : Local} {a p : Nat}

/-- No free by another thread is in its delayed part, and the delayed list is taken. -/
def Quiet (s : State) : Prop :=
  (∀ a, (s.sh.xthreadFree a).delay ≠ .freeing) ∧ s.sh.threadDelayedFree s.loc.heap.heapPtr = []

/-- What holds besides the invariant. -/
structure Mode where
  /-- No other thread is in the way. -/
  solo : Prop
  /-- The heap has kept its empty pages first from the start. -/
  ordered : Prop

instance : Coe Prop Mode := ⟨fun solo => ⟨solo, False⟩⟩

/-- The discipline of the owner. -/
def ownerDiscipline (mode : Mode) (allowed : Abort → Prop) : Discipline State Abort Local where
  inv s := Inv s ∧ (mode.solo → Quiet s) ∧ (mode.ordered → EmptyFirst s.loc)
  guar s t := PagesKept s.loc t.loc ∧ (mode.ordered → OwnerMoves s t)
  own := State.loc
  allowed := allowed

/-- A program of the owner is safe. -/
abbrev OwnerSafe (mode : Mode) (allowed : Abort → Prop) (program : P α) (post : α → Local → Prop)
    (l : Local) : Prop :=
  (ownerDiscipline mode allowed).Safe program post l

/-! ### Rules -/

section Rules

variable {post : α → Local → Prop}

/-- Sequencing, as the programs are written. -/
theorem OwnerSafe.seq {first : P α} {rest : α → P β} {Q : α → Local → Prop}
    {post : β → Local → Prop} (safe : OwnerSafe mode allowed first Q l)
    (after : ∀ value l', Q value l' → OwnerSafe mode allowed (rest value) post l') :
    OwnerSafe mode allowed (first >>= rest) post l :=
  Discipline.Safe.bind safe after

theorem ownerSafe_pure {value : α} (holds : post value l) :
    OwnerSafe mode allowed (pure value) post l := holds

/-- The heap stays where it is. -/
theorem OwnerSafe.heapPtr {program : P α} (safe : OwnerSafe mode allowed program post l) :
    OwnerSafe mode allowed program
      (fun value l' => post value l' ∧ l'.heap.heapPtr = l.heap.heapPtr) l :=
  safe.frame (f := fun l => l.heap.heapPtr) fun _ _ kept => kept.1.heapPtr

/-- **Empty pages stay first** through a program. -/
theorem OwnerSafe.emptyFirst {program : P α} (safe : OwnerSafe mode allowed program post l)
    (first : mode.ordered → EmptyFirst l) :
    OwnerSafe mode allowed program
      (fun value l' => post value l' ∧ (mode.ordered → EmptyFirst l')) l :=
  safe.stable (J := fun l => mode.ordered → EmptyFirst l) program.always_true
    (fun _ _ moves _ before ordered => (moves.2 ordered).emptyFirst (before ordered)) first

/-- One access to shared memory, in a heap that may have kept its empty pages first. -/
theorem safe_ordered {f : State → Except Abort (α × State)}
    (good : ∀ sh value t, Inv ⟨l, sh⟩ → (mode.solo → Quiet ⟨l, sh⟩) → (mode.ordered → EmptyFirst l) →
      f ⟨l, sh⟩ = .ok (value, t) → Inv t ∧ (mode.solo → Quiet t) ∧ PagesKept l t.loc ∧
        (mode.ordered → OwnerMoves ⟨l, sh⟩ t) ∧ post value t.loc)
    (bad : ∀ sh e, Inv ⟨l, sh⟩ → f ⟨l, sh⟩ = .error e → allowed e) :
    OwnerSafe mode allowed (.act f) post l := by
  refine Discipline.safe_act (fun s => ⟨.refl _, fun _ => .refl _⟩) (fun s value t inv own result => ?_)
    fun s e inv own result => ?_
  · obtain ⟨loc, sh⟩ := s
    obtain rfl : loc = l := own
    obtain ⟨inv, quiet, first⟩ := inv
    obtain ⟨inv', quiet', kept, moves, holds⟩ := good sh value t inv quiet first result
    exact ⟨⟨⟨inv', quiet', fun ordered => (moves ordered).emptyFirst (first ordered)⟩, kept, moves⟩, holds⟩
  · obtain ⟨loc, sh⟩ := s
    obtain rfl : loc = l := own
    exact bad sh e inv.1 result

/-- One access to shared memory. -/
theorem safe_state {f : State → Except Abort (α × State)}
    (good : ∀ sh value t, Inv ⟨l, sh⟩ → (mode.solo → Quiet ⟨l, sh⟩) → f ⟨l, sh⟩ = .ok (value, t) →
      Inv t ∧ (mode.solo → Quiet t) ∧ PagesKept l t.loc ∧ OwnerMoves ⟨l, sh⟩ t ∧ post value t.loc)
    (bad : ∀ sh e, Inv ⟨l, sh⟩ → f ⟨l, sh⟩ = .error e → allowed e) :
    OwnerSafe mode allowed (.act f) post l := by
  refine safe_ordered (fun sh value t inv quiet _ result => ?_) bad
  obtain ⟨inv', quiet', kept, moves, holds⟩ := good sh value t inv quiet result
  exact ⟨inv', quiet', kept, fun _ => moves, holds⟩

/-- A stretch of the owner's code, in such a heap. -/
theorem safe_orderedStep {f : Local → Except Abort (α × Local)}
    (good : ∀ sh value l', Inv ⟨l, sh⟩ → (mode.ordered → EmptyFirst l) → f l = .ok (value, l') →
      Inv ⟨l', sh⟩ ∧ PagesKept l l' ∧ (mode.ordered → OwnerMoves ⟨l, sh⟩ ⟨l', sh⟩) ∧ post value l')
    (bad : ∀ sh e, Inv ⟨l, sh⟩ → f l = .error e → allowed e) :
    OwnerSafe mode allowed (localStep f) post l := by
  refine safe_ordered (fun sh value t inv quiet first result => ?_) fun sh e inv result => ?_
  · simp only at result
    cases outcome : f l with
    | error e =>
        rw [outcome] at result
        cases result
    | ok answer =>
        obtain ⟨value', l'⟩ := answer
        rw [outcome] at result
        cases result
        obtain ⟨inv', kept, moves, holds⟩ := good sh _ l' inv first outcome
        refine ⟨inv', fun alone => ⟨(quiet alone).1, ?_⟩, kept, moves, holds⟩
        have empty := (quiet alone).2
        simp only [kept.heapPtr]
        exact empty
  · simp only at result
    cases outcome : f l with
    | error e' =>
        rw [outcome] at result
        cases result
        exact bad sh e inv outcome
    | ok answer =>
        rw [outcome] at result
        cases result

/-- A stretch of the owner's code. -/
theorem safe_localStep {f : Local → Except Abort (α × Local)}
    (good : ∀ sh value l', Inv ⟨l, sh⟩ → f l = .ok (value, l') →
      Inv ⟨l', sh⟩ ∧ PagesKept l l' ∧ OwnerMoves ⟨l, sh⟩ ⟨l', sh⟩ ∧ post value l')
    (bad : ∀ sh e, Inv ⟨l, sh⟩ → f l = .error e → allowed e) :
    OwnerSafe mode allowed (localStep f) post l := by
  refine safe_orderedStep (fun sh value l' inv _ result => ?_) bad
  obtain ⟨inv', kept, moves, holds⟩ := good sh value l' inv result
  exact ⟨inv', kept, fun _ => moves, holds⟩

/-- A stretch of the owner's code that changes protections. -/
theorem safe_osStep {f : Local → Except Abort (α × Local)}
    (refused : l.os.oracle.Refuses → allowed .mprotect)
    (good : ∀ sh value l', Inv ⟨l, sh⟩ → f l = .ok (value, l') →
      Inv ⟨l', sh⟩ ∧ PagesKept l l' ∧ (mode.ordered → OwnerMoves ⟨l, sh⟩ ⟨l', sh⟩) ∧ post value l')
    (bad : ∀ sh e, Inv ⟨l, sh⟩ → f l = .error e → allowed e) :
    OwnerSafe mode allowed (osStep f) post l := by
  refine safe_orderedStep (fun sh value l' inv _ result => good sh value l' inv (panicking_ok result))
    fun sh e inv result => ?_
  rcases panicking_error result with failed | ⟨rfl, refuses⟩
  · exact bad sh e inv failed
  · exact refused refuses

/-- A stretch of the owner's code that cannot fail. -/
theorem safe_localUpdate {f : Local → Local} {post : Unit → Local → Prop}
    (good : ∀ sh, Inv ⟨l, sh⟩ →
      Inv ⟨f l, sh⟩ ∧ PagesKept l (f l) ∧ OwnerMoves ⟨l, sh⟩ ⟨f l, sh⟩ ∧ post () (f l)) :
    OwnerSafe mode allowed (localUpdate f) post l := by
  refine safe_localStep (fun sh value l' inv result => ?_) fun sh e _ result => by cases result
  cases result
  exact good sh inv

/-- The owner reads its own state, in such a heap. -/
theorem safe_orderedRead {f : Local → α}
    (good : ∀ sh, Inv ⟨l, sh⟩ → (mode.ordered → EmptyFirst l) → post (f l) l) :
    OwnerSafe mode allowed (localRead f) post l := by
  refine safe_orderedStep (fun sh value l' inv first result => ?_) fun sh e _ result => by cases result
  cases result
  exact ⟨inv, .refl l, fun _ => .refl _, good sh inv first⟩

/-- The owner reads its own state. -/
theorem safe_localRead {f : Local → α} (good : ∀ sh, Inv ⟨l, sh⟩ → post (f l) l) :
    OwnerSafe mode allowed (localRead f) post l :=
  safe_orderedRead fun sh inv _ => good sh inv

end Rules

/-! ### Collecting -/

/-- What `page_free_collect` may change. -/
structure Collected (l l' : Local) (a : Nat) : Prop where
  frame : BlockFrame l l'
  others : ∀ x, x ≠ a → l'.pages x = l.pages x
  capacity : (l'.pages a).capacity = (l.pages a).capacity
  held : l'.held = l.held.collect a (pageOfBlock l)
  taken : l'.taken = l.taken

theorem Collected.kept (collected : Collected l l' a) : AllKept l l' := by
  refine collected.frame.kept fun x => ?_
  by_cases same : x = a
  · rw [same, collected.capacity]
  · rw [collected.others x same]

theorem noteCollected_collected (l : Local) (a : Nat) : Collected l (noteCollected l a) a :=
  ⟨⟨rfl, rfl, rfl, .of_eq rfl, rfl, rfl, rfl, rfl, rfl, rfl, fun _ => .refl _⟩, fun _ _ => rfl, rfl,
    rfl, rfl⟩

theorem noteCollected_kept (l : Local) (sh : Shared) (settled : l.held.Settled) :
    OwnerMoves ⟨l, sh⟩ ⟨noteCollected l a, sh⟩ :=
  (noteCollected_collected l a).frame.ownerMoves_of_pages rfl settled (settled.collect _) rfl rfl (fun _ => rfl)
    (.same (.of_pages rfl rfl) rfl rfl)

/-- The load of `page_free_collect`. -/
theorem loadNonempty_safe (page : InUse l a) (settled : l.held.Settled) :
    OwnerSafe mode allowed (loadNonempty a) (fun nonempty l' =>
      (nonempty = false ∧ l' = noteCollected l a) ∨ (nonempty = true ∧ l' = l)) l := by
  refine safe_state (fun sh value t inv quiet result => ?_) fun sh e _ result => ?_
  · simp only at result
    split at result
    · rename_i null
      cases result
      have empty := ((inv.toCore.word_eq_zero).mp null).1
      exact ⟨inv.noteCollected page settled empty, quiet, (noteCollected_collected l a).kept.kept,
        noteCollected_kept l sh settled, .inl ⟨rfl, rfl⟩⟩
    · cases result
      exact ⟨inv, quiet, .refl l, .refl _, .inr ⟨rfl, rfl⟩⟩
  · simp only at result
    split at result <;> cases result

/-- **`page_thread_free_collect`** never counts below zero. -/
theorem pageThreadFreeCollect_safe (page : InUse l a) (settled : l.held.Settled) :
    OwnerSafe mode allowed (pageThreadFreeCollect a) (fun _ l' => Collected l l' a) l := by
  refine safe_state (fun sh value t inv quiet result => ?_) fun sh e inv result => ?_
  · have collected := inv.threadFreeCollect (t := { sh with xthreadFree := fun x =>
      if x = a then { sh.xthreadFree a with list := [] } else sh.xthreadFree x }) page settled rfl rfl
      rfl rfl
    have stillQuiet : ∀ l', l'.heap.heapPtr = l.heap.heapPtr → mode.solo → Quiet ⟨l', { sh with
        xthreadFree := fun x =>
          if x = a then { sh.xthreadFree a with list := [] } else sh.xthreadFree x }⟩ := by
      intro l' heapPtr alone
      obtain ⟨none, empty⟩ := quiet alone
      refine ⟨fun x => ?_, ?_⟩
      · simp only
        split
        · exact none a
        · exact none x
      · simp only [heapPtr]
        exact empty
    simp only at result
    split at result
    · rename_i nothing
      cases result
      rw [nothing] at collected
      have same : (noteCollected l a).modifyPage a (fun p =>
          { p with localFree := [] ++ p.localFree, used := p.used - ([] : List Nat).length }) =
          noteCollected l a := modifyPage_self _ _ rfl
      rw [same] at collected
      refine ⟨collected, stillQuiet _ rfl, (noteCollected_collected l a).kept.kept,
        (noteCollected_collected l a).frame.ownerMoves_of_pages rfl settled
          (settled.collect _) rfl rfl (fun x => ?_)
          (.collect (fun _ _ => rfl) rfl (by rw [nothing]; rfl) rfl rfl fun _ => rfl),
        noteCollected_collected l a⟩
      change (if x = a then _ else sh.xthreadFree x : ThreadFree).list = _
      by_cases here : x = a
      · rw [if_pos here, here, nothing]
      · rw [if_neg here]
    split at result
    · cases result
    · cases result
      have step : Collected l ((noteCollected l a).modifyPage a fun p => { p with
          localFree := (sh.xthreadFree a).list ++ p.localFree
          used := p.used - (sh.xthreadFree a).list.length }) a := by
        refine ⟨⟨rfl, rfl, rfl, .of_eq rfl, rfl, rfl, rfl, rfl, rfl, rfl, fun x => ?_⟩,
          fun x differs => if_neg differs, ?_, rfl, rfl⟩
        · by_cases same : x = a
          · subst same
            rw [Local.modifyPage_pages, if_pos rfl]
            exact ⟨rfl, rfl, rfl, rfl, rfl, rfl, fun _ => rfl, rfl, rfl⟩
          · rw [Local.modifyPage_pages, if_neg same]
            exact .refl _
        · rw [Local.modifyPage_pages, if_pos rfl]
          rfl
      refine ⟨collected, stillQuiet _ rfl, step.kept.kept, ?_, step⟩
      have some : (sh.xthreadFree a).list ≠ [] := by assumption
      have less := inv.toCore.length_lt_used page some
      refine step.frame.ownerMoves step.others
        (fun x => iff_of_false (settled.collect _ x).2 (settled x).2) rfl (.inl rfl) (fun x p => ?_)
        (fun _ p => ?_) (fun _ used => ?_) (fun used => ?_)
        (.collect step.others ?_ ?_ rfl rfl fun _ => rfl)
      · change p ∈ (if x = a then _ else sh.xthreadFree x : ThreadFree).list → _
        split
        · exact fun inside => absurd inside List.not_mem_nil
        · exact id
      · rw [Local.modifyPage_pages, if_pos rfl]
        simp only [List.mem_append]
        rintro (free | remote | localFree)
        · exact .inl (.inl free)
        · exact .inr remote
        · exact .inl (.inr localFree)
      · rw [Local.modifyPage_pages, if_pos rfl] at used
        change (l.pages a).used - _ = 0 at used
        omega
      · omega
      · rw [Local.modifyPage_pages, if_pos rfl]
        rfl
      · rw [Local.modifyPage_pages, if_pos rfl]
        rfl
  · have enough := inv.toCore.length_le_used page
    simp only at result
    split at result
    · cases result
    split at result
    · rename_i less
      exact absurd less (Nat.not_lt.mpr enough)
    · cases result

/-- What moving the local free list does to the list of the page. -/
theorem collectLocalFree_moves (sh : Shared) (l : Local) (a : Nat) (force : Bool) :
    OwnerMoves ⟨l, sh⟩ ⟨collectLocalFree l a force, sh⟩ := by
  have change : ∀ f : Page → Page, (∀ p, SameShape p (f p)) → (∀ p, (f p).used = p.used) →
      (∀ p, ∀ x ∈ (f p).free ++ (f p).localFree, x ∈ p.free ++ p.localFree) →
      Relisted ⟨l, sh⟩ ⟨l.modifyPage a f, sh⟩ → OwnerMoves ⟨l, sh⟩ ⟨l.modifyPage a f, sh⟩ := by
    intro f shape used lists relisted
    have header : (l.modifyPage a f).pages a = f (l.pages a) := if_pos rfl
    refine (BlockFrame.modifyPage l a shape).ownerMoves (fun x differs => if_neg differs)
      (fun _ => Iff.rfl) rfl (.inl rfl) (fun _ => List.Subset.refl _) (fun _ p inside => ?_)
      (fun _ none => ?_) (fun none => .inl ?_) relisted
    · rw [header] at inside
      exact List.mem_append_left _ (lists _ p inside)
    · rw [header, used] at none
      exact none
    · rw [header, used]
      exact none
  unfold collectLocalFree
  split
  · exact .refl _
  split
  · refine change _ (fun _ => ⟨rfl, rfl, rfl, rfl, rfl, rfl, fun _ => rfl, rfl, rfl⟩) (fun _ => rfl)
      (fun p x inside => ?_) (.swap l sh a)
    rw [List.append_nil] at inside
    exact List.mem_append_right _ inside
  split
  · refine change _ (fun _ => ⟨rfl, rfl, rfl, rfl, rfl, rfl, fun _ => rfl, rfl, rfl⟩) (fun _ => rfl)
      (fun p x inside => ?_) (.append l sh a)
    rw [List.append_nil] at inside
    exact List.mem_append.mpr (List.mem_append.mp inside).symm
  · exact .refl _

/-- What moving the local free list does. -/
theorem collectLocalFree_collected (l : Local) (a : Nat) (force : Bool) :
    BlockFrame l (collectLocalFree l a force) ∧
      (∀ x, x ≠ a → (collectLocalFree l a force).pages x = l.pages x) ∧
      ((collectLocalFree l a force).pages a).capacity = (l.pages a).capacity ∧
      (collectLocalFree l a force).held = l.held ∧ (collectLocalFree l a force).taken = l.taken ∧
      (((collectLocalFree l a force).pages a).free = [] →
        ((collectLocalFree l a force).pages a).localFree = []) := by
  have change : ∀ f : Page → Page, (∀ p, SameShape p (f p)) →
      (∀ p, (f p).capacity = p.capacity) → (∀ p, (f p).localFree = []) →
      BlockFrame l (l.modifyPage a f) ∧ (∀ x, x ≠ a → (l.modifyPage a f).pages x = l.pages x) ∧
        ((l.modifyPage a f).pages a).capacity = (l.pages a).capacity ∧
        (l.modifyPage a f).held = l.held ∧ (l.modifyPage a f).taken = l.taken ∧
        (((l.modifyPage a f).pages a).free = [] → ((l.modifyPage a f).pages a).localFree = []) := by
    intro f shape capacity localFree
    refine ⟨.modifyPage l a shape, fun x differs => if_neg differs, ?_, rfl, rfl, fun _ => ?_⟩
    · rw [Local.modifyPage_pages, if_pos rfl, capacity]
    · rw [Local.modifyPage_pages, if_pos rfl, localFree]
  unfold collectLocalFree
  split
  · rename_i none
    exact ⟨.refl l, fun _ _ => rfl, rfl, rfl, rfl, fun _ => none⟩
  split
  · exact change _ (fun _ => ⟨rfl, rfl, rfl, rfl, rfl, rfl, fun _ => rfl, rfl, rfl⟩) (fun _ => rfl)
      fun _ => rfl
  split
  · exact change _ (fun _ => ⟨rfl, rfl, rfl, rfl, rfl, rfl, fun _ => rfl, rfl, rfl⟩) (fun _ => rfl)
      fun _ => rfl
  · rename_i some _
    exact ⟨.refl l, fun _ _ => rfl, rfl, rfl, rfl, fun none => absurd none some⟩

/-- **`page_free_collect`.** -/
theorem pageFreeCollect_safe (page : InUse l a) (settled : l.held.Settled) (force : Bool) :
    OwnerSafe mode allowed (pageFreeCollect a force) (fun _ l' => Collected l l' a ∧
      ((l'.pages a).free = [] → (l'.pages a).localFree = [])) l := by
  have last : ∀ l', Collected l l' a →
      OwnerSafe mode allowed (localUpdate fun l => collectLocalFree l a force) (fun _ l'' =>
        Collected l l'' a ∧ ((l''.pages a).free = [] → (l''.pages a).localFree = [])) l' := by
    intro l' collected
    refine safe_localUpdate fun sh inv => ?_
    have page' : InUse l' a := collected.frame.inUse_iff.mpr page
    have settled' : l'.held.Settled := by
      rw [collected.held]
      exact settled.collect _
    obtain ⟨frame, others, capacity, held, taken, empty⟩ := collectLocalFree_collected l' a force
    refine ⟨inv.collectLocalFree page' settled' force, (frame.kept fun x => ?_).kept,
      collectLocalFree_moves sh l' a force, ⟨collected.frame.trans frame, fun x differs => (others x differs).trans (collected.others x differs),
        capacity.trans collected.capacity, held.trans collected.held, taken.trans collected.taken⟩,
      empty⟩
    by_cases same : x = a
    · rw [same, capacity]
    · rw [others x same]
  have rest : ∀ nonempty l',
      (nonempty = false ∧ l' = noteCollected l a) ∨ (nonempty = true ∧ l' = l) →
      OwnerSafe mode allowed ((if nonempty = true then pageThreadFreeCollect a else pure ()) >>=
        fun _ => localUpdate fun l => collectLocalFree l a force) (fun _ l'' =>
        Collected l l'' a ∧ ((l''.pages a).free = [] → (l''.pages a).localFree = [])) l' := by
    rintro nonempty l' (⟨rfl, rfl⟩ | ⟨rfl, rfl⟩)
    · exact last _ (noteCollected_collected l a)
    · exact (pageThreadFreeCollect_safe page settled).seq fun _ l' collected => last l' collected
  unfold pageFreeCollect
  cases force with
  | true => exact rest true l (.inr ⟨rfl, rfl⟩)
  | false =>
      refine (loadNonempty_safe page settled).seq fun nonempty l' loaded => ?_
      have safe := rest nonempty l' loaded
      cases nonempty with
      | true => exact safe
      | false => exact safe

end VerusMimalloc
