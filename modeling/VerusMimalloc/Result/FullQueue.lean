/-
**The full queue.**

* `OrderedInv.pageKept`: what a step of the system does to a page;
* `full_queue`: only exhausted pages come into the full queue, none of its pages is empty, and a free by
  the owner takes its page out of it;
* `FreedRun`, `full_queue_foreign`: every block on a list of a full page was last freed by another thread.
-/

import VerusMimalloc.Proof.Scripts
import VerusMimalloc.Result.Delay

namespace VerusMimalloc

open Library

variable {sys sys' : Sys} {s t : State} {l l' : Local} {sh sh' : Shared} {a p : Nat}

/-! ### Steps -/

/-- A page that is not full is in the queue of its bin. -/
theorem Inv.inBin (inv : Inv s) (page : InUse s.loc a) (queued : s.loc.held ≠ .unlinked a)
    (notFull : (s.loc.pages a).getInFull = false) :
    InQueue s.loc (bin (s.loc.pages a).xblockSize) a := by
  obtain ⟨spans, nodes, wf⟩ := inv.wf
  rw [wf.inQueue_iff, wf.queued]
  exact ⟨page, queued, by rw [pageQueueOf, if_neg (by rw [notFull]; decide)]⟩

/-- **What a step of the system does to a page.** -/
theorem OrderedInv.pageKept (inv : OrderedInv sys) (step : Step sys sys') (a : Nat) :
    PageKept sys.st sys'.st a := by
  cases step with
  | malloc st fuel size medium => exact (OwnerMoves.refl st).page a
  | free st fuel ptr size before after shape =>
      have idle : st.loc.held = .nothing := (inv.idle rfl).held
      refine .same Iff.rfl ?_ (fun _ => .of_eq rfl) fun _ head => head.first
      change Held.given ptr = _ ↔ st.loc.held = _
      simp [idle]
  | own st next rest =>
      exact ((inv.toSystemInv.moves fun _ => inv.first).1.2.2 trivial).page a
  | finish st => exact (OwnerMoves.refl st).page a
  | remote st owner sh moved => exact .same Iff.rfl Iff.rfl (fun _ => .of_eq rfl) fun _ head => head.first

/-- What a step of the system does to a page that is in the full queue after it. -/
structure FullQueueStep (s t : State) (a : Nat) : Prop where
  /-- A page that comes there has no free block and no room for more. -/
  entered : ¬InQueue s.loc binFull a → Exhausted s.loc a ∧ Exhausted t.loc a
  /-- A page that was there gets only blocks from its thread free list. -/
  stayed : InQueue s.loc binFull a → ∀ p ∈ (t.loc.pages a).free ++ (t.loc.pages a).localFree,
    p ∈ (s.loc.pages a).free ++ (s.loc.pages a).localFree ++ (s.sh.xthreadFree a).list
  used : 0 < (t.loc.pages a).used

/-- The page is not in use any more, or back in the queue of its bin. -/
structure Home (l : Local) (a : Nat) : Prop where
  queue : InUse l a → InQueue l (bin (l.pages a).xblockSize) a
  notFull : ¬InQueue l binFull a

/-- A free by the owner leaves the page out of the full queue. -/
theorem freeLocal_home {mode : Mode} {f : Local → Except Abort (Bool × Local)}
    (same : f l = freeBlockLocal l a p) (back : l.held.GoesBack p) (on : pageOfBlock l p = a)
    (fuel : Nat) :
    OwnerSafe mode (fun _ => True) (localStep f >>= pageFreeRest fuel a) (fun _ l' =>
      l'.held = .nothing ∧ (InUse l' a → (l'.pages a).getInFull = false)) l := by
  refine OwnerSafe.seq (Q := fun freed l' => (l'.held = if freed then .unlinked a else .nothing) ∧
    (freed = false → (l'.pages a).getInFull = false))
    (safe_localStep (fun sh value l' inv result => ?_) fun _ _ _ _ => trivial) fun freed l₁ both => ?_
  · obtain ⟨freed, l₁, done, spec, iff, held⟩ :=
      freeBlockLocal_spec inv back.direct on fun use => back.collected inv use
    obtain ⟨moves, notFull⟩ :=
      freeBlockLocal_kept inv back.direct on (fun use => back.collected inv use) done
    rw [same, done] at result
    cases result
    exact ⟨spec.inv, spec.kept.kept, moves, held, fun kept => (notFull kept).2⟩
  · obtain ⟨held, notFull⟩ := both
    refine (pageFreeRest_safe (fun _ => trivial) (fun _ => trivial) (fun _ _ => trivial) held).mono fun _ l' after => ?_
    cases freed with
    | true => exact ⟨after.held, fun page => absurd page after.gone⟩
    | false =>
        rw [if_neg (by decide)] at after
        subst after
        exact ⟨held, fun _ => notFull rfl⟩

/-- A page out of the full queue, between two calls. -/
theorem Inv.home (inv : Inv s) (held : s.loc.held = .nothing)
    (notFull : InUse s.loc a → (s.loc.pages a).getInFull = false) : Home s.loc a := by
  refine ⟨fun page => inv.inBin page (by simp [held]) (notFull page), fun inQueue => ?_⟩
  have full := inv.inFull_iff.mp inQueue
  have flag := full.flag
  rw [notFull full.page] at flag
  cases flag

/-- **The full queue**, in every reachable state: its pages are exhausted when they come there and never
empty, it gets no block that the owner frees, and a free by the owner, directly or from the delayed list,
leaves the page in the queue of its bin or out of use. -/
theorem full_queue (reachable : Reachable sys) :
    (∀ sys', Step sys sys' → ∀ a, InQueue sys'.st.loc binFull a → FullQueueStep sys.st sys'.st a) ∧
    (∀ before after p size, sys.owner = none → sys.st.sh.live = before ++ (p, size) :: after →
      ∀ fuel t, Returns (sys.st.giveBack before after p) (free fuel p) () t →
        Home t.loc (pageOfBlock sys.st.loc p)) ∧
    (∀ p, sys.st.loc.held.GoesBack p →
      ∀ fuel t, Returns sys.st (freeBlock fuel (pageOfBlock sys.st.loc p) p) () t →
        Home t.loc (pageOfBlock sys.st.loc p)) := by
  have ordered := reachable.orderedInv
  refine ⟨fun sys' step a inQueue => ?_, fun before after p size between shape fuel t returned => ?_,
    fun p back fuel t returned => ?_⟩
  · have ordered' := ordered.step step
    have full := ordered'.inv.inFull_iff.mp inQueue
    have positive : 0 < (sys'.st.loc.pages a).used := by
      refine Nat.pos_of_ne_zero fun empty => ?_
      have notFull := (ordered'.first a ⟨full.page, empty, full.queued⟩).notFull
      rw [full.flag] at notFull
      cases notFull
    refine ⟨fun outside => ?_, fun inside p member => ?_, positive⟩
    · exact ((ordered.pageKept step a).full full).resolve_left fun both =>
        outside (ordered.inv.inFull_iff.mpr both.1)
    · rcases (ordered.pageKept step a).full full with ⟨_, lists⟩ | ⟨_, exhausted⟩
      · exact lists p member
      · rw [exhausted.free, exhausted.localFree] at member
        cases member
  · obtain ⟨inv, nonzero⟩ := Inv.giveBack ordered.inv (ordered.idle between) shape
    have safe : OwnerSafe False (fun _ => True) (free fuel p) _ (sys.st.giveBack before after p).loc :=
      free_cases rfl nonzero fun _ same => freeLocal_home same (.inr rfl) rfl fuel
    obtain ⟨inv', held, notFull⟩ := safe.returns inv returned
    exact inv'.home held notFull
  · have safe : OwnerSafe False (fun _ => True) (freeBlock fuel (pageOfBlock sys.st.loc p) p) _ sys.st.loc :=
      freeLocal_home rfl back rfl fuel
    obtain ⟨inv', held, notFull⟩ := safe.returns ordered.inv returned
    exact inv'.home held notFull

/-- A run that leads into a set of states takes a step into it. -/
theorem exists_step_into {P : Sys → Prop} (run : Relation.ReflTransGen Step sys sys') (outside : ¬P sys)
    (inside : P sys') :
    ∃ x y, Relation.ReflTransGen Step sys x ∧ Step x y ∧ ¬P x ∧ P y := by
  induction run with
  | refl => exact absurd inside outside
  | @tail x y earlier step ih =>
      by_cases already : P x
      · exact ih already
      · exact ⟨x, y, earlier, step, already, inside⟩

/-- The step with which a page comes into the full queue. -/
theorem full_queue_entered :
    ∃ sys sys', Reachable sys ∧ Step sys sys' ∧ ¬InQueue sys.st.loc binFull firstPage ∧
      InQueue sys'.st.loc binFull firstPage ∧ FullQueueStep sys.st sys'.st firstPage := by
  have run : Relation.ReflTransGen Step plainStart (plainBusy 5) := plainBusy_steps 5
  have outside : ¬InQueue plainStart.st.loc binFull firstPage := fun inQueue =>
    plainStart_initial.unused firstPage (plainStart_reachable.sysInv.inv.inFull_iff.mp inQueue).page
  obtain ⟨sys, sys', earlier, step, before, after⟩ :=
    exists_step_into (P := fun sys => InQueue sys.st.loc binFull firstPage) run outside plainBusy_full
  have reachable := plainStart_reachable.run earlier
  exact ⟨sys, sys', reachable, step, before, after,
    (full_queue reachable).1 sys' step firstPage after⟩

/-! ### Who freed a block -/

/-- The addresses of the live blocks. -/
def Sys.live (sys : Sys) : List Nat := sys.st.sh.live.map Prod.fst

inductive Freer where
  | owner
  | other
  deriving DecidableEq

/-- Who was the last one to free a block, after a step: a block that is live no more was freed in this step,
by the owner if it is in the owner's hands, and else by another thread. -/
def lastFreer (sys sys' : Sys) (freer : Nat → Option Freer) (p : Nat) : Option Freer :=
  if p ∈ sys.live ∧ p ∉ sys'.live then
    if sys'.st.loc.held = .given p then some .owner else some .other
  else freer p

/-- A run, with who was the last one to free each block; `none` is a block that nobody has freed. -/
inductive FreedRun : Sys → (Nat → Option Freer) → Prop where
  | start (sys : Sys) : Initial sys → FreedRun sys fun _ => none
  | step (sys sys' : Sys) (freer : Nat → Option Freer) : FreedRun sys freer → Step sys sys' →
      FreedRun sys' (lastFreer sys sys' freer)

theorem FreedRun.reachable {freer : Nat → Option Freer} (run : FreedRun sys freer) : Reachable sys := by
  induction run with
  | start sys initial => exact ⟨sys, initial, .refl⟩
  | step sys sys' freer _ step ih => exact ih.step step

/-- Every run has its history. -/
theorem Reachable.freedRun (reachable : Reachable sys) : ∃ freer, FreedRun sys freer := by
  obtain ⟨start, initial, run⟩ := reachable
  induction run with
  | refl => exact ⟨_, .start _ initial⟩
  | tail _ step ih =>
      obtain ⟨freer, history⟩ := ih
      exact ⟨_, .step _ _ _ history step⟩

/-- A live block is live once, on no list, in no thread's hands and not in the owner's. -/
theorem Core.live_alone (core : Core s) (live : p ∈ s.sh.live.map Prod.fst) :
    (∀ a, InUse s.loc a → listed s.loc s.sh a p = 0) ∧ p ∉ blocksAt Pc.early s.sh.threads ∧
      p ∉ s.loc.held.direct ∧ (s.sh.live.map Prod.fst).count p = 1 := by
  have once : 0 < (s.sh.live.map Prod.fst).count p := List.count_pos_iff.mpr live
  have split : outside s.loc s.sh p = (delayedBlocks s.loc s.sh).count p +
      ((s.sh.live.map Prod.fst).count p + s.loc.held.direct.count p +
        (blocksAt Pc.early s.sh.threads).count p) := by
    simp only [outside, directBlocks, List.count_append]
  have page := core.accounting.placed p (by omega)
  have balance := core.accounting.balance _ page p
  rw [if_pos rfl] at balance
  have bound := List.nodup_iff_count_le_one.mp (core.wf.blocksOf_nodup page) p
  refine ⟨fun a pageA => ?_, fun early => ?_, fun direct => ?_, by omega⟩
  · by_cases same : pageOfBlock s.loc p = a
    · subst same
      omega
    · by_contra some
      have member := core.accounting.of_listed pageA (Nat.pos_of_ne_zero some)
      exact same (core.wf.of_mem_blocksOf pageA member).2.2
  · have := List.count_pos_iff.mpr early
    omega
  · have := List.count_pos_iff.mpr direct
    omega

/-- Where a step of a freeing thread takes the blocks of the lists and of the threads from. -/
structure RemoteBlocks (sh sh' : Shared) : Prop where
  words : ∀ a, ∀ p ∈ (sh'.xthreadFree a).list,
    p ∈ (sh.xthreadFree a).list ∨ p ∈ blocksAt Pc.early sh.threads
  early : ∀ p ∈ blocksAt Pc.early sh'.threads, p ∈ blocksAt Pc.early sh.threads ∨
    (p ∈ sh.live.map Prod.fst ∧ (sh.live.map Prod.fst).count p =
      (sh'.live.map Prod.fst).count p + 1)

theorem RemoteStep.blocks (moved : RemoteStep l sh sh') : RemoteBlocks sh sh' := by
  have same : ∀ {x y : RemoteFree} {before after : List RemoteFree} {list : List (Nat × Nat)},
      sh.threads = before ++ x :: after → x.ptr = y.ptr → (y.pc.early = true → x.pc.early = true) →
      ∀ p ∈ blocksAt Pc.early (before ++ y :: after), p ∈ blocksAt Pc.early sh.threads ∨
        (p ∈ sh.live.map Prod.fst ∧ (sh.live.map Prod.fst).count p = (list.map Prod.fst).count p + 1) := by
    intro x y before after list shape ptr kind p member
    left
    rw [shape]
    simp only [blocksAt_append, blocksAt_cons, List.mem_append] at member ⊢
    refine member.imp_right fun rest => rest.imp_left fun here => ?_
    by_cases place : y.pc.early = true
    · rw [if_pos place] at here
      rw [if_pos (kind place), ptr]
      exact here
    · rw [if_neg place] at here
      cases here
  have gone : ∀ {x : RemoteFree} {before after : List RemoteFree} {list : List (Nat × Nat)},
      sh.threads = before ++ x :: after →
      ∀ p ∈ blocksAt Pc.early (before ++ after), p ∈ blocksAt Pc.early sh.threads ∨
        (p ∈ sh.live.map Prod.fst ∧ (sh.live.map Prod.fst).count p = (list.map Prod.fst).count p + 1) := by
    intro x before after list shape p member
    left
    rw [shape]
    simp only [blocksAt_append, blocksAt_cons, List.mem_append] at member ⊢
    exact member.imp_right .inr
  have sameWord : ∀ {page : Nat} {word : ThreadFree}, word.list = (sh.xthreadFree page).list →
      ∀ a, ∀ p ∈ (if a = page then word else sh.xthreadFree a).list,
        p ∈ (sh.xthreadFree a).list ∨ p ∈ blocksAt Pc.early sh.threads := by
    intro page word list a p member
    by_cases here : a = page
    · rw [if_pos here, list, ← here] at member
      exact .inl member
    · rw [if_neg here] at member
      exact .inl member
  cases moved with
  | begin before after ptr size shape =>
      refine ⟨fun a p member => .inl member, fun p member => ?_⟩
      simp only [blocksAt_cons, Pc.early, if_true, List.mem_append, List.mem_singleton] at member
      refine member.symm.imp id fun here => ?_
      subst here
      simp [shape]
      omega
  | load before after page ptr shape =>
      exact ⟨fun a p member => .inl member, same shape rfl fun _ => rfl⟩
  | casFail before after page ptr mask shape =>
      exact ⟨fun a p member => .inl member, same shape rfl fun _ => rfl⟩
  | casFreeing before after page ptr mask shape word low =>
      exact ⟨sameWord rfl, same shape rfl fun _ => rfl⟩
  | casPush before after page ptr mask shape word low =>
      refine ⟨fun a p member => ?_, gone shape⟩
      change p ∈ (if a = page then _ else sh.xthreadFree a : ThreadFree).list at member
      by_cases here : a = page
      · rw [if_pos here] at member
        rcases List.mem_cons.mp member with rfl | old
        · exact .inr (by rw [shape]; simp [Pc.early])
        · exact .inl (here ▸ old)
      · rw [if_neg here] at member
        exact .inl member
  | loadHeap before after page ptr shape =>
      exact ⟨fun a p member => .inl member, same shape rfl fun early => by cases early⟩
  | delayedLoad before after page ptr heap shape =>
      exact ⟨fun a p member => .inl member, same shape rfl fun early => by cases early⟩
  | delayedCasFail before after page ptr heap next shape =>
      exact ⟨fun a p member => .inl member, same shape rfl fun early => by cases early⟩
  | delayedCasPush before after page ptr heap next shape head =>
      exact ⟨fun a p member => .inl member, same shape rfl fun early => by cases early⟩
  | leave before after page ptr shape => exact ⟨sameWord rfl, gone shape⟩

/-- The blocks that other threads freed. -/
structure Foreign (s : State) (freer : Nat → Option Freer) : Prop where
  lists : ∀ a, InFull s.loc a → ∀ p ∈ (s.loc.pages a).free ++ (s.loc.pages a).localFree,
    freer p = some .other
  words : ∀ a, ∀ p ∈ (s.sh.xthreadFree a).list, freer p = some .other
  early : ∀ p ∈ blocksAt Pc.early s.sh.threads, freer p = some .other

section LastFreer

variable {freer : Nat → Option Freer}

/-- A block that stays live was freed by nobody. -/
theorem lastFreer_of_live (stays : p ∈ sys.live → p ∈ sys'.live) : lastFreer sys sys' freer p = freer p :=
  if_neg fun both => both.2 (stays both.1)

/-- A block that another thread freed is not freed by the owner, unless it is in the owner's hands. -/
theorem lastFreer_of_notGiven (notGiven : p ∈ sys.live → sys'.st.loc.held ≠ .given p)
    (before : freer p = some .other) : lastFreer sys sys' freer p = some .other := by
  unfold lastFreer
  by_cases gone : p ∈ sys.live ∧ p ∉ sys'.live
  · rw [if_pos gone, if_neg (notGiven gone.1)]
  · rw [if_neg gone, before]

/-- A step that makes no block less live keeps the history. -/
theorem Foreign.same {moved : Nat → Option Freer} (foreign : Foreign s freer) (keeps : ∀ p, moved p = freer p) :
    Foreign s moved := by
  obtain rfl : moved = freer := funext keeps
  exact foreign

/-- **Every step keeps** the blocks of the owner away from full pages. -/
theorem Foreign.step (inv : OrderedInv sys) (foreign : Foreign sys.st freer) (step : Step sys sys') :
    Foreign sys'.st (lastFreer sys sys' freer) := by
  have kept := inv.pageKept step
  cases step with
  | malloc st fuel size medium => exact foreign.same fun p => lastFreer_of_live id
  | finish st => exact foreign.same fun p => lastFreer_of_live id
  | free st fuel ptr size before after shape =>
      have live : ptr ∈ st.sh.live.map Prod.fst := by simp [shape]
      obtain ⟨unlisted, notEarly, _⟩ := inv.inv.toCore.live_alone live
      have others : ∀ q, q ≠ ptr → lastFreer { st := st, owner := none }
          { st := st.giveBack before after ptr, owner := some (free fuel ptr) } freer q = freer q := by
        intro q differs
        refine lastFreer_of_live fun before => ?_
        simpa [Sys.live, shape, State.giveBack, differs] using before
      have zero : ∀ a, InUse st.loc a → ptr ∉ (st.loc.pages a).free ∧ ptr ∉ (st.loc.pages a).localFree ∧
          ptr ∉ (st.sh.xthreadFree a).list := by
        intro a page
        have none := unlisted a page
        simp only [listed, Nat.add_eq_zero_iff, List.count_eq_zero] at none
        exact ⟨none.1.1, none.1.2, none.2⟩
      refine ⟨fun a full p member => ?_, fun a p member => ?_, fun p member => ?_⟩
      · by_cases same : p = ptr
        · obtain ⟨free, localFree, _⟩ := zero a full.page
          subst same
          exact ((List.mem_append.mp member).elim free localFree).elim
        · have idle : st.loc.held = .nothing := (inv.idle rfl).held
          rw [others p same]
          exact foreign.lists a ⟨full.page, full.flag, by simp [idle]⟩ p member
      · by_cases same : p = ptr
        · subst same
          exact absurd member (zero a (inv.inv.toCore.of_mem_list member).1).2.2
        · rw [others p same]
          exact foreign.words a p member
      · by_cases same : p = ptr
        · subst same
          exact absurd member notEarly
        · rw [others p same]
          exact foreign.early p member
  | own st next rest =>
      have moves := (inv.toSystemInv.moves fun _ => inv.first).1.2.2 trivial
      have same : ∀ p, lastFreer { st := st, owner := some (.step next rest) }
          { st := next st, owner := some (rest st) } freer p = freer p := by
        refine fun p => lastFreer_of_live fun member => ?_
        change p ∈ st.sh.live.map Prod.fst at member
        show p ∈ (next st).sh.live.map Prod.fst
        rcases moves.live with unchanged | ⟨q, size, more⟩
        · rw [unchanged]
          exact member
        · rw [more]
          exact List.mem_cons_of_mem _ member
      refine ⟨fun a full p member => ?_, fun a p member => ?_, fun p member => ?_⟩ <;> rw [same p]
      · rcases (kept a).full full with ⟨before, lists⟩ | ⟨_, exhausted⟩
        · rcases List.mem_append.mp (lists p member) with own | remote
          · exact foreign.lists a before p own
          · exact foreign.words a p remote
        · rw [exhausted.free, exhausted.localFree] at member
          cases member
      · exact foreign.words a p (moves.lists a member)
      · exact foreign.early p (moves.threads ▸ member)
  | remote st owner sh moved =>
      have core := inv.inv.toCore
      have notGiven : ∀ p, p ∈ st.sh.live.map Prod.fst → st.loc.held ≠ .given p := by
        intro p live given
        have notHeld := (core.live_alone live).2.2.1
        change p ∉ st.loc.held.direct at notHeld
        rw [given] at notHeld
        exact notHeld List.mem_cons_self
      have blocks := moved.blocks
      refine ⟨fun a full p member => lastFreer_of_notGiven (notGiven p) (foreign.lists a full p member),
        fun a p member => ?_, fun p member => ?_⟩
      · refine lastFreer_of_notGiven (notGiven p) ?_
        rcases blocks.words a p member with old | early
        · exact foreign.words a p old
        · exact foreign.early p early
      · rcases blocks.early p member with old | ⟨live, count⟩
        · exact lastFreer_of_notGiven (notGiven p) (foreign.early p old)
        · have once := (core.live_alone live).2.2.2
          have gone : p ∉ sh.live.map Prod.fst := List.count_eq_zero.mp (by simp only at once; omega)
          exact (if_pos ⟨live, gone⟩).trans (if_neg (notGiven p live))

/-- **Whose blocks a full page holds.** In every run, every block on a list of a page of the full queue, its
thread free list included, was last freed by another thread. -/
theorem full_queue_foreign (run : FreedRun sys freer) :
    ∀ a, InQueue sys.st.loc binFull a → ∀ p ∈ (sys.st.loc.pages a).free ++
      (sys.st.loc.pages a).localFree ++ (sys.st.sh.xthreadFree a).list, freer p = some .other := by
  have foreign : Foreign sys.st freer := by
    induction run with
    | start sys initial =>
        have core := (FreedRun.start sys initial).reachable.sysInv.inv.toCore
        refine ⟨fun a full => absurd full.page (initial.unused a), fun a p member => ?_, fun p member => ?_⟩
        · exact absurd (core.of_mem_list member).1 (initial.unused a)
        · obtain ⟨_, _, _, _, _, _, _, _, rfl⟩ := id initial
          cases member
    | step sys sys' freer run step ih => exact ih.step run.reachable.orderedInv step
  intro a inQueue p member
  have full := run.reachable.orderedInv.inv.inFull_iff.mp inQueue
  exact (List.mem_append.mp member).elim (foreign.lists a full p) (foreign.words a p)

end LastFreer

theorem full_queue_foreign_busy :
    ∃ freer, FreedRun (plainBusy 5) freer ∧ InQueue (plainBusy 5).st.loc binFull firstPage ∧
      671285248 ∈ ((plainBusy 5).st.sh.xthreadFree firstPage).list ∧ freer 671285248 = some .other := by
  obtain ⟨freer, run⟩ := (plainBusy_reachable 5).freedRun
  have listed : 671285248 ∈ ((plainBusy 5).st.sh.xthreadFree firstPage).list := by decide +kernel
  exact ⟨freer, run, plainBusy_full, listed,
    full_queue_foreign run firstPage plainBusy_full 671285248 (List.mem_append_right _ listed)⟩

end VerusMimalloc
