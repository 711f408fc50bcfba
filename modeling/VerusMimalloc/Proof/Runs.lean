/-
**Runs of the system.**

* `Initial.systemInv`, `SystemInv.step`: the invariant holds initially and every step keeps it;
* `Reachable.sysInv`, `Reachable.orderedInv`: so it holds of every state that a run reaches;
* `SystemInv.moves`: a step of the owner keeps the pages that a block is missing from.
-/

import VerusMimalloc.Proof.Owner.Malloc

namespace VerusMimalloc

open Library

variable {ordered : Prop} {sys sys' : Sys} {l l' : Local} {sh : Shared}

/-! ### Initialisation -/

/-- A mapping of one page of the operating system. -/
theorem mapOnePage_eq {p : Nat} (result : mapOnePage l = .ok (p, l')) :
    l.os.oracle.mmap l.os.calls osPageSize = some p ∧ l' = l.tick.setAccessible p osPageSize true := by
  unfold mapOnePage mmap at result
  cases answer : l.os.oracle.mmap l.os.calls osPageSize with
  | none =>
      rw [answer] at result
      cases result
  | some q =>
      rw [answer] at result
      cases result
      exact ⟨rfl, rfl⟩

/-- The state after `heap_init`. -/
structure Initialised (oracle : Oracle) (l : Local) : Prop where
  pages : l.pages = fun _ => {}
  segments : l.segments = []
  idle : Idle l
  queues : l.heap.pages = fun pq => { first := 0, last := 0, blockSize := queueBlockSize pq }
  direct : l.heap.pagesFreeDirect = fun _ => l.heap.pageEmptyPtr
  threadId : l.heap.threadId ≠ 0
  pageCount : l.heap.pageCount = 0
  spans : l.tld.spanQueueHeaders = fun _ => { first := 0, last := 0 }
  empty : Mapped l l.heap.pageEmptyPtr osPageSize
  oracle : l.os.oracle = oracle
  calls : l.os.calls = 2

theorem heapInit_spec {oracle : Oracle} {threadId heapPtr : Nat}
    (result : heapInit oracle threadId = .ok (heapPtr, l)) (placed : heapPtr ≠ 0)
    (thread : threadId ≠ 0) : Initialised oracle l := by
  unfold heapInit at result
  simp only [bind, Except.bind, pure, Except.pure] at result
  cases first : mapOnePage (freshLocal oracle threadId) with
  | error e =>
      rw [first] at result
      cases result
  | ok answer =>
      obtain ⟨p, l₁⟩ := answer
      obtain ⟨_, rfl⟩ := mapOnePage_eq first
      simp only [first] at result
      by_cases null : p = 0
      · rw [if_pos null] at result
        cases result
        exact absurd rfl placed
      rw [if_neg null] at result
      generalize mappedEq : (freshLocal oracle threadId).tick.setAccessible p osPageSize true = l₁ at result
      cases second : mapOnePage l₁ with
      | error e =>
          rw [second] at result
          cases result
      | ok answer =>
          obtain ⟨q, l₂⟩ := answer
          obtain ⟨mapped, rfl⟩ := mapOnePage_eq second
          simp only [second] at result
          cases result
          subst mappedEq
          exact ⟨rfl, rfl, ⟨rfl, rfl⟩, rfl, rfl, thread, rfl, rfl,
            ⟨1, Nat.one_lt_two, mapped⟩, rfl, rfl⟩

namespace Initialised

variable {oracle : Oracle} (init : Initialised oracle l)
include init

/-- A freshly initialised heap has no page. -/
theorem unused (a : Nat) : ¬InUse l a := fun page => page.1 (by rw [init.pages])

/-- A freshly initialised heap has no segment. -/
theorem segmentsWf : SegmentsWf l fun _ => [] := by
  have none : ∀ s, s ∉ l.segments := fun s => by simp [init.segments]
  have layout : LayoutOk l fun _ => [] := ⟨fun s inside => absurd inside (none s),
    fun s inside => absurd inside (none s), fun a nonzero => absurd (by rw [init.pages]) nonzero⟩
  have queues : SpanQueuesOk l (fun _ => []) fun _ => [] := by
    refine ⟨fun b => ?_, fun b a => ⟨fun inside => (by cases inside), ?_⟩⟩
    · rw [init.spans]
      exact IsDList.empty
    · rintro ⟨s, inside, _⟩
      exact absurd inside (none s)
  have commit : CommitOk l (BusySlice fun _ => []) := ⟨fun s inside => absurd inside (none s),
    fun s inside => absurd inside (none s), fun s inside => absurd inside (none s),
    fun s inside => absurd inside (none s)⟩
  refine ⟨⟨layout, ⟨_, queues⟩, commit⟩, fun s inside => absurd inside (none s), fun _ _ => rfl,
    fun s inside => absurd inside (none s), fun s inside => absurd inside (none s),
    fun s inside => absurd inside (none s), init.empty, fun s inside => absurd inside (none s), ?_⟩
  rw [init.segments]
  exact List.nodup_nil

/-- The queues of a freshly initialised heap are empty. -/
theorem pageQueuesOk : PageQueuesOk l fun _ => [] := by
  refine ⟨fun pq => ?_, fun inside => (by cases inside), fun _ _ => rfl, fun inside => (by cases inside),
    fun pq => by rw [init.queues], by simp [init.pageCount]⟩
  rw [init.queues]
  exact IsDList.empty

/-- **A freshly initialised heap** is well formed. -/
theorem wf : Wf l := by
  refine ⟨_, _, init.segmentsWf, fun r x inside => (by cases inside),
    fun a held => absurd held (by simp [init.idle.held]), init.pageQueuesOk, fun w _ => ?_,
    fun pq a => ⟨fun inside => (by cases inside), fun ⟨page, _⟩ => absurd page (init.unused a)⟩,
    fun a page => absurd page (init.unused a), fun a page => absurd page (init.unused a), fun a _ => ?_,
    fun a held => absurd held (by simp [init.idle.held]), init.threadId⟩
  · rw [init.direct, queueFirst, init.queues, if_pos rfl]
  · rw [init.pages]
    exact ⟨⟨rfl, rfl, rfl, rfl⟩, rfl, rfl, rfl⟩

/-- **The invariant of a freshly initialised heap.** -/
theorem inv : Inv ⟨l, freshShared⟩ := by
  have noDelayed : delayedBlocks l freshShared = [] := by
    rw [delayedBlocks, init.idle.held, init.idle.taken]
    rfl
  have noDirect : directBlocks l freshShared = [] := by
    rw [directBlocks, init.idle.held]
    rfl
  have none : ∀ p, ¬0 < outside l freshShared p := fun p positive => by
    rw [outside_pos, noDelayed, noDirect] at positive
    cases positive
  refine ⟨⟨init.wf, ⟨fun p positive => absurd positive (none p),
    fun a page => absurd page (init.unused a), fun p size inside => (by cases inside)⟩,
    ⟨fun a _ => rfl, fun a => by simp [freshShared], fun a => ?_, fun a => rfl, fun a _ => .inl rfl,
    fun t member => (by cases member)⟩⟩, fun a page => absurd page (init.unused a)⟩
  change (delayedBlocks l freshShared).countP _ = _
  rw [noDelayed]
  rfl

end Initialised

/-! ### Steps -/

/-- The failures of a call: never a subtraction below zero. -/
def CallFails (e : Abort) : Prop := e ≠ .underflow

theorem Expected.callFails {e : Abort} (expected : Expected e) : CallFails e := by
  rcases expected with rfl | rfl | rfl <;> simp [CallFails]

/-- **The invariant of the system**: the state between two steps, and the rest of the owner's call. -/
structure SystemInv (ordered : Prop) (sys : Sys) : Prop where
  inv : Inv sys.st
  idle : sys.owner = none → Idle sys.st.loc
  busy : ∀ p, sys.owner = some p →
    OwnerSafe ⟨False, ordered⟩ CallFails p (fun _ l => Idle l) sys.st.loc

/-- The invariant, without the order of the queues. -/
abbrev SysInv (sys : Sys) : Prop := SystemInv False sys

/-- The invariant of a heap that has kept its empty pages first. -/
structure OrderedInv (sys : Sys) : Prop extends SystemInv True sys where
  first : EmptyFirst sys.st.loc

/-- The owner passes a live block to `free`. -/
theorem Inv.giveBack {before after : List (Nat × Nat)} {ptr size : Nat} (inv : Inv ⟨l, sh⟩)
    (idle : Idle l) (shape : sh.live = before ++ (ptr, size) :: after) :
    Inv (State.giveBack ⟨l, sh⟩ before after ptr) ∧ ptr ≠ 0 := by
  have positive : 0 < outside l sh ptr := by
    rw [outside_pos]
    simp [directBlocks, shape]
  refine ⟨inv.regroup ⟨⟨rfl, rfl, rfl, .of_eq rfl, rfl, rfl, rfl, rfl, rfl, rfl, fun _ => .refl _⟩, rfl,
    .inr ⟨by rw [idle.held]; trivial, trivial⟩, rfl, fun p => ?_, fun p => ?_, fun x inside => ?_,
    fun _ => rfl, fun _ member => .inl member⟩, ?_⟩
  · simp only [delayedBlocks, idle.held, Held.delayed]
  · simp only [directBlocks, idle.held, Held.direct, shape, List.map_append, List.map_cons,
      List.count_append, List.count_cons, List.count_nil]
    omega
  · rw [shape]
    simp only [List.mem_append, List.mem_cons] at inside ⊢
    exact inside.imp id .inr
  · have := (inv.toCore.of_outside positive).2
    omega

/-- The result of a call is forgotten. -/
theorem call_safe {α : Type} {p : P α} {post : α → Local → Prop}
    (safe : OwnerSafe ⟨False, ordered⟩ CallFails p post l)
    (idle : ∀ value l', post value l' → Idle l') :
    OwnerSafe ⟨False, ordered⟩ CallFails (call p) (fun _ l => Idle l) l :=
  Discipline.Safe.bind safe idle

/-- A step of the owner keeps the discipline. -/
theorem SystemInv.moves {st : State} {next : State → State} {rest : State → P Unit}
    (inv : SystemInv ordered { st := st, owner := some (.step next rest) })
    (first : ordered → EmptyFirst st.loc) :
    (ownerDiscipline ⟨False, ordered⟩ CallFails).Keeps st (next st) ∧
      OwnerSafe ⟨False, ordered⟩ CallFails (rest st) (fun _ l => Idle l) (next st).loc :=
  inv.busy _ rfl st ⟨inv.inv, False.elim, first⟩ rfl

/-- **Every step keeps the invariant**, and the pages that a block is missing from. -/
theorem SystemInv.step (inv : SystemInv ordered sys) (first : ordered → EmptyFirst sys.st.loc)
    (step : Step sys sys') :
    SystemInv ordered sys' ∧ (ordered → EmptyFirst sys'.st.loc) ∧ PagesKept sys.st.loc sys'.st.loc := by
  have ⟨inv', idle, busy⟩ := inv
  have expected : ∀ e, Expected e → CallFails e := fun _ => Expected.callFails
  have segmentFree : CallFails .segmentFree := by simp [CallFails]
  cases step with
  | malloc st fuel size medium =>
      refine ⟨⟨inv', fun none => (by cases none), fun p same => ?_⟩, first, .refl _⟩
      cases same
      exact call_safe (heapMallocZero_safe expected segmentFree (idle rfl) medium fuel false)
        fun _ _ both => both.1
  | free st fuel ptr size before after shape =>
      obtain ⟨inv', nonzero⟩ := Inv.giveBack inv' (idle rfl) shape
      refine ⟨⟨inv', fun none => (by cases none), fun p same => ?_⟩, fun ordered a empty => ?_,
        ⟨rfl, rfl, fun a page _ => ⟨page, rfl, Nat.le_refl _⟩⟩⟩
      · cases same
        refine (free_safe (fun _ => expected _ (.inl rfl)) (fun _ => expected _ (.inr (.inr rfl)))
          (fun _ => segmentFree) rfl nonzero).mono fun _ l' both => ?_
        exact ⟨both.1, both.2.trans (idle rfl).taken⟩
      · obtain ⟨notFull, head⟩ := first ordered a ⟨empty.page, empty.used, ((idle rfl).settled a).2⟩
        exact ⟨notFull, head⟩
  | own st next rest =>
      obtain ⟨⟨⟨inv', _, first'⟩, kept, _⟩, after⟩ := inv.moves first
      refine ⟨⟨inv', fun none => (by cases none), fun p same => ?_⟩, first', kept⟩
      cases same
      exact after
  | finish st =>
      exact ⟨⟨inv', fun _ => busy _ rfl, fun p same => (by cases same)⟩, first, .refl _⟩
  | remote st owner sh moved => exact ⟨⟨inv'.remote moved, idle, busy⟩, first, .refl _⟩

theorem SysInv.step (inv : SysInv sys) (step : Step sys sys') :
    SysInv sys' ∧ PagesKept sys.st.loc sys'.st.loc :=
  let ⟨inv', _, kept⟩ := SystemInv.step inv False.elim step
  ⟨inv', kept⟩

theorem OrderedInv.step (inv : OrderedInv sys) (step : Step sys sys') : OrderedInv sys' :=
  let ⟨inv', first, _⟩ := inv.toSystemInv.step (fun _ => inv.first) step
  ⟨inv', first trivial⟩

/-! ### Runs -/

theorem Initial.systemInv (initial : Initial sys) :
    SystemInv ordered sys ∧ ∀ a, ¬InUse sys.st.loc a := by
  obtain ⟨oracle, threadId, heapPtr, loc, thread, result, placed, rfl⟩ := initial
  have init := heapInit_spec result placed thread
  exact ⟨⟨init.inv, fun _ => init.idle, fun p same => (by cases same)⟩, init.unused⟩

theorem Initial.unused (initial : Initial sys) (a : Nat) : ¬InUse sys.st.loc a :=
  have ⟨_, unused⟩ : SystemInv False sys ∧ _ := initial.systemInv
  unused a

/-- **Every state that a run reaches satisfies the invariant.** -/
theorem Reachable.sysInv (reachable : Reachable sys) : SysInv sys := by
  obtain ⟨start, initial, run⟩ := reachable
  induction run with
  | refl => exact initial.systemInv.1
  | tail _ step ih => exact (ih.step step).1

/-- **A run from any state that satisfies the invariant**; the operating system answers as before. -/
theorem SysInv.run (inv : SysInv sys) (run : Relation.ReflTransGen Step sys sys') :
    SysInv sys' ∧ sys'.st.loc.os.oracle = sys.st.loc.os.oracle := by
  induction run with
  | refl => exact ⟨inv, rfl⟩
  | tail _ step ih =>
      obtain ⟨inv', kept⟩ := ih.1.step step
      exact ⟨inv', kept.oracle.trans ih.2⟩

/-- **A run keeps its empty pages first.** -/
theorem Reachable.orderedInv (reachable : Reachable sys) : OrderedInv sys := by
  obtain ⟨start, initial, run⟩ := reachable
  induction run with
  | refl =>
      have ⟨inv, unused⟩ : SystemInv True start ∧ _ := initial.systemInv
      exact ⟨inv, fun a empty => absurd empty.page (unused a)⟩
  | tail _ step ih => exact ih.step step

/-- A run goes on. -/
theorem Reachable.run (reachable : Reachable sys) (run : Relation.ReflTransGen Step sys sys') :
    Reachable sys' := by
  obtain ⟨start, initial, earlier⟩ := reachable
  exact ⟨start, initial, earlier.trans run⟩

theorem Reachable.step (reachable : Reachable sys) (step : Step sys sys') : Reachable sys' :=
  reachable.run (.single step)

/-- A call that runs alone to its end. -/
theorem steps_of_run {p : P Unit} {s t : State} (result : p.run s = (.ok (), t)) :
    Relation.ReflTransGen Step { st := s, owner := some p } { st := t, owner := none } := by
  induction p generalizing s with
  | ret value =>
      cases result
      exact .single (.finish _)
  | fail error => cases result
  | step next rest ih => exact .head (.own _ next rest) (ih _ result)

/-- The owner allocates a block, alone. -/
theorem steps_of_malloc {s t : State} {fuel size p : Nat} (medium : size ≤ mediumObjSizeMax)
    (result : (heapMalloc fuel size).run s = (.ok p, t)) :
    Relation.ReflTransGen Step { st := s, owner := none } { st := t, owner := none } := by
  refine .head (.malloc s fuel size medium) (steps_of_run ?_)
  rw [call, Prog.run_bind, result]
  rfl

/-- The owner frees a live block, alone. -/
theorem steps_of_free {s t : State} {fuel size p : Nat} {before after : List (Nat × Nat)}
    (live : s.sh.live = before ++ (p, size) :: after)
    (result : (free fuel p).run (s.giveBack before after p) = (.ok (), t)) :
    Relation.ReflTransGen Step { st := s, owner := none } { st := t, owner := none } :=
  .head (.free s fuel p size before after live) (steps_of_run result)

theorem Reachable.malloc {s t : State} {fuel size p : Nat}
    (reachable : Reachable { st := s, owner := none }) (medium : size ≤ mediumObjSizeMax)
    (result : (heapMalloc fuel size).run s = (.ok p, t)) : Reachable { st := t, owner := none } :=
  reachable.run (steps_of_malloc medium result)

/-! ### An operating system -/

/-- An operating system that maps a range of its own for each call, and never fails a
compare-exchange. -/
def plainOracle : Oracle where
  mmap := fun i len => if i < 1000 ∧ len ≤ 2 ^ 26 then some ((i + 1) * 2 ^ 27) else none
  clock := fun i => i
  hint := fun _ => 0
  threadCount := fun _ => 1
  spurious := fun _ => false
  mprotect := fun _ => true
  mmap_bound := by
    intro i len p answer
    by_cases small : i < 1000 ∧ len ≤ 2 ^ 26
    · rw [if_pos small] at answer
      cases answer
      omega
    · rw [if_neg small] at answer
      cases answer
  mmap_disjoint := by
    intro i j len len' p q differs first second
    by_cases small : i < 1000 ∧ len ≤ 2 ^ 26
    · by_cases small' : j < 1000 ∧ len' ≤ 2 ^ 26
      · rw [if_pos small] at first
        rw [if_pos small'] at second
        cases first
        cases second
        omega
      · rw [if_neg small'] at second
        cases second
    · rw [if_neg small] at first
      cases first

theorem mapOnePage_plain (oracle : l.os.oracle = plainOracle) (small : l.os.calls < 1000) :
    mapOnePage l = .ok ((l.os.calls + 1) * 2 ^ 27,
      l.tick.setAccessible ((l.os.calls + 1) * 2 ^ 27) osPageSize true) := by
  have answer : l.os.oracle.mmap l.os.calls osPageSize = some ((l.os.calls + 1) * 2 ^ 27) := by
    rw [oracle]
    exact if_pos ⟨small, by decide⟩
  simp only [mapOnePage, mmap, answer]

/-- A freshly initialised heap on it. -/
def plainStart : Sys where
  st :=
    { loc := match heapInit plainOracle 1 with
        | .ok (_, l) => l
        | .error _ => freshLocal plainOracle 1
      sh := freshShared }
  owner := none

theorem heapInit_plain : ∃ loc, heapInit plainOracle 1 = .ok (2 ^ 27, loc) := by
  unfold heapInit
  rw [mapOnePage_plain rfl (by decide)]
  simp only [bind, Except.bind]
  rw [if_neg (by decide), mapOnePage_plain rfl (by decide)]
  exact ⟨_, rfl⟩

theorem plainStart_initial : Initial plainStart := by
  obtain ⟨loc, result⟩ := heapInit_plain
  refine ⟨plainOracle, 1, 2 ^ 27, loc, by decide, result, by decide, ?_⟩
  simp only [plainStart, result]

theorem plainStart_reachable : Reachable plainStart := ⟨_, plainStart_initial, .refl⟩

theorem plainStart_oracle : plainStart.st.loc.os.oracle = plainOracle := by
  obtain ⟨loc, result⟩ := heapInit_plain
  simp only [plainStart, result]
  exact (heapInit_spec result (by decide) (by decide)).oracle

/-- The heap after it has served one small request. -/
def plainServed : Sys where
  st := ((heapMalloc 9 24).run plainStart.st).2
  owner := none

theorem plainServed_reachable : Reachable plainServed := by
  have done : ((heapMalloc 9 24).run plainStart.st).1.isOk = true := by decide +kernel
  cases result : (heapMalloc 9 24).run plainStart.st with
  | mk outcome t =>
      rw [result] at done
      cases outcome with
      | error e => cases done
      | ok p =>
          have same : plainServed = { st := t, owner := none } := by simp only [plainServed, result]
          rw [same]
          exact plainStart_reachable.malloc (by decide) result

end VerusMimalloc
