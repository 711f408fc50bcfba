/-
**What a step of the owner does to the lists.**

* `ListName`, `State.lists`: every block list of the state by its name;
* `ListCall.lists`: a call of the list functions, on sequences;
* `Relisted`: the lists change by one such call;
* `Relisted.same`, `Relisted.one`: the headers of no page, or of one page, change.
-/

import VerusMimalloc.Model.Memory
import VerusMimalloc.Proof.Blocks.Pages

namespace VerusMimalloc

open Function

variable {s t : State} {l l' : Local} {sh sh' : Shared} {a p : Nat}

/-- The block lists of the allocator. -/
inductive ListName where
  | free (page : Nat)
  | localFree (page : Nat)
  | threadFree (page : Nat)
  | delayed (heap : Nat)
  | taken
  deriving DecidableEq

theorem localFree_ne_free (page : Nat) : ListName.localFree page ≠ .free page := by simp

/-- The blocks of a list. -/
def State.lists (s : State) : ListName → List Nat
  | .free page => (s.loc.pages page).free
  | .localFree page => (s.loc.pages page).localFree
  | .threadFree page => (s.sh.xthreadFree page).list
  | .delayed heap => s.sh.threadDelayedFree heap
  | .taken => s.loc.taken

/-- The delay state of a page. -/
def State.delay (s : State) (page : Nat) : DelayState := (s.sh.xthreadFree page).delay

/-- The blocks that `prepend_contiguous_blocks` adds. -/
def newBlocks (start bsize n : Nat) : List Nat := (List.range n).map fun i => start + i * bsize

namespace ListCall

variable (before : ListName → List Nat)

/-- What the call does to the lists. -/
def lists : ListCall → ListName → List Nat
  | .popBlock page => update before (.free page) (before (.free page)).tail
  | .insertBlock page ptr => update before (.free page) (ptr :: before (.free page))
  | .extend page start bsize n =>
      update before (.free page) (newBlocks start bsize n ++ before (.free page))
  | .swap page => update (update before (.free page) (before (.localFree page))) (.localFree page) []
  | .append page =>
      update (update before (.free page) (before (.localFree page) ++ before (.free page)))
        (.localFree page) []
  | .collect page =>
      update (update before (.localFree page) (before (.threadFree page) ++ before (.localFree page)))
        (.threadFree page) []
  | .makeEmpty page => update (update before (.free page) []) (.localFree page) []
  | .disable page => update before (.threadFree page) []
  | .takeNone => update before .taken []
  | .take heap => update (update before .taken (before (.delayed heap))) (.delayed heap) []
  | .popTaken => update before .taken (before .taken).tail
  | .insertDelayed heap ptr => update before (.delayed heap) (ptr :: before (.delayed heap))
  | .nothing | .setDelay .. => before

/-- What the call does to the delay states. -/
def delay (before : Nat → DelayState) : ListCall → Nat → DelayState
  | .disable page => update before page .useDelayedFree
  | .setDelay page new => update before page new
  | _ => before

/-- What the call returns. -/
def result : ListCall → Nat
  | .popBlock page => (before (.free page)).headD 0
  | .popTaken => (before .taken).headD 0
  | .append page => (before (.localFree page)).length
  | .collect page => (before (.threadFree page)).length
  | _ => 0

/-- The heap whose delayed list the call changes. -/
def heap? : ListCall → Option Nat
  | .take heap | .insertDelayed heap _ => some heap
  | _ => none

/-- What the call relies on. -/
def Ready : ListCall → Prop
  | .popBlock page => before (.free page) ≠ []
  | .popTaken => before .taken ≠ []
  | .extend _ start bsize n => 1 ≤ n ∧ 8 ≤ bsize ∧ start ≠ 0 ∧ start + n * bsize ≤ 2 ^ 64
  | _ => True

end ListCall

/-- The lists and the delay states change by a call. -/
structure RelistedBy (call : ListCall) (s t : State) : Prop where
  ready : call.Ready s.lists
  heap : ∀ heap, call.heap? = some heap → heap = s.loc.heap.heapPtr
  lists : t.lists = call.lists s.lists
  delay : t.delay = call.delay s.delay

/-- **The lists change by one call** of the list functions. -/
def Relisted (s t : State) : Prop := ∃ call, RelistedBy call s t

/-- The headers and the taken list agree on the blocks. -/
structure ListsAgree (l l' : Local) : Prop where
  free : ∀ x, (l'.pages x).free = (l.pages x).free
  localFree : ∀ x, (l'.pages x).localFree = (l.pages x).localFree
  taken : l'.taken = l.taken

theorem ListsAgree.of_pages (pages : l'.pages = l.pages) (taken : l'.taken = l.taken) :
    ListsAgree l l' :=
  ⟨fun x => by rw [pages], fun x => by rw [pages], taken⟩

theorem ListsAgree.modifyPage (l : Local) (a : Nat) {f : Page → Page}
    (same : ∀ p, (f p).free = p.free ∧ (f p).localFree = p.localFree) :
    ListsAgree l (l.modifyPage a f) := by
  refine ⟨fun x => ?_, fun x => ?_, rfl⟩
  · rw [Local.modifyPage_pages]
    split
    · exact (same _).1
    · rfl
  · rw [Local.modifyPage_pages]
    split
    · exact (same _).2
    · rfl

theorem MoveFrame.listsAgree {flags1 : BitVec 8} (frame : MoveFrame l l' a flags1) : ListsAgree l l' := by
  refine ⟨fun x => ?_, fun x => ?_, frame.queue.taken⟩
  · exact (frame.same x).2.2.2.2.2.2.2.1
  · exact (frame.same x).2.2.2.2.2.2.2.2.1

/-- No list changes. -/
theorem RelistedBy.same (blocks : ListsAgree l l') (words : sh'.xthreadFree = sh.xthreadFree)
    (delayed : sh'.threadDelayedFree = sh.threadDelayedFree) :
    RelistedBy .nothing ⟨l, sh⟩ ⟨l', sh'⟩ := by
  refine ⟨trivial, fun _ none => (by cases none), funext fun name => ?_, funext fun x => ?_⟩
  · cases name with
    | free x => exact blocks.free x
    | localFree x => exact blocks.localFree x
    | threadFree x => exact congrArg (fun word => (word x).list) words
    | delayed heap => exact congrFun delayed heap
    | taken => exact blocks.taken
  · exact congrArg (fun word => (word x).delay) words

theorem Relisted.same (blocks : ListsAgree l l') (words : sh'.xthreadFree = sh.xthreadFree)
    (delayed : sh'.threadDelayedFree = sh.threadDelayedFree) : Relisted ⟨l, sh⟩ ⟨l', sh'⟩ :=
  ⟨.nothing, .same blocks words delayed⟩

theorem Relisted.refl (s : State) : Relisted s s := .same (.of_pages rfl rfl) rfl rfl

/-- **The lists in the header of one page change**, by a call on this page. -/
theorem Relisted.one (call : ListCall) (ready : call.Ready (State.lists ⟨l, sh⟩)) (noHeap : call.heap? = none)
    (frame : ∀ name, name ≠ .free a → name ≠ .localFree a →
      call.lists (State.lists ⟨l, sh⟩) name = State.lists ⟨l, sh⟩ name)
    (delays : ∀ delay, call.delay delay = delay)
    (others : ∀ x, x ≠ a → (l'.pages x).free = (l.pages x).free ∧
      (l'.pages x).localFree = (l.pages x).localFree) (taken : l'.taken = l.taken)
    (words : sh'.xthreadFree = sh.xthreadFree)
    (delayed : sh'.threadDelayedFree = sh.threadDelayedFree)
    (free : (l'.pages a).free = call.lists (State.lists ⟨l, sh⟩) (.free a))
    (localFree : (l'.pages a).localFree = call.lists (State.lists ⟨l, sh⟩) (.localFree a)) :
    Relisted ⟨l, sh⟩ ⟨l', sh'⟩ := by
  refine ⟨call, ready, fun heap some => ?_, funext fun name => ?_, funext fun x => ?_⟩
  · rw [noHeap] at some
    cases some
  · by_cases isFree : name = .free a
    · subst isFree
      exact free
    by_cases isLocal : name = .localFree a
    · subst isLocal
      exact localFree
    rw [frame name isFree isLocal]
    cases name with
    | free x => exact (others x fun same => isFree (same ▸ rfl)).1
    | localFree x => exact (others x fun same => isLocal (same ▸ rfl)).2
    | threadFree x => exact congrArg (fun word => (word x).list) words
    | delayed heap => exact congrFun delayed heap
    | taken => exact taken
  · rw [delays]
    exact congrArg (fun word => (word x).delay) words

/-- A block goes to the free list of its page. -/
theorem Relisted.insertBlock (others : ∀ x, x ≠ a → l'.pages x = l.pages x)
    (free : (l'.pages a).free = p :: (l.pages a).free)
    (localFree : (l'.pages a).localFree = (l.pages a).localFree) {l₁ : Local} (same : ListsAgree l' l₁)
    (taken : l'.taken = l.taken) (sh : Shared) : Relisted ⟨l, sh⟩ ⟨l₁, sh⟩ := by
  refine .one (.insertBlock a p) trivial rfl (fun name notFree _ => update_of_ne notFree _ _) (fun _ => rfl)
    (fun x differs => ?_) (same.taken.trans taken) rfl rfl ?_ ?_
  · rw [same.free, same.localFree, others x differs]
    exact ⟨rfl, rfl⟩
  · rw [same.free, free]
    exact (update_self (f := State.lists ⟨l, sh⟩) _ _).symm
  · rw [same.localFree, localFree]
    exact (update_of_ne (localFree_ne_free a) _ (State.lists ⟨l, sh⟩)).symm

/-- New blocks come to the free list of a page. -/
theorem Relisted.extend {start bsize n : Nat}
    (ready : (ListCall.extend a start bsize n).Ready (State.lists ⟨l, sh⟩))
    (others : ∀ x, x ≠ a → (l'.pages x).free = (l.pages x).free ∧
      (l'.pages x).localFree = (l.pages x).localFree) (taken : l'.taken = l.taken)
    (free : (l'.pages a).free = newBlocks start bsize n ++ (l.pages a).free)
    (localFree : (l'.pages a).localFree = (l.pages a).localFree) : Relisted ⟨l, sh⟩ ⟨l', sh⟩ := by
  refine .one _ ready rfl (fun name notFree _ => update_of_ne notFree _ _) (fun _ => rfl) others taken rfl rfl
    ?_ ?_
  · rw [free]
    exact (update_self (f := State.lists ⟨l, sh⟩) _ _).symm
  · rw [localFree]
    exact (update_of_ne (localFree_ne_free a) _ (State.lists ⟨l, sh⟩)).symm

/-- Both free lists of a page are emptied. -/
theorem Relisted.makeEmpty (others : ∀ x, x ≠ a → l'.pages x = l.pages x) (taken : l'.taken = l.taken)
    (free : (l'.pages a).free = []) (localFree : (l'.pages a).localFree = []) :
    Relisted ⟨l, sh⟩ ⟨l', sh⟩ := by
  refine .one (a := a) (.makeEmpty a) trivial rfl (fun name notFree notLocal => ?_) (fun _ => rfl)
    (fun x differs => ?_) taken rfl rfl ?_ ?_
  · exact (update_of_ne notLocal _ _).trans (update_of_ne notFree _ _)
  · rw [others x differs]
    exact ⟨rfl, rfl⟩
  · rw [free]
    exact ((update_of_ne (localFree_ne_free a).symm _ _).trans
      (update_self (f := State.lists ⟨l, sh⟩) _ _)).symm
  · rw [localFree]
    exact (update_self (f := update (State.lists ⟨l, sh⟩) _ _) _ _).symm

/-- A page that stays in place, or is not in use before and after, keeps its lists. -/
theorem Wf.lists_of_stays {x : Nat} (wf : Wf l) (wf' : Wf l') (inUse : InUse l' x ↔ InUse l x)
    (stays : InUse l x → PageStays l l' x) :
    (l'.pages x).free = (l.pages x).free ∧ (l'.pages x).localFree = (l.pages x).localFree := by
  by_cases page : InUse l x
  · obtain ⟨_, _, relinked⟩ := (stays page).relinked
    rw [relinked]
    exact ⟨rfl, rfl⟩
  · obtain ⟨_, _, wf⟩ := wf
    obtain ⟨_, _, wf'⟩ := wf'
    have blank := wf.blank x page
    have blank' := wf'.blank x fun page' => page (inUse.mp page')
    exact ⟨blank'.free.trans blank.free.symm, blank'.localFree.trans blank.localFree.symm⟩

/-- The lists in the header of a page are changed. -/
theorem Relisted.modifyPage (call : ListCall) {f : Page → Page}
    (ready : call.Ready (State.lists ⟨l, sh⟩)) (noHeap : call.heap? = none)
    (delays : ∀ delay, call.delay delay = delay)
    (eq : call.lists (State.lists ⟨l, sh⟩) = update (update (State.lists ⟨l, sh⟩) (.free a)
      (f (l.pages a)).free) (.localFree a) (f (l.pages a)).localFree)
    (words : sh'.xthreadFree = sh.xthreadFree)
    (delayed : sh'.threadDelayedFree = sh.threadDelayedFree) :
    Relisted ⟨l, sh⟩ ⟨l.modifyPage a f, sh'⟩ := by
  have header : (l.modifyPage a f).pages a = f (l.pages a) := if_pos rfl
  refine .one (a := a) call ready noHeap (fun name notFree notLocal => ?_) delays
    (fun x differs => ?_) rfl words
    delayed ?_ ?_
  · rw [eq, update_of_ne notLocal, update_of_ne notFree]
  · rw [Local.modifyPage_pages, if_neg differs]
    exact ⟨rfl, rfl⟩
  · rw [header, eq, update_of_ne (localFree_ne_free a).symm, update_self]
  · rw [header, eq, update_self]

/-- The local free list becomes the free list. -/
theorem Relisted.swap (l : Local) (sh : Shared) (a : Nat) : Relisted ⟨l, sh⟩
    ⟨l.modifyPage a fun p => { p with free := p.localFree, localFree := [] }, sh⟩ :=
  .modifyPage (.swap a) trivial rfl (fun _ => rfl) rfl rfl rfl

/-- The local free list goes in front of the free list. -/
theorem Relisted.append (l : Local) (sh : Shared) (a : Nat) : Relisted ⟨l, sh⟩
    ⟨l.modifyPage a fun p => { p with free := p.localFree ++ p.free, localFree := [] }, sh⟩ :=
  .modifyPage (.append a) trivial rfl (fun _ => rfl) rfl rfl rfl

/-- A block is popped from the free list. -/
theorem Relisted.popBlock {rest : List Nat} (free : (l.pages a).free = p :: rest) {f : Page → Page}
    (popped : (f (l.pages a)).free = rest) (localFree : (f (l.pages a)).localFree = (l.pages a).localFree)
    (words : sh'.xthreadFree = sh.xthreadFree)
    (delayed : sh'.threadDelayedFree = sh.threadDelayedFree) :
    Relisted ⟨l, sh⟩ ⟨l.modifyPage a f, sh'⟩ := by
  refine .modifyPage (.popBlock a) ?_ rfl (fun _ => rfl) ?_ words delayed
  · show (l.pages a).free ≠ []
    rw [free]
    exact List.cons_ne_nil _ _
  · have tail : (State.lists ⟨l, sh⟩ (.free a)).tail = rest := congrArg List.tail free
    have same : update (State.lists ⟨l, sh⟩) (.free a) rest (.localFree a) = (l.pages a).localFree :=
      update_of_ne (localFree_ne_free a) _ _
    rw [popped, localFree, ← same, update_eq_self, ← tail]
    rfl

/-- The word of a page that is not in use is disabled. -/
theorem Relisted.disable (unused : sh.xthreadFree a = { list := [], delay := .useDelayedFree })
    (agree : ListsAgree l l') : Relisted ⟨l, sh⟩ ⟨l', sh⟩ := by
  obtain ⟨_, _, lists, delays⟩ : RelistedBy .nothing ⟨l, sh⟩ ⟨l', sh⟩ := .same agree rfl rfl
  have noBlocks : State.lists ⟨l, sh⟩ (.threadFree a) = [] := congrArg ThreadFree.list unused
  have useDelayed : State.delay ⟨l, sh⟩ a = .useDelayedFree := congrArg ThreadFree.delay unused
  refine ⟨.disable a, trivial, fun _ none => (by cases none), lists.trans ?_, delays.trans ?_⟩
  · exact (update_eq_self_iff.mpr noBlocks.symm).symm
  · exact (update_eq_self_iff.mpr useDelayed.symm).symm

/-- A call that moves blocks between lists, list by list. -/
theorem Relisted.intro (call : ListCall) (ready : call.Ready (State.lists ⟨l, sh⟩))
    (heap : ∀ heap, call.heap? = some heap → heap = l.heap.heapPtr)
    (free : ∀ x, (l'.pages x).free = call.lists (State.lists ⟨l, sh⟩) (.free x))
    (localFree : ∀ x, (l'.pages x).localFree = call.lists (State.lists ⟨l, sh⟩) (.localFree x))
    (threadFree : ∀ x, (sh'.xthreadFree x).list = call.lists (State.lists ⟨l, sh⟩) (.threadFree x))
    (delayed : ∀ x, sh'.threadDelayedFree x = call.lists (State.lists ⟨l, sh⟩) (.delayed x))
    (taken : l'.taken = call.lists (State.lists ⟨l, sh⟩) .taken)
    (delay : ∀ x, (sh'.xthreadFree x).delay = call.delay (State.delay ⟨l, sh⟩) x) :
    Relisted ⟨l, sh⟩ ⟨l', sh'⟩ := by
  refine ⟨call, ready, heap, funext fun name => ?_, funext delay⟩
  cases name with
  | free x => exact free x
  | localFree x => exact localFree x
  | threadFree x => exact threadFree x
  | delayed x => exact delayed x
  | taken => exact taken

/-- The remotely freed blocks of a page are collected. -/
theorem Relisted.collect (others : ∀ x, x ≠ a → l'.pages x = l.pages x)
    (free : (l'.pages a).free = (l.pages a).free)
    (localFree : (l'.pages a).localFree = (sh.xthreadFree a).list ++ (l.pages a).localFree)
    (taken : l'.taken = l.taken) (delayed : sh'.threadDelayedFree = sh.threadDelayedFree)
    (words : ∀ x, sh'.xthreadFree x =
      if x = a then { sh.xthreadFree a with list := [] } else sh.xthreadFree x) :
    Relisted ⟨l, sh⟩ ⟨l', sh'⟩ := by
  refine .intro (.collect a) trivial (fun _ none => by cases none) (fun x => ?_) (fun x => ?_) (fun x => ?_)
    (fun x => ?_) ?_ fun x => ?_ <;>
    simp only [ListCall.lists, ListCall.delay, update_apply, State.lists, State.delay, reduceCtorEq, if_false,
      ListName.localFree.injEq, ListName.threadFree.injEq, words, delayed, taken]
  · by_cases same : x = a
    · rw [same, free]
    · rw [others x same]
  · by_cases same : x = a
    · rw [if_pos same, same, localFree]
    · rw [if_neg same, others x same]
  · by_cases same : x = a
    · rw [if_pos same, if_pos same]
    · rw [if_neg same, if_neg same]
  · by_cases same : x = a
    · rw [if_pos same, same]
    · rw [if_neg same]

/-- A delay state changes. -/
theorem Relisted.setDelay (agree : ListsAgree l l') (new : DelayState)
    (delayed : sh'.threadDelayedFree = sh.threadDelayedFree) (words : ∀ x, sh'.xthreadFree x =
      if x = a then { sh.xthreadFree a with delay := new } else sh.xthreadFree x) :
    Relisted ⟨l, sh⟩ ⟨l', sh'⟩ := by
  refine .intro (.setDelay a new) trivial (fun _ none => by cases none) agree.free agree.localFree (fun x => ?_)
    (fun x => congrFun delayed x) agree.taken fun x => ?_
  · rw [words]
    by_cases same : x = a
    · rw [if_pos same, same]
      rfl
    · rw [if_neg same]
      rfl
  · rw [words, ListCall.delay, update_apply]
    split <;> rfl

/-- The delayed list is empty: the owner's list is a new one. -/
theorem Relisted.takeNone (taken : l.taken = []) : Relisted ⟨l, sh⟩ ⟨l, sh⟩ := by
  obtain ⟨_, _, lists, delays⟩ : RelistedBy .nothing ⟨l, sh⟩ ⟨l, sh⟩ :=
    .same (.of_pages rfl rfl) rfl rfl
  have noBlocks : State.lists ⟨l, sh⟩ .taken = [] := taken
  refine ⟨.takeNone, trivial, fun _ none => (by cases none), lists.trans ?_, delays⟩
  exact (update_eq_self_iff.mpr noBlocks.symm).symm

/-- The owner takes the delayed list of a heap. -/
theorem Relisted.take (pages : l'.pages = l.pages) (words : sh'.xthreadFree = sh.xthreadFree)
    (taken : l'.taken = sh.threadDelayedFree l.heap.heapPtr)
    (delayed : ∀ x, sh'.threadDelayedFree x =
      if x = l.heap.heapPtr then [] else sh.threadDelayedFree x) : Relisted ⟨l, sh⟩ ⟨l', sh'⟩ := by
  refine .intro (.take l.heap.heapPtr) trivial (fun _ same => (Option.some.inj same).symm)
    (fun x => by rw [pages]; rfl) (fun x => by rw [pages]; rfl) (fun x => by rw [words]; rfl) (fun x => ?_) taken
    fun x => by rw [words]; rfl
  rw [delayed, ListCall.lists, update_apply]
  simp only [ListName.delayed.injEq]
  rfl

/-- The owner takes the next block of the list that it took. -/
theorem Relisted.popTaken {rest : List Nat} (taken : l.taken = p :: rest) (pages : l'.pages = l.pages)
    (popped : l'.taken = rest) : Relisted ⟨l, sh⟩ ⟨l', sh⟩ := by
  refine .intro .popTaken ?_ (fun _ none => by cases none) (fun x => by rw [pages]; rfl)
    (fun x => by rw [pages]; rfl) (fun _ => rfl) (fun _ => rfl) ?_ fun _ => rfl
  · show l.taken ≠ []
    rw [taken]
    exact List.cons_ne_nil _ _
  · rw [popped]
    exact (congrArg List.tail taken).symm

/-- A block goes to the delayed list of a heap. -/
theorem Relisted.insertDelayed (agree : ListsAgree l l')
    (words : sh'.xthreadFree = sh.xthreadFree) (delayed : ∀ x, sh'.threadDelayedFree x =
      if x = l.heap.heapPtr then p :: sh.threadDelayedFree l.heap.heapPtr
      else sh.threadDelayedFree x) : Relisted ⟨l, sh⟩ ⟨l', sh'⟩ := by
  refine .intro (.insertDelayed l.heap.heapPtr p) trivial (fun _ same => (Option.some.inj same).symm) agree.free
    agree.localFree (fun x => by rw [words]; rfl) (fun x => ?_) agree.taken fun x => by rw [words]; rfl
  rw [delayed, ListCall.lists, update_apply]
  simp only [ListName.delayed.injEq]
  rfl

/-- The blocks of a page from one of them on. -/
theorem newBlocks_eq (l : Local) (a k n : Nat) : newBlocks (blockAt l a k) (l.pages a).xblockSize n =
    (List.range n).map fun i => blockAt l a (k + i) := by
  refine List.map_congr_left fun i _ => ?_
  rw [blockAt, blockAt, calculatePageBlockAt, calculatePageBlockAt, Nat.mul_add,
    Nat.mul_comm i, Nat.add_assoc]

/-- New blocks of a page may be prepended. -/
theorem Wf.ready_extend {k n : Nat} (wf : Wf l) (page : InUse l a) (positive : 1 ≤ n)
    (capacity : (l.pages a).capacity = k + n) (before : ListName → List Nat) :
    (ListCall.extend a (blockAt l a k) (l.pages a).xblockSize n).Ready before := by
  obtain ⟨⟨r, j, c, place⟩, ok⟩ := wf.page page
  have inside : ∀ i < n, blockAt l a (k + i) ∈ blocksOf l a := fun i small =>
    mem_blocksOf.mpr ⟨k + i, by omega, rfl⟩
  have first := (wf.of_mem_blocksOf page (inside 0 (by omega))).2.1
  obtain ⟨_, upper, _⟩ := place.of_mem_blocksOf ok (inside (n - 1) (by omega))
  have bound := place.inside
  have base := place.base.2.2
  have large := ok.size_bounds.1
  simp only [segmentSize] at base
  have last : blockAt l a (k + (n - 1)) + (l.pages a).xblockSize =
      blockAt l a k + n * (l.pages a).xblockSize := by
    obtain ⟨m, rfl⟩ : ∃ m, n = m + 1 := ⟨n - 1, by omega⟩
    rw [place.blockAt_eq, place.blockAt_eq, Nat.add_sub_cancel]
    ring
  exact ⟨positive, large, by rw [Nat.add_zero] at first; omega, by omega⟩

end VerusMimalloc
