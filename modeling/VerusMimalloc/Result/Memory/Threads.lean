/-
**Freeing threads in memory.**

* `InMemory`: the memory holds the lists of a state, and the threads that have written their next pointer find
  it there;
* `MemStep.remote`: a step of a thread on the memory is a step of `free_block_mt` on the lists, or no step;
* `MemStep.inMemory`: the memory still holds the lists: a compare-exchange succeeds only where the next pointer
  that was written is the first block, also when the list has changed in between;
* `MemStep.untouched`: no live block is written.
-/

import VerusMimalloc.Result.Memory.Blocks

namespace VerusMimalloc

open Library Function

variable {l : Local} {sh : Shared} {s : State} {m m' : Mem} {move : ThreadMove} {a p page ptr heap next : Nat}
  {before after : List MemFree} {t t' u : MemFree} {mask : BitVec 64}

/-! ### The threads of the lists -/

/-- Where the call stands, for the lists: the next pointer is written with the compare-exchange. -/
def MemPc.view : MemPc → Pc
  | .top => .top
  | .loaded mask | .linked mask => .loaded mask.toNat
  | .freeing => .freeing
  | .gotHeap heap => .gotHeap heap
  | .inserting heap next | .linkedDelayed heap next => .inserting heap next
  | .pushed => .pushed

/-- The call, for the lists. -/
def MemFree.view (t : MemFree) : RemoteFree := { page := t.page, ptr := t.ptr, pc := t.pc.view }

/-- What the step makes of the shared state, on sequences. -/
def ThreadMove.shared (move : ThreadMove) (sh : Shared) (threads : List RemoteFree) : Shared :=
  match move with
  | .quiet => { sh with threads }
  | .freeing page => { sh with
      xthreadFree := fun a =>
        if a = page then { sh.xthreadFree page with delay := .freeing } else sh.xthreadFree a
      threads }
  | .push page ptr => { sh with
      xthreadFree := fun a =>
        if a = page then { sh.xthreadFree page with list := ptr :: (sh.xthreadFree page).list }
        else sh.xthreadFree a
      threads }
  | .pushDelayed heap ptr => { sh with
      threadDelayedFree := fun a =>
        if a = heap then ptr :: sh.threadDelayedFree heap else sh.threadDelayedFree a
      threads }
  | .leave page => { sh with
      xthreadFree := fun a =>
        if a = page then { sh.xthreadFree page with delay := (sh.xthreadFree page).delay.xorThree }
        else sh.xthreadFree a
      threads }

/-! ### States in memory -/

/-- What a thread has read, or written to its block, is what it says. -/
def MemFree.Linked (mem : Bytes) (t : MemFree) : Prop :=
  match t.pc with
  | .linked mask => maskedPtrDelayGetIsUseDelayed mask = false ∧
      readNode mem t.ptr = (maskedPtrDelayGetPtr mask).toNat
  | .inserting _ next => next < 2 ^ 64
  | .linkedDelayed _ next => readNode mem t.ptr = next
  | _ => True

/-- **The memory holds the state.** -/
structure InMemory (s : State) (m : Mem) : Prop where
  holds : m.Holds s.lists s.delay
  threads : s.sh.threads = m.threads.map MemFree.view
  linked : ∀ t ∈ m.threads, t.Linked m.bytes

/-- No live block is written. -/
def Untouched (s : State) (mem mem' : Bytes) : Prop :=
  ∀ p size, (p, size) ∈ s.sh.live → ∀ a, p ≤ a → a < p + size → mem' a = mem a

/-- What a thread has written stays if its block does. -/
theorem MemFree.Linked.congr {mem mem' : Bytes} (linked : t.Linked mem)
    (same : t.view.pc ≠ .pushed → readNode mem' t.ptr = readNode mem t.ptr) : t.Linked mem' := by
  obtain ⟨page, ptr, pc⟩ := t
  cases pc with
  | linked mask => exact ⟨linked.1, (same (by simp [MemFree.view, MemPc.view])).trans linked.2⟩
  | linkedDelayed heap next => exact (same (by simp [MemFree.view, MemPc.view])).trans linked
  | _ => exact linked

theorem isUseDelayed_iff (v : BitVec 64) : maskedPtrDelayGetIsUseDelayed v = true ↔ v.toNat % 4 = 0 := by
  rw [maskedPtrDelayGetIsUseDelayed, beq_iff_eq, ← BitVec.toNat_inj, BitVec.toNat_umod]
  rfl

/-! ### Blocks of threads -/

/-- A thread holds its block until it has pushed it. -/
theorem mem_thread {u : RemoteFree} (member : u ∈ s.sh.threads) (held : u.pc ≠ .pushed) :
    u.ptr ∈ blocksIn s a .thread := by
  refine List.mem_append.mpr ?_
  cases early : u.pc.early with
  | true => exact .inl (mem_blocksAt member early)
  | false =>
      refine .inr (mem_blocksAt member ?_)
      cases pc : u.pc <;> rw [pc] at early held <;> first | rfl | exact absurd rfl held | cases early

/-- No other thread holds the block of a thread. -/
theorem Core.thread_ptr_ne {front back : List RemoteFree} {t u : RemoteFree} (inv : Core ⟨l, sh⟩)
    (shape : sh.threads = front ++ t :: back) (held : t.pc ≠ .pushed) (member : u ∈ front ++ back)
    (held' : u.pc ≠ .pushed) : u.ptr ≠ t.ptr := by
  intro same
  have once := inv.outside_le t.ptr
  have other : t.ptr ∈ blocksIn ⟨l, { sh with threads := front ++ back }⟩ t.page .thread :=
    same ▸ mem_thread (s := ⟨l, { sh with threads := front ++ back }⟩) member held'
  have more := List.count_pos_iff.mpr other
  have this : t.ptr ∈ blocksIn ⟨l, { sh with threads := [t] }⟩ t.page .thread :=
    mem_thread (s := ⟨l, { sh with threads := [t] }⟩) (List.mem_singleton.mpr rfl) held
  have one := List.count_pos_iff.mpr this
  simp only [blocksIn, List.count_append, blocksAt_append] at more one
  simp only [outside, delayedBlocks, directBlocks, shape, List.count_append, blocksAt_append, blocksAt_cons]
    at once
  simp only [blocksAt_cons, List.count_append] at one
  have none : ∀ kind, (blocksAt kind []).count t.ptr = 0 := fun _ => rfl
  rw [none, none] at one
  omega

/-! ### Steps that change no list -/

/-- A property of all threads, where one of them has moved. -/
theorem forall_moved {P : MemFree → Prop} (others : ∀ u ∈ before ++ after, P u) (here : P t') :
    ∀ u ∈ before ++ t' :: after, P u := by
  intro u member
  rcases List.mem_append.mp member with front | back
  · exact others u (List.mem_append_left _ front)
  · rcases List.mem_cons.mp back with rfl | back
    · exact here
    · exact others u (List.mem_append_right _ back)

section Step

variable (inv : Core ⟨l, sh⟩) (one : OneHeap ⟨l, sh⟩) (memory : InMemory ⟨l, sh⟩ m)
include memory

/-- Threads move. -/
theorem InMemory.advance {threads : List MemFree} (linked : ∀ u ∈ threads, u.Linked m.bytes) :
    InMemory ⟨l, { sh with threads := threads.map MemFree.view }⟩ { m with threads } :=
  ⟨⟨memory.holds.blocks, memory.holds.words⟩, rfl, linked⟩

variable (shape : m.threads = before ++ t :: after)
include shape

/-- The threads of the lists. -/
theorem InMemory.threads_eq : sh.threads = before.map MemFree.view ++ t.view :: after.map MemFree.view := by
  rw [← List.map_cons, ← List.map_append, ← shape]
  exact memory.threads

theorem InMemory.mem_view : t.view ∈ sh.threads := by
  rw [memory.threads_eq shape]
  exact List.mem_append_right _ List.mem_cons_self

theorem InMemory.linked_here : t.Linked m.bytes := by
  refine memory.linked t ?_
  rw [shape]
  exact List.mem_append_right _ List.mem_cons_self

/-- The other threads. -/
theorem InMemory.others : ∀ u ∈ before ++ after, u ∈ m.threads ∧ u.Linked m.bytes := by
  intro u member
  have inThreads : u ∈ m.threads := by
    rw [shape]
    exact (List.mem_append.mp member).elim (List.mem_append_left _)
      fun back => List.mem_append_right _ (List.mem_cons_of_mem _ back)
  exact ⟨inThreads, memory.linked u inThreads⟩

include inv

/-- The block of a thread. -/
theorem InMemory.thread_block (held : t.view.pc ≠ .pushed) :
    (∀ a, t.ptr ∈ blocksIn ⟨l, sh⟩ a .thread) ∧ Known l t.ptr := by
  have inThread : ∀ a, t.ptr ∈ blocksIn ⟨l, sh⟩ a .thread := fun a =>
    mem_thread (s := ⟨l, sh⟩) (memory.mem_view shape) held
  exact ⟨inThread, inv.known_of_loose (.inr (inThread _))⟩

include one

/-- The block of a thread is apart from the lists. -/
theorem InMemory.thread_apart (held : t.view.pc ≠ .pushed) (name : ListName) :
    ∀ x ∈ State.lists ⟨l, sh⟩ name, LL.NodesApart t.ptr x := by
  intro x onList
  obtain ⟨inThread, known⟩ := memory.thread_block inv shape held
  have apart : Apart t.ptr (blockSizeOf l t.ptr) x (blockSizeOf l x) :=
    inv.loose_apart one (.inr (inThread _)) onList
  have room : 8 ≤ blockSizeOf l t.ptr := (inv.wf.known_inside known).2.2.1
  have room' : 8 ≤ blockSizeOf l x := (inv.wf.known_inside (inv.listed one onList).known).2.2.1
  simp only [Apart] at apart
  exact apart.imp (by omega) (by omega)

/-- **A thread writes to its block.** -/
theorem InMemory.write {v : Nat} (held : t.view.pc ≠ .pushed)
    (linked : t'.Linked (writeNode m.bytes t.ptr v)) :
    InMemory ⟨l, { sh with threads := (before ++ t' :: after).map MemFree.view }⟩
        { m with bytes := writeNode m.bytes t.ptr v, threads := before ++ t' :: after } ∧
      Untouched ⟨l, sh⟩ m.bytes (writeNode m.bytes t.ptr v) := by
  obtain ⟨inThread, known⟩ := memory.thread_block inv shape held
  have room : 8 ≤ blockSizeOf l t.ptr := (inv.wf.known_inside known).2.2.1
  have others : ∀ u ∈ before ++ after, u.Linked (writeNode m.bytes t.ptr v) := fun u inOthers => by
    obtain ⟨inThreads, linked⟩ := memory.others shape u inOthers
    refine linked.congr fun held' => LL.readNode_writeNode_apart ?_
    have differs := inv.thread_ptr_ne (memory.threads_eq shape) held (u := u.view) (by
      rw [← List.map_append]
      exact List.mem_map_of_mem inOthers) held'
    have inView : u.view ∈ sh.threads := by
      rw [show sh.threads = _ from memory.threads]
      exact List.mem_map_of_mem inThreads
    have known' : Known l u.ptr := inv.known_of_loose (s := ⟨l, sh⟩) (.inr (mem_thread inView held'))
    exact inv.wf.nodesApart known known' (Ne.symm differs)
  refine ⟨⟨⟨memory.holds.blocks.frame LL.onlyNodes_write fun name y isPtr => ?_, memory.holds.words⟩, rfl,
    forall_moved others linked⟩, fun p size live b lower upper => Bytes.write_apart ?_⟩
  · obtain rfl := List.mem_singleton.mp isPtr
    exact memory.thread_apart inv one shape held name
  · have live' := inv.known_of_live live
    have apart : Apart t.ptr (blockSizeOf l t.ptr) p (blockSizeOf l p) :=
      inv.places_apart known live'.1 (inThread _) (mem_live live) (by simp)
    have fits : size ≤ blockSizeOf l p := live'.2
    simp only [Apart] at apart
    omega

end Step

/-! ### Steps on the heads -/

section Heads

variable {threads : List MemFree} {word : BitVec 64} {new : DelayState}

theorem lists_setDelay (threads : List RemoteFree) (page : Nat) (new : DelayState) :
    State.lists ⟨l, { sh with
      xthreadFree := fun a =>
        if a = page then { sh.xthreadFree page with delay := new } else sh.xthreadFree a
      threads }⟩ = State.lists ⟨l, sh⟩ := by
  funext name
  cases name with
  | threadFree a =>
      simp only [State.lists]
      split
      · rename_i same
        rw [same]
      · rfl
  | _ => rfl

theorem lists_push (threads : List RemoteFree) (page ptr : Nat) :
    State.lists ⟨l, { sh with
      xthreadFree := fun a =>
        if a = page then { sh.xthreadFree page with list := ptr :: (sh.xthreadFree page).list }
        else sh.xthreadFree a
      threads }⟩ =
      update (State.lists ⟨l, sh⟩) (.threadFree page) (ptr :: State.lists ⟨l, sh⟩ (.threadFree page)) := by
  funext name
  cases name with
  | threadFree a =>
      simp only [State.lists, update_apply, ListName.threadFree.injEq]
      split <;> rfl
  | _ => exact (update_of_ne (by simp) _ _).symm

theorem lists_pushDelayed (threads : List RemoteFree) (heap ptr : Nat) :
    State.lists ⟨l, { sh with
      threadDelayedFree := fun a =>
        if a = heap then ptr :: sh.threadDelayedFree heap else sh.threadDelayedFree a
      threads }⟩ =
      update (State.lists ⟨l, sh⟩) (.delayed heap) (ptr :: State.lists ⟨l, sh⟩ (.delayed heap)) := by
  funext name
  cases name with
  | delayed a => simp only [State.lists, update_apply, ListName.delayed.injEq]
  | _ => exact (update_of_ne (by simp) _ _).symm

variable (memory : InMemory ⟨l, sh⟩ m) (linked : ∀ u ∈ threads, u.Linked m.bytes)
include memory linked

/-- The delay state of a page changes. -/
theorem InMemory.setDelay (here : word =
      BitVec.ofNat 64 { list := (sh.xthreadFree page).list, delay := new : ThreadFree }.word) :
    InMemory ⟨l, { sh with
        xthreadFree := fun a =>
          if a = page then { sh.xthreadFree page with delay := new } else sh.xthreadFree a
        threads := threads.map MemFree.view }⟩
      { m with xthreadFree := update m.xthreadFree page word, threads } := by
  have holds : Mem.Holds _ (State.lists ⟨l, sh⟩) (update (State.delay ⟨l, sh⟩) page new) :=
    memory.holds.setWord here
  refine ⟨?_, rfl, linked⟩
  have delays : State.delay ⟨l, { sh with
      xthreadFree := fun a =>
        if a = page then { sh.xthreadFree page with delay := new } else sh.xthreadFree a
      threads := threads.map MemFree.view }⟩ = update (State.delay ⟨l, sh⟩) page new := by
    funext x
    simp only [State.delay, update_apply]
    split <;> rfl
  rw [lists_setDelay, delays]
  exact ⟨holds.blocks, holds.words⟩

end Heads

section Pushes

variable (inv : Core ⟨l, sh⟩) (one : OneHeap ⟨l, sh⟩) (memory : InMemory ⟨l, sh⟩ m)
include inv one memory

/-- **The compare-exchange of `free_block_mt`.** The pointer that the thread has written is the first block now,
whatever has happened to the list in between. -/
theorem InMemory.casPush (shape : m.threads = before ++ { page, ptr, pc := .linked mask } :: after)
    (same : m.xthreadFree page = mask) :
    InMemory ⟨l, (ThreadMove.push page ptr).shared sh ((before ++ after).map MemFree.view)⟩ { m with
      xthreadFree := update m.xthreadFree page (maskedPtrDelaySetPtr mask (BitVec.ofNat 64 ptr))
      threads := before ++ after } := by
  subst same
  have held : (MemFree.view ⟨page, ptr, .linked (m.xthreadFree page)⟩).pc ≠ .pushed := by
    simp [MemFree.view, MemPc.view]
  obtain ⟨_, first⟩ := memory.linked_here shape
  obtain ⟨nonzero, aligned, room, inside⟩ := inv.wf.known_inside (memory.thread_block inv shape held).2
  simp only at nonzero aligned inside
  have small : (BitVec.ofNat 64 ptr).toNat = ptr := (BitVec.toNat_ofNat _ _).trans (Nat.mod_eq_of_lt (by omega))
  have fits : 4 ∣ (BitVec.ofNat 64 ptr).toNat := by
    rw [small]
    exact dvd_trans (by decide) aligned
  have word := (threadFree_edits (sh.xthreadFree page) (memory.holds.aligned page)).1 ptr fits
  have here : m.xthreadFree page = BitVec.ofNat 64 (sh.xthreadFree page).word := memory.holds.words page
  rw [← here] at word
  have linked := memory.holds.blocks.link (i := .threadFree page) first nonzero (by simp only at room; omega)
    (memory.thread_apart inv one shape held _)
  refine ⟨⟨?_, ?_⟩, rfl, fun u member => (memory.others shape u member).2⟩
  · show LL.Holds m.bytes (Mem.first _) (State.lists ⟨l, { sh with
      xthreadFree := fun a =>
        if a = page then { sh.xthreadFree page with list := ptr :: (sh.xthreadFree page).list }
        else sh.xthreadFree a
      threads := (before ++ after).map MemFree.view }⟩)
    rw [lists_push, first_threadFree { m with threads := before ++ after } m.bytes, word,
      getPtr_word (t := ⟨ptr :: _, _⟩) fits, List.headD_cons, small]
    exact linked
  · refine memory.holds.words_update ?_ fun x differs => ⟨?_, ?_⟩
    · simp only [ThreadMove.shared, State.lists, State.delay, if_true]
      exact word
    · simp only [ThreadMove.shared, State.lists, if_neg differs]
    · simp only [ThreadMove.shared, State.delay, if_neg differs]

/-- The compare-exchange of `atomic_insert_block`. -/
theorem InMemory.delayedCasPush
    (shape : m.threads = before ++ { page, ptr, pc := .linkedDelayed heap next } :: after)
    (same : m.threadDelayedFree heap = next) :
    InMemory ⟨l, (ThreadMove.pushDelayed heap ptr).shared sh
        ((before ++ { page, ptr, pc := .pushed } :: after).map MemFree.view)⟩
      { m with
        threadDelayedFree := update m.threadDelayedFree heap ptr
        threads := before ++ { page, ptr, pc := .pushed } :: after } := by
  subst same
  have held :
      (MemFree.view ⟨page, ptr, .linkedDelayed heap (m.threadDelayedFree heap)⟩).pc ≠ .pushed := by
    simp [MemFree.view, MemPc.view]
  have first : readNode m.bytes ptr = m.threadDelayedFree heap := memory.linked_here shape
  obtain ⟨nonzero, _, room, inside⟩ := inv.wf.known_inside (memory.thread_block inv shape held).2
  have linked := memory.holds.blocks.link (i := .delayed heap) first nonzero
    (by simp only at room inside ⊢; omega)
    (memory.thread_apart inv one shape held _)
  refine ⟨⟨?_, memory.holds.words⟩, rfl,
    forall_moved (fun u member => (memory.others shape u member).2) trivial⟩
  show LL.Holds m.bytes (Mem.first _) (State.lists ⟨l, { sh with
      threadDelayedFree := fun a =>
        if a = heap then ptr :: sh.threadDelayedFree heap else sh.threadDelayedFree a
      threads := (before ++ { page, ptr, pc := .pushed } :: after).map MemFree.view }⟩)
  rw [lists_pushDelayed,
    first_delayed { m with threads := before ++ { page, ptr, pc := .pushed } :: after } m.bytes]
  exact linked

end Pushes

/-! ### Every step -/

theorem Untouched.refl (mem : Bytes) : Untouched s mem mem := fun _ _ _ _ _ _ => rfl

/-- A word fits into 64 bits. -/
theorem InMemory.word_eq (inv : Core s) (memory : InMemory s m) (page : Nat) :
    (m.xthreadFree page).toNat = (s.sh.xthreadFree page).word := by
  have word : m.xthreadFree page = BitVec.ofNat 64 (s.sh.xthreadFree page).word := memory.holds.words page
  rw [word, BitVec.toNat_ofNat]
  refine Nat.mod_eq_of_lt ?_
  have small : (s.sh.xthreadFree page).delay.toNat < 4 := by cases (s.sh.xthreadFree page).delay <;> decide
  rw [ThreadFree.word]
  cases list : (s.sh.xthreadFree page).list with
  | nil =>
      rw [List.headD_nil]
      omega
  | cons p rest =>
      obtain ⟨inUse, inside⟩ := inv.of_mem_list (a := page) (p := p) (list ▸ List.mem_cons_self)
      have onPage := (inv.wf.of_mem_blocksOf inUse inside).2.2
      have known : Known s.loc p := ⟨by rw [onPage]; exact inUse, by rw [onPage]; exact inside⟩
      obtain ⟨_, _, room, bound⟩ := inv.wf.known_inside known
      rw [List.headD_cons]
      omega

section Every

variable (inv : Inv ⟨l, sh⟩) (memory : InMemory ⟨l, sh⟩ m)
include inv memory

/-- **A step on the memory is a step on the lists**, or it changes nothing there. -/
theorem MemStep.remote (step : MemStep l m move m') :
    RemoteStep l sh (move.shared sh (m'.threads.map MemFree.view)) ∨
      move.shared sh (m'.threads.map MemFree.view) = sh := by
  have word : ∀ page, (m.xthreadFree page).toNat = (sh.xthreadFree page).word := memory.word_eq inv.toCore
  have head : ∀ heap, m.threadDelayedFree heap = (sh.threadDelayedFree heap).headD 0 := fun heap =>
    memory.holds.blocks.first_eq (.delayed heap)
  cases step with
  | load before after page ptr shape =>
      have step := RemoteStep.load (l := l) sh _ _ page ptr (memory.threads_eq shape)
      rw [← word] at step
      simp only [ThreadMove.shared, List.map_append, List.map_cons]
      exact .inl step
  | link before after page ptr mask shape notUse =>
      refine .inr ?_
      simp only [ThreadMove.shared, List.map_append, List.map_cons]
      exact congrArg (fun threads => { sh with threads }) (memory.threads_eq shape).symm
  | casFreeingFail before after page ptr mask shape use =>
      have step := RemoteStep.casFail (l := l) sh _ _ page ptr mask.toNat (memory.threads_eq shape)
      simp only [ThreadMove.shared, List.map_append, List.map_cons]
      exact .inl step
  | casFreeing before after page ptr mask shape use same =>
      have step := RemoteStep.casFreeing (l := l) sh _ _ page ptr mask.toNat (memory.threads_eq shape)
        (by rw [← word, same]) ((isUseDelayed_iff mask).mp use)
      simp only [ThreadMove.shared, List.map_append, List.map_cons]
      exact .inl step
  | casFail before after page ptr mask shape =>
      have step := RemoteStep.casFail (l := l) sh _ _ page ptr mask.toNat (memory.threads_eq shape)
      simp only [ThreadMove.shared, List.map_append, List.map_cons]
      exact .inl step
  | casPush before after page ptr mask shape same =>
      have notUse := (memory.linked_here shape).1
      have low : mask.toNat % 4 ≠ 0 := fun zero => by
        rw [(isUseDelayed_iff mask).mpr zero] at notUse
        cases notUse
      have step := RemoteStep.casPush (l := l) sh _ _ page ptr mask.toNat (memory.threads_eq shape)
        (by rw [← word, same]) low
      simp only [ThreadMove.shared, List.map_append]
      exact .inl step
  | loadHeap before after page ptr shape =>
      have step := RemoteStep.loadHeap (l := l) sh _ _ page ptr (memory.threads_eq shape)
      simp only [ThreadMove.shared, List.map_append, List.map_cons]
      exact .inl step
  | delayedLoad before after page ptr heap shape =>
      have step := RemoteStep.delayedLoad (l := l) sh _ _ page ptr heap (memory.threads_eq shape)
      rw [← head] at step
      simp only [ThreadMove.shared, List.map_append, List.map_cons]
      exact .inl step
  | delayedLink before after page ptr heap next shape =>
      refine .inr ?_
      simp only [ThreadMove.shared, List.map_append, List.map_cons]
      exact congrArg (fun threads => { sh with threads }) (memory.threads_eq shape).symm
  | delayedCasFail before after page ptr heap next shape =>
      have step := RemoteStep.delayedCasFail (l := l) sh _ _ page ptr heap next (memory.threads_eq shape)
      simp only [ThreadMove.shared, List.map_append, List.map_cons]
      exact .inl step
  | delayedCasPush before after page ptr heap next shape same =>
      have step := RemoteStep.delayedCasPush (l := l) sh _ _ page ptr heap next (memory.threads_eq shape)
        (by rw [← head, same])
      simp only [ThreadMove.shared, List.map_append, List.map_cons]
      exact .inl step
  | leave before after page ptr shape =>
      have step := RemoteStep.leave (l := l) sh _ _ page ptr (memory.threads_eq shape)
      simp only [ThreadMove.shared, List.map_append]
      exact .inl step

/-- **A step of a thread keeps the lists in memory**, and writes no live block. -/
theorem MemStep.inMemory (one : OneHeap ⟨l, sh⟩) (step : MemStep l m move m') :
    InMemory ⟨l, move.shared sh (m'.threads.map MemFree.view)⟩ m' ∧ Untouched ⟨l, sh⟩ m.bytes m'.bytes := by
  have core := inv.toCore
  have others : ∀ {before after : List MemFree} {t : MemFree}, m.threads = before ++ t :: after →
      ∀ u ∈ before ++ after, u.Linked m.bytes := fun shape u member => (memory.others shape u member).2
  have words : ∀ page, m.xthreadFree page =
      maskedPtrDelay (BitVec.ofNat 64 ((sh.xthreadFree page).list.headD 0)) (sh.xthreadFree page).delay :=
    fun page => (memory.holds.words page).trans (threadFree_word _)
  have aligned : ∀ page, 4 ∣ (BitVec.ofNat 64 ((sh.xthreadFree page).list.headD 0)).toNat :=
    memory.holds.aligned
  cases step with
  | load before after page ptr shape =>
      exact ⟨memory.advance (forall_moved (others shape) trivial), .refl _⟩
  | link before after page ptr mask shape notUse =>
      exact memory.write core one shape (by simp [MemFree.view, MemPc.view])
        ⟨notUse, LL.readNode_writeNode (maskedPtrDelayGetPtr mask).isLt⟩
  | casFreeingFail before after page ptr mask shape use =>
      exact ⟨memory.advance (forall_moved (others shape) trivial), .refl _⟩
  | casFreeing before after page ptr mask shape use same =>
      have word : maskedPtrDelaySetFreeing mask =
          BitVec.ofNat 64 { list := (sh.xthreadFree page).list, delay := .freeing : ThreadFree }.word := by
        rw [← same, words, (edits (aligned page)).setFreeing, threadFree_word]
      exact ⟨memory.setDelay (forall_moved (others shape) trivial) word, .refl _⟩
  | casFail before after page ptr mask shape =>
      exact ⟨memory.advance (forall_moved (others shape) trivial), .refl _⟩
  | casPush before after page ptr mask shape same => exact ⟨memory.casPush core one shape same, .refl _⟩
  | loadHeap before after page ptr shape =>
      exact ⟨memory.advance (forall_moved (others shape) trivial), .refl _⟩
  | delayedLoad before after page ptr heap shape =>
      exact ⟨memory.advance (forall_moved (others shape) (memory.holds.blocks (.delayed heap)).first_lt),
        .refl _⟩
  | delayedLink before after page ptr heap next shape =>
      exact memory.write core one shape (by simp [MemFree.view, MemPc.view])
        (LL.readNode_writeNode (memory.linked_here shape))
  | delayedCasFail before after page ptr heap next shape =>
      exact ⟨memory.advance (forall_moved (others shape) trivial), .refl _⟩
  | delayedCasPush before after page ptr heap next shape same =>
      exact ⟨memory.delayedCasPush core one shape same, .refl _⟩
  | leave before after page ptr shape =>
      have freeing : (sh.xthreadFree page).delay = .freeing := (inv.leave (memory.threads_eq shape)).1
      have word : fetchXorThree (m.xthreadFree page) = BitVec.ofNat 64
          { list := (sh.xthreadFree page).list, delay := (sh.xthreadFree page).delay.xorThree : ThreadFree }.word := by
        rw [words, freeing, (edits (aligned page)).fetchXor rfl, threadFree_word]
        rfl
      exact ⟨memory.setDelay (others shape) word, .refl _⟩

end Every

end VerusMimalloc
