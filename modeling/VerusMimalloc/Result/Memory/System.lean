/-
**The allocator with its memory.**

* `memorySystem`: the owner, the freeing threads and the client, on one memory;
* `MemInv.step`: what every step keeps: the memory holds the lists of a reachable state;
* `MemInv.insert_apart`: a round of the owner's `atomic_insert_block` as two steps;
* `lists_in_memory`: so in every run the owner's next step can be done by the functions of `linked_list.rs`, and
  returns what it returns on sequences;
* `memory_run`: whole calls of the owner that return on sequences return in memory.
-/

import VerusMimalloc.Library.Simulation
import VerusMimalloc.Result.Memory.Threads

namespace VerusMimalloc

open Library Function

/-! ### The system -/

/-- The system with its memory. -/
structure MemSys where
  sys : Sys
  mem : Mem

/-- What the client does to its blocks. -/
inductive MemEvent where
  /-- It writes a byte. -/
  | write (a : Nat) (v : BitVec 8)
  /-- It passes a block to `free`. -/
  | free (ptr : Nat)
  deriving DecidableEq

/-- The bytes after it. -/
def MemEvent.apply (bytes : Bytes) : MemEvent → Bytes
  | .write a v => update bytes a v
  | .free _ => bytes

inductive MemSysStep : MemSys → Option MemEvent → MemSys → Prop where
  /-- `heap_malloc(size)` starts. -/
  | malloc (st : State) (mem : Mem) (fuel size : Nat) : size ≤ mediumObjSizeMax →
      MemSysStep ⟨⟨st, none⟩, mem⟩ none ⟨⟨st, some (call (heapMalloc fuel size))⟩, mem⟩
  /-- `free(ptr)` starts, for a live block. -/
  | free (st : State) (mem : Mem) (fuel ptr size : Nat) (before after : List (Nat × Nat)) :
      st.sh.live = before ++ (ptr, size) :: after →
      MemSysStep ⟨⟨st, none⟩, mem⟩ (some (.free ptr))
        ⟨⟨st.giveBack before after ptr, some (VerusMimalloc.free fuel ptr)⟩, mem⟩
  /-- The owner's next step, with what it does to the lists. -/
  | own (st : State) (mem mem' : Mem) (next : State → State) (rest : State → P Unit) (call : ListCall)
      (fuel result : Nat) : RelistedBy call st (next st) → call.run fuel mem = some (result, mem') →
      MemSysStep ⟨⟨st, some (.step next rest)⟩, mem⟩ none ⟨⟨next st, some (rest st)⟩, mem'⟩
  /-- The owner's call returns. -/
  | finish (st : State) (mem : Mem) : MemSysStep ⟨⟨st, some (.ret ())⟩, mem⟩ none ⟨⟨st, none⟩, mem⟩
  /-- `free(ptr)` by another thread. -/
  | begin (st : State) (owner : Option (P Unit)) (mem : Mem) (ptr size : Nat) (before after : List (Nat × Nat)) :
      st.sh.live = before ++ (ptr, size) :: after →
      MemSysStep ⟨⟨st, owner⟩, mem⟩ (some (.free ptr))
        ⟨⟨{ st with sh := { st.sh with
              live := before ++ after
              threads := { page := pageOfBlock st.loc ptr, ptr, pc := .top } :: st.sh.threads } }, owner⟩,
          { mem with threads := { page := pageOfBlock st.loc ptr, ptr, pc := .top } :: mem.threads }⟩
  /-- A step of a freeing thread. -/
  | thread (st : State) (owner : Option (P Unit)) (mem mem' : Mem) (move : ThreadMove) :
      MemStep st.loc mem move mem' →
      MemSysStep ⟨⟨st, owner⟩, mem⟩ none
        ⟨⟨{ st with sh := move.shared st.sh (mem'.threads.map MemFree.view) }, owner⟩, mem'⟩
  /-- The client writes into a block that it has. -/
  | write (sys : Sys) (mem : Mem) (ptr size a : Nat) (v : BitVec 8) : (ptr, size) ∈ sys.st.sh.live → ptr ≤ a →
      a < ptr + size → MemSysStep ⟨sys, mem⟩ (some (.write a v)) ⟨sys, { mem with bytes := update mem.bytes a v }⟩
  /-- The owner writes headers or the block at hand, or the operating system takes memory back or clears it. -/
  | clobber (sys : Sys) (mem : Mem) (bytes : Bytes) : (∀ a, bytes a ≠ mem.bytes a → Scratch sys.st a) →
      MemSysStep ⟨sys, mem⟩ none ⟨sys, { mem with bytes }⟩

/-- No list has a block. -/
def Mem.fresh (bytes : Bytes) : Mem where
  bytes
  free := fun _ => { first := 0 }
  localFree := fun _ => { first := 0 }
  xthreadFree := fun _ => 0
  threadDelayedFree := fun _ => 0
  ll := { first := 0 }
  threads := []

/-- A freshly initialised heap, and any memory. -/
def memorySystem : System MemSys MemEvent where
  start c := Initial c.sys ∧ ∃ bytes, c.mem = Mem.fresh bytes
  step := MemSysStep

/-- **What every step keeps.** -/
structure MemInv (c : MemSys) : Prop where
  reachable : Reachable c.sys
  oneHeap : OneHeap c.sys.st
  memory : InMemory c.sys.st c.mem

variable {p a : Nat} {c c' : MemSys} {s t : State} {l : Local} {sh sh' : Shared} {m m' : Mem} {bytes : Bytes}
  {call : ListCall} {fuel : Nat} {events : List MemEvent} {event : Option MemEvent}

/-! ### One heap -/

/-- A call on no delayed list of the heap leaves it. -/
theorem ListCall.lists_delayed {heap : Nat} (before : ListName → List Nat) (other : call.heap? ≠ some heap) :
    call.lists before (.delayed heap) = before (.delayed heap) := by
  cases call with
  | take here | insertDelayed here _ =>
      have differs : ListName.delayed heap ≠ .delayed here := fun same => by
        cases same
        exact other rfl
      simp [ListCall.lists, differs]
  | _ => simp [ListCall.lists]

theorem RelistedBy.oneHeap (relisted : RelistedBy call s t) (heapPtr : t.loc.heap.heapPtr = s.loc.heap.heapPtr)
    (one : OneHeap s) : OneHeap t := by
  intro heap other
  rw [heapPtr] at other
  have same := congrFun relisted.lists (.delayed heap)
  rw [ListCall.lists_delayed s.lists fun here => other (relisted.heap heap here)] at same
  exact same.trans (one heap other)

theorem RemoteStep.oneHeap (inv : Core ⟨l, sh⟩) (step : RemoteStep l sh sh') (one : OneHeap ⟨l, sh⟩) :
    OneHeap ⟨l, sh'⟩ := by
  cases step with
  | delayedCasPush before after page ptr heap next shape same =>
      intro other differs
      have known := (inv.protocol.threads ⟨page, ptr, .inserting heap next⟩ (by simp [shape])).heap heap rfl
      have here : ¬other = heap := fun same => differs (same.trans known)
      simp only [if_neg here]
      exact one other differs
  | _ => exact one

/-! ### Bytes outside the lists -/

/-- Bytes that no list and no thread needs. -/
theorem InMemory.withBytes (memory : InMemory s m)
    (listed : ∀ name, ∀ x ∈ s.lists name, readNode bytes x = readNode m.bytes x)
    (held : ∀ u ∈ s.sh.threads, u.pc ≠ .pushed → readNode bytes u.ptr = readNode m.bytes u.ptr) :
    InMemory s { m with bytes } := by
  refine ⟨⟨memory.holds.blocks.congr listed, memory.holds.words⟩, memory.threads, fun t member => ?_⟩
  refine (memory.linked t member).congr fun notPushed => held t.view ?_ notPushed
  rw [memory.threads]
  exact List.mem_map_of_mem member

theorem readNode_congr {mem mem' : Bytes} {x : Nat} (same : ∀ a, x ≤ a → a < x + 8 → mem' a = mem a) :
    readNode mem' x = readNode mem x := Bytes.read_congr same

/-- The client writes into a live block. -/
theorem InMemory.clientWrite {p size a : Nat} {v : BitVec 8} (inv : Core s) (one : OneHeap s)
    (memory : InMemory s m) (live : (p, size) ∈ s.sh.live) (lower : p ≤ a) (upper : a < p + size) :
    InMemory s { m with bytes := update m.bytes a v } := by
  refine memory.withBytes (fun name x member => ?_) fun u member held => ?_
  · have outside := inv.live_outside one live lower upper member
    exact readNode_congr fun b above below => update_of_ne (by omega) _ _
  · have known := inv.known_of_loose (.inr (mem_thread member held))
    have live' := inv.known_of_live live
    have apart := inv.places_apart known live'.1 (mem_thread member held) (mem_live live) (by simp)
    have room := (inv.wf.known_inside known).2.2.1
    have fits := live'.2
    simp only [Apart] at apart
    exact readNode_congr fun b above below => update_of_ne (by omega) _ _

/-- A change of scratch bytes leaves the blocks on lists, live blocks and those of freeing threads. -/
theorem Core.scratch_keeps {before : Bytes} (inv : Core s) (one : OneHeap s)
    (scratch : ∀ a, bytes a ≠ before a → Scratch s a) (needed : OnList s p ∨ Loose s p) (lower : p ≤ a)
    (upper : a < p + blockSizeOf s.loc p) : bytes a = before a := by
  by_contra changed
  rcases inv.scratch_outside one (scratch a changed) needed with below | above <;> omega

/-- The memory outside the blocks changes. -/
theorem InMemory.clobber (inv : Core s) (one : OneHeap s) (memory : InMemory s m)
    (scratch : ∀ a, bytes a ≠ m.bytes a → Scratch s a) : InMemory s { m with bytes } := by
  have node : ∀ x, Known s.loc x → OnList s x ∨ Loose s x → readNode bytes x = readNode m.bytes x :=
    fun x known needed => by
      have room := (inv.wf.known_inside known).2.2.1
      exact readNode_congr fun a above below => inv.scratch_keeps one scratch needed above (by omega)
  refine memory.withBytes (fun name x member => node x (inv.listed one member).known (.inl ⟨name, member⟩))
    fun u member held => ?_
  have loose : Loose s u.ptr := .inr (mem_thread member held)
  exact node u.ptr (inv.known_of_loose loose) (.inr loose)

/-! ### The owner -/

/-- **A step of the owner**, by the functions of `linked_list.rs`: they return what they return on sequences, and
write no live block. -/
theorem RelistedBy.inMemory (relisted : RelistedBy call s t) (inv : Core s) (inv' : Core t) (one : OneHeap s)
    (one' : OneHeap t) (threads : t.sh.threads = s.sh.threads) (memory : InMemory s m) :
    (∃ fuel m', call.run fuel m = some (call.result s.lists, m')) ∧
      ∀ fuel result m', call.run fuel m = some (result, m') → result = call.result s.lists ∧ InMemory t m' ∧
        Untouched t m.bytes m'.bytes := by
  obtain ⟨ready, _, lists, delays⟩ := relisted
  have separate := inv'.separate one'
  rw [lists] at separate
  obtain ⟨fuel, m₁, run, holds, only, sameThreads⟩ :=
    memory.holds.run call ready (inv.separate one) separate inv.short
  rw [← lists, ← delays] at holds
  rw [← lists] at only
  refine ⟨⟨fuel, m₁, run⟩, fun fuel' result m' run' => ?_⟩
  cases ListCall.run_unique run run'
  refine ⟨rfl, ⟨holds, ?_, fun u member => ?_⟩, fun p size live a lower upper => ?_⟩
  · rw [threads, sameThreads]
    exact memory.threads
  · rw [sameThreads] at member
    refine (memory.linked u member).congr fun held => readNode_congr fun a above below =>
      only a fun name x onList => ?_
    have inView : u.view ∈ t.sh.threads := by
      rw [threads, memory.threads]
      exact List.mem_map_of_mem member
    have loose : Loose t u.ptr := .inr (mem_thread inView held)
    have apart := inv'.loose_apart one' loose onList
    have room := (inv'.wf.known_inside (inv'.known_of_loose loose)).2.2.1
    have room' := (inv'.wf.known_inside (inv'.listed one' onList).known).2.2.1
    simp only [Apart] at apart
    omega
  · exact only a fun name x onList => inv'.live_outside one' live lower upper onList

/-! ### Every step -/

/-- **The memory holds the lists of a freshly initialised heap.** -/
theorem memInv_start (start : memorySystem.start c) : MemInv c := by
  obtain ⟨sys, mem⟩ := c
  obtain ⟨initial, bytes, rfl⟩ : Initial sys ∧ ∃ bytes, mem = Mem.fresh bytes := start
  obtain ⟨oracle, threadId, heapPtr, loc, thread, result, placed, rfl⟩ := id initial
  have init := heapInit_spec result placed thread
  refine ⟨⟨_, initial, .refl⟩, fun heap _ => rfl, ⟨fun name => ?_, fun page => ?_⟩, rfl,
    fun t member => absurd member List.not_mem_nil⟩
  · have empty : State.lists ⟨loc, freshShared⟩ name = [] := by
      cases name with
      | free a | localFree a => simp only [State.lists, init.pages]
      | taken => exact init.idle.taken
      | _ => rfl
    have first : Mem.first (Mem.fresh bytes) name = 0 := by
      cases name with
      | threadFree page =>
          show (maskedPtrDelayGetPtr 0).toNat = 0
          decide
      | _ => rfl
    show LL.IsList bytes ⟨Mem.first (Mem.fresh bytes) name⟩ (State.lists ⟨loc, freshShared⟩ name)
    rw [empty, first]
    exact LL.isList_nil
  · rfl

/-- The owner's next step is possible in memory. -/
theorem MemInv.own {st : State} {next : State → State} {rest : State → P Unit}
    (inv : MemInv ⟨⟨st, some (.step next rest)⟩, m⟩) :
    Reachable ⟨next st, some (rest st)⟩ ∧ OneHeap (next st) ∧
      (st.sh.live ⊆ (next st).sh.live) ∧ (∃ call, RelistedBy call st (next st)) ∧
      ∀ call, RelistedBy call st (next st) → (∃ fuel m', call.run fuel m = some (call.result st.lists, m')) ∧
        ∀ fuel result m', call.run fuel m = some (result, m') → result = call.result st.lists ∧
          InMemory (next st) m' ∧ Untouched (next st) m.bytes m'.bytes := by
  have ordered := inv.reachable.orderedInv
  obtain ⟨⟨_, kept, moves⟩, _⟩ := ordered.moves fun _ => ordered.first
  obtain ⟨threads, live, _, _, call, relisted⟩ := moves trivial
  have reachable := inv.reachable.step (.own st next rest)
  have one' := relisted.oneHeap kept.heapPtr inv.oneHeap
  refine ⟨reachable, one', ?_, ⟨call, relisted⟩, fun call relisted => ?_⟩
  · rcases live with same | ⟨p, size, cons⟩
    · exact fun x => by rw [same]; exact id
    · exact fun x member => by rw [cons]; exact List.mem_cons_of_mem _ member
  · exact relisted.inMemory inv.reachable.sysInv.inv.toCore reachable.sysInv.inv.toCore inv.oneHeap one'
      threads
      inv.memory

/-- The other live blocks stay when one is passed to `free`. -/
theorem live_remains {live before after : List (Nat × Nat)} {p ptr size size' : Nat}
    (shape : live = before ++ (ptr, size) :: after) (member : (p, size') ∈ live) (differs : ptr ≠ p) :
    (p, size') ∈ before ++ after := by
  rw [shape] at member
  rcases List.mem_append.mp member with front | back
  · exact List.mem_append_left _ front
  · rcases List.mem_cons.mp back with same | back
    · exact absurd (congrArg Prod.fst same).symm differs
    · exact List.mem_append_right _ back

/-- A block that the client has before and after a step. -/
def Kept (c c' : MemSys) (event : Option MemEvent) (p size : Nat) : Prop :=
  (p, size) ∈ c'.sys.st.sh.live ∧
    ∀ a, p ≤ a → a < p + size → c'.mem.bytes a = (event.toList.foldl MemEvent.apply c.mem.bytes) a

/-- **Every step keeps the lists in memory**, and all blocks that are not passed to `free`, up to what the client
writes. -/
theorem MemInv.step (inv : MemInv c) (step : MemSysStep c event c') :
    MemInv c' ∧ ∀ p size, (p, size) ∈ c.sys.st.sh.live → event ≠ some (.free p) → Kept c c' event p size := by
  obtain ⟨reachable, one, memory⟩ := id inv
  have core := reachable.sysInv.inv.toCore
  cases step with
  | malloc st mem fuel size medium =>
      exact ⟨⟨reachable.step (.malloc st fuel size medium), one, memory⟩,
        fun p size live _ => ⟨live, fun _ _ _ => rfl⟩⟩
  | free st mem fuel ptr size before after shape =>
      refine ⟨⟨reachable.step (.free st fuel ptr size before after shape), one, ⟨?_, memory.holds.words⟩,
        memory.threads, memory.linked⟩, fun p size' live other => ⟨?_, fun _ _ _ => rfl⟩⟩
      · have lists : (st.giveBack before after ptr).lists = st.lists := by
          funext name
          cases name <;> rfl
        rw [lists]
        exact memory.holds.blocks
      · exact live_remains shape live fun same => other (same ▸ rfl)
  | own st mem mem' next rest call fuel result relisted run =>
      obtain ⟨reachable', one', more, _, runs⟩ := inv.own
      obtain ⟨_, memory', untouched⟩ := (runs call relisted).2 fuel result mem' run
      exact ⟨⟨reachable', one', memory'⟩,
        fun p size live _ => ⟨more live, untouched p size (more live)⟩⟩
  | finish st mem =>
      exact ⟨⟨reachable.step (.finish st), one, memory⟩,
        fun p size live _ => ⟨live, fun _ _ _ => rfl⟩⟩
  | begin st owner mem ptr size before after shape =>
      have remote := Step.remote st owner _ (.begin st.sh before after ptr size shape)
      refine ⟨⟨reachable.step remote, one, ⟨memory.holds.blocks, memory.holds.words⟩, ?_, ?_⟩,
        fun p size' live other =>
          ⟨live_remains shape live fun same => other (same ▸ rfl), fun _ _ _ => rfl⟩⟩
      · exact congrArg (List.cons _) memory.threads
      · intro t member
        rcases List.mem_cons.mp member with rfl | member
        · trivial
        · exact memory.linked t member
  | thread st owner mem mem' move step =>
      obtain ⟨loc, sh⟩ := st
      obtain ⟨memory', untouched⟩ := step.inMemory reachable.sysInv.inv memory one
      have live' : (move.shared sh (mem'.threads.map MemFree.view)).live = sh.live := by cases move <;> rfl
      refine ⟨?_, fun p size live _ => ⟨by rw [live']; exact live, untouched p size live⟩⟩
      rcases step.remote reachable.sysInv.inv memory with remote | same
      · exact ⟨reachable.step (.remote _ owner _ remote), remote.oneHeap core one, memory'⟩
      · rw [same] at memory' ⊢
        exact ⟨reachable, one, memory'⟩
  | write sys mem ptr size a v live lower upper =>
      exact ⟨⟨reachable, one, memory.clientWrite core one live lower upper⟩,
        fun p size live _ => ⟨live, fun _ _ _ => rfl⟩⟩
  | clobber sys mem bytes scratch =>
      refine ⟨⟨reachable, one, memory.clobber core one scratch⟩,
        fun p size live _ => ⟨live, fun a lower upper => ?_⟩⟩
      have fits : size ≤ blockSizeOf sys.st.loc p := (core.known_of_live live).2
      have upper' : a < p + blockSizeOf sys.st.loc p := by omega
      exact core.scratch_keeps one scratch (.inr (.inl (mem_live live))) lower upper'

/-- **The two writes of a round of `atomic_insert_block` may be apart.** The owner's write of the next pointer is a
step of its own, which changes the block at hand only; the compare-exchange then makes the same memory as both. -/
theorem MemInv.insert_apart {sys : Sys} {heap : Nat} (inv : MemInv ⟨sys, m⟩)
    (held : p ∈ sys.st.loc.held.delayed ++ sys.st.loc.held.direct) :
    memorySystem.step ⟨sys, m⟩ none
        ⟨sys, { m with bytes := writeNode m.bytes p (m.threadDelayedFree heap) }⟩ ∧
      (ListCall.insertDelayed heap p).run fuel
          { m with bytes := writeNode m.bytes p (m.threadDelayedFree heap) } =
        (ListCall.insertDelayed heap p).run fuel m := by
  have core := inv.reachable.sysInv.inv.toCore
  have known := core.of_blocksIn (by simp) (mem_owner held : p ∈ blocksIn sys.st 0 .owner)
  have room : 8 ≤ blockSizeOf sys.st.loc p := (core.wf.known_inside ⟨known.1, known.2⟩).2.2.1
  refine ⟨MemSysStep.clobber sys m _ fun a changed => ?_, ?_⟩
  · have inside : p ≤ a ∧ a < p + 8 := by
      by_contra outside
      exact changed (Bytes.write_apart (by omega))
    exact .atHand p held inside.1 (by omega)
  · simp only [ListCall.run, writeNode, Bytes.write_write]

/-! ### Runs -/

theorem MemInv.run (inv : MemInv c) (run : memorySystem.Run c events c') : MemInv c' := by
  induction run with
  | refl => exact inv
  | tail _ step ih => exact (ih.step step).1

/-- **A call of the owner that returns on sequences returns in memory.** -/
theorem memory_run {rest : P Unit} (inv : MemInv ⟨⟨s, some rest⟩, m⟩) (result : rest.run s = (.ok (), t)) :
    ∃ m', memorySystem.Run ⟨⟨s, some rest⟩, m⟩ [] ⟨⟨t, none⟩, m'⟩ := by
  induction rest generalizing s m with
  | ret value =>
      cases result
      exact ⟨m, .single (M := memorySystem) (.finish t m)⟩
  | fail error => cases result
  | step next rest ih =>
      obtain ⟨_, _, _, ⟨call, relisted⟩, runs⟩ := inv.own
      obtain ⟨fuel, m₁, run⟩ := (runs call relisted).1
      have step : memorySystem.step _ _ _ := MemSysStep.own s m m₁ next rest call fuel _ relisted run
      obtain ⟨m', runs'⟩ := ih s (inv.step step).1 result
      exact ⟨m', (System.Run.single step).append runs'⟩

/-- The owner allocates a block, alone. -/
theorem memory_malloc {size p : Nat} (inv : MemInv ⟨⟨s, none⟩, m⟩) (medium : size ≤ mediumObjSizeMax)
    (result : (heapMalloc fuel size).run s = (.ok p, t)) :
    ∃ m', memorySystem.Run ⟨⟨s, none⟩, m⟩ [] ⟨⟨t, none⟩, m'⟩ := by
  have step : memorySystem.step _ _ _ := MemSysStep.malloc s m fuel size medium
  have returns : (call (heapMalloc fuel size)).run s = (.ok (), t) := by
    rw [call, Prog.run_bind, result]
    rfl
  obtain ⟨m', run⟩ := memory_run (inv.step step).1 returns
  exact ⟨m', (System.Run.single step).append run⟩

/-- A heap that has served one request, in memory. -/
theorem served_in_memory : ∃ c₀ earlier c, memorySystem.start c₀ ∧ memorySystem.Run c₀ earlier c ∧
    c.sys = plainServed ∧ (671154560, 24) ∈ c.sys.st.sh.live := by
  have start : memorySystem.start ⟨plainStart, .fresh fun _ => 0⟩ := ⟨plainStart_initial, _, rfl⟩
  have live : (671154560, 24) ∈ plainServed.st.sh.live := by decide +kernel
  have done : ((heapMalloc 9 24).run plainStart.st).1.isOk = true := by decide +kernel
  cases result : (heapMalloc 9 24).run plainStart.st with
  | mk outcome t =>
      rw [result] at done
      cases outcome with
      | error e => cases done
      | ok p =>
          have served : plainServed = ⟨t, none⟩ := by simp only [plainServed, result]
          rw [served] at live ⊢
          obtain ⟨m, run⟩ := memory_malloc (memInv_start start) (by decide) result
          exact ⟨_, _, _, start, run, rfl, live⟩

/-- **The lists are in memory.** In every run, the memory holds the lists of the allocator's state, which is one
that the allocator reaches on sequences; and what the owner's next step does to the lists is done by the functions
of `linked_list.rs`: they end, and return what they return on sequences. -/
theorem lists_in_memory (start : memorySystem.start c) (run : memorySystem.Run c events c') :
    Reachable c'.sys ∧ InMemory c'.sys.st c'.mem ∧
    ∀ next rest, c'.sys.owner = some (.step next rest) →
      (∃ call, RelistedBy call c'.sys.st (next c'.sys.st)) ∧
      ∀ call, RelistedBy call c'.sys.st (next c'.sys.st) →
        (∃ fuel m, call.run fuel c'.mem = some (call.result c'.sys.st.lists, m)) ∧
        ∀ fuel result m, call.run fuel c'.mem = some (result, m) →
          result = call.result c'.sys.st.lists ∧ InMemory (next c'.sys.st) m := by
  have inv := (memInv_start start).run run
  refine ⟨inv.reachable, inv.memory, fun next rest owner => ?_⟩
  obtain ⟨⟨st, _⟩, m⟩ := c'
  cases owner
  obtain ⟨_, _, _, some, runs⟩ := inv.own
  refine ⟨some, fun call relisted => ⟨(runs call relisted).1, fun fuel result m run => ?_⟩⟩
  obtain ⟨same, memory, _⟩ := (runs call relisted).2 fuel result m run
  exact ⟨same, memory⟩

theorem lists_in_memory_served : ∃ (c : MemSys) (next : State → State) (rest : State → P Unit),
    c.sys.owner = some (.step next rest) ∧ Reachable c.sys ∧ InMemory c.sys.st c.mem ∧
    (∃ call, RelistedBy call c.sys.st (next c.sys.st)) ∧
    ∀ call, RelistedBy call c.sys.st (next c.sys.st) →
      (∃ fuel m, call.run fuel c.mem = some (call.result c.sys.st.lists, m)) ∧
      ∀ fuel result m, call.run fuel c.mem = some (result, m) →
        result = call.result c.sys.st.lists ∧ InMemory (next c.sys.st) m := by
  obtain ⟨c₀, earlier, ⟨⟨s, owner⟩, m⟩, start, before, served, _⟩ := served_in_memory
  obtain rfl : owner = none := congrArg Sys.owner served
  have begins : memorySystem.step _ _ _ := MemSysStep.malloc s m 9 24 (by decide)
  obtain ⟨reachable, memory, own⟩ := lists_in_memory start (before.tail begins)
  exact ⟨_, _, _, rfl, reachable, memory, own _ _ rfl⟩

end VerusMimalloc
