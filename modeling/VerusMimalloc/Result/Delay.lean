/-
**The delay states.**

* `delay_protocol`: one thread at a time is in the delayed part of a free of a page, and no page goes
  while a free of one of its blocks is pending;
* `no_full_page_forgotten`: a full page with a free block is reached through one delayed block.
-/

import VerusMimalloc.Proof.Scripts
import VerusMimalloc.Proof.Solo.Delayed

namespace VerusMimalloc

open Library

variable {sys : Sys} {s : State} {l : Local} {spans : Nat → List Span} {nodes : Nat → List Nat}
  {pq a p x : Nat}

/-! ### The protocol of a page -/

/-- The `fetch_xor(3)` of a word that says `Freeing`. -/
theorem xor_three (aligned : 4 ∣ x) : (x + 1) ^^^ 3 = x + 2 := by
  obtain ⟨m, rfl⟩ := aligned
  have high : (4 * m + 1 ^^^ 3) / 4 = m := by
    have split := Nat.xor_div_two_pow (a := 4 * m + 1) (b := 3) (n := 2)
    have first : (4 * m + 1) / 2 ^ 2 = m := by omega
    rw [first] at split
    simpa using split
  have low : (4 * m + 1 ^^^ 3) % 4 = 2 := by
    have split := Nat.xor_mod_two_pow (a := 4 * m + 1) (b := 3) (n := 2)
    have first : (4 * m + 1) % 2 ^ 2 = 1 := by omega
    rw [first] at split
    simpa using split
  omega

/-- The delay protocol of the freeing threads and the owner. -/
structure DelayProtocol (s : State) : Prop where
  /-- At most one thread is between its compare-exchange to `Freeing` and its `fetch_xor(3)`. -/
  single : ∀ a, busyOn s.sh.threads a ≤ 1
  /-- The `fetch_xor(3)` finds `Freeing`, leaves `NoDelayedFree`, and keeps the pointer bits. -/
  leaves : ∀ t ∈ s.sh.threads, t.pc = .pushed →
    (s.sh.xthreadFree t.page).delay = .freeing ∧
      (s.sh.xthreadFree t.page).delay.xorThree = .noDelayedFree ∧
      (s.sh.xthreadFree t.page).word ^^^ 3 =
        { s.sh.xthreadFree t.page with delay := DelayState.noDelayedFree : ThreadFree }.word
  /-- An empty page has the null word. -/
  empty : ∀ a, InUse s.loc a → (s.loc.pages a).used = 0 → (s.sh.xthreadFree a).word = 0
  /-- A page on its way back to its segment has the null word, no thread frees one of its blocks, and
  no block of it is anywhere. -/
  freed : ∀ a, s.loc.held = .unlinked a ∨ s.loc.held = .destroying a →
    ((s.sh.xthreadFree a).word = 0 ∧ (s.sh.xthreadFree a).list = [] ∧
      (s.sh.xthreadFree a).delay = .useDelayedFree) ∧
    (∀ t ∈ s.sh.threads, t.page ≠ a) ∧
    ∀ p ∈ delayedBlocks s.loc s.sh ++ directBlocks s.loc s.sh, pageOfBlock s.loc p ≠ a

/-- A thread that frees a block of a page shows in the word of the page or in the blocks outside. -/
theorem Core.thread_ne (inv : Core s) (word : s.sh.xthreadFree a = { list := [], delay := .useDelayedFree })
    (none : ∀ p, 0 < outside s.loc s.sh p → pageOfBlock s.loc p ≠ a) {t : RemoteFree}
    (member : t ∈ s.sh.threads) : t.page ≠ a := by
  rintro rfl
  cases early : t.pc.early with
  | true =>
      have positive : 0 < outside s.loc s.sh t.ptr := by
        rw [outside_pos]
        exact List.mem_append_right _ (List.mem_append_right _ (mem_blocksAt member early))
      refine none _ positive (((inv.protocol.threads t member).page fun pushed => ?_).symm)
      rw [pushed] at early
      cases early
  | false =>
      have count := inv.protocol.freeing t.page
      have positive := busyOn_pos member (by rw [Pc.busy, early]; rfl)
      rw [word] at count
      simp only [reduceCtorEq, if_false] at count
      omega

/-- **The delay protocol holds in every reachable state.** -/
theorem delay_protocol (reachable : Reachable sys) : DelayProtocol sys.st := by
  have inv := reachable.sysInv.inv
  obtain ⟨⟨l, sh⟩, owner⟩ := sys
  simp only at inv ⊢
  have null : ∀ a, sh.xthreadFree a = { list := [], delay := .useDelayedFree } →
      (sh.xthreadFree a).word = 0 := fun a same => by rw [same]; rfl
  refine ⟨fun a => ?_, fun t member pushed => ?_, fun a page empty => ?_, fun a gone => ?_⟩
  · have count := inv.protocol.freeing a
    simp only at count
    rw [count]
    split <;> decide
  · obtain ⟨delay, _⟩ := inv.delay_of_busy member (by rw [pushed]; rfl)
    refine ⟨delay, by rw [delay]; rfl, ?_⟩
    have low := inv.word_mod t.page
    simp only [ThreadFree.word, delay, DelayState.toNat] at low ⊢
    exact xor_three (by omega)
  · exact null a (inv.toCore.quiet page empty).1
  · obtain ⟨spans, nodes, wf⟩ : Wf l := inv.wf
    have clear : sh.xthreadFree a = { list := [], delay := .useDelayedFree } ∧
        ∀ p, 0 < outside l sh p → pageOfBlock l p ≠ a := by
      rcases gone with unlinked | destroying
      · obtain ⟨page, empty⟩ := wf.unlinked a unlinked
        exact inv.toCore.quiet page empty
      · have unused := (wf.destroyed destroying).1
        exact ⟨inv.protocol.unused a unused, fun p positive => inv.toCore.outside_ne unused positive⟩
    exact ⟨⟨null a clear.1, by rw [clear.1], by rw [clear.1]⟩,
      fun t member => inv.toCore.thread_ne clear.1 clear.2 member,
      fun p member => clear.2 p (outside_pos.mpr member)⟩

/-- A thread is about to make its `fetch_xor(3)`. -/
theorem delay_protocol_busy :
    (plainBusy 5).st.sh.threads.map (fun t => (t.page, t.pc)) = [(firstPage, .pushed)] ∧
      DelayProtocol (plainBusy 5).st :=
  ⟨by decide +kernel, delay_protocol (plainBusy_reachable 5)⟩

/-! ### The full queue -/

/-- The page is on the queue. -/
def InQueue (l : Local) (pq a : Nat) : Prop :=
  ∃ queue, IsDList (fun a => (l.pages a).prev) (fun a => (l.pages a).next) 0
    (l.heap.pages pq).first (l.heap.pages pq).last queue ∧ a ∈ queue

theorem WfWith.inQueue_iff (wf : WfWith l spans nodes) : InQueue l pq a ↔ a ∈ nodes pq := by
  constructor
  · rintro ⟨queue, list, inside⟩
    rw [(wf.queues.list pq).unique list]
    exact inside
  · exact fun inside => ⟨nodes pq, wf.queues.list pq, inside⟩

/-- The pages of the full queue. -/
theorem Inv.inFull_iff (inv : Inv s) : InQueue s.loc binFull a ↔ InFull s.loc a := by
  obtain ⟨spans, nodes, wf⟩ := inv.wf
  rw [wf.inQueue_iff, wf.queued]
  constructor
  · rintro ⟨page, queued, queue⟩
    refine ⟨page, ?_, queued⟩
    by_contra notFull
    have bounds := (wf.page a page).bin_bounds
    rw [pageQueueOf, if_neg notFull] at queue
    simp only [binFull, binHuge] at queue
    omega
  · exact fun full => ⟨full.page, full.queued, by rw [pageQueueOf, if_pos full.flag]⟩

/-- What the full queue is told by, on a concrete heap between two calls. -/
theorem Inv.inFull_of_flags (inv : Inv s) (held : s.loc.held = .nothing)
    (page : (s.loc.pages a).xblockSize ≠ 0 ∧ ∀ r ∈ s.loc.segments, a ≠ getPageHeaderPtr r 0)
    (flag : (s.loc.pages a).getInFull = true) : InQueue s.loc binFull a :=
  inv.inFull_iff.mpr ⟨page, flag, by simp [held]⟩

/-- The page that other threads free blocks of is full. -/
theorem plainBusy_full : InQueue (plainBusy 5).st.loc binFull firstPage := by
  have sys := (plainBusy_reachable 5).sysInv
  exact sys.inv.inFull_of_flags (sys.idle rfl).held (by decide +kernel) (by decide +kernel)

/-- The block that the owner took from the delayed list. -/
def Held.fromDelayed : Held → List Nat
  | .popped block | .claimed block | .ready block => [block]
  | _ => []

/-- A block of the page is on the delayed list, or held by a thread in the middle of a delayed free,
or by the owner while it works off the delayed list. -/
def Reached (s : State) (a : Nat) : Prop :=
  ∃ p, pageOfBlock s.loc p = a ∧ (p ∈ s.sh.threadDelayedFree s.loc.heap.heapPtr ∨
    p ∈ blocksAt Pc.mid s.sh.threads ∨ p ∈ s.loc.taken ++ s.loc.held.fromDelayed)

/-- A page that does not use delayed frees is reached. -/
theorem Core.reached (inv : Core s) (other : (s.sh.xthreadFree a).delay ≠ .useDelayedFree) :
    Reached s a := by
  have count := inv.protocol.delayed a
  rw [if_neg other] at count
  obtain ⟨p, member, on⟩ := List.countP_pos_iff.mp (by omega : 0 < (delayedBlocks s.loc s.sh).countP
    fun p => pageOfBlock s.loc p == a)
  refine ⟨p, by simpa using on, ?_⟩
  simp only [delayedBlocks, List.mem_append] at member
  rcases member with ((list | taken) | held) | mid
  · exact .inl list
  · exact .inr (.inr (List.mem_append_left _ taken))
  · refine .inr (.inr (List.mem_append_right _ ?_))
    cases at' : s.loc.held <;> simp [at', Held.delayed, Held.fromDelayed] at held ⊢
    exact held
  · exact .inr (.inl mid)

/-- **No full page is forgotten.** In every reachable state a page that does not use delayed frees, or
that is in the full queue with a free block, is reached through a delayed block; and once the owner
has worked off the delayed list alone, no page of the full queue has a free block. -/
theorem no_full_page_forgotten (reachable : Reachable sys) :
    (∀ a, InUse sys.st.loc a → (sys.st.sh.xthreadFree a).delay = .noDelayedFree ∨
      (InQueue sys.st.loc binFull a ∧ ((sys.st.loc.pages a).free ≠ [] ∨
        (sys.st.loc.pages a).localFree ≠ [] ∨ (sys.st.sh.xthreadFree a).list ≠ [])) →
      Reached sys.st a) ∧
    (sys.owner = none → (∀ a, (sys.st.sh.xthreadFree a).delay ≠ .freeing) → ∀ fuel allFreed t,
      (heapDelayedFreePartial fuel).run sys.st = (.ok allFreed, t) → ∀ a, InQueue t.loc binFull a →
        (t.loc.pages a).free = [] ∧ (t.loc.pages a).localFree = [] ∧
          (t.sh.xthreadFree a).list = []) := by
  have inv := reachable.sysInv.inv
  refine ⟨fun a page waits => ?_, fun none quiet fuel allFreed t result a inQueue => ?_⟩
  · by_cases use : (sys.st.sh.xthreadFree a).delay = .useDelayedFree
    · have claims : ∀ b, (sys.st.loc.held = .claimed b ∨ sys.st.loc.held = .ready b) ∧
          pageOfBlock sys.st.loc b = a → Reached sys.st a := by
        rintro b ⟨claim, on⟩
        refine ⟨b, on, .inr (.inr (List.mem_append_right _ ?_))⟩
        rcases claim with claim | claim <;> simp [claim, Held.fromDelayed]
      rcases waits with other | ⟨inQueue, some⟩
      · rw [use] at other
        cases other
      · have full := inv.inFull_iff.mp inQueue
        rcases inv.full a page use full.flag full.queued with ⟨free, localFree⟩ | ⟨b, claim, on⟩
        · rcases inv.protocol.pending a use with list | ⟨b, claimed, on⟩
          · rcases some with some | some | some
            · exact absurd free some
            · exact absurd localFree some
            · exact absurd list some
          · exact claims b ⟨.inl claimed, on⟩
        · exact claims b ⟨claim, on⟩
    · exact inv.toCore.reached use
  · have after := heapDelayedFreePartial_quiet inv (reachable.sysInv.idle none) quiet result
    have full := after.inv.inFull_iff.mp inQueue
    obtain ⟨free, localFree⟩ := after.full full.page full.flag
    exact ⟨free, localFree, (after.word a).2⟩

/-- A full page with a free block is reached; once its delayed free has ended, the owner works it off. -/
theorem no_full_page_forgotten_busy :
    (InQueue (plainBusy 5).st.loc binFull firstPage ∧
      ((plainBusy 5).st.sh.xthreadFree firstPage).list = [671285248] ∧ Reached (plainBusy 5).st firstPage) ∧
    ∃ allFreed t, (heapDelayedFreePartial 9).run (plainBusy 6).st = (.ok allFreed, t) ∧
      (plainBusy 6).st.sh.threadDelayedFree (2 ^ 27) = [671154176] ∧
      ∀ a, InQueue t.loc binFull a → (t.loc.pages a).free = [] ∧ (t.loc.pages a).localFree = [] ∧
        (t.sh.xthreadFree a).list = [] := by
  have listed : ((plainBusy 5).st.sh.xthreadFree firstPage).list = [671285248] := by decide +kernel
  refine ⟨⟨plainBusy_full, listed, (no_full_page_forgotten (plainBusy_reachable 5)).1 firstPage
    ((plainBusy_reachable 5).sysInv.inv.inFull_iff.mp plainBusy_full).page
    (.inr ⟨plainBusy_full, .inr (.inr (by simp [listed]))⟩)⟩, ?_⟩
  have quiet : ∀ a, ((plainBusy 6).st.sh.xthreadFree a).delay ≠ .freeing := by
    intro a freeing
    have idle : (plainBusy 6).st.sh.threads.length = 0 := by decide +kernel
    have count := (plainBusy_reachable 6).sysInv.inv.protocol.freeing a
    rw [List.length_eq_zero_iff.mp idle, if_pos freeing] at count
    cases count
  have done : ((heapDelayedFreePartial 9).run (plainBusy 6).st).1.isOk = true := by decide +kernel
  rcases result : (heapDelayedFreePartial 9).run (plainBusy 6).st with ⟨_ | allFreed, t⟩
  · rw [result] at done
    cases done
  · exact ⟨allFreed, t, rfl, by decide +kernel,
      (no_full_page_forgotten (plainBusy_reachable 6)).2 rfl quiet 9 allFreed t result⟩

end VerusMimalloc
