/-
**Steps of the freeing threads.**

* `Inv.regroup`: blocks move between places of the same kind;
* `Inv.remote`: every step of a freeing thread keeps the invariant.
-/

import VerusMimalloc.Proof.Blocks.Accounting

namespace VerusMimalloc

open Library

variable {l l' : Local} {sh sh' : Shared} {a p : Nat}

/-! ### Moves that change no count -/

/-- What the owner holds says nothing about a page. -/
def Held.Plain : Held → Prop
  | .nothing | .popped _ | .given _ => True
  | _ => False

/-- Blocks move between places of the same kind. -/
structure Regrouped (l : Local) (sh : Shared) (l' : Local) (sh' : Shared) : Prop where
  frame : BlockFrame l l'
  pages : l'.pages = l.pages
  held : l'.held = l.held ∨ (l.held.Plain ∧ l'.held.Plain)
  words : sh'.xthreadFree = sh.xthreadFree
  delayed : ∀ p, (delayedBlocks l' sh').count p = (delayedBlocks l sh).count p
  direct : ∀ p, (directBlocks l' sh').count p = (directBlocks l sh).count p
  live : ∀ x ∈ sh'.live, x ∈ sh.live
  busy : ∀ a, busyOn sh'.threads a = busyOn sh.threads a
  threads : ∀ t ∈ sh'.threads, t ∈ sh.threads ∨ ThreadOk l t

/-- The state of the owner keeps its invariant when only block lists outside the pages move. -/
theorem Wf.regroup (wf : Wf l) (frame : BlockFrame l l') (pages : l'.pages = l.pages)
    (held : l'.held = l.held ∨ (l.held.Plain ∧ l'.held.Plain)) : Wf l' := by
  obtain ⟨spans, nodes, wf⟩ := wf
  have same : (∀ x, l'.held = .destroying x ↔ l.held = .destroying x) ∧
      ∀ x, l'.held = .unlinked x ↔ l.held = .unlinked x := by
    rcases held with same | ⟨plain, plain'⟩
    · rw [same]
      exact ⟨fun _ => Iff.rfl, fun _ => Iff.rfl⟩
    · constructor <;> intro x <;> constructor <;> intro other <;>
        simp [other, Held.Plain] at plain plain'
  refine ⟨spans, nodes, wf.blocks frame same.1 same.2 (fun x page => ?_) (fun x page => ?_)
    (fun x page => ?_) fun x _ => ?_⟩ <;> rw [pages]
  · exact (wf.page x page).capacity
  · exact wf.count x page
  · exact wf.blank x page

/-- **Blocks move** between places of the same kind. -/
theorem Inv.regroup (inv : Inv ⟨l, sh⟩) (moved : Regrouped l sh l' sh') : Inv ⟨l', sh'⟩ := by
  obtain ⟨⟨wf, ⟨placed, balance, sizes⟩, ⟨unused, never, delayed, freeing, pending, threads⟩⟩,
    full⟩ := inv
  obtain ⟨frame, pages, held, words, sameDelayed, sameDirect, live, busy, sameThreads⟩ := moved
  have pageOf : pageOfBlock l' = pageOfBlock l := frame.pageOfBlock_eq
  have sameOutside : ∀ p, outside l' sh' p = outside l sh p := fun p => by
    rw [outside, outside, sameDelayed, sameDirect]
  have sameListed : ∀ a p, listed l' sh' a p = listed l sh a p := fun a p => by
    rw [listed, listed, pages, words]
  have blocks : ∀ a, blocksOf l' a = blocksOf l a := fun a =>
    blocksOf_congr (by rw [pages]) (by rw [pages])
  have claims : ∀ a b, (l.held = .claimed b ∨ l.held = .ready b) ∧ pageOfBlock l b = a →
      l'.held = l.held := by
    rintro a b ⟨claim, _⟩
    rcases held with same | ⟨plain, _⟩
    · exact same
    · rcases claim with claim | claim <;> simp [claim, Held.Plain] at plain
  refine ⟨⟨wf.regroup frame pages held, ⟨fun p positive => ?_, fun a page p => ?_,
    fun p size inLive => ?_⟩, ⟨fun a notPage => ?_, fun a => ?_, fun a => ?_, fun a => ?_,
    fun a use => ?_, fun t member => ?_⟩⟩, fun a page use inFull notUnlinked => ?_⟩
  · rw [sameOutside] at positive
    rw [pageOf]
    exact frame.inUse_iff.mpr (placed p positive)
  · rw [sameListed, sameOutside, pageOf, blocks]
    exact balance a (frame.inUse_iff.mp page) p
  · rw [pageOf, pages]
    exact sizes p size (live _ inLive)
  · rw [words]
    exact unused a fun page => notPage (frame.inUse_iff.mpr page)
  · rw [words]
    exact never a
  · rw [words, pageOf, (List.perm_iff_count.mpr sameDelayed).countP_eq]
    exact delayed a
  · rw [words, busy]
    exact freeing a
  · rw [words] at use ⊢
    rcases pending a use with empty | ⟨b, claimed, onPage⟩
    · exact .inl empty
    · refine .inr ⟨b, ?_, by rw [pageOf]; exact onPage⟩
      rw [claims a b ⟨.inl claimed, onPage⟩]
      exact claimed
  · have old : ThreadOk l t := (sameThreads t member).elim (threads t) id
    exact ⟨fun notPushed => by rw [pageOf]; exact old.page notPushed,
      fun heap known => by rw [frame.heapPtr]; exact old.heap heap known⟩
  · rw [words] at use
    rw [pages] at inFull ⊢
    have before : l.held ≠ .unlinked a := fun unlinked => by
      rcases held with same | ⟨plain, _⟩
      · exact notUnlinked (same.trans unlinked)
      · simp [unlinked, Held.Plain] at plain
    rcases full a (frame.inUse_iff.mp page) use inFull before with empty | ⟨b, claim, onPage⟩
    · exact .inl empty
    · refine .inr ⟨b, ?_, by rw [pageOf]; exact onPage⟩
      rw [claims a b ⟨claim, onPage⟩]
      exact claim

/-! ### One thread moves -/

section OneThread

variable {before after : List RemoteFree} {t t' : RemoteFree}

/-- A thread goes on without leaving its kind of place. -/
theorem Inv.advance (inv : Inv ⟨l, sh⟩) (shape : sh.threads = before ++ t :: after)
    (ptr : t'.ptr = t.ptr) (page : t'.page = t.page) (early : t'.pc.early = t.pc.early)
    (mid : t'.pc.mid = t.pc.mid)
    (heap : ∀ heap, t'.pc.heap? = some heap → heap = l.heap.heapPtr)
    (notPushed : t.pc ≠ .pushed) :
    Inv ⟨l, { sh with threads := before ++ t' :: after }⟩ := by
  have ok : ThreadOk l t := inv.protocol.threads t (by simp [shape])
  refine inv.regroup ⟨⟨rfl, rfl, rfl, .of_eq rfl, rfl, rfl, rfl, rfl, rfl, rfl, fun _ => .refl _⟩, rfl,
    .inl rfl, rfl, fun p => ?_, fun p => ?_, fun x inside => inside, fun a => ?_, fun u member => ?_⟩
  · simp only [delayedBlocks, shape, blocksAt_append, blocksAt_cons, ptr, mid]
  · simp only [directBlocks, shape, blocksAt_append, blocksAt_cons, ptr, early]
  · simp only [shape, busyOn_append, busyOn_cons, page, Pc.busy, early]
  · simp only [List.mem_append, List.mem_cons] at member
    rcases member with inside | rfl | inside
    · exact .inl (by simp [shape, inside])
    · refine .inr ⟨fun _ => ?_, heap⟩
      rw [page, ptr]
      exact ok.page notPushed
    · exact .inl (by simp [shape, inside])

/-- The word of one page changes; `n` blocks `ptr` move from outside to its list. -/
structure WordStep (l : Local) (sh sh' : Shared) (a ptr n : Nat) : Prop where
  others : ∀ x, x ≠ a → sh'.xthreadFree x = sh.xthreadFree x
  page : InUse l a
  pageOf : n ≠ 0 → pageOfBlock l ptr = a
  live : sh'.live = sh.live
  never : (sh'.xthreadFree a).delay ≠ .neverDelayedFree
  busy : (sh'.xthreadFree a).delay ≠ .useDelayedFree
  fewer : ∀ p, outside l sh p = outside l sh' p + n * [ptr].count p
  list : ∀ p, (sh'.xthreadFree a).list.count p = (sh.xthreadFree a).list.count p + n * [ptr].count p
  delayed : ∀ x, (delayedBlocks l sh').countP (fun p => pageOfBlock l p == x) =
    if x = a then 1 else (delayedBlocks l sh).countP fun p => pageOfBlock l p == x
  freeing : ∀ x, busyOn sh'.threads x =
    if x = a then if (sh'.xthreadFree a).delay = .freeing then 1 else 0 else busyOn sh.threads x
  threads : ∀ u ∈ sh'.threads, u ∈ sh.threads ∨ ThreadOk l u

/-- **The word of a page changes.** -/
theorem Inv.wordStep {q n : Nat} (inv : Inv ⟨l, sh⟩) (step : WordStep l sh sh' a q n) :
    Inv ⟨l, sh'⟩ := by
  obtain ⟨⟨wf, ⟨placed, balance, sizes⟩, ⟨unused, never, delayed, freeing, pending, threads⟩⟩,
    full⟩ := inv
  obtain ⟨others, page, pageOf, live, never', busy, fewer, list, delayed', freeing', threads'⟩ := step
  refine ⟨⟨wf, ⟨fun p positive => placed p ?_, fun x pageX p => ?_,
    fun p size inLive => sizes p size (live ▸ inLive)⟩, ⟨fun x notPage => ?_, fun x => ?_,
    fun x => ?_, fun x => ?_, fun x useX => ?_,
    fun t member => (threads' t member).elim (threads t) id⟩⟩, fun x pageX useX => ?_⟩
  · have := fewer p
    change 0 < outside l sh' p at positive
    change 0 < outside l sh p
    omega
  · have before := balance x pageX p
    have moved := fewer p
    have onPage : pageOfBlock l p ≠ a → n * [q].count p = 0 := by
      intro other
      by_cases none : n = 0
      · rw [none, Nat.zero_mul]
      · have differs : q ≠ p := fun equal => other (equal ▸ pageOf none)
        simp [differs]
    simp only [listed] at before ⊢
    by_cases same : x = a
    · subst same
      rw [list p]
      by_cases on : pageOfBlock l p = x
      · rw [if_pos on] at before ⊢
        omega
      · rw [if_neg on] at before ⊢
        rw [onPage on]
        omega
    · rw [others x same]
      by_cases on : pageOfBlock l p = x
      · rw [if_pos on] at before ⊢
        rw [onPage (on ▸ same)] at moved
        omega
      · rw [if_neg on] at before ⊢
        exact before
  · have differs : x ≠ a := fun same => notPage (same ▸ page)
    rw [others x differs]
    exact unused x notPage
  · by_cases same : x = a
    · rw [same]
      exact never'
    · rw [others x same]
      exact never x
  · rw [delayed']
    by_cases same : x = a
    · rw [if_pos same, same, if_neg busy]
    · rw [if_neg same, others x same]
      exact delayed x
  · rw [freeing']
    by_cases same : x = a
    · rw [if_pos same, same]
    · rw [if_neg same, others x same]
      exact freeing x
  · have differs : x ≠ a := fun same => busy (same ▸ useX)
    rw [others x differs] at useX ⊢
    exact pending x useX
  · have differs : x ≠ a := fun same => busy (same ▸ useX)
    rw [others x differs] at useX
    exact full x pageX useX

/-- The delay state is `Freeing` while a thread is busy. -/
theorem Inv.delay_of_busy (inv : Inv ⟨l, sh⟩) (member : t ∈ sh.threads) (busy : t.pc.busy = true) :
    (sh.xthreadFree t.page).delay = .freeing ∧ busyOn sh.threads t.page = 1 := by
  have count := inv.protocol.freeing t.page
  have positive := busyOn_pos member busy
  simp only at count
  by_cases freeing : (sh.xthreadFree t.page).delay = .freeing
  · rw [if_pos freeing] at count
    exact ⟨freeing, count⟩
  · rw [if_neg freeing] at count
    omega

end OneThread

/-! ### Every step -/

section Steps

variable {before after : List RemoteFree} {page ptr mask heap next : Nat}

/-- The frame of a step that changes shared state only. -/
theorem BlockFrame.refl (l : Local) : BlockFrame l l :=
  ⟨rfl, rfl, rfl, .of_eq rfl, rfl, rfl, rfl, rfl, rfl, rfl, fun _ => .refl _⟩

/-- A thread starts to free a live block. -/
theorem Inv.begin {front back : List (Nat × Nat)} {size : Nat} (inv : Inv ⟨l, sh⟩)
    (shape : sh.live = front ++ (ptr, size) :: back) :
    Inv ⟨l, { sh with
      live := front ++ back
      threads := { page := pageOfBlock l ptr, ptr, pc := .top } :: sh.threads }⟩ := by
  refine inv.regroup ⟨.refl l, rfl, .inl rfl, rfl, fun p => ?_, fun p => ?_, fun x inside => ?_,
    fun a => ?_, fun u member => ?_⟩
  · simp [delayedBlocks, Pc.mid]
  · simp only [directBlocks, shape, blocksAt_cons, Pc.early, if_true, List.map_append, List.map_cons,
      List.count_append, List.count_cons, List.count_nil]
    omega
  · rw [shape]
    simp only [List.mem_append, List.mem_cons] at inside ⊢
    exact inside.imp id .inr
  · simp [Pc.busy, Pc.early]
  · rcases List.mem_cons.mp member with rfl | old
    · exact .inr ⟨fun _ => rfl, fun _ known => by cases known⟩
    · exact .inl old

/-- The compare-exchange to `Freeing`. -/
theorem Inv.casFreeing (inv : Inv ⟨l, sh⟩)
    (shape : sh.threads = before ++ { page, ptr, pc := .loaded mask } :: after)
    (same : (sh.xthreadFree page).word = mask) (low : mask % 4 = 0) :
    Inv ⟨l, { sh with
      xthreadFree := fun a =>
        if a = page then { sh.xthreadFree page with delay := .freeing } else sh.xthreadFree a
      threads := before ++ { page, ptr, pc := .freeing } :: after }⟩ := by
  have member : (⟨page, ptr, .loaded mask⟩ : RemoteFree) ∈ sh.threads := by simp [shape]
  have inUse := inv.thread_page member
  have onPage : page = pageOfBlock l ptr := (inv.protocol.threads _ member).page (by simp)
  have delay : (sh.xthreadFree page).delay = .useDelayedFree := by
    have state := inv.word_mod page
    simp only [same, low] at state
    cases delay : (sh.xthreadFree page).delay <;> simp [delay, DelayState.toNat] at state ⊢
  refine inv.wordStep (a := page) (q := ptr) (n := 0) ⟨fun x differs => if_neg differs, inUse,
    fun none => absurd rfl none, rfl, by simp, by simp, fun p => ?_, fun p => by simp, fun x => ?_,
    fun x => ?_, fun u inside => ?_⟩
  · simp only [outside, delayedBlocks, directBlocks, shape, blocksAt_append, blocksAt_cons, Pc.mid,
      Pc.early, if_true, Bool.false_eq_true, if_false, List.count_append]
    omega
  · have none := inv.protocol.delayed page
    simp only [delay, if_true, delayedBlocks, shape, blocksAt_append, blocksAt_cons, Pc.mid, if_true,
      Bool.false_eq_true, if_false, List.countP_append, List.countP_nil, List.countP_singleton]
      at none ⊢
    by_cases at' : x = page
    · subst at'
      simp only [← onPage, beq_self_eq_true, if_true]
      omega
    · have other : (pageOfBlock l ptr == x) = false := by
        rw [← onPage]
        simpa using Ne.symm at'
      simp only [if_neg at', other, Bool.false_eq_true, if_false]
  · have count := inv.protocol.freeing page
    simp only [delay, shape, busyOn_append, busyOn_cons, Pc.busy, Pc.early, reduceCtorEq, if_false]
      at count ⊢
    by_cases at' : x = page
    · subst at'
      simp at count ⊢
      omega
    · have other : (page == x) = false := by simpa using Ne.symm at'
      simp [if_neg at', other]
  · simp only [List.mem_append, List.mem_cons] at inside
    rcases inside with inside | rfl | inside
    · exact .inl (by simp [shape, inside])
    · exact .inr ⟨fun _ => onPage, fun _ known => by cases known⟩
    · exact .inl (by simp [shape, inside])

/-- The compare-exchange that puts the block on the list of the page. -/
theorem Inv.casPush (inv : Inv ⟨l, sh⟩)
    (shape : sh.threads = before ++ { page, ptr, pc := .loaded mask } :: after)
    (same : (sh.xthreadFree page).word = mask) (low : mask % 4 ≠ 0) :
    Inv ⟨l, { sh with
      xthreadFree := fun a =>
        if a = page then
          { sh.xthreadFree page with list := ptr :: (sh.xthreadFree page).list }
        else sh.xthreadFree a
      threads := before ++ after }⟩ := by
  have member : (⟨page, ptr, .loaded mask⟩ : RemoteFree) ∈ sh.threads := by simp [shape]
  have onPage : page = pageOfBlock l ptr := (inv.protocol.threads _ member).page (by simp)
  have delay : (sh.xthreadFree page).delay ≠ .useDelayedFree := fun use => by
    have state := inv.word_mod page
    simp only [same, use, DelayState.toNat] at state
    exact low state
  refine inv.wordStep (a := page) (q := ptr) (n := 1) ⟨fun x differs => if_neg differs,
    inv.thread_page member, fun _ => onPage.symm, rfl, ?_, ?_, fun p => ?_, fun p => ?_, fun x => ?_,
    fun x => ?_, fun u inside => .inl ?_⟩
  · simpa using inv.protocol.never page
  · simpa using delay
  · simp only [outside, delayedBlocks, directBlocks, shape, blocksAt_append, blocksAt_cons, Pc.mid,
      Pc.early, if_true, Bool.false_eq_true, if_false, List.count_append, List.count_nil]
    omega
  · simp only [if_true, List.count_cons, List.count_nil]
    omega
  · have one := inv.protocol.delayed page
    simp only [if_neg delay] at one
    have same : ∀ y, (delayedBlocks l { sh with
        xthreadFree := fun a =>
          if a = page then
            { sh.xthreadFree page with list := ptr :: (sh.xthreadFree page).list }
          else sh.xthreadFree a
        threads := before ++ after }).countP (fun p => pageOfBlock l p == y) =
        (delayedBlocks l sh).countP fun p => pageOfBlock l p == y := fun y => by
      simp [delayedBlocks, shape, Pc.mid]
    rw [same]
    by_cases at' : x = page
    · rw [if_pos at', at']
      exact one
    · rw [if_neg at']
  · have count := inv.protocol.freeing page
    simp only [shape, busyOn_append, busyOn_cons, Pc.busy, Pc.early, if_true] at count ⊢
    by_cases at' : x = page
    · subst at'
      simp at count ⊢
      exact count
    · simp [if_neg at']
  · rw [shape]
    simp only [List.mem_append, List.mem_cons] at inside ⊢
    exact inside.imp id .inr

/-- The push on the delayed list. -/
theorem Inv.delayedCasPush (inv : Inv ⟨l, sh⟩)
    (shape : sh.threads = before ++ { page, ptr, pc := .inserting heap next } :: after) :
    Inv ⟨l, { sh with
      threadDelayedFree := fun a =>
        if a = heap then ptr :: sh.threadDelayedFree heap else sh.threadDelayedFree a
      threads := before ++ { page, ptr, pc := .pushed } :: after }⟩ := by
  have member : (⟨page, ptr, .inserting heap next⟩ : RemoteFree) ∈ sh.threads := by simp [shape]
  have known : heap = l.heap.heapPtr := (inv.protocol.threads _ member).heap heap rfl
  subst known
  refine inv.regroup ⟨.refl l, rfl, .inl rfl, rfl, fun p => ?_, fun p => ?_, fun x inside => inside,
    fun a => ?_, fun u inside => ?_⟩
  · simp only [delayedBlocks, shape, if_true, blocksAt_append, blocksAt_cons, Pc.mid, if_true,
      Bool.false_eq_true, if_false, List.count_append, List.count_cons, List.count_nil]
    omega
  · simp [directBlocks, shape, Pc.early]
  · simp [shape, Pc.busy, Pc.early]
  · simp only [List.mem_append, List.mem_cons] at inside
    rcases inside with inside | rfl | inside
    · exact .inl (by simp [shape, inside])
    · exact .inr ⟨fun pushed => absurd rfl pushed, fun _ known => by cases known⟩
    · exact .inl (by simp [shape, inside])

/-- **The `fetch_xor(3)`** finds `Freeing` and leaves `NoDelayedFree`. -/
theorem Inv.leave (inv : Inv ⟨l, sh⟩)
    (shape : sh.threads = before ++ { page, ptr, pc := .pushed } :: after) :
    (sh.xthreadFree page).delay = .freeing ∧
    Inv ⟨l, { sh with
      xthreadFree := fun a =>
        if a = page then
          { sh.xthreadFree page with delay := (sh.xthreadFree page).delay.xorThree }
        else sh.xthreadFree a
      threads := before ++ after }⟩ := by
  have member : (⟨page, ptr, .pushed⟩ : RemoteFree) ∈ sh.threads := by simp [shape]
  obtain ⟨delay, single⟩ := inv.delay_of_busy member rfl
  simp only at delay single
  refine ⟨delay, ?_⟩
  refine inv.wordStep (a := page) (q := ptr) (n := 0) ⟨fun x differs => if_neg differs,
    inv.thread_page member, fun none => absurd rfl none, rfl, by simp [delay, DelayState.xorThree],
    by simp [delay, DelayState.xorThree], fun p => ?_, fun p => by simp, fun x => ?_, fun x => ?_,
    fun u inside => .inl ?_⟩
  · simp [outside, delayedBlocks, directBlocks, shape, Pc.mid, Pc.early]
  · have one := inv.protocol.delayed page
    simp only [delay, reduceCtorEq, if_false] at one
    simp only [delayedBlocks, shape, blocksAt_append, blocksAt_cons, Pc.mid, Bool.false_eq_true,
      if_false, List.nil_append] at one ⊢
    by_cases at' : x = page
    · rw [if_pos at', at']
      exact one
    · rw [if_neg at']
  · simp only [shape, busyOn_append, busyOn_cons, Pc.busy, Pc.early] at single ⊢
    by_cases at' : x = page
    · subst at'
      simp [delay, DelayState.xorThree] at single ⊢
      omega
    · have other : (page == x) = false := by simpa using Ne.symm at'
      simp [if_neg at', other]
  · rw [shape]
    simp only [List.mem_append, List.mem_cons] at inside ⊢
    exact inside.imp id .inr

end Steps

/-- **A step of a freeing thread keeps the invariant.** -/
theorem Inv.remote (inv : Inv ⟨l, sh⟩) (step : RemoteStep l sh sh') : Inv ⟨l, sh'⟩ := by
  cases step with
  | begin front back ptr size shape => exact inv.begin shape
  | load before after page ptr shape =>
      exact inv.advance shape rfl rfl rfl rfl (fun _ known => by cases known) (by simp)
  | casFail before after page ptr mask shape =>
      exact inv.advance shape rfl rfl rfl rfl (fun _ known => by cases known) (by simp)
  | casFreeing before after page ptr mask shape same low => exact inv.casFreeing shape same low
  | casPush before after page ptr mask shape same low => exact inv.casPush shape same low
  | loadHeap before after page ptr shape =>
      have inUse := inv.thread_page (t := ⟨page, ptr, .freeing⟩) (by simp [shape])
      refine inv.advance shape rfl rfl rfl rfl (fun heap known => ?_) (by simp)
      rw [← Option.some.inj known]
      exact (inv.wf.page inUse).2.xheap
  | delayedLoad before after page ptr heap shape =>
      have ok : ThreadOk l ⟨page, ptr, .gotHeap heap⟩ := inv.protocol.threads _ (by simp [shape])
      exact inv.advance shape rfl rfl rfl rfl (fun other known => ok.heap other known) (by simp)
  | delayedCasFail before after page ptr heap next shape =>
      have ok : ThreadOk l ⟨page, ptr, .inserting heap next⟩ :=
        inv.protocol.threads _ (by simp [shape])
      exact inv.advance shape rfl rfl rfl rfl (fun other known => ok.heap other known) (by simp)
  | delayedCasPush before after page ptr heap next shape same => exact inv.delayedCasPush shape
  | leave before after page ptr shape => exact (inv.leave shape).2

end VerusMimalloc
