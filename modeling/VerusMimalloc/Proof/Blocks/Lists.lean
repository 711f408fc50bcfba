/-
**What the owner does with the lists of a page.**

* `Inv.noteCollected`, `Inv.threadFreeCollect`, `Inv.collectLocalFree`: `page_free_collect`;
* `Inv.extendFree`: `page_extend_free`;
* `Inv.popFree`: a block becomes live;
* `Core.insertFree`: a block at hand goes back.
-/

import VerusMimalloc.Proof.Blocks.Owner

namespace VerusMimalloc

open Library

variable {l l' : Local} {sh sh' : Shared} {a p : Nat}

/-! ### The block at hand -/

namespace Held

variable (held : Held) (pageOf : Nat → Nat)

@[simp] theorem collect_delayed : (held.collect a pageOf).delayed = held.delayed := by
  cases held <;> simp only [collect]
  split <;> rfl

@[simp] theorem collect_direct : (held.collect a pageOf).direct = held.direct := by
  cases held <;> simp only [collect]
  split <;> rfl

theorem Settled.collect {held : Held} (settled : held.Settled) : (held.collect a pageOf).Settled := by
  intro x
  have := settled x
  cases held <;> simp only [Held.collect] at this ⊢ <;> try exact this
  split <;> simp

theorem collect_claimed_iff {b : Nat} :
    held.collect a pageOf = .claimed b ↔ held = .claimed b ∧ pageOf b ≠ a := by
  cases held <;> simp only [collect, reduceCtorEq, false_and]
  split
  · rename_i same
    simp only [reduceCtorEq, claimed.injEq, false_iff, not_and, not_not]
    rintro rfl
    exact same
  · rename_i differs
    simp only [claimed.injEq]
    exact ⟨fun same => ⟨same, same ▸ differs⟩, fun both => both.1⟩

theorem collect_ready {b : Nat} (ready : held = .ready b) : held.collect a pageOf = .ready b := by
  rw [ready]
  rfl

end Held

/-- The delayed and the direct blocks when the owner only learns that a page is collected. -/
theorem outside_noteCollected (l : Local) (sh : Shared) (a : Nat) :
    delayedBlocks (noteCollected l a) sh = delayedBlocks l sh ∧
      directBlocks (noteCollected l a) sh = directBlocks l sh := by
  simp only [delayedBlocks, directBlocks, noteCollected, Held.collect_delayed, Held.collect_direct,
    and_self]

/-- The frame of a change of one page's lists, and of what is at hand. -/
theorem BlockFrame.lists (l : Local) (a : Nat) {held : Held} {f : Page → Page}
    (same : ∀ p, SameShape p (f p)) : BlockFrame l { l.modifyPage a f with held := held } :=
  ⟨rfl, rfl, rfl, .of_eq rfl, rfl, rfl, rfl, rfl, rfl, rfl, fun _ => .modifyPage same⟩

/-! ### Collecting -/

/-- A full page stays full while the owner claims its block. -/
theorem FullOk.collect (full : FullOk l sh a) (sameDelay : (sh'.xthreadFree a).delay =
    (sh.xthreadFree a).delay) (frame : BlockFrame l l') (settled : l.held.Settled)
    (held : l'.held = l.held.collect a (pageOfBlock l))
    (lists : (l.pages a).free = [] ∧ (l.pages a).localFree = [] →
      (sh.xthreadFree a).delay = .useDelayedFree →
      ((l'.pages a).free = [] ∧ (l'.pages a).localFree = []) ∨
        ∃ b, l'.held = .ready b ∧ pageOfBlock l b = a) : FullOk l' sh' a := by
  intro page use inFull _
  rw [sameDelay] at use
  rw [(frame.pages a).inFull] at inFull
  rw [frame.pageOfBlock_eq]
  rcases full (frame.inUse_iff.mp page) use inFull (settled a).2 with empty | ⟨b, claim, on⟩
  · exact (lists empty use).imp id fun ⟨b, ready, on⟩ => ⟨b, .inr ready, on⟩
  · refine .inr ⟨b, .inr ?_, on⟩
    rw [held]
    rcases claim with claimed | ready
    · rw [claimed, Held.collect, if_pos on]
    · exact l.held.collect_ready _ ready

/-- The page's list of remotely freed blocks is empty: the claimed block may go back. -/
theorem Inv.noteCollected (inv : Inv ⟨l, sh⟩) (page : InUse l a) (settled : l.held.Settled)
    (empty : (sh.xthreadFree a).list = []) : Inv ⟨noteCollected l a, sh⟩ := by
  obtain ⟨sameDelayed, sameDirect⟩ := outside_noteCollected l sh a
  have frame : BlockFrame l (VerusMimalloc.noteCollected l a) :=
    ⟨rfl, rfl, rfl, .of_eq rfl, rfl, rfl, rfl, rfl, rfl, rfl, fun _ => .refl _⟩
  obtain ⟨spans, nodes, wf⟩ : Wf l := inv.wf
  refine inv.rework (a := a) ⟨page, frame, fun _ _ => rfl, settled, settled.collect _,
    (wf.page a page).capacity, wf.count a page, fun _ _ => rfl, rfl, rfl,
    fun p => by rw [sameDelayed], fun p _ => by rw [outside, outside, sameDelayed, sameDirect],
    fun p => ?_, fun p size inside => .inl inside, fun _ => .inl empty, fun b on => ⟨fun claimed => ?_,
    fun ready => l.held.collect_ready _ ready⟩⟩
    ((inv.full a).collect rfl frame settled rfl fun empty _ => .inl empty)
  · have blocks : blocksOf (VerusMimalloc.noteCollected l a) a = blocksOf l a := blocksOf_congr rfl rfl
    rw [outside, outside, sameDelayed, sameDirect, blocks]
    rfl
  · exact (l.held.collect_claimed_iff _).mpr ⟨claimed, on⟩

/-- The list of remotely freed blocks is shorter than `used`. -/
theorem Core.length_le_used (inv : Core ⟨l, sh⟩) (page : InUse l a) :
    (sh.xthreadFree a).list.length ≤ (l.pages a).used := by
  have used := inv.used_eq page
  simp only at used
  omega

/-- **`page_thread_free_collect`**: the blocks freed remotely go to the local free list. -/
theorem Inv.threadFreeCollect {t : Shared} (inv : Inv ⟨l, sh⟩) (page : InUse l a)
    (settled : l.held.Settled)
    (word : t.xthreadFree = fun x =>
      if x = a then { sh.xthreadFree a with list := [] } else sh.xthreadFree x)
    (delayed : t.threadDelayedFree = sh.threadDelayedFree) (threads : t.threads = sh.threads)
    (live : t.live = sh.live) :
    Inv ⟨(VerusMimalloc.noteCollected l a).modifyPage a fun p =>
      { p with
        localFree := (sh.xthreadFree a).list ++ p.localFree
        used := p.used - (sh.xthreadFree a).list.length }, t⟩ := by
  obtain ⟨l', l'Eq⟩ : ∃ l', l' = (VerusMimalloc.noteCollected l a).modifyPage a fun p =>
      { p with
        localFree := (sh.xthreadFree a).list ++ p.localFree
        used := p.used - (sh.xthreadFree a).list.length } := ⟨_, rfl⟩
  rw [← l'Eq]
  have enough := inv.toCore.length_le_used page
  obtain ⟨spans, nodes, wf⟩ : Wf l := inv.wf
  have ok := wf.page a page
  have count := wf.count a page
  have header : l'.pages a = { l.pages a with
      localFree := (sh.xthreadFree a).list ++ (l.pages a).localFree
      used := (l.pages a).used - (sh.xthreadFree a).list.length } := by
    rw [l'Eq, Local.modifyPage_pages, if_pos rfl]
    rfl
  have heldEq : l'.held = l.held.collect a (pageOfBlock l) := by rw [l'Eq]; rfl
  have wordA : t.xthreadFree a = { sh.xthreadFree a with list := [] } := by
    rw [word]
    exact if_pos rfl
  have frame : BlockFrame l l' := by
    rw [l'Eq]
    exact ⟨rfl, rfl, rfl, .of_eq rfl, rfl, rfl, rfl, rfl, rfl, rfl,
      fun _ => .modifyPage (l := VerusMimalloc.noteCollected l a) fun p =>
        ⟨rfl, rfl, rfl, rfl, rfl, rfl, fun _ => rfl, rfl, rfl⟩⟩
  have takenEq : l'.taken = l.taken := by rw [l'Eq]; rfl
  have sameDelayed : delayedBlocks l' t = delayedBlocks l sh := by
    simp only [delayedBlocks, delayed, threads, frame.heapPtr, takenEq, heldEq, Held.collect_delayed]
  have sameDirect : directBlocks l' t = directBlocks l sh := by
    simp only [directBlocks, live, threads, heldEq, Held.collect_direct]
  have sameOutside : ∀ p, outside l' t p = outside l sh p := fun p => by
    rw [outside, outside, sameDelayed, sameDirect]
  refine inv.rework (a := a) ⟨page, frame, fun x differs => ?_, settled, ?_, ?_, ?_, fun x differs => ?_,
    ?_, threads, fun p => by rw [sameDelayed], fun p _ => sameOutside p, fun p => ?_,
    fun p size inside => .inl (live ▸ inside), fun _ => .inl ?_, fun b on => ⟨fun claimed => ?_,
    fun ready => ?_⟩⟩ ((inv.full a).collect ?_ frame settled heldEq fun empty use => ?_)
  · rw [l'Eq, Local.modifyPage_pages, if_neg differs]
    rfl
  · rw [heldEq]
    exact settled.collect _
  · rw [header]
    exact ok.capacity
  · simp only [header, List.length_append]
    omega
  · rw [word]
    exact if_neg differs
  · rw [wordA]
  · have blocks : blocksOf l' a = blocksOf l a := blocksOf_congr (by rw [header]) (by rw [header])
    rw [sameOutside, blocks]
    simp only [listed, header, wordA, List.count_append, List.count_nil]
    omega
  · rw [wordA]
  · rw [heldEq]
    exact (l.held.collect_claimed_iff _).mpr ⟨claimed, on⟩
  · rw [heldEq]
    exact l.held.collect_ready _ ready
  · rw [wordA]
  · rcases inv.protocol.pending a use with none | ⟨b, claimed, on⟩
    · refine .inl ?_
      simp only at none
      simp only [header, none, List.nil_append]
      exact empty
    · refine .inr ⟨b, ?_, on⟩
      change l.held = .claimed b at claimed
      change pageOfBlock l b = a at on
      rw [heldEq, claimed, Held.collect, if_pos on]

/-- A change of the lists of one page that keeps its blocks. -/
theorem Inv.relist (inv : Inv ⟨l, sh⟩) (page : InUse l a) (settled : l.held.Settled) {f : Page → Page}
    (shape : ∀ p, SameShape p (f p)) (capacity : (f (l.pages a)).capacity ≤ (l.pages a).reserved)
    (used : (f (l.pages a)).used = (l.pages a).used)
    (blocks : ∀ p, (f (l.pages a)).free.count p + (f (l.pages a)).localFree.count p +
      (blocksOf l a).count p = (l.pages a).free.count p + (l.pages a).localFree.count p +
      (blocksOf (l.modifyPage a f) a).count p)
    (lists : (l.pages a).getInFull = true → (l.pages a).free = [] ∧ (l.pages a).localFree = [] →
      (f (l.pages a)).free = [] ∧ (f (l.pages a)).localFree = []) :
    Inv ⟨l.modifyPage a f, sh⟩ := by
  obtain ⟨spans, nodes, wf⟩ : Wf l := inv.wf
  have header : (l.modifyPage a f).pages a = f (l.pages a) := if_pos rfl
  have frame : BlockFrame l (l.modifyPage a f) := .modifyPage l a shape
  have sameOutside : ∀ p, outside (l.modifyPage a f) sh p = outside l sh p := fun _ => rfl
  have perm : ((f (l.pages a)).free ++ (f (l.pages a)).localFree ++ blocksOf l a).Perm
      ((l.pages a).free ++ (l.pages a).localFree ++ blocksOf (l.modifyPage a f) a) := by
    rw [List.perm_iff_count]
    intro p
    simp only [List.count_append]
    exact blocks p
  have lengths := perm.length_eq
  simp only [List.length_append, blocksOf, List.length_map, List.length_range, header] at lengths
  have count := wf.count a page
  refine inv.rework (a := a) ⟨page, frame, fun x differs => if_neg differs, settled, settled, ?_, ?_,
    fun _ _ => rfl, rfl, rfl, fun _ => rfl, fun p _ => sameOutside p, fun p => ?_,
    fun p size inside => .inl inside, fun use => inv.protocol.pending a use,
    fun _ _ => ⟨id, id⟩⟩ fun page' use inFull unlinked => ?_
  · rw [header]
    exact capacity
  · rw [header, used]
    omega
  · have sum := blocks p
    rw [sameOutside]
    simp only [listed, header]
    omega
  · rw [header, (shape _).inFull] at inFull
    rw [header, frame.pageOfBlock_eq]
    exact ((inv.full a) page use inFull unlinked).imp (lists inFull) id

/-- **`page_free_collect`** moves the local free list. -/
theorem Inv.collectLocalFree (inv : Inv ⟨l, sh⟩) (page : InUse l a) (settled : l.held.Settled)
    (force : Bool) : Inv ⟨collectLocalFree l a force, sh⟩ := by
  obtain ⟨spans, nodes, wf⟩ : Wf l := inv.wf
  have capacity := (wf.page a page).capacity
  have same : ∀ f : Page → Page, (∀ p, (f p).xblockSize = p.xblockSize ∧ (f p).capacity = p.capacity) →
      blocksOf (l.modifyPage a f) a = blocksOf l a := fun f keeps =>
    blocksOf_congr (by rw [Local.modifyPage_pages, if_pos rfl, (keeps _).1])
      (by rw [Local.modifyPage_pages, if_pos rfl, (keeps _).2])
  unfold VerusMimalloc.collectLocalFree
  split
  · exact inv
  split
  · rename_i none
    refine inv.relist page settled (fun p => ⟨rfl, rfl, rfl, rfl, rfl, rfl, fun _ => rfl, rfl, rfl⟩) capacity
      rfl (fun p => ?_) fun _ both => ⟨both.2, rfl⟩
    rw [same (fun p => { p with free := p.localFree, localFree := [] }) fun _ => ⟨rfl, rfl⟩]
    simp only [none, List.count_nil]
    omega
  split
  · refine inv.relist page settled (fun p => ⟨rfl, rfl, rfl, rfl, rfl, rfl, fun _ => rfl, rfl, rfl⟩) capacity
      rfl (fun p => ?_) fun _ both => ⟨by simp [both.1, both.2], rfl⟩
    rw [same (fun p => { p with free := p.localFree ++ p.free, localFree := [] })
      fun _ => ⟨rfl, rfl⟩]
    simp only [List.count_append, List.count_nil]
    omega
  · exact inv

/-- **`page_extend_free`** of a page that is not full. -/
theorem Inv.extendFree (inv : Inv ⟨l, sh⟩) (page : InUse l a) (settled : l.held.Settled)
    (notFull : (l.pages a).getInFull = false) : Inv ⟨pageExtendFree l a, sh⟩ := by
  obtain ⟨spans, nodes, wf⟩ : Wf l := inv.wf
  have ok := wf.page a page
  obtain ⟨n, bound, _, extended⟩ := pageExtendFree_eq l a (by have := ok.size_bounds; omega)
  rw [Nat.max_eq_left ok.capacity] at bound
  rw [extended]
  have blocks : blocksOf (l.modifyPage a fun p =>
      { p with free := freshBlocks l a n ++ p.free, capacity := p.capacity + n }) a =
      blocksOf l a ++ freshBlocks l a n :=
    blocksOf_extend (by rw [Local.modifyPage_pages, if_pos rfl])
      (by rw [Local.modifyPage_pages, if_pos rfl])
  refine inv.relist page settled (fun p => ⟨rfl, rfl, rfl, rfl, rfl, rfl, fun _ => rfl, rfl, rfl⟩) bound rfl
    (fun p => ?_) fun full => absurd full (by rw [notFull]; decide)
  rw [blocks]
  simp only [List.count_append]
  omega

/-! ### Blocks come and go -/

/-- **A block becomes live.** -/
theorem Inv.popFree {n : Nat} {rest : List Nat} (inv : Inv ⟨l, sh⟩) (settled : l.held.Settled)
    (free : (l.pages a).free = p :: rest) (fits : n ≤ (l.pages a).xblockSize) :
    InUse l a ∧ p ∈ blocksOf l a ∧
    Inv ⟨l.modifyPage a fun page => { page with free := rest, used := page.used + 1 },
      { sh with live := (p, n) :: sh.live }⟩ := by
  obtain ⟨spans, nodes, wf⟩ : Wf l := inv.wf
  have page : InUse l a := by
    by_contra unused
    have clean := (wf.blank a unused).free
    rw [free] at clean
    cases clean
  have inside : p ∈ blocksOf l a := inv.accounting.of_listed page (by
    simp only [listed, free, List.count_cons_self]
    omega)
  refine ⟨page, inside, ?_⟩
  have on := (inv.wf.of_mem_blocksOf page inside).2.2
  obtain ⟨l', l'Eq⟩ : ∃ l', l' = l.modifyPage a fun page =>
      { page with free := rest, used := page.used + 1 } := ⟨_, rfl⟩
  rw [← l'Eq]
  have header : l'.pages a = { l.pages a with free := rest, used := (l.pages a).used + 1 } := by
    rw [l'Eq, Local.modifyPage_pages, if_pos rfl]
  have frame : BlockFrame l l' := by
    rw [l'Eq]
    exact .modifyPage l a fun p => ⟨rfl, rfl, rfl, rfl, rfl, rfl, fun _ => rfl, rfl, rfl⟩
  have sameDelayed : delayedBlocks l' { sh with live := (p, n) :: sh.live } =
      delayedBlocks l sh := by
    rw [l'Eq]
    rfl
  have moreDirect : directBlocks l' { sh with live := (p, n) :: sh.live } =
      p :: directBlocks l sh := by
    rw [l'Eq]
    rfl
  have blocks : blocksOf l' a = blocksOf l a := blocksOf_congr (by rw [header]) (by rw [header])
  refine inv.rework (a := a) ⟨page, frame, fun x differs => ?_, settled, ?_, ?_, ?_, fun _ _ => rfl, rfl,
    rfl, fun q => by rw [sameDelayed], fun q other => ?_, fun q => ?_, fun q size' inLive => ?_,
    fun use => ?_, fun b _ => ?_⟩ fun page' use inFull unlinked => ?_
  · rw [l'Eq, Local.modifyPage_pages, if_neg differs]
  · rw [l'Eq]
    exact settled
  · rw [header]
    exact (wf.page a page).capacity
  · have count := wf.count a page
    simp only [header, free, List.length_cons] at count ⊢
    omega
  · have differs : p ≠ q := fun same => other (same ▸ on)
    simp only [outside, sameDelayed, moreDirect, List.count_cons_of_ne differs]
  · simp only [listed, header, outside, sameDelayed, moreDirect, blocks, free, List.count_cons]
    omega
  · rcases List.mem_cons.mp inLive with same | old
    · cases same
      exact .inr ⟨on, fits⟩
    · exact .inl old
  · rw [l'Eq]
    exact inv.protocol.pending a use
  · rw [l'Eq]
    exact ⟨id, id⟩
  · rw [header] at inFull
    have unlinked' : l.held ≠ .unlinked a := (settled a).2
    rcases inv.full a page use inFull unlinked' with empty | ⟨b, claim, onPage⟩
    · change (l.pages a).free = [] ∧ _ at empty
      rw [free] at empty
      cases empty.1
    · refine .inr ⟨b, ?_, by rw [frame.pageOfBlock_eq]; exact onPage⟩
      rw [l'Eq]
      exact claim

/-- **A block at hand goes back** to the free list of its page. -/
theorem Core.insertFree (inv : Inv ⟨l, sh⟩) (direct : l.held.direct = [p])
    (on : pageOfBlock l p = a) (collected : (sh.xthreadFree a).delay = .useDelayedFree →
      (sh.xthreadFree a).list = []) :
    ∃ l', insertFree l a p = .ok ((l.pages a).used - 1, l') ∧ 0 < (l.pages a).used ∧ InUse l a ∧
      l'.held = .nothing ∧ l'.taken = l.taken ∧ BlockFrame l l' ∧
      (∀ x, x ≠ a → l'.pages x = l.pages x) ∧
      l'.pages a = { l.pages a with free := p :: (l.pages a).free, used := (l.pages a).used - 1 } ∧
      Core ⟨l', sh⟩ ∧ ∀ x, x ≠ a → FullOk l' sh x := by
  have positive : 0 < outside l sh p := by
    rw [outside_pos]
    simp [directBlocks, direct]
  have page : InUse l a := on ▸ inv.accounting.placed p positive
  have settled : l.held.Settled := by
    intro x
    cases held : l.held <;> simp [held, Held.direct] at direct ⊢
  have noDelayed : l.held.delayed = [] := by
    cases held : l.held <;> simp [held, Held.direct, Held.delayed] at direct ⊢
  have usedPositive : 0 < (l.pages a).used := by
    have used := inv.toCore.used_eq page
    have some : 0 < (delayedBlocks l sh ++ directBlocks l sh).countP fun q => pageOfBlock l q == a :=
      List.countP_pos_iff.mpr ⟨p, outside_pos.mp positive, by simp [on]⟩
    simp only at used
    omega
  obtain ⟨l', l'Eq⟩ : ∃ l' : Local, l' = { l.modifyPage a fun page =>
      { page with free := p :: page.free, used := (l.pages a).used - 1 } with held := .nothing } :=
    ⟨_, rfl⟩
  have header : l'.pages a =
      { l.pages a with free := p :: (l.pages a).free, used := (l.pages a).used - 1 } := by
    rw [l'Eq]
    exact if_pos rfl
  have others : ∀ x, x ≠ a → l'.pages x = l.pages x := fun x differs => by
    rw [l'Eq]
    exact if_neg differs
  have frame : BlockFrame l l' := by
    rw [l'Eq]
    exact .lists l a fun p => ⟨rfl, rfl, rfl, rfl, rfl, rfl, fun _ => rfl, rfl, rfl⟩
  have heldEq : l'.held = .nothing := by rw [l'Eq]
  have sameDelayed : delayedBlocks l' sh = delayedBlocks l sh := by
    rw [l'Eq]
    simp only [delayedBlocks, noDelayed]
    rfl
  have fewerDirect : ∀ q, (directBlocks l sh).count q = (directBlocks l' sh).count q + [p].count q := by
    intro q
    have none : l'.held.direct = [] := by rw [heldEq]; rfl
    simp only [directBlocks, direct, none, List.count_append, List.count_nil]
    omega
  have blocks : blocksOf l' a = blocksOf l a := blocksOf_congr (by rw [header]) (by rw [header])
  obtain ⟨spans, nodes, wf⟩ : Wf l := inv.wf
  have step : Reworked l sh l' sh a := by
    refine ⟨page, frame, others, settled, ?_, ?_, ?_, fun _ _ => rfl, rfl, rfl,
      fun q => by rw [sameDelayed], fun q other => ?_, fun q => ?_, fun _ _ inLive => .inl inLive,
      fun use => .inl (collected use), fun b other => ⟨fun claimed => ?_, fun ready => ?_⟩⟩
    · rw [heldEq]
      exact fun x => ⟨by simp, by simp⟩
    · rw [header]
      exact (wf.page a page).capacity
    · have count := wf.count a page
      simp only [header, List.length_cons]
      omega
    · have differs : p ≠ q := fun same => other (same ▸ on)
      have moved := fewerDirect q
      simp only [List.count_cons_of_ne differs, List.count_nil, Nat.add_zero] at moved
      rw [outside, outside, sameDelayed, moved]
    · have moved := fewerDirect q
      simp only [listed, header, outside, sameDelayed, blocks, moved, List.count_cons, List.count_nil]
      omega
    · rw [claimed] at direct
      simp only [Held.direct, List.cons.injEq, and_true] at direct
      exact absurd (direct ▸ on) other
    · rw [ready] at direct
      simp only [Held.direct, List.cons.injEq, and_true] at direct
      exact absurd (direct ▸ on) other
  refine ⟨l', ?_, usedPositive, page, heldEq, by rw [l'Eq]; rfl, frame, others, header,
    inv.toCore.rework step, fun x differs => (inv.full x).rework step differs⟩
  unfold VerusMimalloc.insertFree
  rw [if_neg (by omega), l'Eq]

end VerusMimalloc
