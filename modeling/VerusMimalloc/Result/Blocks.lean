/-
**The blocks.**

* `live_blocks_apart`: live blocks do not overlap, and each lies in the block area of one page;
* `blocks_in_one_place`: a block is live, in the hands of a thread, or on one list;
* `page_accounting`: the counters of a page agree with its lists and with the blocks in flight.
-/

import VerusMimalloc.Proof.Scripts
import VerusMimalloc.Result.Spans

namespace VerusMimalloc

open Library

variable {sys : Sys} {s : State} {l : Local} {sh : Shared} {spans : Nat → List Span}
  {nodes : Nat → List Nat} {a p q : Nat}

/-! ### Where live blocks are -/

/-- The size of a block, by the page it belongs to. -/
def blockSizeOf (l : Local) (p : Nat) : Nat := (l.pages (pageOfBlock l p)).xblockSize

/-- The block lies in the block area of the page whose `c` slices start at slice `k` of the segment
`r`. -/
structure InBlockArea (l : Local) (p r k c : Nat) : Prop where
  segment : r ∈ l.segments
  span : (k, c) ∈ headerSpans l r
  page : 0 < k ∧ SpanInUse l r k
  lower : r + k * sliceSize + calculateStartOffset (l.pages (getPageHeaderPtr r k)).xblockSize ≤ p
  upper : p + blockSizeOf l p ≤ r + (k + c) * sliceSize

/-- What holds of a live block. -/
structure LivePlaced (l : Local) (p size : Nat) : Prop where
  positive : 0 < blockSizeOf l p
  fits : size ≤ blockSizeOf l p
  area : ∃! span : Nat × Nat × Nat, InBlockArea l p span.1 span.2.1 span.2.2
  headers : ∀ r ∈ l.segments, Apart p (blockSizeOf l p) r sliceSize

namespace WfWith

variable (wf : WfWith l spans nodes)
include wf

/-- Slices that two pages share belong to one page. -/
theorem pages_apart {r k c b r' k' c' : Nat} (first : PageAt l r k c a) (second : PageAt l r' k' c' b)
    (inFirst : ⟨k, c, .used⟩ ∈ spans r) (inSecond : ⟨k', c', .used⟩ ∈ spans r') (differs : a ≠ b) :
    r + (k + c) * 65536 ≤ r' + k' * 65536 ∨ r' + (k' + c') * 65536 ≤ r + k * 65536 := by
  have bounds := first.inside
  have bounds' := second.inside
  by_cases same : r = r'
  · subst same
    by_contra overlap
    have tiles := (wf.segments.span.layout.segment r first.member).tiles
    have equal : (⟨k, c, .used⟩ : Span) = ⟨k', c', .used⟩ :=
      tiles.eq_of_overlap inFirst inSecond (x := max k k')
        (by have := first.positive; simp only; omega) (by have := second.positive; simp only; omega)
    cases equal
    exact differs (first.header.trans second.header.symm)
  · obtain ⟨⟨m, rfl⟩, _⟩ := first.base
    obtain ⟨⟨m', rfl⟩, _⟩ := second.base
    simp only [segmentSize] at same ⊢
    omega

/-- **Different blocks do not overlap.** -/
theorem blocks_apart {b : Nat} (page : InUse l a) (page' : InUse l b) (inside : p ∈ blocksOf l a)
    (inside' : q ∈ blocksOf l b) (differs : p ≠ q) :
    Apart p (l.pages a).xblockSize q (l.pages b).xblockSize := by
  obtain ⟨r, k, c, place, inSpans⟩ := wf.exists_pageAt page
  obtain ⟨r', k', c', place', inSpans'⟩ := wf.exists_pageAt page'
  by_cases same : a = b
  · subst same
    obtain ⟨i, _, rfl⟩ := mem_blocksOf.mp inside
    obtain ⟨j, _, rfl⟩ := mem_blocksOf.mp inside'
    rcases Nat.lt_trichotomy i j with less | equal | greater
    · exact .inl (place.block_apart less)
    · exact absurd (congrArg _ equal) differs
    · exact .inr (place.block_apart greater)
  · obtain ⟨lower, upper, _⟩ := place.of_mem_blocksOf (wf.page a page) inside
    obtain ⟨lower', upper', _⟩ := place'.of_mem_blocksOf (wf.page b page') inside'
    rcases wf.pages_apart place place' inSpans inSpans' same with before | after
    · exact .inl (by omega)
    · exact .inr (by omega)

/-- **A block lies in the block area of its page**, and in no other. -/
theorem inBlockArea (page : InUse l a) (inside : p ∈ blocksOf l a) :
    ∃! span : Nat × Nat × Nat, InBlockArea l p span.1 span.2.1 span.2.2 := by
  obtain ⟨r, k, c, place, inSpans⟩ := wf.exists_pageAt page
  have ok := wf.page a page
  obtain ⟨_, upper, _, _, _, onPage⟩ := place.of_mem_blocksOf ok inside
  obtain ⟨i, _, at'⟩ := mem_blocksOf.mp inside
  have size : blockSizeOf l p = (l.pages a).xblockSize := by rw [blockSizeOf, onPage]
  refine ⟨(r, k, c), ⟨place.member, (wf.mem_headerSpans place.member).mpr ⟨_, inSpans⟩,
    ⟨place.behind, (wf.spanInUse_iff place.member inSpans).mpr rfl⟩, ?_, ?_⟩, ?_⟩
  · rw [← place.header, ← at', place.blockAt_eq]
    exact Nat.le_add_right _ _
  · rw [size]
    exact upper
  · rintro ⟨r', k', c'⟩ area
    obtain ⟨member, span, ⟨behind, inUse⟩, lower', upper'⟩ : InBlockArea l p r' k' c' := area
    obtain ⟨kind, inSpans'⟩ := (wf.mem_headerSpans member).mp span
    obtain rfl : kind = .used := (wf.spanInUse_iff member inSpans').mp inUse
    have place' := wf.segments.pageAt member behind inSpans'
    have positive := ok.size_bounds.1
    have same : pageOfBlock l p = getPageHeaderPtr r' k' := by
      simp only [sliceSize] at lower' upper'
      exact (place'.pageOfBlock_eq (by omega) (by omega)).2
    have headers : getPageHeaderPtr r' k' = getPageHeaderPtr r k := by
      rw [← same, onPage, place.header]
    have inside₁ := place.inside
    have inside₂ := place'.inside
    obtain ⟨rfl, rfl⟩ := (header_inj place'.base.1 place.base.1
      (by simp only [slicesPerSegment]; omega) (by simp only [slicesPerSegment]; omega)).mp headers
    have counts := place.count
    rw [place.header, place'.count] at counts
    rw [counts]

end WfWith

/-- A live block is outside the lists of its page. -/
theorem outside_of_live {size : Nat} (live : (p, size) ∈ sh.live) : 0 < outside l sh p := by
  rw [outside_pos]
  simp only [directBlocks, List.mem_append, List.mem_map]
  exact .inr (.inl (.inl ⟨_, live, rfl⟩))

/-- A block is outside its page at most once. -/
theorem Core.outside_le (inv : Core ⟨l, sh⟩) (p : Nat) : outside l sh p ≤ 1 := by
  rcases Nat.eq_zero_or_pos (outside l sh p) with none | positive
  · omega
  · have page := inv.accounting.placed p positive
    have balance := inv.accounting.balance _ page p
    rw [if_pos rfl] at balance
    have once := List.nodup_iff_count_le_one.mp (inv.wf.blocksOf_nodup page) p
    simp only at balance once
    omega

/-- **In every reachable state the live blocks do not overlap**, each has at least the size that was
asked for, and each lies in the block area of exactly one page in use, away from all headers. -/
theorem live_blocks_apart (reachable : Reachable sys) :
    (sys.st.sh.live.Pairwise fun x y =>
      Apart x.1 (blockSizeOf sys.st.loc x.1) y.1 (blockSizeOf sys.st.loc y.1)) ∧
    ∀ p size, (p, size) ∈ sys.st.sh.live → LivePlaced sys.st.loc p size := by
  have inv := reachable.sysInv.inv
  obtain ⟨⟨l, sh⟩, owner⟩ := sys
  simp only at inv ⊢
  obtain ⟨spans, nodes, wf⟩ : Wf l := inv.wf
  have known : ∀ x ∈ sh.live, InUse l (pageOfBlock l x.1) ∧ x.1 ∈ blocksOf l (pageOfBlock l x.1) :=
    fun x live => ⟨inv.accounting.placed _ (outside_of_live live),
      inv.accounting.of_outside (outside_of_live live)⟩
  have distinct : (sh.live.map Prod.fst).Nodup := by
    refine List.nodup_iff_count_le_one.mpr fun p => ?_
    have once := inv.toCore.outside_le p
    simp only [outside, directBlocks, List.count_append] at once
    omega
  refine ⟨?_, fun p size live => ?_⟩
  · refine (List.pairwise_map.mp distinct).imp_of_mem fun {x y} inX inY differs => ?_
    exact wf.blocks_apart (known x inX).1 (known y inY).1 (known x inX).2 (known y inY).2 differs
  · obtain ⟨page, inside⟩ := known (p, size) live
    have sizes := (wf.page _ page).size_bounds
    refine ⟨Nat.lt_of_lt_of_le (by decide) sizes.1, inv.accounting.sizes p size live, wf.inBlockArea page inside,
      fun r member => ?_⟩
    obtain ⟨r', k, c, place, inSpans⟩ := wf.exists_pageAt page
    obtain ⟨lower, upper, _⟩ := place.of_mem_blocksOf (wf.page _ page) inside
    obtain ⟨⟨m, rfl⟩, _⟩ := place.base
    obtain ⟨⟨m', rfl⟩, _⟩ := wf.segments.span.layout.base r member
    have behind := place.behind
    have bound := place.inside
    simp only [Apart, blockSizeOf, sliceSize, segmentSize] at lower upper ⊢
    omega

/-- Two live blocks in the full page, one in the second page, and a small one. -/
theorem live_blocks_apart_busy :
    (plainBusy 5).st.sh.live.map Prod.fst = [672203136, 671678464, 671547392, 671416320] ∧
    ((plainBusy 5).st.sh.live.Pairwise fun x y =>
      Apart x.1 (blockSizeOf (plainBusy 5).st.loc x.1) y.1 (blockSizeOf (plainBusy 5).st.loc y.1)) ∧
    ∀ p size, (p, size) ∈ (plainBusy 5).st.sh.live → LivePlaced (plainBusy 5).st.loc p size :=
  ⟨by decide +kernel, live_blocks_apart (plainBusy_reachable 5)⟩

/-! ### One place for every block -/

/-- The places that a block of a page can be in. -/
inductive Place where
  | live
  /-- A freeing thread holds it. -/
  | thread
  /-- On the page's `xthread_free` list. -/
  | threadFree
  /-- On the heap's `thread_delayed_free` list. -/
  | delayed
  /-- The owner holds it. -/
  | owner
  /-- On the page's `free` or `local_free` list. -/
  | pageFree
  deriving DecidableEq

/-- The blocks in a place, for the page `a`. -/
def blocksIn (s : State) (a : Nat) : Place → List Nat
  | .live => s.sh.live.map Prod.fst
  | .thread => blocksAt Pc.early s.sh.threads ++ blocksAt Pc.mid s.sh.threads
  | .threadFree => (s.sh.xthreadFree a).list
  | .delayed => s.sh.threadDelayedFree s.loc.heap.heapPtr
  | .owner => s.loc.taken ++ s.loc.held.delayed ++ s.loc.held.direct
  | .pageFree => (s.loc.pages a).free ++ (s.loc.pages a).localFree

/-- A block is in one place, once. -/
def OnePlace (s : State) (a p : Nat) : Prop :=
  ∃ place, (blocksIn s a place).count p = 1 ∧ ∀ other, other ≠ place → p ∉ blocksIn s a other

/-- A block that is counted once over all places is in one of them. -/
theorem onePlace_of_count {s : State} (count : (blocksIn s a .live).count p +
    (blocksIn s a .thread).count p + (blocksIn s a .threadFree).count p +
    (blocksIn s a .delayed).count p + (blocksIn s a .owner).count p +
    (blocksIn s a .pageFree).count p = 1) : OnePlace s a p := by
  obtain ⟨place, once⟩ : ∃ place, (blocksIn s a place).count p = 1 := by
    by_contra none
    have zero : ∀ place, (blocksIn s a place).count p = 0 := fun place => by
      have small : (blocksIn s a place).count p ≤ 1 := by cases place <;> omega
      have other : (blocksIn s a place).count p ≠ 1 := fun one => none ⟨place, one⟩
      omega
    simp only [zero] at count
    omega
  refine ⟨place, once, fun other differs => List.count_eq_zero.mp ?_⟩
  cases place <;> cases other <;> first | exact absurd rfl differs | omega

/-- Every block of a page in use is in one place. -/
theorem Core.onePlace (inv : Core s) (page : InUse s.loc a) (inside : p ∈ blocksOf s.loc a) :
    OnePlace s a p := by
  refine onePlace_of_count ?_
  have balance := inv.accounting.balance a page p
  rw [List.count_eq_one_of_mem (inv.wf.blocksOf_nodup page) inside,
    if_pos (inv.wf.of_mem_blocksOf page inside).2.2] at balance
  simp only [listed, outside, delayedBlocks, directBlocks, List.count_append] at balance
  simp only [blocksIn, List.count_append]
  omega

/-- A block that is in flight, or live, is a block of a page in use. -/
theorem Core.of_blocksIn (inv : Core s) {place : Place} (other : place ≠ .pageFree)
    (member : p ∈ blocksIn s a place) :
    InUse s.loc (pageOfBlock s.loc p) ∧ p ∈ blocksOf s.loc (pageOfBlock s.loc p) := by
  by_cases list : place = .threadFree
  · subst list
    obtain ⟨page, inside⟩ := inv.of_mem_list member
    rw [(inv.wf.of_mem_blocksOf page inside).2.2]
    exact ⟨page, inside⟩
  · have positive : 0 < outside s.loc s.sh p := by
      have once := List.count_pos_iff.mpr member
      cases place <;> simp only [blocksIn, List.count_append, ne_eq, not_true_eq_false] at once other list
      all_goals
        simp only [outside, delayedBlocks, directBlocks, List.count_append]
        omega
    exact ⟨inv.accounting.placed p positive, inv.accounting.of_outside positive⟩

/-- **No block is lost or duplicated.** In every reachable state every block of a page in use is in
one place, and the blocks in flight are such blocks; a step takes a page away only when all its
blocks are on its own free lists. -/
theorem blocks_in_one_place (reachable : Reachable sys) :
    (∀ a, InUse sys.st.loc a → ∀ p ∈ blocksOf sys.st.loc a, OnePlace sys.st a p) ∧
    (∀ place ≠ Place.pageFree, ∀ a, ∀ p ∈ blocksIn sys.st a place,
      InUse sys.st.loc (pageOfBlock sys.st.loc p) ∧
        p ∈ blocksOf sys.st.loc (pageOfBlock sys.st.loc p)) ∧
    ∀ sys', Step sys sys' → ∀ a, InUse sys.st.loc a → ∀ p ∈ blocksOf sys.st.loc a,
      (InUse sys'.st.loc a ∧ p ∈ blocksOf sys'.st.loc a) ∨
        ∀ q ∈ blocksOf sys.st.loc a, q ∈ blocksIn sys.st a .pageFree := by
  have inv := reachable.sysInv.inv
  refine ⟨fun a page p inside => inv.onePlace page inside,
    fun place other a p member => inv.of_blocksIn other member, fun sys' step a page p inside => ?_⟩
  have kept := (reachable.sysInv.step step).2
  by_cases empty : (sys.st.loc.pages a).used = 0
  · refine .inr fun q inQ => ?_
    obtain ⟨word, none⟩ := inv.toCore.quiet page empty
    have onPage := (inv.wf.of_mem_blocksOf page inQ).2.2
    have noOutside : outside sys.st.loc sys.st.sh q = 0 := by
      by_contra some
      exact none q (Nat.pos_of_ne_zero some) onPage
    have balance := inv.accounting.balance a page q
    rw [List.count_eq_one_of_mem (inv.wf.blocksOf_nodup page) inQ, noOutside, ite_self] at balance
    simp only [listed, word, List.count_nil] at balance
    rw [← List.count_pos_iff, blocksIn, List.count_append]
    omega
  · exact .inl ⟨(kept.page a page empty).1, kept.blocks page empty p inside⟩

/-- A thread is in the middle of a delayed free, another one freed a block to its page. -/
theorem blocks_in_one_place_busy :
    ((plainBusy 5).st.sh.threads.map (fun t => (t.ptr, t.pc)) = [(671154176, .pushed)] ∧
      ((plainBusy 5).st.sh.xthreadFree firstPage).list = [671285248]) ∧
    (∀ a, InUse (plainBusy 5).st.loc a → ∀ p ∈ blocksOf (plainBusy 5).st.loc a,
      OnePlace (plainBusy 5).st a p) ∧
    (∀ place ≠ Place.pageFree, ∀ a, ∀ p ∈ blocksIn (plainBusy 5).st a place,
      InUse (plainBusy 5).st.loc (pageOfBlock (plainBusy 5).st.loc p) ∧
        p ∈ blocksOf (plainBusy 5).st.loc (pageOfBlock (plainBusy 5).st.loc p)) ∧
    ∀ sys', Step (plainBusy 5) sys' → ∀ a, InUse (plainBusy 5).st.loc a →
      ∀ p ∈ blocksOf (plainBusy 5).st.loc a,
        (InUse sys'.st.loc a ∧ p ∈ blocksOf sys'.st.loc a) ∨
          ∀ q ∈ blocksOf (plainBusy 5).st.loc a, q ∈ blocksIn (plainBusy 5).st a .pageFree :=
  ⟨by decide +kernel, blocks_in_one_place (plainBusy_reachable 5)⟩

/-! ### The counters of a page -/

/-- The live blocks of a page. -/
def liveOn (s : State) (a : Nat) : List Nat :=
  (s.sh.live.map Prod.fst).filter fun p => pageOfBlock s.loc p == a

/-- The blocks of a page that are being freed: on its `xthread_free` list, on the heap's delayed
list, or held by a thread in the middle of a free. -/
def inFlight (s : State) (a : Nat) : List Nat :=
  (s.sh.xthreadFree a).list ++
    (delayedBlocks s.loc s.sh ++ s.loc.held.direct ++ blocksAt Pc.early s.sh.threads).filter
      fun p => pageOfBlock s.loc p == a

/-- The counters of a page agree with where its blocks are. -/
structure PageAccounting (s : State) (a : Nat) : Prop where
  lists : (s.loc.pages a).used + (s.loc.pages a).free.length + (s.loc.pages a).localFree.length =
    (s.loc.pages a).capacity
  capacity : (s.loc.pages a).capacity ≤ (s.loc.pages a).reserved
  distinct : (liveOn s a ++ (s.loc.pages a).free ++ (s.loc.pages a).localFree ++ inFlight s a).Nodup
  indices : ∀ p ∈ liveOn s a ++ (s.loc.pages a).free ++ (s.loc.pages a).localFree ++ inFlight s a,
    ∃ i < (s.loc.pages a).capacity, p = blockAt s.loc a i
  used : (s.loc.pages a).used = (liveOn s a).length + (inFlight s a).length
  empty : (s.loc.pages a).used = 0 → liveOn s a = [] ∧ inFlight s a = []

/-- **In every reachable state the counters of every page agree with its blocks**, and no
subtraction goes below zero. -/
theorem page_accounting (reachable : Reachable sys) :
    (∀ a, InUse sys.st.loc a → PageAccounting sys.st a) ∧
      sys.owner ≠ some (.fail .underflow) := by
  have inv := reachable.sysInv.inv
  refine ⟨fun a page => ?_, fun failed => reachable.sysInv.busy _ failed rfl⟩
  obtain ⟨spans, nodes, wf⟩ := inv.wf
  have perm : (liveOn sys.st a ++ (sys.st.loc.pages a).free ++ (sys.st.loc.pages a).localFree ++
      inFlight sys.st a).Perm (blocksOf sys.st.loc a) := by
    refine (List.perm_iff_count.mpr fun p => ?_).trans (inv.accounting.blocks_perm page)
    simp only [liveOn, inFlight, directBlocks, List.filter_append, List.count_append]
    omega
  have used : (sys.st.loc.pages a).used = (liveOn sys.st a).length + (inFlight sys.st a).length := by
    have lengths := perm.length_eq
    have count := wf.count a page
    rw [blocksOf, List.length_map, List.length_range] at lengths
    simp only [List.length_append] at lengths
    omega
  refine ⟨wf.count a page, (wf.page a page).capacity,
    perm.nodup_iff.mpr (inv.wf.blocksOf_nodup page), fun p member => ?_, used, fun none => ?_⟩
  · obtain ⟨i, small, at'⟩ := mem_blocksOf.mp (perm.mem_iff.mp member)
    exact ⟨i, small, at'.symm⟩
  · exact ⟨List.length_eq_zero_iff.mp (by omega), List.length_eq_zero_iff.mp (by omega)⟩

/-- Two blocks of the full page are live, and two are in flight. -/
theorem page_accounting_busy :
    (liveOn (plainBusy 5).st firstPage = [671547392, 671416320] ∧
      inFlight (plainBusy 5).st firstPage = [671285248, 671154176]) ∧
    (∀ a, InUse (plainBusy 5).st.loc a → PageAccounting (plainBusy 5).st a) ∧
      (plainBusy 5).owner ≠ some (.fail .underflow) :=
  ⟨by decide +kernel, page_accounting (plainBusy_reachable 5)⟩

end VerusMimalloc
