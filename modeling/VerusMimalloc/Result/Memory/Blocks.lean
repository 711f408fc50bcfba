/-
**The lists and the blocks outside have nodes of their own.**

* `Known`: a block of a page in use; `Wf.known_apart`, `Wf.known_inside`: two of them have no common byte, and
  each lies in the address space;
* `Core.listed`: what is on a list is such a block, in the place of the list;
* `Core.separate`: so the lists have nodes of their own;
* `Core.loose_apart`, `Core.live_outside`: live blocks, and those that a freeing thread holds, are apart from
  the lists;
* `Core.scratch_outside`: headers, memory that is not accessible and the owner's block at hand are apart from all
  of them.
-/

import VerusMimalloc.Result.Blocks
import VerusMimalloc.Result.Memory.Calls

namespace VerusMimalloc

open Library

variable {s : State} {l : Local} {sh : Shared} {a p q : Nat} {name name' : ListName}

/-! ### Blocks of pages in use -/

/-- A block of a page in use. -/
structure Known (l : Local) (p : Nat) : Prop where
  page : InUse l (pageOfBlock l p)
  inside : p ∈ blocksOf l (pageOfBlock l p)

namespace Wf

variable (wf : Wf l)
include wf

/-- Two blocks have no common byte. -/
theorem known_apart (one : Known l p) (two : Known l q) (differs : p ≠ q) :
    Apart p (blockSizeOf l p) q (blockSizeOf l q) := by
  obtain ⟨spans, nodes, wf⟩ := wf
  exact wf.blocks_apart one.page two.page one.inside two.inside differs

/-- A block lies in the address space and has room for a pointer. -/
theorem known_inside (known : Known l p) : p ≠ 0 ∧ 8 ∣ p ∧ 8 ≤ blockSizeOf l p ∧
    p + blockSizeOf l p < 2 ^ 64 := by
  obtain ⟨⟨r, k, c, place⟩, ok⟩ := wf.page known.page
  obtain ⟨_, upper, aligned, positive, _⟩ := place.of_mem_blocksOf ok known.inside
  have bound := place.inside
  have base := place.base.2.2
  simp only [segmentSize] at base
  exact ⟨Nat.ne_of_gt positive, aligned, ok.size_bounds.1, by rw [blockSizeOf]; omega⟩

/-- The nodes of two blocks have no common byte. -/
theorem nodesApart (one : Known l p) (two : Known l q) (differs : p ≠ q) : LL.NodesApart p q := by
  have apart := wf.known_apart one two differs
  have size := (wf.known_inside one).2.2.1
  have size' := (wf.known_inside two).2.2.1
  simp only [Apart] at apart
  exact apart.imp (by omega) (by omega)

/-- A page has fewer than `2 ^ 16` blocks. -/
theorem capacity_lt (page : InUse l a) : (l.pages a).capacity < 2 ^ 16 := by
  obtain ⟨_, ok⟩ := wf.page page
  obtain ⟨pq, lower, upper, size⟩ := ok.queue
  have small := (reserved_bounds lower upper).2
  rw [← size, ← ok.slices, ← ok.reserved] at small
  have := ok.capacity
  simp only [asU16] at small
  omega

end Wf

/-! ### Blocks on lists -/

/-- The delayed lists of other heaps are not used. -/
def OneHeap (s : State) : Prop := ∀ heap, heap ≠ s.loc.heap.heapPtr → s.sh.threadDelayedFree heap = []

/-- Where the blocks of a list are. -/
def ListName.place : ListName → Place
  | .free _ | .localFree _ => .pageFree
  | .threadFree _ => .threadFree
  | .delayed _ => .delayed
  | .taken => .owner

/-- The page that a list belongs to. -/
def ListName.page? : ListName → Option Nat
  | .free page | .localFree page | .threadFree page => some page
  | .delayed _ | .taken => none

/-- A block on a free list of a page is one of its blocks. -/
theorem Core.of_mem_free (inv : Core s) (member : p ∈ (s.loc.pages a).free ++ (s.loc.pages a).localFree) :
    InUse s.loc a ∧ p ∈ blocksOf s.loc a := by
  have page : InUse s.loc a := by
    by_contra unused
    obtain ⟨_, _, wf⟩ := inv.wf
    have blank := wf.blank a unused
    rw [blank.free, blank.localFree] at member
    cases member
  have positive := List.count_pos_iff.mpr member
  rw [List.count_append] at positive
  exact ⟨page, inv.accounting.of_listed page (by rw [listed]; omega)⟩

/-- **A block on a list** is a block of its page, in the place of the list. -/
structure Listed (s : State) (name : ListName) (p : Nat) : Prop where
  known : Known s.loc p
  page : ∀ a, name.page? = some a → pageOfBlock s.loc p = a
  place : p ∈ blocksIn s (pageOfBlock s.loc p) name.place
  heap : ∀ heap, name = .delayed heap → heap = s.loc.heap.heapPtr

theorem Core.listed (inv : Core s) (one : OneHeap s) (member : p ∈ s.lists name) : Listed s name p := by
  have onPage : ∀ a, InUse s.loc a → p ∈ blocksOf s.loc a →
      pageOfBlock s.loc p = a ∧ Known s.loc p := by
    intro a page inside
    have same := (inv.wf.of_mem_blocksOf page inside).2.2
    exact ⟨same, by rw [same]; exact page, by rw [same]; exact inside⟩
  cases name with
  | free a =>
      have inPlace : p ∈ blocksIn s a .pageFree := List.mem_append_left _ member
      obtain ⟨page, inside⟩ := inv.of_mem_free inPlace
      obtain ⟨same, known⟩ := onPage a page inside
      exact ⟨known, fun b at' => same.trans (Option.some.inj at'), by rw [same]; exact inPlace, by simp⟩
  | localFree a =>
      have inPlace : p ∈ blocksIn s a .pageFree := List.mem_append_right _ member
      obtain ⟨page, inside⟩ := inv.of_mem_free inPlace
      obtain ⟨same, known⟩ := onPage a page inside
      exact ⟨known, fun b at' => same.trans (Option.some.inj at'), by rw [same]; exact inPlace, by simp⟩
  | threadFree a =>
      obtain ⟨page, inside⟩ := inv.of_mem_list member
      obtain ⟨same, known⟩ := onPage a page inside
      exact ⟨known, fun b at' => same.trans (Option.some.inj at'), by rw [same]; exact member, by simp⟩
  | delayed heap =>
      have here : heap = s.loc.heap.heapPtr := by
        by_contra other
        change p ∈ s.sh.threadDelayedFree heap at member
        rw [one heap other] at member
        cases member
      subst here
      have inPlace : p ∈ blocksIn s (pageOfBlock s.loc p) .delayed := member
      have known := inv.of_blocksIn (by simp) inPlace
      exact ⟨⟨known.1, known.2⟩, by simp [ListName.page?], member, by simp⟩
  | taken =>
      have inPlace : p ∈ blocksIn s (pageOfBlock s.loc p) .owner :=
        List.mem_append_left _ (List.mem_append_left _ member)
      have known := inv.of_blocksIn (by simp) inPlace
      exact ⟨⟨known.1, known.2⟩, by simp [ListName.page?], inPlace, by simp⟩

/-- A block is on one list. -/
theorem Core.list_unique (inv : Core s) (one : OneHeap s) (member : p ∈ s.lists name)
    (member' : p ∈ s.lists name') : name = name' := by
  have listed := inv.listed one member
  have listed' := inv.listed one member'
  obtain ⟨place, once, others⟩ := inv.onePlace listed.known.page listed.known.inside
  have here : ∀ name, Listed s name p → name.place = place := fun name at' => by
    by_contra differs
    exact others _ differs at'.place
  have same : name.place = name'.place := (here _ listed).trans (here _ listed').symm
  -- The two free lists of a page are one place.
  have notBoth : ∀ a, p ∈ (s.loc.pages a).free → p ∈ (s.loc.pages a).localFree →
      pageOfBlock s.loc p = a →
      place ≠ .pageFree := by
    intro a free localFree on isFree
    rw [isFree, on] at once
    have first := List.count_pos_iff.mpr free
    have second := List.count_pos_iff.mpr localFree
    simp only [blocksIn, List.count_append] at once
    omega
  cases name <;> cases name' <;> simp only [ListName.place, reduceCtorEq] at same
  case free.free a b => rw [← listed.page a rfl, ← listed'.page b rfl]
  case localFree.localFree a b => rw [← listed.page a rfl, ← listed'.page b rfl]
  case threadFree.threadFree a b => rw [← listed.page a rfl, ← listed'.page b rfl]
  case delayed.delayed a b => rw [listed.heap a rfl, listed'.heap b rfl]
  case taken.taken => rfl
  case free.localFree a b =>
    obtain rfl : a = b := (listed.page a rfl).symm.trans (listed'.page b rfl)
    exact absurd (here _ listed).symm (notBoth a member member' (listed.page a rfl))
  case localFree.free a b =>
    obtain rfl : a = b := (listed.page a rfl).symm.trans (listed'.page b rfl)
    exact absurd (here _ listed).symm (notBoth a member' member (listed.page a rfl))

/-- A block is on a list once. -/
theorem Core.list_nodup (inv : Core s) (one : OneHeap s) (name : ListName) : (s.lists name).Nodup := by
  refine List.nodup_iff_count_le_one.mpr fun p => ?_
  rcases Nat.eq_zero_or_pos ((s.lists name).count p) with none | some
  · omega
  have listed := inv.listed one (List.count_pos_iff.mp some)
  obtain ⟨place, once, others⟩ := inv.onePlace listed.known.page listed.known.inside
  obtain rfl : name.place = place := by
    by_contra differs
    exact others _ differs listed.place
  cases name with
  | free a | localFree a =>
      simp only [ListName.place, blocksIn, List.count_append, listed.page a rfl] at once
      simp only [State.lists]
      omega
  | threadFree a =>
      simp only [ListName.place, blocksIn, listed.page a rfl] at once
      simp only [State.lists]
      omega
  | delayed heap =>
      simp only [ListName.place, blocksIn, ← listed.heap heap rfl] at once
      simp only [State.lists]
      omega
  | taken =>
      simp only [ListName.place, blocksIn, List.count_append] at once
      simp only [State.lists]
      omega

/-- **The lists have nodes of their own.** -/
theorem Core.separate (inv : Core s) (one : OneHeap s) : LL.Separate s.lists := by
  have valid : ∀ name, ∀ p ∈ s.lists name, Known s.loc p := fun name p member =>
    (inv.listed one member).known
  refine ⟨fun name p member => ?_, fun name p member => ?_, fun name => ?_,
    fun name name' differs p member q member' => ?_⟩
  · exact (inv.wf.known_inside (valid name p member)).1
  · obtain ⟨_, _, size, bound⟩ := inv.wf.known_inside (valid name p member)
    omega
  · exact (inv.list_nodup one name).imp_of_mem fun inP inQ differs =>
      inv.wf.nodesApart (valid name _ inP) (valid name _ inQ) differs
  · refine inv.wf.nodesApart (valid name p member) (valid name' q member') fun same => differs ?_
    exact inv.list_unique one member (same ▸ member')

/-- The lists are short. -/
theorem Core.short (inv : Core s) (a : Nat) : (s.lists (.localFree a)).length < 2 ^ 32 ∧
    (s.lists (.threadFree a)).length < 2 ^ 32 := by
  by_cases page : InUse s.loc a
  · have lengths := (inv.accounting.blocks_perm page).length_eq
    have bound := inv.wf.capacity_lt page
    rw [blocksOf, List.length_map, List.length_range] at lengths
    simp only [List.length_append] at lengths
    simp only [State.lists]
    omega
  · obtain ⟨_, _, wf⟩ := inv.wf
    have localFree : s.lists (.localFree a) = [] := (wf.blank a page).localFree
    have threadFree : s.lists (.threadFree a) = [] := congrArg ThreadFree.list (inv.protocol.unused a page)
    rw [localFree, threadFree]
    exact ⟨Nat.two_pow_pos 32, Nat.two_pow_pos 32⟩

/-! ### Blocks on no list -/

/-- The block is on a list. -/
def OnList (s : State) (p : Nat) : Prop := ∃ name, p ∈ s.lists name

/-- The block is live, or a thread that frees it still holds it. -/
def Loose (s : State) (p : Nat) : Prop :=
  p ∈ blocksIn s (pageOfBlock s.loc p) .live ∨ p ∈ blocksIn s (pageOfBlock s.loc p) .thread

theorem Core.known_of_loose (inv : Core s) (loose : Loose s p) : Known s.loc p := by
  rcases loose with live | thread
  · have known := inv.of_blocksIn (by simp) live
    exact ⟨known.1, known.2⟩
  · have known := inv.of_blocksIn (by simp) thread
    exact ⟨known.1, known.2⟩

/-- Blocks in different places have no common byte. -/
theorem Core.places_apart {place place' : Place} (inv : Core s) (known : Known s.loc p) (known' : Known s.loc q)
    (member : p ∈ blocksIn s (pageOfBlock s.loc p) place) (member' : q ∈ blocksIn s (pageOfBlock s.loc q) place')
    (differs : place ≠ place') : Apart p (blockSizeOf s.loc p) q (blockSizeOf s.loc q) := by
  refine inv.wf.known_apart known known' fun same => ?_
  subst same
  obtain ⟨here, _, others⟩ := inv.onePlace known.page known.inside
  by_cases first : here = place
  · exact others place' (by rw [first]; exact Ne.symm differs) member'
  · exact others place (Ne.symm first) member

/-- **A block on no list** is apart from all blocks on lists. -/
theorem Core.loose_apart (inv : Core s) (one : OneHeap s) (loose : Loose s p) (member : q ∈ s.lists name) :
    Apart p (blockSizeOf s.loc p) q (blockSizeOf s.loc q) := by
  have known := inv.known_of_loose loose
  have listed := inv.listed one member
  rcases loose with live | thread
  · exact inv.places_apart known listed.known live listed.place (by cases name <;> simp [ListName.place])
  · exact inv.places_apart known listed.known thread listed.place (by cases name <;> simp [ListName.place])

/-- A live block. -/
theorem mem_live {size : Nat} (live : (p, size) ∈ s.sh.live) : p ∈ blocksIn s a .live :=
  List.mem_map.mpr ⟨_, live, rfl⟩

theorem Core.known_of_live {size : Nat} (inv : Core s) (live : (p, size) ∈ s.sh.live) :
    Known s.loc p ∧ size ≤ blockSizeOf s.loc p :=
  ⟨inv.known_of_loose (.inl (mem_live live)), inv.accounting.sizes p size live⟩

/-- **The bytes of a live block** are outside the nodes of all lists. -/
theorem Core.live_outside {size b : Nat} (inv : Core s) (one : OneHeap s) (live : (p, size) ∈ s.sh.live)
    (lower : p ≤ b) (upper : b < p + size) (member : q ∈ s.lists name) : b < q ∨ q + 8 ≤ b := by
  have apart := inv.loose_apart one (.inl (mem_live live)) member
  have fits := (inv.known_of_live live).2
  have room := (inv.wf.known_inside (inv.listed one member).known).2.2.1
  simp only [Apart] at apart
  omega

/-! ### Memory of no list -/

/-- The bytes that are written, or taken back, without a list, by where they are. -/
inductive Scratch (s : State) (a : Nat) : Prop where
  /-- The header of a segment, and those of its pages. -/
  | header (segment : Nat) : segment ∈ s.loc.segments → segment ≤ a →
      a < getPageHeaderPtr segment (slicesPerSegment + 1) → Scratch s a
  /-- The heap's and the thread's own records, and all else that is in no segment. -/
  | elsewhere : (∀ segment ∈ s.loc.segments, a < segment ∨ segment + segmentSize ≤ a) → Scratch s a
  /-- What the operating system has taken back. -/
  | inaccessible : s.loc.os.accessible a = false → Scratch s a
  /-- What no page in use has made blocks of. -/
  | uncut : (∀ page, InUse s.loc page →
      a < blockAt s.loc page 0 ∨ blockAt s.loc page (s.loc.pages page).capacity ≤ a) → Scratch s a
  /-- The owner's block at hand. -/
  | atHand (ptr : Nat) : ptr ∈ s.loc.held.delayed ++ s.loc.held.direct → ptr ≤ a →
      a < ptr + blockSizeOf s.loc ptr → Scratch s a

/-- **The bytes of a block may be read and written.** -/
theorem Wf.accessible (wf : Wf l) (known : Known l p) (lower : p ≤ a) (upper : a < p + blockSizeOf l p) :
    l.os.accessible a = true := by
  obtain ⟨spans, nodes, wf⟩ := wf
  obtain ⟨r, k, c, place, inSpans⟩ := wf.exists_pageAt known.page
  obtain ⟨start, fits, _⟩ := place.of_mem_blocksOf (wf.page _ known.page) known.inside
  rw [blockSizeOf] at upper
  have commit := wf.segments.span.commit
  -- The slice of the byte is one of the page's.
  have busy : BusySlice spans r ((a - r) / 65536) := ⟨_, inSpans, rfl, by dsimp only; omega, by dsimp only; omega⟩
  refine commit.accessible r place.member _ (commit.busy r place.member _ busy).1 a ?_
  simp only [InBytes]
  omega

theorem mem_owner (held : p ∈ s.loc.held.delayed ++ s.loc.held.direct) : p ∈ blocksIn s a .owner := by
  rw [blocksIn, List.append_assoc]
  exact List.mem_append_right _ held

/-- The owner's block at hand is on no list, not live, and no freeing thread holds it. -/
theorem Core.atHand_not_needed (inv : Core s) (one : OneHeap s)
    (held : p ∈ s.loc.held.delayed ++ s.loc.held.direct) : ¬(OnList s p ∨ Loose s p) := by
  have inOwner : p ∈ blocksIn s (pageOfBlock s.loc p) .owner := mem_owner held
  have known := inv.of_blocksIn (by simp) inOwner
  obtain ⟨place, once, others⟩ := inv.onePlace known.1 known.2
  obtain rfl : place = .owner := by
    by_contra differs
    exact others _ (Ne.symm differs) inOwner
  rintro (⟨name, member⟩ | live | thread)
  · have listed := inv.listed one member
    cases name with
    | taken =>
        rw [blocksIn, List.append_assoc, List.count_append] at once
        have first := List.count_pos_iff.mpr member
        have second := List.count_pos_iff.mpr held
        simp only [State.lists] at first
        omega
    | _ => exact others _ (by simp [ListName.place]) listed.place
  · exact others _ (by simp) live
  · exact others _ (by simp) thread

/-- **They are in no block that a list, the client or a freeing thread has.** -/
theorem Core.scratch_outside (inv : Core s) (one : OneHeap s) (scratch : Scratch s a)
    (needed : OnList s p ∨ Loose s p) : a < p ∨ p + blockSizeOf s.loc p ≤ a := by
  have known : Known s.loc p := by
    rcases needed with ⟨name, member⟩ | loose
    · exact (inv.listed one member).known
    · exact inv.known_of_loose loose
  by_contra inside
  rw [not_or, not_lt, not_le] at inside
  obtain ⟨lower, upper⟩ := inside
  obtain ⟨⟨r, k, c, place⟩, ok⟩ := inv.wf.page known.page
  obtain ⟨start, fits, _⟩ := place.of_mem_blocksOf ok known.inside
  have behind := place.behind
  have bound := place.inside
  have size : blockSizeOf s.loc p = (s.loc.pages (pageOfBlock s.loc p)).xblockSize := rfl
  cases scratch with
  | header segment member above below =>
      -- The headers end in slice 0, and the page begins behind it.
      obtain ⟨⟨m, rfl⟩, _⟩ := place.base
      obtain ⟨spans, nodes, wf⟩ := inv.wf
      obtain ⟨⟨m', rfl⟩, _⟩ := wf.segments.span.layout.base segment member
      simp only [getPageHeaderPtr_eq, slicesPerSegment, segmentSize] at *
      omega
  | elsewhere away =>
      have := away r place.member
      simp only [segmentSize] at this
      omega
  | inaccessible lost =>
      rw [inv.wf.accessible known lower upper] at lost
      cases lost
  | uncut away =>
      obtain ⟨i, small, at'⟩ := mem_blocksOf.mp known.inside
      have last : (s.loc.pages (pageOfBlock s.loc p)).xblockSize * (i + 1) ≤
        (s.loc.pages (pageOfBlock s.loc p)).xblockSize * (s.loc.pages (pageOfBlock s.loc p)).capacity :=
          Nat.mul_le_mul_left _ small
      have := away _ known.page
      rw [place.blockAt_eq, place.blockAt_eq] at this
      rw [place.blockAt_eq] at at'
      rw [Nat.mul_add, Nat.mul_one] at last
      omega
  | atHand q held above below =>
      have apart : Apart q (blockSizeOf s.loc q) p (blockSizeOf s.loc p) := by
        have known' := inv.of_blocksIn (by simp) (mem_owner held : q ∈ blocksIn s 0 .owner)
        refine inv.wf.known_apart ⟨known'.1, known'.2⟩ known fun same => ?_
        subst same
        exact inv.atHand_not_needed one held needed
      simp only [Apart] at apart
      omega

end VerusMimalloc
