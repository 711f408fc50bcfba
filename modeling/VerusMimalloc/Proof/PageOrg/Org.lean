/-
**The invariant of the page organization machine.**

`OrgOk s layout`: the pages are the slices of a layout, the use counts count its pieces, and the
queues hold its unused and used pieces, each on the queue of its bin.

* `Swap`: some pieces in a row of one segment, about to be replaced;
* `On`: a page starts a piece that belongs on a queue;
* `OrgOk.replace`: what a replacement has to show for the invariant to stay.
-/

import VerusMimalloc.Model.PageOrgInvariants
import VerusMimalloc.Proof.PageOrg.Queues

namespace VerusMimalloc.PageOrg

open Library

variable {P : Type}

/-! ### Queue numbers -/

def unusedIndex (x : Piece) : Option Nat :=
  match x.role with
  | .unused => some (smallestSbinFittingSize x.count)
  | _ => none

def usedIndex (x : Piece) : Option Nat :=
  match x.role with
  | .used (.normal bin _) full => some (if full then binFull else bin.toNat)
  | _ => none

/-- The page starts a piece with queue number `i`. -/
def On (index : Piece → Option Nat) (layout : Layout P) (i : Nat) (id : PageId P) : Prop :=
  ∃ x ∈ layout id.segmentId, x.start = id.idx ∧ index x = some i

/-- A page header that `into_used_list` accepts. -/
def HeaderOk : PageHeaderKind → Prop
  | .normal bin size => validBinIdx bin ∧ size = sizeOfBin bin ∧ bin = smallestBinFittingSize size ∧
      size ≤ mediumObjSizeMax

theorem unusedIndex_listed {x : Piece} {i : Nat} (number : unusedIndex x = some i) :
    x.role.listed = true := by
  unfold unusedIndex at number
  cases role : x.role <;> rw [role] at number <;> first | rfl | cases number

theorem usedIndex_listed {x : Piece} {i : Nat} (number : usedIndex x = some i) :
    x.role.listed = true := by
  unfold usedIndex at number
  cases role : x.role <;> rw [role] at number <;> first | rfl | cases number

theorem LayoutOk.on_linked {s : State P} {layout : Layout P} {index : Piece → Option Nat} {i : Nat}
    {id : PageId P} (ok : LayoutOk s layout) (listed : ∀ x i, index x = some i → x.role.listed = true)
    (on : On index layout i id) : ∃ d, s.pages id = some d ∧ d.dlistEntry.isSome := by
  obtain ⟨x, member, start, number⟩ := on
  obtain ⟨entry, here, _, linked⟩ := ok.head member
  rw [start] at here
  exact ⟨_, here, linked.trans (listed x i number)⟩

/-! ### Pieces in a row -/

/-- The pieces `old` of a segment, from slice `a` to slice `b`. -/
structure Swap (s : State P) (layout : Layout P) (sid : SegmentId P) (left old right : List Piece)
    (a b : Nat) : Prop where
  shape : layout sid = left ++ (old ++ right)
  known : (s.segments sid).isSome = true
  before : Tiles Piece.start Piece.count 0 left a
  inner : Tiles Piece.start Piece.count a old b
  after : Tiles Piece.start Piece.count b right 512

namespace LayoutOk

variable {s : State P} {layout : Layout P} {r sid : SegmentId P} {x y : Piece}

/-- One piece. -/
theorem swap (ok : LayoutOk s layout) (member : x ∈ layout sid) :
    ∃ left right, Swap s layout sid left [x] right x.start (x.start + x.count) := by
  obtain ⟨left, right, shape⟩ := List.append_of_mem member
  have tiles := ok.tiles sid (ok.known member)
  rw [shape] at tiles
  obtain ⟨before, positive, after⟩ := tiles.split
  exact ⟨left, right, shape, ok.known member, before, ⟨rfl, positive, rfl⟩, after⟩

/-- Two neighbours. -/
theorem swap_two (ok : LayoutOk s layout) (first : x ∈ layout sid) (second : y ∈ layout sid)
    (touch : x.start + x.count = y.start) :
    ∃ left right, Swap s layout sid left [x, y] right x.start (y.start + y.count) := by
  have tiles := ok.tiles sid (ok.known first)
  obtain ⟨left, right, shape⟩ := tiles.adjacent first second touch
  rw [shape] at tiles
  obtain ⟨before, positive, atStart, positive', after⟩ := tiles.split
  refine ⟨left, right, shape, ok.known first, before, ⟨rfl, positive, atStart, positive', ?_⟩, ?_⟩
  · show x.start + x.count + y.count = _
    rw [touch]
  · rw [← touch]
    exact after

/-- Nothing is out of place. -/
theorem settled (ok : LayoutOk s layout) (none : s.popped.any = false) (member : x ∈ layout r) :
    x.role.pending = false := by
  rw [Bool.eq_false_iff]
  intro pending
  rw [(ok.pending r x member pending).any] at none
  cases none

end LayoutOk

namespace Swap

variable {s : State P} {layout : Layout P} {sid : SegmentId P} {left old new right : List Piece}
  {a b : Nat} {index : Piece → Option Nat}

theorem mem (swap : Swap s layout sid left old right a b) {y : Piece} :
    y ∈ layout sid ↔ y ∈ left ∨ y ∈ old ∨ y ∈ right := by
  rw [swap.shape]
  simp only [List.mem_append]

/-- The pieces around keep clear of the range. -/
theorem clear (swap : Swap s layout sid left old right a b) {y : Piece} (around : y ∈ left ∨ y ∈ right) :
    y.start < a ∨ b ≤ y.start := by
  rcases around with member | member
  · have := swap.before.bounds member
    exact .inl (by omega)
  · exact .inr (swap.after.bounds member).1

/-- The pieces around are in their places when the one that is not is among the old ones. -/
theorem others_of_pending (swap : Swap s layout sid left old right a b) (ok : LayoutOk s layout)
    {x : Piece} (member : x ∈ old) (pending : IsPending s.popped sid x) (r : SegmentId P) (y : Piece)
    (other : y ∈ layout r) (around : r = sid → y ∈ left ∨ y ∈ right) : y.role.pending = false := by
  rw [Bool.eq_false_iff]
  intro role
  obtain ⟨rfl, rfl⟩ := ok.only_pending (swap.mem.mpr (.inr (.inl member))) pending other role
  have := swap.clear (around rfl)
  have := swap.inner.bounds member
  omega

theorem others_of_none (ok : LayoutOk s layout) (none : s.popped.any = false) (r : SegmentId P)
    (y : Piece) (other : y ∈ layout r) (_ : r = sid → y ∈ left ∨ y ∈ right) :
    y.role.pending = false :=
  ok.settled none other

/-- A page on a queue, unless it starts one of the old pieces, is outside the range. -/
theorem on_outside (swap : Swap s layout sid left old right a b) {i : Nat} {id : PageId P}
    (on : On index layout i id) (plain : ∀ x ∈ old, x.start = id.idx → index x = none) :
    ¬(id.segmentId = sid ∧ a ≤ id.idx ∧ id.idx < b) := by
  rintro ⟨rfl, lower, upper⟩
  obtain ⟨x, member, start, number⟩ := on
  rcases swap.mem.mp member with around | inOld | around
  · have := swap.clear (.inl around)
    omega
  · rw [plain x inOld start] at number
    cases number
  · have := swap.clear (.inr around)
    omega

variable [DecidableEq P]

/-- The layout after the replacement. -/
def result (layout : Layout P) (sid : SegmentId P) (left new right : List Piece) : Layout P :=
  Function.update layout sid (left ++ (new ++ right))

theorem result_self : result layout sid left new right sid = left ++ (new ++ right) :=
  Function.update_self _ _ _

theorem result_other {r : SegmentId P} (differs : r ≠ sid) :
    result layout sid left new right r = layout r :=
  Function.update_of_ne differs _ _

theorem mem_result (swap : Swap s layout sid left old right a b) {r : SegmentId P} {y : Piece} :
    y ∈ result layout sid left new right r ↔
      (y ∈ layout r ∧ (r = sid → y ∈ left ∨ y ∈ right)) ∨ r = sid ∧ y ∈ new := by
  by_cases same : r = sid
  · subst same
    rw [result_self, swap.shape]
    simp only [List.mem_append]
    tauto
  · rw [result_other same]
    tauto

/-- No piece with a queue number comes or goes. -/
theorem on_same (swap : Swap s layout sid left old right a b) (index : Piece → Option Nat)
    (new : List Piece) (oldPlain : ∀ x ∈ old, index x = none)
    (newPlain : ∀ x ∈ new, index x = none) (i : Nat) (id : PageId P) :
    On index (result layout sid left new right) i id ↔ On index layout i id := by
  constructor
  · rintro ⟨x, member, start, number⟩
    rcases swap.mem_result.mp member with ⟨kept, _⟩ | ⟨_, fresh⟩
    · exact ⟨x, kept, start, number⟩
    · rw [newPlain x fresh] at number
      cases number
  · rintro ⟨x, member, start, number⟩
    refine ⟨x, swap.mem_result.mpr (.inl ⟨member, fun same => ?_⟩), start, number⟩
    rw [same] at member
    rcases swap.mem.mp member with around | inOld | around
    · exact .inl around
    · rw [oldPlain x inOld] at number
      cases number
    · exact .inr around

/-- One piece with a queue number goes. -/
theorem on_remove (swap : Swap s layout sid left old right a b) (index : Piece → Option Nat)
    (new : List Piece) {x : Piece}
    (inOld : x ∈ old) (oldPlain : ∀ y ∈ old, y ≠ x → index y = none)
    (newPlain : ∀ y ∈ new, index y = none) (i : Nat) (id : PageId P) :
    On index (result layout sid left new right) i id ↔
      On index layout i id ∧ id ≠ ⟨sid, x.start⟩ := by
  constructor
  · rintro ⟨y, member, start, number⟩
    rcases swap.mem_result.mp member with ⟨kept, around⟩ | ⟨_, fresh⟩
    · refine ⟨⟨y, kept, start, number⟩, ?_⟩
      rintro rfl
      have := swap.clear (around rfl)
      have := swap.inner.bounds inOld
      simp only at start
      omega
    · rw [newPlain y fresh] at number
      cases number
  · rintro ⟨⟨y, member, start, number⟩, differs⟩
    refine ⟨y, swap.mem_result.mpr (.inl ⟨member, fun same => ?_⟩), start, number⟩
    obtain ⟨r, k⟩ := id
    simp only at same start member
    subst same
    rcases swap.mem.mp member with around | inOld' | around
    · exact .inl around
    · by_cases equal : y = x
      · subst equal
        exact absurd (by rw [← start]) differs
      · rw [oldPlain y inOld' equal] at number
        cases number
    · exact .inr around

/-- One piece with a queue number comes. -/
theorem on_add (swap : Swap s layout sid left old right a b) (index : Piece → Option Nat)
    (new : List Piece) {x : Piece} {k : Nat}
    (inNew : x ∈ new)
    (oldPlain : ∀ y ∈ old, index y = none) (number : index x = some k)
    (newPlain : ∀ y ∈ new, y ≠ x → index y = none) (i : Nat) (id : PageId P) :
    On index (result layout sid left new right) i id ↔
      On index layout i id ∨ i = k ∧ id = ⟨sid, x.start⟩ := by
  constructor
  · rintro ⟨y, member, start, numberY⟩
    rcases swap.mem_result.mp member with ⟨kept, _⟩ | ⟨same, fresh⟩
    · exact .inl ⟨y, kept, start, numberY⟩
    · by_cases equal : y = x
      · subst equal
        rw [number] at numberY
        refine .inr ⟨(Option.some.inj numberY).symm, ?_⟩
        rw [start, ← same]
      · rw [newPlain y fresh equal] at numberY
        cases numberY
  · rintro (⟨y, member, start, numberY⟩ | ⟨rfl, rfl⟩)
    · refine ⟨y, swap.mem_result.mpr (.inl ⟨member, fun same => ?_⟩), start, numberY⟩
      rw [same] at member
      rcases swap.mem.mp member with around | inOld | around
      · exact .inl around
      · rw [oldPlain y inOld] at numberY
        cases numberY
      · exact .inr around
    · exact ⟨x, swap.mem_result.mpr (.inr ⟨rfl, inNew⟩), rfl, number⟩

end Swap

/-! ### The invariant -/

/-- The number of pages in use among the pieces. -/
def usedPieces (pieces : List Piece) : Nat := pieces.countP fun x => x.role.inUse

/-- **The invariant**, for a layout. -/
structure OrgOk [DecidableEq P] (s : State P) (layout : Layout P) : Prop where
  pieces : LayoutOk s layout
  counts : ∀ r d, s.segments r = some d →
    d.used = usedPieces (layout r) + State.ecOfPopped s.popped r
  freeing : ∀ r idx, s.popped = .segmentFreeing r idx → usedPieces (layout r) = 0
  extra : ∀ r, s.popped = .extraCount r → (s.segments r).isSome = true
  headers : ∀ r x header full, x ∈ layout r → x.role = .used header full → HeaderOk header
  unused : QueuesOk s.pages 32 s.unusedDlistHeaders s.unusedLists (On unusedIndex layout)
  used : QueuesOk s.pages 75 s.usedDlistHeaders s.usedLists (On usedIndex layout)

namespace OrgOk

variable [DecidableEq P] {s s' : State P} {layout : Layout P} {sid : SegmentId P}
  {left old new right : List Piece} {a b : Nat}

/-- **Replacing pieces** keeps the invariant. -/
theorem replace (ok : OrgOk s layout) (swap : Swap s layout sid left old right a b)
    (after : LayoutOk s' (Swap.result layout sid left new right))
    (counts : ∀ r d', s'.segments r = some d' → ∃ d, s.segments r = some d ∧
      d'.used - State.ecOfPopped s'.popped r = d.used - State.ecOfPopped s.popped r +
        if r = sid then (usedPieces new : Int) - usedPieces old else 0)
    (freeing : ∀ r idx, s'.popped = .segmentFreeing r idx →
      usedPieces (Swap.result layout sid left new right r) = 0)
    (extra : ∀ r, s'.popped = .extraCount r → (s'.segments r).isSome = true)
    (headers : ∀ x header full, x ∈ new → x.role = .used header full → HeaderOk header)
    (unused : QueuesOk s'.pages 32 s'.unusedDlistHeaders s'.unusedLists
      (On unusedIndex (Swap.result layout sid left new right)))
    (used : QueuesOk s'.pages 75 s'.usedDlistHeaders s'.usedLists
      (On usedIndex (Swap.result layout sid left new right))) :
    OrgOk s' (Swap.result layout sid left new right) := by
  refine ⟨after, fun r d' here => ?_, freeing, extra, fun r x header full member role => ?_, unused, used⟩
  · obtain ⟨d, before, difference⟩ := counts r d' here
    have known := ok.counts r d before
    by_cases same : r = sid
    · subst same
      rw [if_pos rfl] at difference
      rw [swap.shape] at known
      rw [Swap.result_self]
      simp only [usedPieces, List.countP_append] at known difference ⊢
      omega
    · rw [if_neg same] at difference
      rw [Swap.result_other same]
      omega
  · rcases swap.mem_result.mp member with ⟨kept, _⟩ | ⟨_, fresh⟩
    · exact ok.headers r x header full kept role
    · exact headers x header full fresh role

end OrgOk

end VerusMimalloc.PageOrg
