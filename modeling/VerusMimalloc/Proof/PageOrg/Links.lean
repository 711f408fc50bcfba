/-
**Transitions that unlink an unused page.**

* `QueuesOk.relink`: the neighbours of a page are redirected to one another;
* `OrgOk.unlinkUnused`: an unused piece, with a blank neighbour, becomes blank;
* `take_page_from_unused_queue`, `merge_with_after`, `merge_with_before`.
-/

import VerusMimalloc.Proof.PageOrg.Ranges

namespace VerusMimalloc.PageOrg

open Library

variable {P : Type} [DecidableEq P]

/-! ### Relinking -/

/-- **Relinking** the neighbours of a page, after other pages than those on the queues changed. -/
theorem QueuesOk.relink {s : State P} {n i j : Nat} {headers : List (DlistHeader P)}
    {lists : List (List (PageId P))} {member : Nat → PageId P → Prop} {id : PageId P} {base : Pages P}
    (ok : QueuesOk s.pages n headers lists member) (inside : i < n)
    (here : (listAt lists i)[j]? = some id)
    (kept : ∀ k other, member k other → other ≠ id → base other = s.pages other)
    (links : DlistEntry P) (same : linksAt s.pages id = links) (other : PageId P) :
    shapeAt (s.setPrev (s.setNext base links.prev links.next) links.next links.prev) other =
        shapeAt base other ∧
      (linksAt (s.setPrev (s.setNext base links.prev links.next) links.next links.prev) other).next =
        (if some other = links.prev then links.next else (linksAt base other).next) ∧
      (linksAt (s.setPrev (s.setNext base links.prev links.next) links.next links.prev) other).prev =
        (if some other = links.next then links.prev else (linksAt base other).prev) := by
  subst same
  have before : Redirects s base (linksAt s.pages id).prev := by
    intro neighbour prev
    obtain ⟨on, differs⟩ := ok.prev_member inside here prev
    exact ⟨kept i neighbour on differs, ok.linked i neighbour on⟩
  have after : Redirects s (s.setNext base (linksAt s.pages id).prev (linksAt s.pages id).next)
      (linksAt s.pages id).next := by
    intro neighbour next
    obtain ⟨on, differs⟩ := ok.next_member inside here next
    refine ⟨?_, ok.linked i neighbour on⟩
    rw [State.setNext_other fun prev => ok.neighbours_differ inside here prev.symm next]
    exact kept i neighbour on differs
  obtain ⟨shapeNext, linksNext⟩ := State.setNext_spec (linksAt s.pages id).next before other
  obtain ⟨shapePrev, linksPrev⟩ := State.setPrev_spec (linksAt s.pages id).prev after other
  refine ⟨shapePrev.trans shapeNext, ?_, ?_⟩
  · rw [linksPrev, linksNext]
    split <;> split <;> rfl
  · rw [linksPrev, linksNext]
    split <;> split <;> rfl

/-! ### Unused pieces -/

/-- The piece `x` is blank now, and its neighbours on the queue point at one another. -/
structure Cleared (pages pages' : Pages P) (sid : SegmentId P) (x : Piece) : Prop where
  shape : ∀ id : PageId P, shapeAt pages' id =
    if id.segmentId = sid ∧ x.start ≤ id.idx ∧ id.idx < x.start + x.count then some (.unset, false)
    else shapeAt pages id
  next : ∀ other ≠ ⟨sid, x.start⟩, (linksAt pages' other).next =
    if some other = (linksAt pages ⟨sid, x.start⟩).prev then (linksAt pages ⟨sid, x.start⟩).next
    else (linksAt pages other).next
  prev : ∀ other ≠ ⟨sid, x.start⟩, (linksAt pages' other).prev =
    if some other = (linksAt pages ⟨sid, x.start⟩).next then (linksAt pages ⟨sid, x.start⟩).prev
    else (linksAt pages other).prev

namespace OrgOk

variable {s s' : State P} {layout : Layout P} {sid : SegmentId P} {left old right : List Piece}
  {x : Piece} {a b i j : Nat}

/-- **An unused piece becomes blank**, together with the blank pieces around it. -/
theorem unlinkUnused (ok : OrgOk s layout) (swap : Swap s layout sid left old right a b)
    (inOld : x ∈ old) (role : x.role = .unused) (blanks : ∀ y ∈ old, y ≠ x → y.role = .blank)
    (number : i = smallestSbinFittingSize x.count) (here : (s.unusedList i)[j]? = some ⟨sid, x.start⟩)
    (cleared : Cleared s.pages s'.pages sid x)
    (headers : s'.unusedDlistHeaders =
      s.unusedDlistHeaders.set i ((s.unusedHeader i).without (linksAt s.pages ⟨sid, x.start⟩)))
    (lists : s'.unusedLists = removeAt s.unusedLists i j)
    (usedQueues : s'.usedDlistHeaders = s.usedDlistHeaders ∧ s'.usedLists = s.usedLists)
    (segments : s'.segments = s.segments)
    (others : ∀ r y, y ∈ layout r → (r = sid → y ∈ left ∨ y ∈ right) → y.role.pending = false)
    (popped : IsPending s'.popped sid ⟨a, b - a, .blank⟩)
    (ec : ∀ r, State.ecOfPopped s'.popped r = State.ecOfPopped s.popped r)
    (freeing : ∀ idx, s'.popped = .segmentFreeing sid idx → usedPieces (layout sid) = 0)
    (extra : ∀ r, s'.popped ≠ .extraCount r) :
    OrgOk s' (Swap.result layout sid left [⟨a, b - a, .blank⟩] right) := by
  have member : x ∈ layout sid := swap.mem.mpr (.inr (.inl inOld))
  have bounds := ok.pieces.bounds member
  have inner := swap.inner.bounds inOld
  have index : unusedIndex x = some i := by rw [unusedIndex, role, number]
  have small : i < 32 := ok.unused.bound i ⟨sid, x.start⟩ ⟨x, member, rfl, index⟩
  have plainOld : ∀ y ∈ old, usedIndex y = none := by
    intro y inY
    by_cases same : y = x
    · rw [same, usedIndex, role]
    · rw [usedIndex, blanks y inY same]
  have unlistedOld : ∀ y ∈ old, y ≠ x → unusedIndex y = none := by
    intro y inY differs
    rw [unusedIndex, blanks y inY differs]
  have after : LayoutOk s' (Swap.result layout sid left [⟨a, b - a, .blank⟩] right) := by
    refine ok.pieces.replace swap.shape swap.known swap.before swap.after
      ⟨rfl, by simp only; omega, by show a + (b - a) = b; omega⟩ (fun r => by rw [segments])
      (fun id outside => ?_) (fun y inNew k lower upper => ?_) (fun y inNew _ => ?_) others
      (fun _ => ⟨_, List.mem_singleton_self _, popped⟩) (by simp) (by simp)
    · rw [cleared.shape, if_neg fun inside => outside ⟨inside.1, by omega, by omega⟩]
    · obtain rfl := List.mem_singleton.mp inNew
      simp only at lower upper
      obtain ⟨data, unlinked⟩ := Piece.data_blank (P := P) (x := ⟨a, b - a, .blank⟩) rfl k
      rw [data, unlinked, cleared.shape]
      by_cases inX : x.start ≤ k ∧ k < x.start + x.count
      · rw [if_pos ⟨rfl, inX⟩]
      · rw [if_neg fun inside => inX inside.2]
        obtain ⟨y, inY, covers⟩ := swap.inner.exists_cover (x := k) lower (by omega)
        have differs : y ≠ x := fun same => inX (same ▸ covers)
        obtain ⟨dataY, unlinkedY⟩ := Piece.data_blank (P := P) (blanks y inY differs) k
        rw [ok.pieces.fills sid y (swap.mem.mpr (.inr (.inl inY))) k covers.1 covers.2, dataY, unlinkedY]
    · obtain rfl := List.mem_singleton.mp inNew
      exact popped
  refine ok.replace swap after (fun r d' here => ?_) (fun r idx isFreeing => ?_)
    (fun r impossible => absurd impossible (extra r)) (fun y header full inNew role => ?_) ?_ ?_
  · rw [segments] at here
    refine ⟨d', here, ?_⟩
    rw [ec]
    have none : usedPieces old = 0 := by
      refine List.countP_eq_zero.mpr fun y inY => ?_
      by_cases same : y = x
      · rw [same, role]
        simp [Role.inUse]
      · rw [blanks y inY same]
        simp [Role.inUse]
    rw [none]
    simp [usedPieces, Role.inUse]
  · have same : r = sid := by
      rw [isFreeing] at popped
      exact popped.1
    subst same
    have before := freeing idx isFreeing
    rw [swap.shape] at before
    rw [Swap.result_self]
    simp only [usedPieces, List.countP_append, List.countP_singleton, Role.inUse] at before ⊢
    simp only [Bool.false_eq_true, if_false]
    omega
  · rw [List.mem_singleton.mp inNew] at role
    cases role
  · rw [headers, lists]
    have same := swap.on_remove unusedIndex [⟨a, b - a, .blank⟩] inOld unlistedOld (by simp [unusedIndex])
    exact ok.unused.remove small here cleared.next cleared.prev same fun k other on =>
      after.on_linked (fun _ _ => unusedIndex_listed) on
  · rw [usedQueues.1, usedQueues.2]
    have same := swap.on_same usedIndex [⟨a, b - a, .blank⟩] plainOld (by simp [usedIndex])
    refine ok.used.congr same (fun k other on => ?_) fun k other on =>
      after.on_linked (fun _ _ => usedIndex_listed) ((same k other).mpr on)
    have differs : ∀ m neighbour, On unusedIndex layout m neighbour → other ≠ neighbour :=
      fun m neighbour => ok.pieces.on_one on
    have notX := differs i ⟨sid, x.start⟩ ⟨x, member, rfl, index⟩
    have next := cleared.next other notX
    have prev := cleared.prev other notX
    rw [if_neg fun neighbour => differs i other
      (ok.unused.prev_member small here neighbour.symm).1 rfl] at next
    rw [if_neg fun neighbour => differs i other
      (ok.unused.next_member small here neighbour.symm).1 rfl] at prev
    exact congrArg₂ DlistEntry.mk prev next

/-- The last slice of an unused piece is on no queue, unless it is the first one. -/
theorem last_off_queue (ok : OrgOk s layout) (member : x ∈ layout sid)
    {index : Piece → Option Nat} {k : Nat} (several : 1 < x.count) :
    ¬On index layout k ⟨sid, x.start + x.count - 1⟩ := by
  rintro ⟨y, inY, start, _⟩
  have bounds := ok.pieces.bounds inY
  have same := (ok.pieces.tiles sid (ok.pieces.known member)).eq_of_overlap member inY
    (x := x.start + x.count - 1) (by omega) (by simp only at start; omega)
  subst same
  simp only at start
  omega

/-- **Clearing an unused piece** in the order of the merges. -/
theorem cleared_merge (ok : OrgOk s layout) (member : x ∈ layout sid) (role : x.role = .unused)
    (small : i < 32) (here : (s.unusedList i)[j]? = some ⟨sid, x.start⟩) :
    Cleared s.pages (s.setPrev (s.setNext (Pages.insert (Pages.insert s.pages ⟨sid, x.start⟩
      { s.page ⟨sid, x.start⟩ with offset := none, count := none, dlistEntry := none })
      ⟨sid, x.start + x.count - 1⟩
      { s.page ⟨sid, x.start + x.count - 1⟩ with offset := none, count := none, dlistEntry := none })
      (s.page ⟨sid, x.start⟩).links.prev (s.page ⟨sid, x.start⟩).links.next)
      (s.page ⟨sid, x.start⟩).links.next (s.page ⟨sid, x.start⟩).links.prev) sid x := by
  have positive := (ok.pieces.bounds member).1
  obtain ⟨_, _, head, _⟩ := ok.pieces.head member
  obtain ⟨_, atLast, tail, linked⟩ := (ok.pieces.fills sid x member).page
    (i := x.start + x.count - 1) (by omega) (by omega)
  rw [State.links_eq]
  have kept : ∀ k other, On unusedIndex layout k other → other ≠ ⟨sid, x.start⟩ →
      Pages.insert (Pages.insert s.pages ⟨sid, x.start⟩
        { s.page ⟨sid, x.start⟩ with offset := none, count := none, dlistEntry := none })
        ⟨sid, x.start + x.count - 1⟩
        { s.page ⟨sid, x.start + x.count - 1⟩ with offset := none, count := none, dlistEntry := none }
        other = s.pages other := by
    intro k other on differs
    have notLast : other ≠ ⟨sid, x.start + x.count - 1⟩ := by
      rintro rfl
      by_cases several : 1 < x.count
      · exact ok.last_off_queue member several on
      · have : x.start + x.count - 1 = x.start := by omega
        exact differs (by rw [this])
    rw [insert_apply, if_neg notLast, insert_apply, if_neg differs]
  have relinked := ok.unused.relink small here kept _ rfl
  refine ⟨fun id => ?_, fun other differs => ?_, fun other differs => ?_⟩
  · rw [(relinked id).1, shapeAt_insert, shapeAt_insert]
    obtain ⟨r, k⟩ := id
    by_cases isLast : (⟨r, k⟩ : PageId P) = ⟨sid, x.start + x.count - 1⟩
    · cases isLast
      rw [if_pos rfl, if_pos ⟨rfl, by simp only; omega, by simp only; omega⟩, tail]
      simp [PageData.shape, PageData.unset, Piece.data, role, Role.inUse, Role.full, Role.header]
    · rw [if_neg isLast]
      by_cases isFirst : (⟨r, k⟩ : PageId P) = ⟨sid, x.start⟩
      · cases isFirst
        rw [if_pos rfl, if_pos ⟨rfl, by simp only; omega, by simp only; omega⟩, head]
        simp [PageData.shape, PageData.unset, Piece.data, role, Role.inUse, Role.full, Role.header]
      · rw [if_neg isFirst]
        by_cases inside : r = sid ∧ x.start ≤ k ∧ k < x.start + x.count
        · obtain ⟨rfl, lower, upper⟩ := inside
          have notFirst : k ≠ x.start := fun same => isFirst (by rw [same])
          have notLast : k ≠ x.start + x.count - 1 := fun same => isLast (by rw [same])
          rw [if_pos ⟨rfl, lower, upper⟩, ok.pieces.fills r x member k lower upper]
          simp [PageData.unset, Piece.data, Piece.linked, role, Role.inUse, notFirst, notLast]
        · rw [if_neg inside]
  all_goals
    have base : linksAt (Pages.insert (Pages.insert s.pages ⟨sid, x.start⟩
        { s.page ⟨sid, x.start⟩ with offset := none, count := none, dlistEntry := none })
        ⟨sid, x.start + x.count - 1⟩
        { s.page ⟨sid, x.start + x.count - 1⟩ with offset := none, count := none, dlistEntry := none })
        other = linksAt s.pages other := by
      rw [linksAt_insert, linksAt_insert, if_neg differs]
      by_cases isLast : other = ⟨sid, x.start + x.count - 1⟩
      · rw [if_pos isLast, isLast, linksAt, atLast]
        have notFirst : x.start + x.count - 1 ≠ x.start := fun same => differs (by rw [isLast, same])
        have : (x.data (x.start + x.count - 1) none : PageData P).dlistEntry = none := rfl
        simp only [Piece.linked, decide_eq_false notFirst, Bool.false_and] at linked
        simp only [Option.isSome_eq_false_iff, Option.isNone_iff_eq_none] at linked
        subst linked
        rfl
      · rw [if_neg isLast]
  · rw [(relinked other).2.1, base]
  · rw [(relinked other).2.2, base]

/-- **Clearing an unused piece** in the order of `take_page_from_unused_queue`. -/
theorem cleared_take (ok : OrgOk s layout) (member : x ∈ layout sid) (role : x.role = .unused)
    (small : i < 32) (here : (s.unusedList i)[j]? = some ⟨sid, x.start⟩) :
    Cleared s.pages (takePageFromUnusedQueue s ⟨sid, x.start⟩ i j).pages sid x := by
  have positive := (ok.pieces.bounds member).1
  obtain ⟨_, _, head, _⟩ := ok.pieces.head member
  obtain ⟨entry, atLast, tail, linked⟩ := (ok.pieces.fills sid x member).page
    (i := x.start + x.count - 1) (by omega) (by omega)
  have count : (s.page ⟨sid, x.start⟩).count.getD 0 = x.count := by
    rw [head]
    simp [Piece.data, role]
  have kept : ∀ k other, On unusedIndex layout k other → other ≠ ⟨sid, x.start⟩ →
      Pages.insert s.pages ⟨sid, x.start⟩
        { s.page ⟨sid, x.start⟩ with dlistEntry := none, count := none, offset := none } other =
        s.pages other := fun k other _ differs => by rw [insert_apply, if_neg differs]
  have relinked := ok.unused.relink small here kept _ rfl
  simp only [takePageFromUnusedQueue, State.links_eq, count]
  refine ⟨fun id => ?_, fun other differs => ?_, fun other differs => ?_⟩
  · obtain ⟨r, k⟩ := id
    by_cases several : (⟨sid, x.start + x.count - 1⟩ : PageId P) ≠ ⟨sid, x.start⟩
    · rw [if_pos several, shapeAt_insert]
      by_cases isLast : (⟨r, k⟩ : PageId P) = ⟨sid, x.start + x.count - 1⟩
      · cases isLast
        have notFirst : x.start + x.count - 1 ≠ x.start := fun same => several (by rw [same])
        simp only [Piece.linked, decide_eq_false notFirst, Bool.false_and] at linked
        simp only [Option.isSome_eq_false_iff, Option.isNone_iff_eq_none] at linked
        subst linked
        rw [if_pos rfl, if_pos ⟨rfl, by simp only; omega, by simp only; omega⟩, tail]
        simp [PageData.shape, PageData.unset, Piece.data, role, Role.inUse, notFirst]
      · rw [if_neg isLast, (relinked _).1, shapeAt_insert]
        by_cases isFirst : (⟨r, k⟩ : PageId P) = ⟨sid, x.start⟩
        · cases isFirst
          rw [if_pos rfl, if_pos ⟨rfl, by simp only; omega, by simp only; omega⟩, head]
          simp [PageData.shape, PageData.unset, Piece.data, role, Role.inUse, Role.full, Role.header]
        · rw [if_neg isFirst]
          by_cases inside : r = sid ∧ x.start ≤ k ∧ k < x.start + x.count
          · obtain ⟨rfl, lower, upper⟩ := inside
            have notFirst : k ≠ x.start := fun same => isFirst (by rw [same])
            have notLast : k ≠ x.start + x.count - 1 := fun same => isLast (by rw [same])
            rw [if_pos ⟨rfl, lower, upper⟩, ok.pieces.fills r x member k lower upper]
            simp [PageData.unset, Piece.data, Piece.linked, role, Role.inUse, notFirst, notLast]
          · rw [if_neg inside]
    · rw [if_neg several, (relinked _).1, shapeAt_insert]
      have single : x.start + x.count - 1 = x.start := congrArg PageId.idx (not_not.mp several)
      by_cases isFirst : (⟨r, k⟩ : PageId P) = ⟨sid, x.start⟩
      · cases isFirst
        rw [if_pos rfl, if_pos ⟨rfl, by simp only; omega, by simp only; omega⟩, head]
        simp [PageData.shape, PageData.unset, Piece.data, role, Role.inUse, Role.full, Role.header]
      · rw [if_neg isFirst, if_neg]
        rintro ⟨rfl, lower, upper⟩
        simp only at lower upper
        exact isFirst (by rw [show k = x.start by omega])
  all_goals
    have base : linksAt (Pages.insert s.pages ⟨sid, x.start⟩
        { s.page ⟨sid, x.start⟩ with dlistEntry := none, count := none, offset := none }) other =
        linksAt s.pages other := by rw [linksAt_insert, if_neg differs]
    by_cases several : (⟨sid, x.start + x.count - 1⟩ : PageId P) ≠ ⟨sid, x.start⟩
  · rw [if_pos several, linksAt_insert]
    by_cases isLast : other = ⟨sid, x.start + x.count - 1⟩
    · rw [if_pos isLast, if_neg]
      · rw [isLast, ← State.links_eq]
        rfl
      · intro neighbour
        have notFirst : x.start + x.count - 1 ≠ x.start := fun same => differs (by rw [isLast, same])
        exact ok.last_off_queue member (by omega)
          (isLast ▸ (ok.unused.prev_member small here neighbour.symm).1)
    · rw [if_neg isLast, (relinked other).2.1, base]
  · rw [if_neg several, (relinked other).2.1, base]
  · rw [if_pos several, linksAt_insert]
    by_cases isLast : other = ⟨sid, x.start + x.count - 1⟩
    · rw [if_pos isLast, if_neg]
      · rw [isLast, ← State.links_eq]
        rfl
      · intro neighbour
        have notFirst : x.start + x.count - 1 ≠ x.start := fun same => differs (by rw [isLast, same])
        exact ok.last_off_queue member (by omega)
          (isLast ▸ (ok.unused.next_member small here neighbour.symm).1)
    · rw [if_neg isLast, (relinked other).2.2, base]
  · rw [if_neg several, (relinked other).2.2, base]

/-! ### The transitions -/

/-- The page that `valid_unused_page` finds starts an unused piece. -/
theorem unused_piece {id : PageId P} (ok : OrgOk s layout) (valid : s.validUnusedPage id i j) :
    i < 32 ∧ ∃ count, (⟨id.idx, count, .unused⟩ : Piece) ∈ layout id.segmentId ∧
      i = smallestSbinFittingSize count := by
  obtain ⟨_, _, _, _, _, bound, here⟩ := valid
  have small : i < 32 := Nat.lt_succ_of_le bound
  refine ⟨small, ?_⟩
  obtain ⟨y, member, start, number⟩ := (ok.unused.mem i small id).mp (List.mem_of_getElem? here)
  obtain ⟨k, c, role⟩ := y
  simp only at start
  subst start
  unfold unusedIndex at number
  cases role <;> simp only at number <;> cases number
  exact ⟨c, member, rfl⟩

/-- The four cases of the header in `take_page_from_unused_queue`. -/
theorem take_header (ok : OrgOk s layout) (id : PageId P) (small : i < 32) :
    (takePageFromUnusedQueue s id i j).unusedDlistHeaders =
      s.unusedDlistHeaders.set i ((s.unusedHeader i).without (linksAt s.pages id)) := by
  simp only [takePageFromUnusedQueue, State.links_eq, DlistHeader.without]
  cases prev : (linksAt s.pages id).prev with
  | none =>
      cases next : (linksAt s.pages id).next with
      | none => simp
      | some q => simp
  | some p =>
      cases next : (linksAt s.pages id).next with
      | none => simp
      | some q =>
          have inside : i < s.unusedDlistHeaders.length := by rw [ok.unused.headers_length]; exact small
          have same : s.unusedHeader i = s.unusedDlistHeaders[i] := by
            rw [State.unusedHeader, List.getD_eq_getElem?_getD, List.getElem?_eq_getElem inside,
              Option.getD_some]
          simp only [same, Option.isNone_some, Option.isSome_some, Bool.false_eq_true, false_and, if_false,
            if_true]
          exact (List.set_getElem_self inside).symm

/-- **`take_page_from_unused_queue`**. -/
theorem takePageFromUnusedQueue {id : PageId P} (ok : OrgOk s layout)
    (requires : Requires s (.takePageFromUnusedQueue id i j)) :
    ∃ layout', OrgOk (takePageFromUnusedQueue s id i j) layout' := by
  obtain ⟨valid, popped⟩ := requires
  obtain ⟨small, count, member, number⟩ := ok.unused_piece valid
  obtain ⟨_, nonzero, _, _, _, _, here⟩ := valid
  obtain ⟨sid, k⟩ := id
  simp only at member nonzero popped
  have bounds := ok.pieces.bounds member
  simp only at bounds
  have cleared := ok.cleared_take member rfl small here
  have headers := take_header ok (j := j) ⟨sid, k⟩ small
  obtain ⟨_, _, head, _⟩ := ok.pieces.head member
  have pages : (s.page ⟨sid, k⟩).count.getD 0 = count := by
    rw [head]
    simp [Piece.data]
  rcases popped with popped | popped
  · have none : s.popped.any = false := by rw [popped]; rfl
    obtain ⟨left, right, swap⟩ := ok.pieces.swap member
    have status : (PageOrg.takePageFromUnusedQueue s ⟨sid, k⟩ i j).popped =
        .veryUnready sid k count false := by
      simp only [PageOrg.takePageFromUnusedQueue, popped, pages]
    refine ⟨_, ok.unlinkUnused swap (List.mem_singleton_self _) rfl (fun y inY differs => ?_) number here
      cleared headers rfl ⟨rfl, rfl⟩ rfl (Swap.others_of_none ok.pieces none) ?_ (fun r => ?_)
      (fun idx impossible => ?_) fun r impossible => ?_⟩
    · exact absurd (List.mem_singleton.mp inY) differs
    · rw [status]
      simp only [Nat.add_sub_cancel_left]
      exact ⟨rfl, rfl, Nat.pos_of_ne_zero nonzero⟩
    · rw [status, popped]
      simp [State.ecOfPopped]
    · rw [status] at impossible
      cases impossible
    · rw [status] at impossible
      cases impossible
  · obtain ⟨r, y, memberY, pending⟩ := ok.popped_piece (by rw [popped]; rfl)
    have isPending := pending
    rw [popped] at pending
    obtain ⟨rfl, rfl⟩ := pending
    obtain ⟨left, right, swap⟩ := ok.pieces.swap_two memberY member (Nat.zero_add k)
    simp only at swap
    have status : (PageOrg.takePageFromUnusedQueue s ⟨sid, k⟩ i j).popped =
        .segmentFreeing sid (k + count) := by
      simp only [PageOrg.takePageFromUnusedQueue, popped, pages]
    refine ⟨_, ok.unlinkUnused swap (x := ⟨k, count, .unused⟩) (by simp) rfl (fun y inY differs => ?_)
      number here cleared headers rfl ⟨rfl, rfl⟩ rfl
      (swap.others_of_pending ok.pieces (x := ⟨0, k, .blank⟩) (by simp) isPending) ?_ (fun r => ?_)
      (fun idx _ => ok.freeing sid _ popped) fun r impossible => ?_⟩
    · rcases List.mem_cons.mp inY with rfl | inY
      · rfl
      · exact absurd (List.mem_singleton.mp inY) differs
    · rw [status]
      exact ⟨rfl, rfl⟩
    · rw [status, popped]
      rfl
    · rw [status] at impossible
      cases impossible

/-- The place that `get_list_idx` finds. -/
theorem getListIdx_place {n : Nat} {headers : List (DlistHeader P)} {lists : List (List (PageId P))}
    {member : Nat → PageId P → Prop} {id : PageId P} (queues : QueuesOk s.pages n headers lists member)
    (on : member i id) : (listAt lists i)[(getListIdx lists id).2]? = some id := by
  have small := queues.bound i id on
  have length := queues.lists_length
  have inside : i < lists.length := by omega
  have atList : listAt lists i = lists[i] := by
    rw [listAt, List.getD_eq_getElem?_getD, List.getElem?_eq_getElem inside, Option.getD_some]
  have found : lists.findIdx (fun list => decide (id ∈ list)) = i := by
    refine (List.findIdx_eq inside).mpr ⟨?_, fun k before => ?_⟩
    · rw [decide_eq_true_eq, ← atList]
      exact (queues.mem i small id).mpr on
    · rw [decide_eq_false_iff_not]
      intro inList
      have atOther : listAt lists k = lists[k] := by
        rw [listAt, List.getD_eq_getElem?_getD, List.getElem?_eq_getElem (by omega), Option.getD_some]
      rw [← atOther] at inList
      have := queues.once k i id ((queues.mem k (by omega) id).mp inList) on
      omega
  have place : (getListIdx lists id).2 = (listAt lists i).idxOf id := by
    simp only [getListIdx, found]
    rfl
  have inList := (queues.mem i small id).mpr on
  rw [place, List.getElem?_eq_getElem (List.idxOf_lt_length_iff.mpr inList), List.getElem_idxOf]

/-- **A merge** of the blank popped piece with an unused neighbour. -/
theorem mergePage {y : Piece} {status : Nat → Popped P} {ec : Bool} {k c : Nat} (ok : OrgOk s layout)
    (popped : s.popped = .veryUnready sid k c ec) (swap : Swap s layout sid left old right a b)
    (pieces : ∀ z, z ∈ old ↔ z = x ∨ z = y) (memberX : x ∈ layout sid) (role : x.role = .unused)
    (pending : IsPending s.popped sid y) (blank : y.role = .blank) (positive : 0 < a)
    (after : status x.count = .veryUnready sid a (b - a) ec) :
    ∃ layout', OrgOk (mergePage s ⟨sid, x.start⟩ ⟨sid, x.start + x.count - 1⟩ status) layout' := by
  obtain ⟨_, _, head, _⟩ := ok.pieces.head memberX
  have bounds := ok.pieces.bounds memberX
  have count : (s.page ⟨sid, x.start⟩).count.getD 0 = x.count := by
    rw [head]
    simp [Piece.data, role]
  have small : smallestSbinFittingSize x.count < 32 :=
    Nat.lt_succ_of_le (smallestSbinFittingSize_le x.count (by omega))
  have on : On unusedIndex layout (smallestSbinFittingSize x.count) ⟨sid, x.start⟩ :=
    ⟨x, memberX, rfl, by rw [unusedIndex, role]⟩
  have here := getListIdx_place ok.unused on
  have cleared := ok.cleared_merge memberX role small here
  have newStatus : (PageOrg.mergePage s ⟨sid, x.start⟩ ⟨sid, x.start + x.count - 1⟩ status).popped =
      .veryUnready sid a (b - a) ec := by
    simp only [PageOrg.mergePage, count, after]
  refine ⟨_, ok.unlinkUnused swap ((pieces x).mpr (.inl rfl)) role (fun z inZ differs => ?_) rfl here
    cleared ?_ ?_ ⟨rfl, rfl⟩ rfl (swap.others_of_pending ok.pieces ((pieces y).mpr (.inr rfl)) pending)
    ?_ (fun r => ?_) (fun idx impossible => ?_) fun r impossible => ?_⟩
  · rcases (pieces z).mp inZ with same | rfl
    · exact absurd same differs
    · exact blank
  · simp only [PageOrg.mergePage, count, State.links_eq]
  · simp only [PageOrg.mergePage, count]
  · rw [newStatus]
    exact ⟨rfl, rfl, positive⟩
  · rw [newStatus, popped]
    rfl
  · rw [newStatus] at impossible
    cases impossible
  · rw [newStatus] at impossible
    cases impossible

/-- A settled piece is used or unused, or the first one. -/
theorem settled_role (ok : OrgOk s layout) (member : x ∈ layout sid)
    (settled : x.role.pending = false) (inner : 0 < x.start) :
    x.role = .unused ∨ ∃ header full, x.role = .used header full := by
  cases role : x.role with
  | first =>
      have := ok.pieces.first sid x member role
      omega
  | unused => exact .inl rfl
  | used header full => exact .inr ⟨header, full, rfl⟩
  | ready => rw [role] at settled; cases settled
  | detached => rw [role] at settled; cases settled
  | blank => rw [role] at settled; cases settled

/-- **`merge_with_after`**. -/
theorem mergeWithAfter (ok : OrgOk s layout) (requires : Requires s .mergeWithAfter) :
    ∃ layout', OrgOk (mergeWithAfter s) layout' := by
  obtain ⟨sid, k, c, ec, popped, inner, unused⟩ := requires
  simp only [slicesPerSegment] at inner
  obtain ⟨r, y, memberY, pending⟩ := ok.popped_piece (by rw [popped]; rfl)
  have isPending := pending
  rw [popped] at pending
  obtain ⟨rfl, rfl, positive⟩ := pending
  have known := ok.pieces.known memberY
  obtain ⟨x, memberX, touch⟩ := (ok.pieces.tiles sid known).exists_next memberY inner
  simp only at touch
  have boundsY := ok.pieces.bounds memberY
  simp only at boundsY
  have settled : x.role.pending = false := by
    rw [Bool.eq_false_iff]
    intro role
    obtain ⟨_, rfl⟩ := ok.pieces.only_pending memberY isPending memberX role
    simp only at touch
    omega
  obtain ⟨_, _, head, _⟩ := ok.pieces.head memberX
  have role : x.role = .unused := by
    rcases ok.settled_role memberX settled (by omega) with role | ⟨header, full, role⟩
    · exact role
    · rw [← touch, head] at unused
      simp [Piece.data, role, Role.inUse] at unused
  have count : (s.page ⟨sid, x.start⟩).count.getD 0 = x.count := by
    rw [head]
    simp [Piece.data, role]
  obtain ⟨left, right, swap⟩ := ok.pieces.swap_two memberY memberX touch.symm
  have result : PageOrg.mergeWithAfter s =
      PageOrg.mergePage s ⟨sid, x.start⟩ ⟨sid, x.start + x.count - 1⟩
        fun nCount => .veryUnready sid k (c + nCount) ec := by
    unfold PageOrg.mergeWithAfter
    rw [popped]
    simp only [← touch, count]
  rw [result]
  refine ok.mergePage popped swap (y := ⟨k, c, .blank⟩) (fun z => ?_) memberX role isPending rfl positive ?_
  · simp [or_comm]
  · have : x.start + x.count - k = c + x.count := by omega
    simp only [this]

/-- **`merge_with_before`**. -/
theorem mergeWithBefore (ok : OrgOk s layout) (requires : Requires s .mergeWithBefore) :
    ∃ layout', OrgOk (mergeWithBefore s) layout' := by
  obtain ⟨sid, k, c, ec, popped, inner, after, unused⟩ := requires
  obtain ⟨r, y, memberY, pending⟩ := ok.popped_piece (by rw [popped]; rfl)
  have isPending := pending
  rw [popped] at pending
  obtain ⟨rfl, rfl, positive⟩ := pending
  have known := ok.pieces.known memberY
  obtain ⟨x, memberX, touch⟩ := (ok.pieces.tiles sid known).exists_prev memberY positive
  simp only at touch
  have boundsX := ok.pieces.bounds memberX
  have settled : x.role.pending = false := by
    rw [Bool.eq_false_iff]
    intro role
    obtain ⟨_, rfl⟩ := ok.pieces.only_pending memberY isPending memberX role
    simp only at touch boundsX
    omega
  have last : k - 1 = x.start + x.count - 1 := by omega
  obtain ⟨_, _, tail, _⟩ := (ok.pieces.fills sid x memberX).page
    (i := x.start + x.count - 1) (by omega) (by omega)
  obtain ⟨_, _, head, _⟩ := ok.pieces.head memberX
  rw [last, tail] at after unused
  -- the offset leads to the first slice of the piece before
  have offset : x.role ≠ .blank →
      ((x.data (x.start + x.count - 1) none : PageData P).offset.getD 0) = x.count - 1 := by
    intro notBlank
    have distance : x.start + x.count - 1 - x.start = x.count - 1 := by omega
    cases role : x.role with
    | blank => exact absurd role notBlank
    | unused => simp [Piece.data, role, distance]
    | _ => simp [Piece.data, role, distance]
  have notBlank : x.role ≠ .blank := by
    intro blank
    rw [blank] at settled
    cases settled
  have back : x.start + x.count - 1 - (x.count - 1) = x.start := by omega
  have same : ∀ entry, (x.data (x.start + x.count - 1) entry : PageData P).offset.getD 0 = x.count - 1 :=
    fun entry => offset notBlank
  rw [same, back] at after unused
  have role : x.role = .unused := by
    rcases ok.settled_role memberX settled after with role | ⟨header, full, role⟩
    · exact role
    · rw [head] at unused
      simp [Piece.data, role, Role.inUse] at unused
  obtain ⟨left, right, swap⟩ := ok.pieces.swap_two memberX memberY touch
  have result : PageOrg.mergeWithBefore s =
      PageOrg.mergePage s ⟨sid, x.start⟩ ⟨sid, x.start + x.count - 1⟩
        fun pCount => .veryUnready sid x.start (c + pCount) ec := by
    unfold PageOrg.mergeWithBefore
    rw [popped]
    simp only [last, tail, same, back]
  rw [result]
  refine ok.mergePage popped swap (y := ⟨k, c, .blank⟩) (fun z => by simp) memberX role isPending rfl
    after ?_
  have : k + c - x.start = c + x.count := by omega
  simp only [this]

end OrgOk

end VerusMimalloc.PageOrg
