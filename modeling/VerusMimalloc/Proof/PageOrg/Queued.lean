/-
**Transitions that link a page, and unlink a used one.**

* `OrgOk.linkUnused`: part of a blank piece becomes an unused piece at the front of its queue;
* `split_page`, `free_to_unused_queue`;
* `OrgOk.swapUsed`: a detached piece becomes used, or the other way round;
* `into_used_list`, `into_used_list_back`, `out_of_used_list`.
-/

import VerusMimalloc.Proof.PageOrg.Links

namespace VerusMimalloc.PageOrg

open Library

variable {P : Type} [DecidableEq P]

/-! ### Unused pieces -/

/-- The piece `x` holds its data now, and its first slice is linked before `first`. -/
structure Stamped (pages pages' : Pages P) (sid : SegmentId P) (x : Piece)
    (first : Option (PageId P)) : Prop where
  shape : ∀ id : PageId P, shapeAt pages' id =
    if id.segmentId = sid ∧ x.start ≤ id.idx ∧ id.idx < x.start + x.count then
      some (x.data id.idx none, x.linked id.idx)
    else shapeAt pages id
  links : linksAt pages' ⟨sid, x.start⟩ = ⟨none, first⟩
  next : ∀ other ≠ ⟨sid, x.start⟩, (linksAt pages' other).next = (linksAt pages other).next
  prev : ∀ other ≠ ⟨sid, x.start⟩, (linksAt pages' other).prev =
    if some other = first then some ⟨sid, x.start⟩ else (linksAt pages other).prev

namespace OrgOk

variable {s s' : State P} {layout : Layout P} {sid : SegmentId P} {left front right : List Piece}
  {x y : Piece} {a i j : Nat}

/-- **Part of a blank piece becomes an unused piece.** -/
theorem linkUnused (ok : OrgOk s layout)
    (swap : Swap s layout sid left [y] right y.start (y.start + y.count)) (blank : y.role = .blank)
    (pending : IsPending s.popped sid y) (inner : 0 < y.start)
    (tiles : Tiles Piece.start Piece.count y.start (front ++ [x]) (y.start + y.count))
    (role : x.role = .unused) (fronts : ∀ z ∈ front, z.role = .blank)
    (number : i = smallestSbinFittingSize x.count) (small : i < 32)
    (stamped : Stamped s.pages s'.pages sid x (s.unusedHeader i).first)
    (headers : s'.unusedDlistHeaders =
      s.unusedDlistHeaders.set i ((s.unusedHeader i).withFront ⟨sid, x.start⟩))
    (lists : s'.unusedLists = insertFront s.unusedLists i ⟨sid, x.start⟩)
    (usedQueues : s'.usedDlistHeaders = s.usedDlistHeaders ∧ s'.usedLists = s.usedLists)
    (segments : s'.segments = s.segments)
    (frontPending : ∀ z ∈ front, IsPending s'.popped sid z)
    (popped : s'.popped.any = true → ∃ z ∈ front, IsPending s'.popped sid z)
    (ec : ∀ r, State.ecOfPopped s'.popped r = State.ecOfPopped s.popped r)
    (freeing : ∀ r idx, s'.popped ≠ .segmentFreeing r idx)
    (extra : ∀ r, s'.popped = .extraCount r → r = sid) :
    OrgOk s' (Swap.result layout sid left (front ++ [x]) right) := by
  have bounds : ∀ z ∈ front ++ [x], y.start ≤ z.start ∧ 0 < z.count ∧
      z.start + z.count ≤ y.start + y.count := fun z member => tiles.bounds member
  have boundsX := bounds x (by simp)
  have clear := (tiles : Tiles _ _ _ (front ++ x :: []) _).clear_of_split.1
  have split : ∀ z, z ∈ front ++ [x] → z ∈ front ∨ z = x := by
    intro z member
    simpa using member
  have after : LayoutOk s' (Swap.result layout sid left (front ++ [x]) right) := by
    refine ok.pieces.replace swap.shape swap.known swap.before swap.after tiles
      (fun r => by rw [segments]) (fun id outside => ?_) (fun z inNew k lower upper => ?_)
      (fun z inNew isPending => ?_) (swap.others_of_pending ok.pieces (List.mem_singleton_self _) pending)
      (fun any => ?_) (fun z inNew isFirst => ?_) fun z inNew zero => ?_
    · rw [stamped.shape, if_neg fun inside => outside ⟨inside.1, by omega, by omega⟩]
    · rw [stamped.shape]
      rcases split z inNew with inFront | rfl
      · have before := clear z inFront
        have boundsZ := bounds z inNew
        obtain ⟨dataZ, unlinkedZ⟩ := Piece.data_blank (P := P) (fronts z inFront) k
        obtain ⟨dataY, unlinkedY⟩ := Piece.data_blank (P := P) blank k
        rw [if_neg (by simp only; omega), dataZ, unlinkedZ, ← dataY, ← unlinkedY]
        exact ok.pieces.fills sid y (swap.mem.mpr (.inr (.inl (List.mem_singleton_self _)))) k
          (by omega) (by omega)
      · rw [if_pos ⟨rfl, lower, upper⟩]
    · rcases split z inNew with inFront | rfl
      · exact frontPending z inFront
      · rw [role] at isPending
        cases isPending
    · obtain ⟨z, inFront, isPending⟩ := popped any
      exact ⟨z, by simp [inFront], isPending⟩
    · rcases split z inNew with inFront | rfl
      · rw [fronts z inFront] at isFirst
        cases isFirst
      · rw [role] at isFirst
        cases isFirst
    · have := bounds z inNew
      omega
  have boundary : ∀ (index : Piece → Option Nat) k other, (∀ z : Piece, z.role.listed = false → index z = none) →
      On index layout k other → other ≠ ⟨sid, x.start⟩ := by
    rintro index k _ unlisted on rfl
    refine swap.on_outside on (fun z inOld _ => ?_) ⟨rfl, by simp only; omega, by simp only; omega⟩
    rw [List.mem_singleton.mp inOld]
    exact unlisted y (by rw [blank]; rfl)
  refine ok.replace swap after (fun r d' here => ?_)
    (fun r idx impossible => absurd impossible (freeing r idx)) (fun r status => ?_)
    (fun z header full inNew isUsed => ?_) ?_ ?_
  · rw [segments] at here
    refine ⟨d', here, ?_⟩
    have none : usedPieces (front ++ [x]) = 0 := by
      refine List.countP_eq_zero.mpr fun z inNew => ?_
      rcases split z inNew with inFront | rfl
      · rw [fronts z inFront]
        simp [Role.inUse]
      · rw [role]
        simp [Role.inUse]
    rw [ec, none]
    simp [usedPieces, blank, Role.inUse]
  · rw [extra r status, segments]
    exact swap.known
  · rcases split z inNew with inFront | rfl
    · rw [fronts z inFront] at isUsed
      cases isUsed
    · rw [role] at isUsed
      cases isUsed
  · rw [headers, lists]
    have same := swap.on_add unusedIndex (front ++ [x]) (x := x) (k := i) (by simp)
      (fun z inOld => unusedIndex_plain (by rw [List.mem_singleton.mp inOld, blank]; rfl))
      (by rw [unusedIndex, role, number])
      (fun z inNew differs => by
        rcases split z inNew with inFront | same
        · exact unusedIndex_plain (by rw [fronts z inFront]; rfl)
        · exact absurd same differs)
    refine ok.unused.pushFront small (fun k on => boundary _ k _ (fun _ => unusedIndex_plain) on rfl)
      stamped.links (fun k other on => ?_) (fun k other on => ?_) same fun k other on =>
        after.on_linked (fun _ _ => unusedIndex_listed) on
    · exact stamped.next other (boundary _ k other (fun _ => unusedIndex_plain) on)
    · exact stamped.prev other (boundary _ k other (fun _ => unusedIndex_plain) on)
  · rw [usedQueues.1, usedQueues.2]
    have same := swap.on_same usedIndex (front ++ [x])
      (fun z inOld => usedIndex_plain (by rw [List.mem_singleton.mp inOld, blank]; rfl))
      (fun z inNew => by
        rcases split z inNew with inFront | rfl
        · exact usedIndex_plain (by rw [fronts z inFront]; rfl)
        · rw [usedIndex, role])
    refine ok.used.congr same (fun k other on => ?_) fun k other on =>
      after.on_linked (fun _ _ => usedIndex_listed) ((same k other).mpr on)
    have notX := boundary _ k other (fun _ => usedIndex_plain) on
    have next := stamped.next other notX
    have prev := stamped.prev other notX
    rw [if_neg fun neighbour => ok.pieces.on_one on (ok.unused.first_member small neighbour.symm) rfl]
      at prev
    exact congrArg₂ DlistEntry.mk prev next

/-- **Stamping an unused piece** onto slices without links: its first slice, its last slice if that is
another one, then the page that was first on the queue. -/
theorem stamped (ok : OrgOk s layout)
    (swap : Swap s layout sid left [y] right y.start (y.start + y.count)) (blank : y.role = .blank)
    (lower : y.start ≤ x.start) (upper : x.start + x.count ≤ y.start + y.count) (positive : 0 < x.count)
    (role : x.role = .unused) (small : i < 32) (head tail : PageData P)
    (headShape : head.shape = (x.data x.start none, true))
    (headLinks : head.links = ⟨none, (s.unusedHeader i).first⟩)
    (tailShape : 1 < x.count → tail.shape = (x.data (x.start + x.count - 1) none, false)) :
    Stamped s.pages (s.setPrev
      (if x.count > 1 then
        Pages.insert (Pages.insert s.pages ⟨sid, x.start⟩ head) ⟨sid, x.start + x.count - 1⟩ tail
      else Pages.insert s.pages ⟨sid, x.start⟩ head)
      (s.unusedHeader i).first (some ⟨sid, x.start⟩)) sid x (s.unusedHeader i).first := by
  obtain ⟨base, baseEq⟩ : ∃ base, base = (if x.count > 1 then
      Pages.insert (Pages.insert s.pages ⟨sid, x.start⟩ head) ⟨sid, x.start + x.count - 1⟩ tail
    else Pages.insert s.pages ⟨sid, x.start⟩ head) := ⟨_, rfl⟩
  rw [← baseEq]
  have bare : ∀ k, y.start ≤ k → k < y.start + y.count →
      shapeAt s.pages ⟨sid, k⟩ = some (.unset, false) := by
    intro k atLeast below
    obtain ⟨data, unlinked⟩ := Piece.data_blank (P := P) blank k
    rw [ok.pieces.fills sid y (swap.mem.mpr (.inr (.inl (List.mem_singleton_self _)))) k atLeast below,
      data, unlinked]
  have unlinked : ∀ k, y.start ≤ k → k < y.start + y.count → linksAt s.pages ⟨sid, k⟩ = ⟨none, none⟩ := by
    intro k atLeast below
    obtain ⟨entry, here, noLinks⟩ := shapeAt_eq_some (bare k atLeast below)
    obtain rfl : entry = none := by simpa using noLinks
    rw [linksAt, here]
    rfl
  have shape : ∀ id : PageId P, shapeAt base id =
      if id.segmentId = sid ∧ x.start ≤ id.idx ∧ id.idx < x.start + x.count then
        some (x.data id.idx none, x.linked id.idx)
      else shapeAt s.pages id := by
    rintro ⟨r, k⟩
    have first : x.linked x.start = true := by simp [Piece.linked, role, Role.listed]
    have middle : k ≠ x.start → x.linked k = false := fun differs => by simp [Piece.linked, differs]
    rw [baseEq]
    by_cases isFirst : (⟨r, k⟩ : PageId P) = ⟨sid, x.start⟩
    · cases isFirst
      rw [if_pos (show sid = sid ∧ x.start ≤ x.start ∧ x.start < x.start + x.count from
        ⟨rfl, le_rfl, by omega⟩), first]
      split
      · rw [shapeAt_insert, if_neg (by simp only [PageId.mk.injEq]; omega), shapeAt_insert, if_pos rfl,
          headShape]
      · rw [shapeAt_insert, if_pos rfl, headShape]
    · by_cases inside : r = sid ∧ x.start ≤ k ∧ k < x.start + x.count
      · obtain ⟨rfl, atLeast, below⟩ := inside
        have differs : k ≠ x.start := fun same => isFirst (by rw [same])
        rw [if_pos (show r = r ∧ x.start ≤ k ∧ k < x.start + x.count from ⟨rfl, atLeast, below⟩),
          middle differs, if_pos (by omega : x.count > 1), shapeAt_insert]
        by_cases isLast : k = x.start + x.count - 1
        · rw [if_pos (by rw [isLast]), tailShape (by omega), isLast]
        · rw [if_neg (by simpa using isLast), shapeAt_insert, if_neg isFirst,
            bare k (by omega) (by omega)]
          simp [PageData.unset, Piece.data, role, differs, isLast, Role.inUse]
      · rw [if_neg inside]
        have notLast : (⟨r, k⟩ : PageId P) ≠ ⟨sid, x.start + x.count - 1⟩ := by
          rintro same
          cases same
          exact inside ⟨rfl, by omega, by omega⟩
        split
        · rw [shapeAt_insert, if_neg notLast, shapeAt_insert, if_neg isFirst]
        · rw [shapeAt_insert, if_neg isFirst]
  have links : ∀ id : PageId P, id ≠ ⟨sid, x.start⟩ → linksAt base id = linksAt s.pages id := by
    rintro ⟨r, k⟩ differs
    rw [baseEq]
    split
    · rw [linksAt_insert, linksAt_insert, if_neg differs]
      by_cases isLast : (⟨r, k⟩ : PageId P) = ⟨sid, x.start + x.count - 1⟩
      · cases isLast
        have noLinks := congrArg Prod.snd (tailShape (by omega))
        have none : tail.dlistEntry = none := by simpa [PageData.shape] using noLinks
        rw [if_pos rfl, unlinked _ (by omega) (by omega), PageData.links, none]
        rfl
      · rw [if_neg isLast]
    · rw [linksAt_insert, if_neg differs]
  have atFirst : linksAt base ⟨sid, x.start⟩ = ⟨none, (s.unusedHeader i).first⟩ := by
    rw [baseEq]
    split
    · rw [linksAt_insert, if_neg (by simp only [PageId.mk.injEq]; omega), linksAt_insert, if_pos rfl,
        headLinks]
    · rw [linksAt_insert, if_pos rfl, headLinks]
  have outside : ∀ neighbour, (s.unusedHeader i).first = some neighbour →
      On unusedIndex layout i neighbour ∧
        ¬(neighbour.segmentId = sid ∧ y.start ≤ neighbour.idx ∧ neighbour.idx < y.start + y.count) := by
    intro neighbour first
    have on := ok.unused.first_member small first
    refine ⟨on, swap.on_outside on fun z inOld _ => unusedIndex_plain ?_⟩
    rw [List.mem_singleton.mp inOld, blank]
    rfl
  have redirects : Redirects s base (s.unusedHeader i).first := by
    intro neighbour first
    obtain ⟨on, away⟩ := outside neighbour first
    refine ⟨?_, ok.unused.linked i neighbour on⟩
    have notFirst : neighbour ≠ ⟨sid, x.start⟩ := by
      rintro rfl
      exact away ⟨rfl, by simp only; omega, by simp only; omega⟩
    have notLast : neighbour ≠ ⟨sid, x.start + x.count - 1⟩ := by
      rintro rfl
      exact away ⟨rfl, by simp only; omega, by simp only; omega⟩
    rw [baseEq]
    split
    · rw [insert_apply, if_neg notLast, insert_apply, if_neg notFirst]
    · rw [insert_apply, if_neg notFirst]
  have redirected := fun id => State.setPrev_spec (some ⟨sid, x.start⟩) redirects id
  refine ⟨fun id => by rw [(redirected id).1, shape], ?_, fun other differs => ?_, fun other differs => ?_⟩
  · rw [(redirected _).2, if_neg, atFirst]
    intro first
    exact (outside _ first.symm).2 ⟨rfl, by simp only; omega, by simp only; omega⟩
  · rw [(redirected other).2, links other differs]
    split <;> rfl
  · rw [(redirected other).2, links other differs]
    split <;> rfl

/-- **`split_page`**. -/
theorem splitPage {id : PageId P} {current target : Nat} (ok : OrgOk s layout)
    (requires : Requires s (.splitPage id current target i)) :
    ∃ layout', OrgOk (splitPage s id current target i) layout' := by
  obtain ⟨popped, _, least, less, bound, number⟩ := requires
  have small : i < 32 := Nat.lt_succ_of_le bound
  obtain ⟨sid, k⟩ := id
  obtain ⟨r, y, memberY, pending⟩ := ok.popped_piece (by rw [popped]; rfl)
  have isPending := pending
  rw [popped] at pending
  obtain ⟨rfl, rfl, positive⟩ := pending
  obtain ⟨left, right, swap⟩ := ok.pieces.swap memberY
  simp only at swap positive
  have page : ∀ m, k ≤ m → m < k + current → s.page ⟨sid, m⟩ = .unset := by
    intro m lower upper
    obtain ⟨entry, _, page, linked⟩ := (ok.pieces.fills sid _ memberY).page (i := m) lower upper
    obtain rfl := Piece.unlinked rfl linked
    rw [page, (Piece.data_blank rfl m).1]
  have last : k + current - 1 = k + target + (current - target) - 1 := by omega
  have stamp := ok.stamped swap rfl (x := ⟨k + target, current - target, .unused⟩) (by simp only; omega)
    (by simp only; omega) (by simp only; omega) rfl small
    { s.page ⟨sid, k + target⟩ with
      count := some (current - target)
      offset := some 0
      dlistEntry := some { prev := none, next := (s.unusedHeader i).first } }
    { s.page ⟨sid, k + current - 1⟩ with
      count := none
      offset := some (current - target - 1) }
    (by
      rw [page _ (by omega) (by omega)]
      simp [PageData.shape, PageData.unset, Piece.data, Role.inUse, Role.full, Role.header])
    rfl
    (fun several => by
      simp only at several
      rw [page _ (by omega) (by omega)]
      have : ¬k + target + (current - target) - 1 = k + target := by omega
      have : k + target + (current - target) - 1 - (k + target) = current - target - 1 := by omega
      simp [PageData.shape, PageData.unset, Piece.data, Role.inUse, *])
  refine ⟨_, ok.linkUnused swap rfl isPending positive
    (show Tiles Piece.start Piece.count k
      ([⟨k, target, .blank⟩] ++ [⟨k + target, current - target, .unused⟩]) (k + current) from
      ⟨rfl, by simp only; omega, rfl, by simp only; omega, ?_⟩) rfl (by simp) number small ?_ rfl rfl ⟨rfl, rfl⟩ rfl (by simp [PageOrg.splitPage, IsPending, positive])
    (fun _ => ⟨_, List.mem_singleton_self _, rfl, rfl, positive⟩) (fun r => ?_)
    (fun _ _ impossible => by cases impossible) fun _ impossible => by cases impossible⟩
  · show k + target + (current - target) = k + current
    omega
  · simp only [PageOrg.splitPage]
    rw [last] at stamp ⊢
    exact stamp
  · rw [popped]
    rfl

/-- **`free_to_unused_queue`**. -/
theorem freeToUnusedQueue (ok : OrgOk s layout) (requires : Requires s (.freeToUnusedQueue i)) :
    ∃ layout', OrgOk (freeToUnusedQueue s i) layout' := by
  obtain ⟨bound, sid, k, c, ec, popped, number⟩ := requires
  have small : i < 32 := Nat.lt_succ_of_le bound
  obtain ⟨r, y, memberY, pending⟩ := ok.popped_piece (by rw [popped]; rfl)
  have isPending := pending
  rw [popped] at pending
  obtain ⟨rfl, rfl, positive⟩ := pending
  have bounds := ok.pieces.bounds memberY
  obtain ⟨left, right, swap⟩ := ok.pieces.swap memberY
  simp only at swap positive bounds
  have page : ∀ m, k ≤ m → m < k + c → s.page ⟨sid, m⟩ = .unset := by
    intro m lower upper
    obtain ⟨entry, _, page, linked⟩ := (ok.pieces.fills sid _ memberY).page (i := m) lower upper
    obtain rfl := Piece.unlinked rfl linked
    rw [page, (Piece.data_blank rfl m).1]
  have stamp := ok.stamped swap rfl (x := ⟨k, c, .unused⟩) le_rfl le_rfl bounds.1 rfl small
    ⟨some ⟨none, (s.unusedHeader i).first⟩, some c, some 0, false, none, none⟩
    { s.page ⟨sid, k + c - 1⟩ with offset := some (c - 1) }
    (by simp [PageData.shape, Piece.data, Role.inUse, Role.full, Role.header]) rfl
    (fun several => by
      simp only at several
      rw [page _ (by omega) (by omega)]
      have : ¬k + c - 1 = k := by omega
      have : k + c - 1 - k = c - 1 := by omega
      simp [PageData.shape, PageData.unset, Piece.data, Role.inUse, *])
  have result : PageOrg.freeToUnusedQueue s i = { s with
      pages := s.setPrev
        (if c > 1 then
          Pages.insert (Pages.insert s.pages ⟨sid, k⟩
            ⟨some ⟨none, (s.unusedHeader i).first⟩, some c, some 0, false, none, none⟩)
            ⟨sid, k + c - 1⟩ { s.page ⟨sid, k + c - 1⟩ with offset := some (c - 1) }
        else Pages.insert s.pages ⟨sid, k⟩
          ⟨some ⟨none, (s.unusedHeader i).first⟩, some c, some 0, false, none, none⟩)
        (s.unusedHeader i).first (some ⟨sid, k⟩)
      unusedDlistHeaders := s.unusedDlistHeaders.set i ((s.unusedHeader i).withFront ⟨sid, k⟩)
      popped := if ec then .extraCount sid else .no
      unusedLists := insertFront s.unusedLists i ⟨sid, k⟩ } := by
    unfold PageOrg.freeToUnusedQueue
    rw [popped]
  rw [result]
  refine ⟨_, ok.linkUnused swap rfl isPending positive
    (show Tiles Piece.start Piece.count k ([] ++ [⟨k, c, .unused⟩]) (k + c) from ⟨rfl, bounds.1, rfl⟩) rfl (by simp) number small stamp rfl rfl ⟨rfl, rfl⟩ rfl (by simp)
    (fun any => ?_) (fun r => ?_) (fun r idx impossible => ?_) fun r status => ?_⟩
  · cases ec <;> cases any
  · rw [popped]
    cases ec <;> simp [State.ecOfPopped]
  · cases ec <;> cases impossible
  · cases ec with
    | false => cases status
    | true => cases status; rfl

/-! ### Used pieces -/

/-- The slices of a page in use, after its first one changed. -/
theorem fills_retag {pages pages' : Pages P} (fills : Fills pages sid x)
    (same : y.start = x.start ∧ y.count = x.count) (before : x.role.inUse = true)
    (after : y.role.inUse = true)
    (shape : ∀ id : PageId P, shapeAt pages' id =
      if id = ⟨sid, x.start⟩ then some (y.data x.start none, y.role.listed) else shapeAt pages id) :
    Fills pages' sid y := by
  intro k lower upper
  rw [same.1] at lower upper
  rw [same.2] at upper
  rw [shape]
  by_cases isFirst : k = x.start
  · subst isFirst
    rw [if_pos rfl, Piece.linked, same.1, decide_eq_true rfl, Bool.true_and]
  · rw [if_neg (by simpa using isFirst), fills k lower upper]
    have offsetX := Piece.offset_used (P := P) before k none
    have offsetY := Piece.offset_used (P := P) after k none
    rw [same.1, ← offsetX] at offsetY
    simp only [Piece.data, Piece.linked, same.1, isFirst, before, after, false_and, if_false,
      decide_false, Bool.false_and] at offsetY ⊢
    rw [offsetY]

/-- **A detached piece becomes used, or the other way round.** -/
theorem swapUsed (ok : OrgOk s layout)
    (swap : Swap s layout sid left [x] right x.start (x.start + x.count))
    (same : y.start = x.start ∧ y.count = x.count) (inner : 0 < x.start)
    (before : x.role.inUse = true) (inUse : y.role.inUse = true)
    (shape : ∀ id : PageId P, shapeAt s'.pages id =
      if id = ⟨sid, x.start⟩ then some (y.data x.start none, y.role.listed) else shapeAt s.pages id)
    (links : ∀ k other, On unusedIndex layout k other → linksAt s'.pages other = linksAt s.pages other)
    (unusedQueues : s'.unusedDlistHeaders = s.unusedDlistHeaders ∧ s'.unusedLists = s.unusedLists)
    (segments : s'.segments = s.segments)
    (pending : y.role.pending = true → IsPending s'.popped sid y)
    (others : ∀ r z, z ∈ layout r → (r = sid → z ∈ left ∨ z ∈ right) → z.role.pending = false)
    (popped : s'.popped.any = true → IsPending s'.popped sid y)
    (ec : ∀ r, State.ecOfPopped s'.popped r = State.ecOfPopped s.popped r)
    (freeing : ∀ r idx, s'.popped ≠ .segmentFreeing r idx) (extra : ∀ r, s'.popped ≠ .extraCount r)
    (headers : ∀ header full, y.role = .used header full → HeaderOk header)
    (used : LayoutOk s' (Swap.result layout sid left [y] right) →
      QueuesOk s'.pages 75 s'.usedDlistHeaders s'.usedLists
        (On usedIndex (Swap.result layout sid left [y] right))) :
    OrgOk s' (Swap.result layout sid left [y] right) := by
  have single : ∀ {z}, z ∈ [y] → z = y := fun member => List.mem_singleton.mp member
  have notUnused : ∀ z : Piece, z.role.inUse = true → unusedIndex z = none := by
    intro z isUsed
    unfold unusedIndex
    cases role : z.role
    all_goals first | rfl | (rw [role] at isUsed; cases isUsed)
  have after : LayoutOk s' (Swap.result layout sid left [y] right) := by
    refine ok.pieces.replace swap.shape swap.known swap.before swap.after
      ⟨same.1, by rw [same.2]; exact swap.inner.2.1, by rw [same.2]; rfl⟩ (fun r => by rw [segments])
      (fun id outside => ?_) (fun z inNew => ?_) (fun z inNew isPending => ?_) others
      (fun any => ⟨y, List.mem_singleton_self _, popped any⟩) (fun z inNew isFirst => ?_)
      fun z inNew zero => ?_
    · rw [shape, if_neg]
      rintro rfl
      have := swap.inner.2.1
      exact outside ⟨rfl, by simp only; omega, by simp only; omega⟩
    · rw [single inNew]
      exact fills_retag (ok.pieces.fills sid x (swap.mem.mpr (.inr (.inl (List.mem_singleton_self _)))))
        same before inUse shape
    · rw [single inNew] at isPending ⊢
      exact pending isPending
    · rw [single inNew] at isFirst
      rw [isFirst] at inUse
      cases inUse
    · rw [single inNew, same.1] at zero
      omega
  refine ok.replace swap after (fun r d' here => ?_)
    (fun r idx impossible => absurd impossible (freeing r idx))
    (fun r impossible => absurd impossible (extra r)) (fun z header full inNew role => ?_) ?_ (used after)
  · rw [segments] at here
    refine ⟨d', here, ?_⟩
    rw [ec]
    simp [usedPieces, before, inUse]
  · rw [single inNew] at role
    exact headers header full role
  · rw [unusedQueues.1, unusedQueues.2]
    have on := swap.on_same unusedIndex [y]
      (fun z inOld => notUnused z (by rw [List.mem_singleton.mp inOld]; exact before))
      (fun z inNew => notUnused z (by rw [single inNew]; exact inUse))
    exact ok.unused.congr on links fun k other here =>
      after.on_linked (fun _ _ => unusedIndex_listed) ((on k other).mpr here)

/-- The detached piece that `into_used_list` links, with the number of its queue. -/
theorem detached_piece {id : PageId P} (ok : OrgOk s layout) (popped : s.popped = .used id true)
    (bin : validBinIdx i ∨ i = binFull) (fits : HeaderFits (s.page id).pageHeaderKind i) :
    i < 75 ∧ 0 < id.idx ∧ ∃ count header, ∃ left right,
      Swap s layout id.segmentId left [⟨id.idx, count, .detached header⟩] right id.idx
        (id.idx + count) ∧
      s.pages id = some ((⟨id.idx, count, .detached header⟩ : Piece).data id.idx none) ∧
      HeaderOk header ∧
      usedIndex ⟨id.idx, count, .used header (decide (i = binFull))⟩ = some i := by
  have small : i < 75 := by
    rcases bin with valid | full
    · have := valid.2
      simp only [binHuge] at this
      omega
    · simp [full]
  obtain ⟨sid, x, member, pending⟩ := ok.popped_piece (by rw [popped]; rfl)
  rw [popped] at pending
  obtain ⟨rfl, ⟨header, role⟩, positive⟩ := pending
  obtain ⟨k, count, _⟩ := x
  simp only at role positive
  subst role
  obtain ⟨left, right, swap⟩ := ok.pieces.swap member
  obtain ⟨entry, here, page, linked⟩ := ok.pieces.head member
  obtain rfl : entry = none := by simpa [Role.listed] using linked
  simp only at here page
  have kind : (s.page ⟨sid, k⟩).pageHeaderKind = some header := by
    rw [page]
    simp [Piece.data, Role.header]
  rw [kind] at fits
  cases header with
  | normal b size =>
      obtain ⟨own, valid, atSize, atBin, medium⟩ := fits
      refine ⟨small, positive, count, .normal b size, left, right, swap, here,
        ⟨valid, atSize, atBin, medium⟩, ?_⟩
      show some (if decide (i = binFull) = true then binFull else b.toNat) = some i
      by_cases full : i = binFull
      · rw [if_pos (decide_eq_true full), full]
      · rw [if_neg (fun yes => full (of_decide_eq_true yes)), ← own full]
        rfl

/-- The popped page is on no queue. -/
theorem detached_off {header : PageHeaderKind} {count : Nat} {index : Piece → Option Nat}
    (ok : OrgOk s layout) (member : (⟨a, count, .detached header⟩ : Piece) ∈ layout sid)
    (listed : ∀ z k, index z = some k → z.role.listed = true) (k : Nat) :
    ¬On index layout k ⟨sid, a⟩ := by
  rintro ⟨z, inZ, start, number⟩
  obtain rfl := ok.pieces.eq_of_start inZ member start
  have := listed _ _ number
  cases this

/-- **`into_used_list`**. -/
theorem intoUsedList (ok : OrgOk s layout) (requires : Requires s (.intoUsedList i)) :
    ∃ layout', OrgOk (intoUsedList s i) layout' := by
  obtain ⟨bin, ⟨sid, k⟩, popped, fits⟩ := requires
  obtain ⟨small, positive, count, header, left, right, swap, here, headerOk, number⟩ :=
    ok.detached_piece popped bin fits
  simp only at positive swap here number
  have member : (⟨k, count, .detached header⟩ : Piece) ∈ layout sid :=
    swap.mem.mpr (.inr (.inl (List.mem_singleton_self _)))
  have isPending : IsPending s.popped sid ⟨k, count, .detached header⟩ := by
    rw [popped]
    exact ⟨rfl, ⟨header, rfl⟩, positive⟩
  have page : s.page ⟨sid, k⟩ = (⟨k, count, .detached header⟩ : Piece).data k none := by
    rw [State.page, here]
    rfl
  have off := ok.detached_off member fun _ _ => usedIndex_listed
  have apart : ∀ m other, On usedIndex layout m other → other ≠ ⟨sid, k⟩ := by
    rintro m _ on rfl
    exact off m on
  have redirects : Redirects s s.pages (s.usedHeader i).first := fun neighbour first =>
    ⟨rfl, ok.used.linked i neighbour (ok.used.first_member small first)⟩
  have redirected := fun id => State.setPrev_spec (some ⟨sid, k⟩) redirects id
  have result : PageOrg.intoUsedList s i = { s with
      usedDlistHeaders := s.usedDlistHeaders.set i ((s.usedHeader i).withFront ⟨sid, k⟩)
      pages := Pages.insert (s.setPrev s.pages (s.usedHeader i).first (some ⟨sid, k⟩)) ⟨sid, k⟩
        { s.page ⟨sid, k⟩ with
          dlistEntry := some { prev := none, next := (s.usedHeader i).first }
          full := some (decide (i = binFull)) }
      popped := .no
      usedLists := insertFront s.usedLists i ⟨sid, k⟩ } := by
    unfold PageOrg.intoUsedList
    rw [popped]
  rw [result]
  refine ⟨_, ok.swapUsed swap (y := ⟨k, count, .used header (decide (i = binFull))⟩) ⟨rfl, rfl⟩ positive
    rfl rfl (fun id => ?_) (fun m other on => ?_) ⟨rfl, rfl⟩ rfl (fun impossible => by cases impossible)
    (swap.others_of_pending ok.pieces (List.mem_singleton_self _) isPending)
    (fun impossible => by cases impossible) (fun r => ?_) (fun _ _ impossible => by cases impossible)
    (fun _ impossible => by cases impossible) (fun header' full role => ?_) fun after => ?_⟩
  · show shapeAt (Pages.insert _ _ _) id = _
    rw [shapeAt_insert, page]
    split
    · simp [PageData.shape, Piece.data, Role.inUse, Role.full, Role.header, Role.listed]
    · exact (redirected id).1
  · show linksAt (Pages.insert _ _ _) other = _
    rw [linksAt_insert, if_neg, (redirected other).2, if_neg]
    · intro first
      exact ok.pieces.on_one (ok.used.first_member small first.symm) on rfl
    · rintro rfl
      exact ok.detached_off member (fun _ _ => unusedIndex_listed) m on
  · rw [popped]
    simp [State.ecOfPopped]
  · cases role
    exact headerOk
  · have same := swap.on_add usedIndex [⟨k, count, .used header (decide (i = binFull))⟩]
      (List.mem_singleton_self _) (by simp [usedIndex]) number
      fun z inNew differs => absurd (List.mem_singleton.mp inNew) differs
    refine ok.used.pushFront small off ?_ (fun m other on => ?_) (fun m other on => ?_) same
      fun m other on => after.on_linked (fun _ _ => usedIndex_listed) on
    · show linksAt (Pages.insert _ _ _) _ = _
      rw [linksAt_insert, if_pos rfl]
      rfl
    · show (linksAt (Pages.insert _ _ _) other).next = _
      rw [linksAt_insert, if_neg (apart m other on), (redirected other).2]
      split <;> rfl
    · show (linksAt (Pages.insert _ _ _) other).prev = _
      rw [linksAt_insert, if_neg (apart m other on), (redirected other).2]
      show _ = if some other = (s.usedHeader i).first then _ else _
      split <;> rfl

/-- **`into_used_list_back`**. -/
theorem intoUsedListBack (ok : OrgOk s layout) (requires : Requires s (.intoUsedListBack i)) :
    ∃ layout', OrgOk (intoUsedListBack s i) layout' := by
  obtain ⟨bin, ⟨sid, k⟩, popped, fits⟩ := requires
  obtain ⟨small, positive, count, header, left, right, swap, here, headerOk, number⟩ :=
    ok.detached_piece popped bin fits
  simp only at positive swap here number
  have member : (⟨k, count, .detached header⟩ : Piece) ∈ layout sid :=
    swap.mem.mpr (.inr (.inl (List.mem_singleton_self _)))
  have isPending : IsPending s.popped sid ⟨k, count, .detached header⟩ := by
    rw [popped]
    exact ⟨rfl, ⟨header, rfl⟩, positive⟩
  have page : s.page ⟨sid, k⟩ = (⟨k, count, .detached header⟩ : Piece).data k none := by
    rw [State.page, here]
    rfl
  have off := ok.detached_off member fun _ _ => usedIndex_listed
  have apart : ∀ m other, On usedIndex layout m other → other ≠ ⟨sid, k⟩ := by
    rintro m _ on rfl
    exact off m on
  have redirects : Redirects s s.pages (s.usedHeader i).last := fun neighbour last =>
    ⟨rfl, ok.used.linked i neighbour (ok.used.last_member small last)⟩
  have redirected := fun id => State.setNext_spec (some ⟨sid, k⟩) redirects id
  have result : PageOrg.intoUsedListBack s i = { s with
      usedDlistHeaders := s.usedDlistHeaders.set i ((s.usedHeader i).withBack ⟨sid, k⟩)
      pages := Pages.insert (s.setNext s.pages (s.usedHeader i).last (some ⟨sid, k⟩)) ⟨sid, k⟩
        { s.page ⟨sid, k⟩ with
          dlistEntry := some { prev := (s.usedHeader i).last, next := none }
          full := some (decide (i = binFull)) }
      popped := .no
      usedLists := insertBack s.usedLists i ⟨sid, k⟩ } := by
    unfold PageOrg.intoUsedListBack
    rw [popped]
  rw [result]
  refine ⟨_, ok.swapUsed swap (y := ⟨k, count, .used header (decide (i = binFull))⟩) ⟨rfl, rfl⟩ positive
    rfl rfl (fun id => ?_) (fun m other on => ?_) ⟨rfl, rfl⟩ rfl (fun impossible => by cases impossible)
    (swap.others_of_pending ok.pieces (List.mem_singleton_self _) isPending)
    (fun impossible => by cases impossible) (fun r => ?_) (fun _ _ impossible => by cases impossible)
    (fun _ impossible => by cases impossible) (fun header' full role => ?_) fun after => ?_⟩
  · show shapeAt (Pages.insert _ _ _) id = _
    rw [shapeAt_insert, page]
    split
    · simp [PageData.shape, Piece.data, Role.inUse, Role.full, Role.header, Role.listed]
    · exact (redirected id).1
  · show linksAt (Pages.insert _ _ _) other = _
    rw [linksAt_insert, if_neg, (redirected other).2, if_neg]
    · intro last
      exact ok.pieces.on_one (ok.used.last_member small last.symm) on rfl
    · rintro rfl
      exact ok.detached_off member (fun _ _ => unusedIndex_listed) m on
  · rw [popped]
    simp [State.ecOfPopped]
  · cases role
    exact headerOk
  · have same := swap.on_add usedIndex [⟨k, count, .used header (decide (i = binFull))⟩]
      (List.mem_singleton_self _) (by simp [usedIndex]) number
      fun z inNew differs => absurd (List.mem_singleton.mp inNew) differs
    refine ok.used.pushBack small off ?_ (fun m other on => ?_) (fun m other on => ?_) same
      fun m other on => after.on_linked (fun _ _ => usedIndex_listed) on
    · show linksAt (Pages.insert _ _ _) _ = _
      rw [linksAt_insert, if_pos rfl]
      rfl
    · show (linksAt (Pages.insert _ _ _) other).next = _
      rw [linksAt_insert, if_neg (apart m other on), (redirected other).2]
      show _ = if some other = (s.usedHeader i).last then _ else _
      split <;> rfl
    · show (linksAt (Pages.insert _ _ _) other).prev = _
      rw [linksAt_insert, if_neg (apart m other on), (redirected other).2]
      split <;> rfl

/-- **`out_of_used_list`**. -/
theorem outOfUsedList {id : PageId P} (ok : OrgOk s layout)
    (requires : Requires s (.outOfUsedList id i j)) :
    ∃ layout', OrgOk (outOfUsedList s id i j) layout' := by
  obtain ⟨popped, valid⟩ := requires
  obtain ⟨_, nonzero, _, _, _, bin, here, _⟩ := valid
  have none : s.popped.any = false := by rw [popped]; rfl
  have small : i < 75 := by
    rcases bin with valid | full
    · have := valid.2
      simp only [binHuge] at this
      omega
    · simp [full]
  obtain ⟨⟨k, count, role⟩, member, start, number⟩ :=
    (ok.used.mem i small id).mp (List.mem_of_getElem? here)
  obtain ⟨sid, m⟩ := id
  simp only at start nonzero member
  subst start
  obtain ⟨header, full, rfl⟩ : ∃ header full, role = .used header full := by
    unfold usedIndex at number
    cases role <;> first | exact ⟨_, _, rfl⟩ | cases number
  obtain ⟨left, right, swap⟩ := ok.pieces.swap member
  obtain ⟨_, _, page, _⟩ := ok.pieces.head member
  have relinked := ok.used.relink small here (fun _ _ _ _ => rfl) _ rfl
  simp only at swap page
  have pages : (PageOrg.outOfUsedList s ⟨sid, k⟩ i j).pages = Pages.insert
      (s.setPrev (s.setNext s.pages (linksAt s.pages ⟨sid, k⟩).prev (linksAt s.pages ⟨sid, k⟩).next)
        (linksAt s.pages ⟨sid, k⟩).next (linksAt s.pages ⟨sid, k⟩).prev) ⟨sid, k⟩
      { s.page ⟨sid, k⟩ with full := Option.none, dlistEntry := Option.none } := by
    simp only [PageOrg.outOfUsedList, State.links_eq]
  refine ⟨_, ok.swapUsed swap (y := ⟨k, count, .detached header⟩) ⟨rfl, rfl⟩
    (Nat.pos_of_ne_zero nonzero) rfl rfl (fun other => ?_) (fun m other on => ?_) ⟨rfl, rfl⟩ rfl
    (fun _ => ⟨rfl, ⟨header, rfl⟩, Nat.pos_of_ne_zero nonzero⟩) (Swap.others_of_none ok.pieces none)
    (fun _ => ⟨rfl, ⟨header, rfl⟩, Nat.pos_of_ne_zero nonzero⟩) (fun r => ?_)
    (fun _ _ impossible => by cases impossible) (fun _ impossible => by cases impossible)
    (fun _ _ impossible => by cases impossible) fun after => ?_⟩
  · rw [pages, shapeAt_insert, page]
    split
    · simp [PageData.shape, Piece.data, Role.inUse, Role.full, Role.header, Role.listed]
    · exact (relinked other).1
  · have differs : ∀ m' neighbour, On usedIndex layout m' neighbour → other ≠ neighbour :=
      fun m' neighbour atNeighbour same => ok.pieces.on_one atNeighbour on same.symm
    rw [pages, linksAt_insert, if_neg (differs i _ ⟨_, member, rfl, number⟩)]
    have next := (relinked other).2.1
    have prev := (relinked other).2.2
    rw [if_neg fun neighbour => differs i other
      (ok.used.prev_member small here neighbour.symm).1 rfl] at next
    rw [if_neg fun neighbour => differs i other
      (ok.used.next_member small here neighbour.symm).1 rfl] at prev
    exact congrArg₂ DlistEntry.mk prev next
  · rw [popped]
    simp [PageOrg.outOfUsedList, State.ecOfPopped]
  · rw [show (PageOrg.outOfUsedList s ⟨sid, k⟩ i j).usedDlistHeaders = s.usedDlistHeaders.set i
      ((s.usedHeader i).without (linksAt s.pages ⟨sid, k⟩)) from by rw [← State.links_eq]; rfl]
    have same := swap.on_remove usedIndex [⟨k, count, .detached header⟩] (List.mem_singleton_self _)
      (fun z inOld differs => absurd (List.mem_singleton.mp inOld) differs) (by simp [usedIndex])
    refine ok.used.remove small here (fun other differs => ?_) (fun other differs => ?_) same
      fun m other on => after.on_linked (fun _ _ => usedIndex_listed) on
    · rw [pages, linksAt_insert, if_neg differs]
      exact (relinked other).2.1
    · rw [pages, linksAt_insert, if_neg differs]
      exact (relinked other).2.2

end OrgOk

end VerusMimalloc.PageOrg
