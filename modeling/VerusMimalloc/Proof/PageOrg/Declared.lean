/-
**From the layout to the declared invariants.**

Each declared invariant is read off a layout with `OrgOk`.

* `LayoutOk.slice`: every slice is a slice of a piece, or the one after the last;
* `ucount_eq`: the pages that count are the pieces in use;
* `QueuesOk.validLl`: a queue is a valid list;
* `attachedRec_of_tiles`: pieces in a row are attached ranges.
-/

import VerusMimalloc.Proof.PageOrg.Queued

namespace VerusMimalloc.PageOrg

open Library

variable {P : Type}

/-! ### Slices -/

namespace LayoutOk

variable {s : State P} {layout : Layout P} {r : SegmentId P} {x : Piece} {id : PageId P}

/-- **Every slice** of a segment is a slice of a piece, or the one after the last. -/
theorem slice (ok : LayoutOk s layout) (here : (s.pages id).isSome = true) :
    s.page id = .unset ∨ ∃ x ∈ layout id.segmentId, x.start ≤ id.idx ∧ id.idx < x.start + x.count ∧
      ∃ entry, s.page id = x.data id.idx entry ∧ entry.isSome = x.linked id.idx := by
  obtain ⟨sid, k⟩ := id
  obtain ⟨known, inside⟩ := (ok.domain _).mp here
  rcases Nat.lt_or_eq_of_le inside with inner | atEnd
  · obtain ⟨x, member, lower, upper⟩ := ok.covered known inner
    obtain ⟨entry, _, page, linked⟩ := (ok.fills sid x member).page lower upper
    exact .inr ⟨x, member, lower, upper, entry, page, linked⟩
  · simp only at atEnd
    subst atEnd
    obtain ⟨entry, found, unlinked⟩ := shapeAt_eq_some (ok.last sid known)
    obtain rfl : entry = none := by simpa using unlinked
    refine .inl ?_
    rw [State.page, found]
    rfl

/-- A slice with a count starts a piece. -/
theorem counted (ok : LayoutOk s layout) (here : (s.pages id).isSome = true) {count : Nat}
    (atCount : (s.page id).count = some count) :
    ∃ x ∈ layout id.segmentId, x.start = id.idx ∧ x.count = count := by
  rcases ok.slice here with page | ⟨x, member, _, _, entry, page, _⟩
  · rw [page] at atCount
    cases atCount
  · rw [page] at atCount
    simp only [Piece.data] at atCount
    split at atCount
    case isTrue first => exact ⟨x, member, first.1.symm, Option.some.inj atCount⟩
    case isFalse => cases atCount

/-- A slice in use with offset 0 starts a page in use. -/
theorem used_start (ok : LayoutOk s layout) (here : (s.pages id).isSome = true)
    (isUsed : (s.page id).isUsed = true) (offset : (s.page id).offset = some 0) :
    ∃ x ∈ layout id.segmentId, x.start = id.idx ∧ x.role.inUse = true ∧
      ∃ entry, s.page id = x.data id.idx entry ∧ entry.isSome = x.role.listed := by
  rcases ok.slice here with page | ⟨x, member, lower, _, entry, page, linked⟩
  · rw [page] at isUsed
    cases isUsed
  · rw [page] at isUsed offset
    have inUse : x.role.inUse = true := isUsed
    have start : x.start = id.idx := by
      rw [Piece.offset_used inUse, Option.some.injEq] at offset
      omega
    refine ⟨x, member, start, inUse, entry, page, ?_⟩
    rw [linked, Piece.linked, decide_eq_true start.symm, Bool.true_and]

/-- An unused slice with offset 0 starts an unused or a popped piece, or the segment. -/
theorem unused_start (ok : LayoutOk s layout) (here : (s.pages id).isSome = true)
    (isUsed : (s.page id).isUsed = false) (offset : (s.page id).offset = some 0) (inner : id.idx ≠ 0) :
    ∃ x ∈ layout id.segmentId, (x.role = .unused ∧ x.start ≤ id.idx ∧ id.idx < x.start + x.count ∨
      x.role = .ready) ∧ x.start = id.idx := by
  rcases ok.slice here with page | ⟨x, member, lower, upper, entry, page, linked⟩
  · rw [page] at offset
    cases offset
  · rw [page] at isUsed offset
    have inUse : x.role.inUse = false := isUsed
    simp only [Piece.data] at offset
    cases role : x.role with
    | first =>
        have start := ok.first _ x member role
        rw [role] at offset
        simp only [Option.some.injEq] at offset
        omega
    | unused =>
        rw [role] at offset
        simp only at offset
        split at offset
        case isFalse => cases offset
        case isTrue atEnd =>
          simp only [Option.some.injEq] at offset
          exact ⟨x, member, .inl ⟨role, lower, upper⟩, by omega⟩
    | used =>
        rw [role] at inUse
        cases inUse
    | ready =>
        rw [role] at offset
        simp only [Option.some.injEq] at offset
        exact ⟨x, member, .inr role, by omega⟩
    | detached =>
        rw [role] at inUse
        cases inUse
    | blank =>
        rw [role] at offset
        cases offset

end LayoutOk

/-! ### The status of a popped piece -/

section Status

variable {popped : Popped P} {r : SegmentId P} {x : Piece}

/-- A detached piece is popped as used. -/
theorem IsPending.of_detached {header : PageHeaderKind} (pending : IsPending popped r x)
    (role : x.role = .detached header) : ∃ ec, popped = .used ⟨r, x.start⟩ ec := by
  cases popped with
  | no => exact pending.elim
  | extraCount => exact pending.elim
  | used id ec =>
      obtain ⟨rfl, _⟩ := pending
      exact ⟨ec, rfl⟩
  | ready id ec =>
      rw [pending.2.1] at role
      cases role
  | veryUnready =>
      rw [pending.2.1] at role
      cases role
  | segmentCreating =>
      rw [pending.2] at role
      cases role
  | segmentFreeing =>
      rw [pending.2] at role
      cases role

/-- A ready piece is popped as ready. -/
theorem IsPending.of_ready (pending : IsPending popped r x) (role : x.role = .ready) :
    ∃ ec, popped = .ready ⟨r, x.start⟩ ec := by
  cases popped with
  | no => exact pending.elim
  | extraCount => exact pending.elim
  | ready id ec =>
      obtain ⟨rfl, _⟩ := pending
      exact ⟨ec, rfl⟩
  | used id ec =>
      obtain ⟨_, ⟨header, detached⟩, _⟩ := pending
      rw [detached] at role
      cases role
  | veryUnready =>
      rw [pending.2.1] at role
      cases role
  | segmentCreating =>
      rw [pending.2] at role
      cases role
  | segmentFreeing =>
      rw [pending.2] at role
      cases role

/-- A popped piece starts its segment only while the segment is created or freed. -/
theorem IsPending.of_start (pending : IsPending popped r x) (start : x.start = 0) :
    popped = .segmentCreating r ∨ ∃ idx, popped = .segmentFreeing r idx := by
  cases popped with
  | no => exact pending.elim
  | extraCount => exact pending.elim
  | ready id ec => exact absurd start (Nat.ne_of_gt pending.2.2)
  | used id ec => exact absurd start (Nat.ne_of_gt pending.2.2)
  | veryUnready sid first count ec =>
      obtain ⟨_, rfl, positive⟩ := pending
      exact absurd start (Nat.ne_of_gt positive)
  | segmentCreating sid => exact .inl (by rw [pending.1])
  | segmentFreeing sid idx => exact .inr ⟨idx, by rw [pending.1]⟩

end Status

/-! ### Counts -/

theorem ucountSum_skip {s : State P} {r : SegmentId P} {a : Nat} (n : Nat)
    (none : ∀ i, a ≤ i → i < a + n → ¬s.doesCount ⟨r, i⟩) :
    s.ucountSum r (a + n) = s.ucountSum r a := by
  induction n with
  | zero => rfl
  | succ n ih =>
      show s.ucountSum r (a + n) + (if s.doesCount ⟨r, a + n⟩ then 1 else 0) = _
      rw [if_neg (none (a + n) (by omega) (by omega)),
        ih fun i lower upper => none i lower (by omega), add_zero]

theorem LayoutOk.doesCount_iff {s : State P} {layout : Layout P} {r : SegmentId P} {x : Piece} {i : Nat}
    (ok : LayoutOk s layout) (member : x ∈ layout r) (lower : x.start ≤ i)
    (upper : i < x.start + x.count) :
    s.doesCount ⟨r, i⟩ ↔ i = x.start ∧ x.role.inUse = true := by
  obtain ⟨entry, here, page, _⟩ := (ok.fills r x member).page lower upper
  constructor
  · rintro ⟨_, _, isUsed, offset⟩
    obtain ⟨y, inY, start, inUse, _⟩ := ok.used_start (by rw [here]; rfl) isUsed offset
    simp only at start inY
    have boundsY := ok.bounds inY
    obtain rfl := (ok.tiles r (ok.known member)).eq_of_overlap inY member (x := i) (by omega) ⟨lower, upper⟩
    exact ⟨start.symm, inUse⟩
  · rintro ⟨rfl, inUse⟩
    refine ⟨by rw [here]; rfl, fun zero => ?_, by rw [page]; exact inUse, ?_⟩
    · rcases ok.start r x member zero with role | role
      all_goals
        rw [role] at inUse
        cases inUse
    · rw [page, Piece.offset_used inUse, Nat.sub_self]

/-- **The pages that count** in a row of pieces are those in use. -/
theorem LayoutOk.ucountSum_tiles {s : State P} {layout : Layout P} {r : SegmentId P} {pieces : List Piece}
    (ok : LayoutOk s layout) {a b : Nat} (tiles : Tiles Piece.start Piece.count a pieces b)
    (inside : ∀ x ∈ pieces, x ∈ layout r) :
    s.ucountSum r b = s.ucountSum r a + usedPieces pieces := by
  induction pieces generalizing a with
  | nil =>
      obtain rfl : a = b := tiles
      rfl
  | cons x rest ih =>
      obtain ⟨rfl, positive, tail⟩ := tiles
      have member := inside x List.mem_cons_self
      have counts := fun i => ok.doesCount_iff (i := i) member
      rw [ih tail fun y inRest => inside y (List.mem_cons_of_mem _ inRest)]
      have split : x.start + x.count = (x.start + 1) + (x.count - 1) := by omega
      have rests : s.ucountSum r (x.start + x.count) = s.ucountSum r (x.start + 1) := by
        rw [split]
        refine ucountSum_skip _ fun i lower upper does => ?_
        have := ((counts i (by omega) (by omega)).mp does).1
        omega
      rw [rests]
      show s.ucountSum r x.start + (if s.doesCount ⟨r, x.start⟩ then 1 else 0) + usedPieces rest = _
      simp only [usedPieces, List.countP_cons]
      by_cases inUse : x.role.inUse = true
      · rw [if_pos ((counts x.start le_rfl (by omega)).mpr ⟨rfl, inUse⟩), if_pos inUse]
        omega
      · rw [if_neg fun does => inUse ((counts x.start le_rfl (by omega)).mp does).2, if_neg inUse]
        omega

/-! ### Lists -/

theorem QueuesOk.validLl {pages : Pages P} {n i : Nat} {headers : List (DlistHeader P)}
    {lists : List (List (PageId P))} {member : Nat → PageId P → Prop}
    (ok : QueuesOk pages n headers lists member) (inside : i < n) :
    validLl pages (headerAt headers i) (listAt lists i) := by
  have list := ok.list i inside
  refine ⟨?_, ?_, fun j small => ?_⟩
  · rw [list.first_eq]
    cases listAt lists i <;> rfl
  · rw [list.last_eq, List.getLast?_map]
    cases (listAt lists i).getLast? <;> rfl
  · have here : (listAt lists i)[j]? = some (listAt lists i)[j] := List.getElem?_eq_getElem small
    obtain ⟨d, found, linked⟩ :=
      ok.linked i _ ((ok.mem i inside _).mp (List.mem_of_getElem? here))
    obtain ⟨links, entry⟩ := Option.isSome_iff_exists.mp linked
    have atLinks : linksAt pages (listAt lists i)[j] = links := by
      rw [linksAt, found, Option.bind_some, entry, Option.getD_some]
    have shape : (listAt lists i).map some = ((listAt lists i).take j).map some ++
        some (listAt lists i)[j] :: ((listAt lists i).drop (j + 1)).map some := by
      rw [← List.map_cons, ← List.map_append, ← List.drop_eq_getElem_cons small,
        List.take_append_drop]
    rw [shape] at list
    obtain ⟨prev, next⟩ := list.links
    simp only [prevOf, nextOf, Option.bind_some, atLinks] at prev next
    refine ⟨_, d, links, here, found, entry, ?_, ?_⟩
    · rw [prev, getPrev, List.getLast?_map, List.getLast?_take]
      by_cases zero : j = 0
      · rw [if_pos zero, if_pos zero]
        rfl
      · rw [if_neg zero, if_neg zero, List.getElem?_eq_getElem (by omega)]
        rfl
    · rw [next, getNext, List.head?_map, List.head?_drop]
      cases (listAt lists i)[j + 1]? <;> rfl

/-! ### Attached ranges -/

section Ranges

variable {s : State P} {layout : Layout P} {r : SegmentId P} {x : Piece}

/-- A popped piece inside the segment is the one that the status points at. -/
theorem IsPending.isThePopped (pending : IsPending s.popped r x) (inner : 0 < x.start) :
    s.isThePopped r x.start := by
  unfold State.isThePopped
  cases popped : s.popped with
  | no => rw [popped] at pending; exact pending
  | extraCount => rw [popped] at pending; exact pending
  | ready id ec =>
      rw [popped] at pending
      rw [pending.1]
      exact ⟨rfl, rfl⟩
  | used id ec =>
      rw [popped] at pending
      rw [pending.1]
      exact ⟨rfl, rfl⟩
  | veryUnready sid start count ec =>
      rw [popped] at pending
      obtain ⟨rfl, rfl, _⟩ := pending
      exact ⟨rfl, rfl⟩
  | segmentCreating sid =>
      rw [popped] at pending
      obtain ⟨_, rfl⟩ := pending
      cases inner
  | segmentFreeing sid idx =>
      rw [popped] at pending
      obtain ⟨_, rfl⟩ := pending
      cases inner

/-- The status points at no piece but the popped one. -/
theorem LayoutOk.popped_of_isThePopped (ok : LayoutOk s layout) {a : Nat} (here : s.isThePopped r a) :
    ∃ y ∈ layout r, y.start = a ∧ IsPending s.popped r y := by
  have any : s.popped.any = true := by
    unfold State.isThePopped at here
    cases popped : s.popped <;> rw [popped] at here <;> first | rfl | exact here.elim
  obtain ⟨sid, y, member, pending⟩ := ok.popped any
  have isPending := pending
  unfold State.isThePopped at here
  cases popped : s.popped with
  | no => rw [popped] at here; exact here.elim
  | extraCount => rw [popped] at here; exact here.elim
  | segmentCreating => rw [popped] at here; exact here.elim
  | segmentFreeing => rw [popped] at here; exact here.elim
  | ready id ec =>
      rw [popped] at here pending
      obtain ⟨rfl, _⟩ := pending
      obtain ⟨rfl, rfl⟩ := here
      exact ⟨y, member, rfl, popped ▸ isPending⟩
  | used id ec =>
      rw [popped] at here pending
      obtain ⟨rfl, _⟩ := pending
      obtain ⟨rfl, rfl⟩ := here
      exact ⟨y, member, rfl, popped ▸ isPending⟩
  | veryUnready =>
      rw [popped] at here pending
      obtain ⟨rfl, rfl, _⟩ := pending
      obtain ⟨rfl, rfl⟩ := here
      exact ⟨_, member, rfl, popped ▸ isPending⟩

/-- The popped range is the popped piece. -/
theorem LayoutOk.poppedLen_eq (ok : LayoutOk s layout) (member : x ∈ layout r)
    (pending : IsPending s.popped r x) (inner : 0 < x.start) : s.poppedLen = x.count := by
  obtain ⟨_, _, page, _⟩ := ok.head member
  unfold State.poppedLen
  cases popped : s.popped with
  | no => rw [popped] at pending; exact pending.elim
  | extraCount => rw [popped] at pending; exact pending.elim
  | ready id ec =>
      rw [popped] at pending
      obtain ⟨rfl, role, _⟩ := pending
      simp only [State.countAt, page, Piece.data, role]
      simp
  | used id ec =>
      rw [popped] at pending
      obtain ⟨rfl, ⟨header, role⟩, _⟩ := pending
      simp only [State.countAt, page, Piece.data, role]
      simp
  | veryUnready sid start count ec =>
      rw [popped] at pending
      obtain ⟨rfl, rfl, _⟩ := pending
      rfl
  | segmentCreating sid =>
      rw [popped] at pending
      obtain ⟨_, rfl⟩ := pending
      cases inner
  | segmentFreeing sid idx =>
      rw [popped] at pending
      obtain ⟨_, rfl⟩ := pending
      cases inner

theorem LayoutOk.goodRangeUsed (ok : LayoutOk s layout) (member : x ∈ layout r)
    (inUse : x.role.inUse = true) : s.goodRangeUsed ⟨r, x.start⟩ := by
  obtain ⟨entry, here, _, _⟩ := ok.head member
  have notBlank : x.role ≠ .blank := fun blank => by rw [blank] at inUse; cases inUse
  refine ⟨_, x.count, here, ?_, ?_, (ok.bounds member).2, fun i lower upper => ?_⟩
  · rw [Piece.offset_used inUse, Nat.sub_self]
  · simp [Piece.data, notBlank]
  · obtain ⟨links, found, _, linked⟩ := (ok.fills r x member).page lower upper
    refine ⟨_, found, inUse, Piece.offset_used inUse i _, ?_, fun differs => ?_, fun differs => ?_⟩
    · simp only [Piece.data]
      by_cases first : i = x.start
      · rw [if_pos first]
        cases role : x.role
        all_goals first | exact ⟨fun _ => first, fun _ => rfl⟩ | (rw [role] at inUse; cases inUse)
      · rw [if_neg first]
        simp [first]
    · show links = none
      simpa [Piece.linked, show i ≠ x.start from differs] using linked
    · simp only [Piece.data]
      rw [if_neg (show i ≠ x.start from differs)]

theorem LayoutOk.goodRangeUnused (ok : LayoutOk s layout) (member : x ∈ layout r)
    (role : x.role = .unused) : s.goodRangeUnused ⟨r, x.start⟩ := by
  obtain ⟨entry, here, _, _⟩ := ok.head member
  refine ⟨_, x.count, here, ?_, ?_, (ok.bounds member).2, fun i lower upper => ?_⟩
  · simp [Piece.data, role]
  · simp [Piece.data, role]
  · obtain ⟨links, found, _, linked⟩ := (ok.fills r x member).page lower upper
    refine ⟨_, found, ?_, ?_, ?_, ?_, ?_, ?_⟩
    · simp [Piece.data, role, Role.inUse]
    · simp [Piece.data, role, Role.full]
    · simp [Piece.data, role, Role.header]
    · simp [Piece.data, role]
    · show links.isSome = true ↔ _
      rw [linked]
      simp [Piece.linked, role, Role.listed]
    · simp [Piece.data, role]

theorem LayoutOk.goodRangeReady (ok : LayoutOk s layout) (member : x ∈ layout r)
    (role : x.role = .ready) : s.goodRangeReady ⟨r, x.start⟩ := by
  obtain ⟨entry, here, _, _⟩ := ok.head member
  refine ⟨_, x.count, here, ?_, ?_, (ok.bounds member).2, fun i lower upper => ?_⟩
  · simp [Piece.data, role]
  · simp [Piece.data, role]
  · obtain ⟨links, found, _, linked⟩ := (ok.fills r x member).page lower upper
    obtain rfl := Piece.unlinked (by rw [role]; rfl) linked
    refine ⟨_, found, ?_, ?_, ?_, ?_, rfl, ?_⟩
    · simp [Piece.data, role, Role.inUse]
    · simp [Piece.data, role, Role.full]
    · simp [Piece.data, role, Role.header]
    · simp [Piece.data, role]
    · simp [Piece.data, role]

theorem LayoutOk.goodRange0 (ok : LayoutOk s layout) (member : x ∈ layout r) (role : x.role = .first) :
    s.goodRange0 r := by
  obtain ⟨entry, here, _, _⟩ := ok.head member
  have start := ok.first r x member role
  have bounds := ok.bounds member
  rw [start] at here bounds
  refine ⟨_, x.count, here, ?_, ?_, by simp only [slicesPerSegment]; omega, fun i upper => ?_⟩
  · simp [Piece.data, role, start]
  · simp [Piece.data, role, start]
  · obtain ⟨links, found, _, linked⟩ := (ok.fills r x member).page (i := i) (by omega) (by omega)
    obtain rfl := Piece.unlinked (by rw [role]; rfl) linked
    refine ⟨_, found, ?_, ?_, ?_, ?_, rfl, ?_⟩
    · simp [Piece.data, role, Role.inUse]
    · simp [Piece.data, role, Role.full]
    · simp [Piece.data, role, Role.header]
    · simp [Piece.data, role, start]
    · simp [Piece.data, role, start]

/-- **Pieces in a row are attached ranges**, the popped range among them if there is one. -/
theorem LayoutOk.attachedRec_of_tiles (ok : LayoutOk s layout) {pieces : List Piece} {a : Nat} {sp : Prop}
    (tiles : Tiles Piece.start Piece.count a pieces 512) (inside : ∀ x ∈ pieces, x ∈ layout r)
    (inner : 0 < a) (among : sp ↔ ∃ x ∈ pieces, x.role.pending = true) : s.attachedRec r a sp := by
  induction pieces generalizing a sp with
  | nil =>
      obtain rfl : a = 512 := tiles
      rw [State.attachedRec, if_pos (show 512 = slicesPerSegment from rfl)]
      intro yes
      obtain ⟨x, none, _⟩ := among.mp yes
      cases none
  | cons x rest ih =>
      obtain ⟨rfl, positive, tail⟩ := tiles
      have member := inside x List.mem_cons_self
      have bounds := ok.bounds member
      have later : ∀ y ∈ rest, y ∈ layout r ∧ y.start ≠ x.start := by
        intro y inRest
        refine ⟨inside y (List.mem_cons_of_mem _ inRest), fun same => ?_⟩
        have := tail.bounds inRest
        omega
      rw [State.attachedRec, if_neg (by simp only [slicesPerSegment]; omega),
        if_neg (by simp only [slicesPerSegment]; omega)]
      by_cases pending : x.role.pending = true
      · have isPending := ok.pending r x member pending
        have length := ok.poppedLen_eq member isPending inner
        refine .inl ⟨isPending.isThePopped inner, among.mpr ⟨x, List.mem_cons_self, pending⟩, ?_⟩
        rw [length]
        refine ⟨positive, bounds.2, positive, ?_⟩
        refine ih tail (fun y inRest => (later y inRest).1) (by omega) ⟨False.elim, ?_⟩
        rintro ⟨y, inRest, other⟩
        exact (later y inRest).2 (by rw [(ok.only_pending member isPending (later y inRest).1 other).2])
      · have settled : x.role.pending = false := by simpa using pending
        have notPopped : ¬s.isThePopped r x.start := by
          intro here
          obtain ⟨y, inY, start, isPending⟩ := ok.popped_of_isThePopped here
          rw [ok.eq_of_start inY member start] at isPending
          exact pending isPending.role
        obtain ⟨_, _, page, _⟩ := ok.head member
        have notFirst : x.role ≠ .first := fun first => by
          have := ok.first r x member first
          omega
        have notBlank : x.role ≠ .blank := fun blank => by
          rw [blank] at settled
          cases settled
        have count : s.countAt ⟨r, x.start⟩ = x.count := by
          rw [State.countAt, page]
          simp [Piece.data, notBlank]
        refine .inr ⟨notPopped, fun isUsed => ?_, fun notUsed => ?_, ?_⟩
        · rw [page] at isUsed
          exact ok.goodRangeUsed member isUsed
        · rw [page] at notUsed
          refine ok.goodRangeUnused member ?_
          cases role : x.role with
          | first => exact absurd role notFirst
          | unused => rfl
          | blank => exact absurd role notBlank
          | ready => rw [role] at settled; cases settled
          | detached => rw [role] at settled; cases settled
          | used =>
              have inUse : x.role.inUse = false := notUsed
              rw [role] at inUse
              cases inUse
        · rw [count]
          refine ⟨bounds.2, positive, ih tail (fun y inRest => (later y inRest).1) (by omega) ?_⟩
          rw [among]
          simp [settled]

end Ranges

end VerusMimalloc.PageOrg
