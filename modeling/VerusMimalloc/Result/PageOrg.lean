/-
**The page organization machine is inductive.**

Every run of its transitions, in any order that their guards allow, keeps a layout behind the state
(`OrgOk`), and the declared invariants are read off it.

* `OrgOk.initial`, `OrgOk.next`, `Reachable.orgOk`: the initial state, one transition, a run;
* `OrgOk.declared`: the declared invariants;
* `pageOrg_inductive`: together.
-/

import VerusMimalloc.Proof.PageOrg.Declared

namespace VerusMimalloc.PageOrg

open Library

variable {P : Type}

/-! ### Pages on the queues -/

section Pieces

variable {s : State P} {layout : Layout P} {x : Piece} {id : PageId P}

/-- A page in use that is not the popped one is a used piece. -/
theorem LayoutOk.used_piece (ok : LayoutOk s layout) (here : (s.pages id).isSome = true)
    (isUsed : (s.page id).isUsed = true) (offset : (s.page id).offset = some 0)
    (free : ∀ ec, s.popped ≠ .used id ec) :
    ∃ count header full entry, (⟨id.idx, count, .used header full⟩ : Piece) ∈ layout id.segmentId ∧
      s.page id = (⟨id.idx, count, .used header full⟩ : Piece).data id.idx entry ∧
      entry.isSome = true := by
  obtain ⟨⟨k, count, role⟩, member, start, inUse, entry, page, linked⟩ := ok.used_start here isUsed offset
  simp only at start inUse linked
  subst start
  cases role with
  | used header full => exact ⟨count, header, full, entry, member, page, linked⟩
  | detached header =>
      obtain ⟨ec, popped⟩ := (ok.pending _ _ member rfl).of_detached rfl
      exact absurd popped (free ec)
  | _ => cases inUse

/-- An unused page that is not the popped one is an unused piece. -/
theorem LayoutOk.unused_piece (ok : LayoutOk s layout) (here : (s.pages id).isSome = true)
    (isUsed : (s.page id).isUsed = false) (offset : (s.page id).offset = some 0) (inner : id.idx ≠ 0)
    (free : ∀ ec, s.popped ≠ .ready id ec) :
    ∃ count, (⟨id.idx, count, .unused⟩ : Piece) ∈ layout id.segmentId := by
  obtain ⟨⟨k, count, role⟩, member, roles, start⟩ := ok.unused_start here isUsed offset inner
  simp only at start roles
  subst start
  rcases roles with ⟨rfl, _⟩ | rfl
  · exact ⟨count, member⟩
  · obtain ⟨ec, popped⟩ := (ok.pending _ _ member rfl).of_ready rfl
    exact absurd popped (free ec)

/-- The popped page is in the popped range. -/
theorem LayoutOk.in_popped_range (ok : LayoutOk s layout) {ec : Bool} (popped : s.popped = .ready id ec) :
    s.inPoppedRange id := by
  obtain ⟨r, y, member, pending⟩ := ok.popped (by rw [popped]; rfl)
  obtain ⟨_, _, page, _⟩ := ok.head member
  have positive := (ok.bounds member).1
  rw [popped] at pending
  obtain ⟨rfl, role, _⟩ := pending
  unfold State.inPoppedRange
  rw [popped]
  have count : s.countAt ⟨r, y.start⟩ = y.count := by
    rw [State.countAt, page]
    simp [Piece.data, role]
  simp only [count, true_and]
  omega

theorem settled_used (settled : s.settled id) (ec : Bool) : s.popped ≠ .used id ec := by
  intro popped
  unfold State.settled at settled
  rw [popped] at settled
  exact settled rfl

end Pieces

namespace OrgOk

variable [DecidableEq P] {s : State P} {layout : Layout P} {id : PageId P} {i j : Nat}

/-- The data of a page of a used queue. -/
theorem used_on (ok : OrgOk s layout) (on : On usedIndex layout i id) :
    ∃ count bin size entry,
      (⟨id.idx, count, .used (.normal bin size) (decide (i = binFull))⟩ : Piece) ∈ layout id.segmentId ∧
      s.pages id = some ((⟨id.idx, count, .used (.normal bin size) (decide (i = binFull))⟩ : Piece).data
        id.idx entry) ∧ entry.isSome = true ∧ HeaderOk (.normal bin size) ∧
      (i ≠ binFull → (i : Int) = bin) := by
  obtain ⟨⟨k, count, role⟩, member, start, number⟩ := on
  obtain ⟨sid, m⟩ := id
  simp only at start member
  subst start
  obtain ⟨bin, size, full, rfl⟩ : ∃ bin size full, role = .used (.normal bin size) full := by
    unfold usedIndex at number
    cases role with
    | used header full =>
        cases header with
        | normal bin size => exact ⟨bin, size, full, rfl⟩
    | _ => cases number
  obtain ⟨entry, here, _, linked⟩ := ok.pieces.head member
  have header := ok.headers sid _ _ full member rfl
  have valid : 1 ≤ bin ∧ bin ≤ 73 := header.1
  simp only [usedIndex, Option.some.injEq] at number
  have atFull : full = decide (i = binFull) := by
    cases full with
    | true => simp only [if_true] at number; simp [← number]
    | false =>
        simp only [Bool.false_eq_true, if_false] at number
        simp only [binFull, binHuge]
        exact (decide_eq_false (by omega)).symm
  subst atFull
  refine ⟨count, bin, size, entry, member, here, linked, header, fun notFull => ?_⟩
  rw [decide_eq_false notFull] at number
  simp only [Bool.false_eq_true, if_false] at number
  omega

/-- A used piece is on the queue that its flag and its header say. -/
theorem on_used {count : Nat} {header : PageHeaderKind} {full : Bool}
    (ok : OrgOk s layout) (member : (⟨id.idx, count, .used header full⟩ : Piece) ∈ layout id.segmentId) :
    ∃ bin size, header = .normal bin size ∧ HeaderOk header ∧
      (full = true → isInListAt id s.usedLists binFull) ∧
      (full = false → isInListAt id s.usedLists bin) := by
  have headerOk := ok.headers _ _ _ full member rfl
  cases header with
  | normal bin size =>
      have valid : 1 ≤ bin ∧ bin ≤ 73 := headerOk.1
      have queue : ∀ k, usedIndex ⟨id.idx, count, .used (.normal bin size) full⟩ = some k →
          isInListAt id s.usedLists k := by
        intro k number
        have on : On usedIndex layout k id := ⟨_, member, rfl, number⟩
        have small := ok.used.bound k id on
        exact ⟨by omega, by rw [ok.used.lists_length]; omega, (ok.used.mem k small id).mpr on⟩
      refine ⟨bin, size, rfl, headerOk, fun isFull => ?_, fun notFull => ?_⟩
      · exact queue binFull (by rw [isFull]; rfl)
      · have := queue bin.toNat (by rw [notFull]; rfl)
        rwa [Int.toNat_of_nonneg (by omega)] at this

/-! ### The declared invariants -/

theorem llBasics (ok : OrgOk s layout) : s.llBasics :=
  ⟨ok.unused.headers_length, ok.unused.lists_length, ok.used.headers_length, ok.used.lists_length⟩

theorem countOff0 (ok : OrgOk s layout) : s.countOff0 := by
  intro id count here atCount
  obtain ⟨x, member, start, rfl⟩ := ok.pieces.counted here atCount
  have bounds := ok.pieces.bounds member
  rw [← start]
  exact bounds

/-- The piece at the start of a segment that is neither under construction nor being freed. -/
theorem first_piece (ok : OrgOk s layout) {r : SegmentId P} (known : (s.segments r).isSome = true)
    (notCreating : s.popped ≠ .segmentCreating r) (notFreeing : ∀ idx, s.popped ≠ .segmentFreeing r idx) :
    ∃ count right, layout r = ⟨0, count, .first⟩ :: right := by
  have tiles := ok.pieces.tiles r known
  obtain ⟨x, rest, shape⟩ : ∃ x rest, layout r = x :: rest := by
    cases shape : layout r with
    | nil =>
        rw [shape] at tiles
        cases tiles
    | cons x rest => exact ⟨x, rest, rfl⟩
  have member : x ∈ layout r := by rw [shape]; exact List.mem_cons_self
  rw [shape] at tiles
  have start : x.start = 0 := tiles.1
  obtain ⟨k, count, role⟩ := x
  simp only at start
  subst start
  rcases ok.pieces.start r _ member rfl with first | blank
  · simp only at first
    exact ⟨count, rest, by rw [shape, first]⟩
  · rcases (ok.pieces.pending r _ member (by rw [blank]; rfl)).of_start rfl with creating | ⟨idx, freeing⟩
    · exact absurd creating notCreating
    · exact absurd freeing (notFreeing idx)

theorem endIsUnused (ok : OrgOk s layout) : s.endIsUnused := by
  intro r known notCreating notFreeing _
  obtain ⟨count, right, shape⟩ := ok.first_piece known notCreating notFreeing
  have member : (⟨0, count, .first⟩ : Piece) ∈ layout r := by rw [shape]; exact List.mem_cons_self
  obtain ⟨entry, here, _, _⟩ := ok.pieces.head member
  exact ⟨_, here, rfl, rfl, rfl⟩

theorem countIsRight (ok : OrgOk s layout) : s.countIsRight := by
  intro r known
  obtain ⟨d, here⟩ := Option.isSome_iff_exists.mp known
  have sum := ok.pieces.ucountSum_tiles (ok.pieces.tiles r known) fun x member => member
  have zero : s.ucountSum r 0 = 0 := rfl
  rw [zero, Nat.zero_add] at sum
  rw [State.segment, here, Option.getD_some, ok.counts r d here]
  show _ = (s.ucountSum r 512 : Int) + _
  rw [sum]

theorem poppedBasics (ok : OrgOk s layout) : s.poppedBasics := by
  unfold State.poppedBasics
  cases popped : s.popped with
  | no => trivial
  | extraCount r => exact ok.extra r popped
  | ready id ec =>
      obtain ⟨r, x, member, pending⟩ := ok.popped_piece (by rw [popped]; rfl)
      obtain ⟨entry, here, _, _⟩ := ok.pieces.head member
      have bounds := ok.pieces.bounds member
      rw [popped] at pending
      obtain ⟨rfl, role, positive⟩ := pending
      refine ⟨ok.pieces.known member, by simp only; omega, _, x.count, here, ?_, ?_, bounds⟩
      · simp [Piece.data, role]
      · simp [Piece.data, role]
  | used id ec =>
      obtain ⟨r, x, member, pending⟩ := ok.popped_piece (by rw [popped]; rfl)
      obtain ⟨entry, here, _, _⟩ := ok.pieces.head member
      have bounds := ok.pieces.bounds member
      rw [popped] at pending
      obtain ⟨rfl, ⟨header, role⟩, positive⟩ := pending
      refine ⟨ok.pieces.known member, by simp only; omega, _, x.count, here, ?_, ?_, bounds⟩
      · simp [Piece.data, role]
      · simp [Piece.data, role]
  | segmentCreating sid =>
      obtain ⟨r, x, member, pending⟩ := ok.popped_piece (by rw [popped]; rfl)
      rw [popped] at pending
      obtain ⟨rfl, _⟩ := pending
      exact ok.pieces.known member
  | veryUnready sid start count ec =>
      obtain ⟨r, x, member, pending⟩ := ok.popped_piece (by rw [popped]; rfl)
      have bounds := ok.pieces.bounds member
      rw [popped] at pending
      obtain ⟨rfl, rfl, positive⟩ := pending
      exact ⟨ok.pieces.known member, positive, bounds⟩
  | segmentFreeing sid idx =>
      obtain ⟨r, x, member, pending⟩ := ok.popped_piece (by rw [popped]; rfl)
      have bounds := ok.pieces.bounds member
      rw [popped] at pending
      obtain ⟨rfl, rfl⟩ := pending
      refine ⟨ok.pieces.known member, ?_⟩
      have := bounds.2
      simp only at this
      simp only [slicesPerSegment]
      omega

/-- What holds of a page in use that is not the popped one. -/
theorem used_data (ok : OrgOk s layout) (here : (s.pages id).isSome = true)
    (isUsed : (s.page id).isUsed = true) (offset : (s.page id).offset = some 0)
    (free : ∀ ec, s.popped ≠ .used id ec) :
    State.hasUsedData (s.page id) ∧
      ((s.page id).full ≠ some false → isInListAt id s.usedLists binFull) ∧
      ((s.page id).full ≠ some true → s.inOwnList id) := by
  obtain ⟨count, header, full, entry, member, page, linked⟩ :=
    ok.pieces.used_piece here isUsed offset free
  obtain ⟨bin, size, rfl, headerOk, onFull, onOwn⟩ := ok.on_used member
  have kind : (s.page id).pageHeaderKind = some (.normal bin size) := by
    rw [page]
    simp [Piece.data, Role.header]
  have flag : (s.page id).full = some full := by
    rw [page]
    simp [Piece.data, Role.full]
  refine ⟨⟨?_, ?_, bin, size, kind, headerOk⟩, fun notFalse => ?_, fun notTrue => ?_⟩
  · rw [page]
    exact linked
  · rw [flag]
    rfl
  · rw [flag] at notFalse
    exact onFull (by simpa using notFalse)
  · rw [flag] at notTrue
    exact ⟨bin, size, kind, onOwn (by simpa using notTrue)⟩

/-- What holds of an unused page that is not the popped one. -/
theorem unused_data (ok : OrgOk s layout) (here : (s.pages id).isSome = true)
    (isUsed : (s.page id).isUsed = false) (offset : (s.page id).offset = some 0) (inner : id.idx ≠ 0)
    (free : ∀ ec, s.popped ≠ .ready id ec) :
    (s.page id).count.isSome = true ∧ isInLls id s.unusedLists := by
  obtain ⟨count, member⟩ := ok.pieces.unused_piece here isUsed offset inner free
  obtain ⟨entry, _, page, _⟩ := ok.pieces.head member
  have on : On unusedIndex layout (smallestSbinFittingSize count) id := ⟨_, member, rfl, rfl⟩
  have small := ok.unused.bound _ id on
  have inList := (ok.unused.mem _ small id).mpr on
  have length := ok.unused.lists_length
  refine ⟨?_, listAt s.unusedLists (smallestSbinFittingSize count), ?_, inList⟩
  · rw [page]
    simp [Piece.data]
  · rw [listAt, List.getD_eq_getElem?_getD, List.getElem?_eq_getElem (by omega), Option.getD_some]
    exact List.getElem_mem _

theorem invSegmentCreating (ok : OrgOk s layout) : s.invSegmentCreating := by
  intro sid popped
  obtain ⟨r, x, member, pending⟩ := ok.popped_piece (by rw [popped]; rfl)
  rw [popped] at pending
  obtain ⟨rfl, rfl⟩ := pending
  have known := ok.pieces.known member
  obtain ⟨d, atSegment⟩ := Option.isSome_iff_exists.mp known
  refine ⟨known, ?_, fun i inside => ?_, fun id here _ isUsed offset => ?_,
    fun id here _ offset isUsed inner => ?_⟩
  · have counted := ok.counts sid d atSegment
    have none : usedPieces (layout sid) = 0 := by
      refine List.countP_eq_zero.mpr fun y other => ?_
      have bounds := ok.pieces.bounds other
      rw [(ok.pieces.tiles sid known).eq_of_overlap other member (x := y.start) (by omega)
        ⟨Nat.zero_le _, by simp only; omega⟩]
      simp [Role.inUse]
    rw [State.segment, atSegment, Option.getD_some, counted, none, popped]
    rfl
  · simp only [slicesPerSegment] at inside
    rcases Nat.lt_or_eq_of_le inside with inner | rfl
    · obtain ⟨entry, here, _, linked⟩ := (ok.pieces.fills sid _ member).page (i := i) (Nat.zero_le i)
        (by simp only; omega)
      obtain rfl := Piece.unlinked rfl linked
      rw [State.isUnset, here, (Piece.data_blank rfl i).1]
    · obtain ⟨entry, found, unlinked⟩ := shapeAt_eq_some (ok.pieces.last sid known)
      obtain rfl : entry = none := by simpa using unlinked
      exact found
  · refine ok.used_data here isUsed offset fun ec used => ?_
    rw [popped] at used
    cases used
  · refine ok.unused_data here isUsed offset inner fun ec ready => ?_
    rw [popped] at ready
    cases ready

theorem invVeryUnready (ok : OrgOk s layout) : s.invVeryUnready := by
  intro sid start count ec popped
  obtain ⟨r, x, member, pending⟩ := ok.popped_piece (by rw [popped]; rfl)
  have bounds := ok.pieces.bounds member
  rw [popped] at pending
  obtain ⟨rfl, rfl, positive⟩ := pending
  simp only at bounds
  have unset : ∀ i, start ≤ i → i < start + count → s.isUnset ⟨sid, i⟩ := by
    intro i lower upper
    obtain ⟨entry, here, _, linked⟩ := (ok.pieces.fills sid _ member).page lower upper
    obtain rfl := Piece.unlinked rfl linked
    rw [State.isUnset, here, (Piece.data_blank rfl i).1]
  exact ⟨positive, bounds.1, bounds.2, bounds.2, unset start le_rfl (by omega), unset⟩

/-- The slices behind the freed part of a segment are attached ranges. -/
theorem freeing_rest (ok : OrgOk s layout) {sid : SegmentId P} {idx : Nat}
    (popped : s.popped = .segmentFreeing sid idx) : 0 < idx ∧ s.attachedRec sid idx False := by
  obtain ⟨r, x, member, pending⟩ := ok.popped_piece (by rw [popped]; rfl)
  have isPending := pending
  rw [popped] at pending
  obtain ⟨rfl, rfl⟩ := pending
  have bounds := ok.pieces.bounds member
  obtain ⟨left, right, swap⟩ := ok.pieces.swap member
  simp only [Nat.zero_add] at swap bounds
  refine ⟨bounds.1, ok.pieces.attachedRec_of_tiles swap.after
    (fun y inRight => swap.mem.mpr (.inr (.inr inRight))) bounds.1 ⟨False.elim, ?_⟩⟩
  rintro ⟨y, inRight, role⟩
  obtain ⟨_, rfl⟩ := ok.pieces.only_pending member isPending (swap.mem.mpr (.inr (.inr inRight))) role
  have := swap.after.bounds inRight
  simp only at this
  omega

theorem invSegmentFreeing (ok : OrgOk s layout) : s.invSegmentFreeing := by
  intro sid idx popped
  obtain ⟨positive, rest⟩ := ok.freeing_rest popped
  obtain ⟨r, x, member, pending⟩ := ok.popped_piece (by rw [popped]; rfl)
  have bounds := ok.pieces.bounds member
  rw [popped] at pending
  obtain ⟨rfl, rfl⟩ := pending
  have known := ok.pieces.known member
  obtain ⟨d, atSegment⟩ := Option.isSome_iff_exists.mp known
  simp only [Nat.zero_add] at bounds
  refine ⟨known, ?_, positive, bounds.2, fun i inside => ?_, fun _ => rest⟩
  · rw [State.segment, atSegment, Option.getD_some, ok.counts sid d atSegment, ok.freeing sid idx popped,
      popped]
    rfl
  · obtain ⟨entry, here, _, linked⟩ := (ok.pieces.fills sid _ member).page (i := i) (Nat.zero_le i)
      (by simp only; omega)
    obtain rfl := Piece.unlinked rfl linked
    rw [State.isUnset, here, (Piece.data_blank rfl i).1]

theorem invReady (ok : OrgOk s layout) : s.invReady := by
  intro id ec popped
  obtain ⟨r, x, member, pending⟩ := ok.popped_piece (by rw [popped]; rfl)
  rw [popped] at pending
  obtain ⟨rfl, role, _⟩ := pending
  obtain ⟨entry, _, page, linked⟩ := ok.pieces.head member
  refine ⟨ok.pieces.goodRangeReady member role, ?_, ?_, ?_⟩
  · rw [page]
    show entry = none
    simpa [role, Role.listed] using linked
  · rw [page]
    simp [Piece.data, role, Role.full]
  · rw [page]
    simp [Piece.data, role, Role.header]

theorem invUsed (ok : OrgOk s layout) : s.invUsed := by
  intro id ec popped
  obtain ⟨r, x, member, pending⟩ := ok.popped_piece (by rw [popped]; rfl)
  rw [popped] at pending
  obtain ⟨rfl, ⟨header, role⟩, _⟩ := pending
  obtain ⟨entry, _, page, linked⟩ := ok.pieces.head member
  refine ⟨ok.pieces.goodRangeUsed member (by rw [role]; rfl), ?_, ?_⟩
  · rw [page]
    show entry = none
    simpa [role, Role.listed] using linked
  · rw [page]
    simp [Piece.data, role, Role.full]

theorem readyPoppedNotInUnusedLists (ok : OrgOk s layout) : s.readyPoppedNotInUnusedLists := by
  intro id ec popped list inLists inList
  obtain ⟨i, inside, rfl⟩ := List.getElem_of_mem inLists
  have length := ok.unused.lists_length
  have atList : listAt s.unusedLists i = s.unusedLists[i] := by
    rw [listAt, List.getD_eq_getElem?_getD, List.getElem?_eq_getElem inside, Option.getD_some]
  obtain ⟨y, inY, start, number⟩ := (ok.unused.mem i (by omega) id).mp (atList ▸ inList)
  obtain ⟨r, x, member, pending⟩ := ok.popped_piece (by rw [popped]; rfl)
  rw [popped] at pending
  obtain ⟨rfl, role, _⟩ := pending
  obtain rfl := ok.pieces.eq_of_start inY member start
  rw [unusedIndex, role] at number
  cases number

theorem llInvValidUnused (ok : OrgOk s layout) : s.llInvValidUnused := by
  have length := ok.unused.lists_length
  refine ⟨fun i inside => ok.unused.validLl (by omega), fun i j id inside here => ?_⟩
  obtain ⟨⟨k, count, role⟩, member, start, number⟩ :=
    (ok.unused.mem i (by omega) id).mp (List.mem_of_getElem? here)
  obtain ⟨sid, m⟩ := id
  simp only at start member
  subst start
  unfold unusedIndex at number
  cases role <;> simp only at number <;> cases number
  obtain ⟨entry, found, page, linked⟩ := ok.pieces.head member
  have bounds := ok.pieces.bounds member
  simp only at found page bounds
  have inner : k ≠ 0 := by
    rintro rfl
    rcases ok.pieces.start sid _ member rfl with role | role <;> cases role
  have atCount : (s.page ⟨sid, k⟩).count = some count := by
    rw [page]
    simp [Piece.data]
  refine ⟨by simp only [segmentBinMax]; omega, ⟨by rw [found]; rfl, inner, by rw [page]; rfl,
    ⟨count, atCount, by omega, by simp only [slicesPerSegment]; omega⟩, ?_,
    by simp only [segmentBinMax]; omega, here⟩, ?_, ?_⟩
  · rw [page]
    exact linked
  · rw [page]
    simp [Piece.data]
  · rw [State.countAt, atCount]
    rfl

theorem llInvValidUsed (ok : OrgOk s layout) : s.llInvValidUsed := by
  have length := ok.used.lists_length
  refine ⟨fun i inside => ok.used.validLl (by omega), fun i j id inside here => ?_⟩
  obtain ⟨count, bin, size, entry, member, found, linked, header, own⟩ :=
    ok.used_on ((ok.used.mem i (by omega) id).mp (List.mem_of_getElem? here))
  have page : s.page id = (⟨id.idx, count, .used (.normal bin size) (decide (i = binFull))⟩ : Piece).data
      id.idx entry := by
    rw [State.page, found]
    rfl
  have inner : id.idx ≠ 0 := by
    intro zero
    rcases ok.pieces.start id.segmentId _ member zero with role | role <;> cases role
  have valid : validBinIdx i ∨ i = binFull := by
    by_cases full : i = binFull
    · exact .inr full
    · exact .inl (own full ▸ header.1)
  have atHeader : (s.page id).pageHeaderKind = some (.normal bin size) := by
    rw [page]
    simp [Piece.data, Role.header]
  refine ⟨valid, ⟨by rw [found]; rfl, inner, by rw [page]; rfl, by rw [page]; exact linked, ?_, valid, here,
    bin, size, atHeader, header.1, header.2.1.symm, own⟩, ?_, ?_, fun ec popped => ?_⟩
  · rw [page]
    simp [Piece.data]
  · rw [page]
    simp [Piece.data]
  · rw [page]
    simp [Piece.data, Role.full]
  · obtain ⟨r, x, inX, pending⟩ := ok.popped_piece (by rw [popped]; rfl)
    rw [popped] at pending
    obtain ⟨rfl, role, _⟩ := pending
    rw [ok.pieces.eq_of_start inX member rfl] at role
    cases role

theorem llInvExistsInSomeList (ok : OrgOk s layout) : s.llInvExistsInSomeList :=
  ⟨fun _ here _ outside offset isUsed inner => ok.unused_data here isUsed offset inner fun _ popped =>
      outside (ok.pieces.in_popped_range popped),
    fun i j id inside here => (ok.llInvValidUnused.2 i j id inside here).2.2.2⟩

theorem attachedRanges (ok : OrgOk s layout) : s.attachedRanges := by
  intro r known
  by_cases creating : s.popped = .segmentCreating r
  · exact .inr (.inl creating)
  by_cases freeing : ∃ idx, s.popped = .segmentFreeing r idx
  · obtain ⟨idx, popped⟩ := freeing
    exact .inl ⟨idx, popped, ok.freeing_rest popped⟩
  have notFreeing : ∀ idx, s.popped ≠ .segmentFreeing r idx := fun idx popped => freeing ⟨idx, popped⟩
  obtain ⟨count, right, shape⟩ := ok.first_piece known creating notFreeing
  have member : (⟨0, count, .first⟩ : Piece) ∈ layout r := by rw [shape]; exact List.mem_cons_self
  have tiles := ok.pieces.tiles r known
  rw [shape] at tiles
  obtain ⟨_, positive, tail⟩ := tiles
  simp only [Nat.zero_add] at positive tail
  obtain ⟨_, _, page, _⟩ := ok.pieces.head member
  have atCount : s.countAt ⟨r, 0⟩ = count := by
    rw [State.countAt, page]
    simp [Piece.data]
  refine .inr (.inr ⟨fun idx popped => absurd popped (notFreeing idx), creating,
    ok.pieces.goodRange0 member rfl, ?_⟩)
  rw [atCount]
  refine ok.pieces.attachedRec_of_tiles tail (fun y inRight => ?_) positive ⟨fun isPopped => ?_, ?_⟩
  · rw [shape]
    exact List.mem_cons_of_mem _ inRight
  · obtain ⟨sid, x, inX, pending⟩ : ∃ sid x, x ∈ layout sid ∧ IsPending s.popped sid x := by
      refine ok.popped_piece ?_
      unfold State.poppedForSeg at isPopped
      cases popped : s.popped <;> rw [popped] at isPopped <;> first | rfl | exact isPopped.elim
    have role := pending.role
    have same : sid = r := by
      unfold State.poppedForSeg at isPopped
      cases popped : s.popped <;> rw [popped] at isPopped pending <;>
        first
        | exact isPopped.elim
        | exact pending.1.symm.trans isPopped
        | (rw [pending.1] at isPopped; exact isPopped)
    subst same
    rw [shape] at inX
    rcases List.mem_cons.mp inX with rfl | inRight
    · cases role
    · exact ⟨x, inRight, role⟩
  · rintro ⟨x, inRight, role⟩
    have pending := ok.pieces.pending r x (by rw [shape]; exact List.mem_cons_of_mem _ inRight) role
    unfold State.poppedForSeg
    cases popped : s.popped with
    | no => rw [popped] at pending; exact pending.elim
    | extraCount => rw [popped] at pending; exact pending.elim
    | ready id ec => rw [popped] at pending; simp only [pending.1]
    | used id ec => rw [popped] at pending; simp only [pending.1]
    | veryUnready => rw [popped] at pending; exact pending.1
    | segmentCreating sid =>
        rw [popped] at pending
        rw [popped, pending.1] at creating
        exact absurd rfl creating
    | segmentFreeing sid idx =>
        rw [popped] at pending
        have := notFreeing idx
        rw [popped, pending.1] at this
        exact absurd rfl this

/-- **The declared invariants** hold of every state with a layout. -/
theorem declared (ok : OrgOk s layout) : s.Invariant where
  llBasics := ok.llBasics
  pageIdDomain := ok.pieces.domain
  segmentsNonzero := ok.pieces.nonzero
  countOff0 := ok.countOff0
  endIsUnused := ok.endIsUnused
  countIsRight := ok.countIsRight
  poppedBasics := ok.poppedBasics
  dataForUsedHeader := fun _ here settled isUsed offset =>
    (ok.used_data here isUsed offset (settled_used settled)).1
  invSegmentCreating := ok.invSegmentCreating
  invVeryUnready := ok.invVeryUnready
  invSegmentFreeing := ok.invSegmentFreeing
  invReady := ok.invReady
  invUsed := ok.invUsed
  readyPoppedNotInUnusedLists := ok.readyPoppedNotInUnusedLists
  llInvValidUnused := ok.llInvValidUnused
  llInvValidUsed := ok.llInvValidUsed
  llInvExistsInSomeList := ok.llInvExistsInSomeList
  llInvValidUsed2 := fun _ here settled isUsed offset =>
    (ok.used_data here isUsed offset (settled_used settled)).2
  attachedRanges := ok.attachedRanges

/-! ### Runs -/

/-- `initialize`. -/
theorem initial : OrgOk (initialState : State P) fun _ => [] where
  pieces :=
    { domain := fun _ => by simp [initialState]
      nonzero := fun _ known => by cases known
      tiles := fun _ known => by cases known
      outside := fun _ _ => rfl
      fills := fun _ _ member => by cases member
      last := fun _ known => by cases known
      pending := fun _ _ member => by cases member
      popped := fun any => by cases any
      first := fun _ _ member => by cases member
      start := fun _ _ member => by cases member }
  counts := fun _ _ known => by cases known
  freeing := fun _ _ popped => by cases popped
  extra := fun _ popped => by cases popped
  headers := fun _ _ _ _ member => by cases member
  unused := QueuesOk.empty _ _ (by rintro _ _ ⟨_, member, _⟩; cases member)
  used := QueuesOk.empty _ _ (by rintro _ _ ⟨_, member, _⟩; cases member)

/-- **One transition.** -/
theorem next {t : Transition P} (ok : OrgOk s layout) (requires : Requires s t) :
    ∃ layout', OrgOk (PageOrg.next s t) layout' := by
  cases t with
  | takePageFromUnusedQueue => exact ok.takePageFromUnusedQueue requires
  | splitPage => exact ok.splitPage requires
  | createSegment => exact ok.createSegment requires
  | allocatePopped => exact ok.allocatePopped requires
  | forgetAboutFirstPage => exact ok.forgetAboutFirstPage requires
  | forgetAboutFirstPage2 => exact ok.forgetAboutFirstPage2 requires
  | clearEc => exact ok.clearEc requires
  | freeToUnusedQueue => exact ok.freeToUnusedQueue requires
  | setRangeToUsed => exact ok.setRangeToUsed requires
  | setRangeToNotUsed => exact ok.setRangeToNotUsed requires
  | intoUsedList => exact ok.intoUsedList requires
  | intoUsedListBack => exact ok.intoUsedListBack requires
  | outOfUsedList => exact ok.outOfUsedList requires
  | segmentFreeingStart => exact ok.segmentFreeingStart requires
  | segmentFreeingFinish => exact ok.segmentFreeingFinish requires
  | mergeWithAfter => exact ok.mergeWithAfter requires
  | mergeWithBefore => exact ok.mergeWithBefore requires

end OrgOk

section Runs

variable [DecidableEq P]

/-- **Every run** keeps a layout. -/
theorem Reachable.orgOk {s : State P} (reachable : Reachable s) : ∃ layout, OrgOk s layout := by
  induction reachable with
  | initial => exact ⟨_, OrgOk.initial⟩
  | step _ requires kept =>
      obtain ⟨layout, ok⟩ := kept
      exact ok.next requires

/-- **The machine is inductive**: its invariants hold after every run of its transitions. -/
theorem pageOrg_inductive {s : State P} (reachable : Reachable s) : s.Invariant := by
  obtain ⟨layout, ok⟩ := reachable.orgOk
  exact ok.declared

/-- A segment is created, and its first page put in use. -/
def firstPage : List (Transition Unit) :=
  [.createSegment ⟨1, (), 0⟩, .forgetAboutFirstPage 1, .freeToUnusedQueue 31, .clearEc,
    .takePageFromUnusedQueue ⟨⟨1, (), 0⟩, 1⟩ 31 0, .splitPage ⟨⟨1, (), 0⟩, 1⟩ 511 1 31, .allocatePopped,
    .setRangeToUsed (.normal 1 8), .intoUsedList 1]

theorem pageOrg_inductive_first_page :
    (firstPage.foldl next initialState).Invariant := by
  refine pageOrg_inductive ?_
  have created := Reachable.initial.step (t := .createSegment ⟨1, (), 0⟩) ⟨rfl, rfl, by decide⟩
  have cut := created.step (t := .forgetAboutFirstPage 1) ⟨by decide, by decide, _, rfl⟩
  have freed := cut.step (t := .freeToUnusedQueue 31) ⟨by decide, _, _, _, _, rfl, by decide⟩
  have cleared := freed.step (t := .clearEc) ⟨_, rfl⟩
  have taken := cleared.step (t := .takePageFromUnusedQueue ⟨⟨1, (), 0⟩, 1⟩ 31 0)
    ⟨⟨rfl, by decide, rfl, ⟨511, rfl, by decide, by decide⟩, rfl, by decide, rfl⟩, .inl rfl⟩
  have split := taken.step (t := .splitPage ⟨⟨1, (), 0⟩, 1⟩ 511 1 31)
    ⟨rfl, rfl, by decide, by decide, by decide, by decide⟩
  have allocated := split.step (t := .allocatePopped) ⟨_, _, _, rfl⟩
  have used := allocated.step (t := .setRangeToUsed (.normal 1 8)) ⟨_, _, rfl⟩
  exact used.step (t := .intoUsedList 1) ⟨.inl (by decide), _, rfl, by decide, by decide, by decide,
    by decide, by decide⟩

end Runs

end VerusMimalloc.PageOrg
