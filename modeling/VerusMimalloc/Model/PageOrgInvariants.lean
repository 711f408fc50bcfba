/-
**The declared invariants of the page organization machine.**

The invariants of `page_organization.rs`, one definition each, with the predicates they use.
-/

import VerusMimalloc.Model.PageOrg

namespace VerusMimalloc.PageOrg

variable {P : Type}

/-! ### Lists -/

/-- `get_next`. -/
def getNext (ll : List (PageId P)) (j : Nat) : Option (PageId P) := ll[j + 1]?

/-- `get_prev`. -/
def getPrev (ll : List (PageId P)) (j : Nat) : Option (PageId P) := if j = 0 then none else ll[j - 1]?

/-- `valid_ll_i`. -/
def validLlI (pages : Pages P) (ll : List (PageId P)) (j : Nat) : Prop :=
  ∃ id d links, ll[j]? = some id ∧ pages id = some d ∧ d.dlistEntry = some links ∧
    links.prev = getPrev ll j ∧ links.next = getNext ll j

/-- `valid_ll`. -/
def validLl (pages : Pages P) (header : DlistHeader P) (ll : List (PageId P)) : Prop :=
  header.first = ll.head? ∧ header.last = ll.getLast? ∧ ∀ j < ll.length, validLlI pages ll j

/-- `is_in_lls`. -/
def isInLls (id : PageId P) (lists : List (List (PageId P))) : Prop := ∃ list ∈ lists, id ∈ list

/-- `is_in_list_at`. -/
def isInListAt (id : PageId P) (lists : List (List (PageId P))) (i : Int) : Prop :=
  0 ≤ i ∧ i < lists.length ∧ id ∈ lists.getD i.toNat []

namespace State

variable (s : State P)

/-- The unwrapped `count`. -/
def countAt (id : PageId P) : Nat := (s.page id).count.getD 0

/-! ### The popped range -/

/-- `is_the_popped`. -/
def isThePopped (segmentId : SegmentId P) (idx : Nat) : Prop :=
  match s.popped with
  | .ready pageId _ | .used pageId _ => pageId.segmentId = segmentId ∧ pageId.idx = idx
  | .veryUnready sid i _ _ => sid = segmentId ∧ i = idx
  | _ => False

/-- `popped_for_seg`. -/
def poppedForSeg (segmentId : SegmentId P) : Prop :=
  match s.popped with
  | .ready pageId _ | .used pageId _ => pageId.segmentId = segmentId
  | .veryUnready sid _ _ _ => sid = segmentId
  | _ => False

/-- `popped_len`; only asked where there is a popped range. -/
def poppedLen : Nat :=
  match s.popped with
  | .ready pageId _ | .used pageId _ => s.countAt pageId
  | .veryUnready _ _ count _ => count
  | _ => 0

/-- `in_popped_range`. -/
def inPoppedRange (id : PageId P) : Prop :=
  match s.popped with
  | .veryUnready segmentId idx count _ => id.segmentId = segmentId ∧ idx ≤ id.idx ∧ id.idx < idx + count
  | .ready pageId _ | .used pageId _ =>
      id.segmentId = pageId.segmentId ∧ pageId.idx ≤ id.idx ∧
        id.idx < pageId.idx + s.countAt pageId
  | _ => False

/-- `ec_of_popped`. -/
def ecOfPopped [DecidableEq P] (popped : Popped P) (segmentId : SegmentId P) : Int :=
  match popped with
  | .ready pageId ec => if pageId.segmentId = segmentId ∧ ec then 1 else 0
  | .used pageId ec => if pageId.segmentId = segmentId then (if ec then 0 else -1) else 0
  | .veryUnready sid _ _ ec => if segmentId = sid ∧ ec then 1 else 0
  | .extraCount sid => if segmentId = sid then 1 else 0
  | _ => 0

/-- The pages whose data the invariants speak of while a page is popped. -/
def settled (id : PageId P) : Prop :=
  match s.popped with
  | .no | .extraCount _ | .segmentFreeing _ _ => True
  | .ready _ _ | .veryUnready _ _ _ _ => ¬s.inPoppedRange id
  | .used pageId _ => id ≠ pageId
  | .segmentCreating _ => False

/-! ### Counts -/

/-- `does_count`. -/
def doesCount (id : PageId P) : Prop :=
  (s.pages id).isSome ∧ id.idx ≠ 0 ∧ (s.page id).isUsed = true ∧ (s.page id).offset = some 0

instance (id : PageId P) : Decidable (s.doesCount id) := by
  unfold doesCount
  infer_instance

/-- `ucount_sum`. -/
def ucountSum (segmentId : SegmentId P) : Nat → Nat
  | 0 => 0
  | idx + 1 => ucountSum segmentId idx + if s.doesCount { segmentId, idx } then 1 else 0

/-- `ucount`. -/
def ucount (segmentId : SegmentId P) : Nat := s.ucountSum segmentId slicesPerSegment

/-! ### Ranges -/

/-- All fields of a slice are open. -/
def isUnset (id : PageId P) : Prop := s.pages id = some .unset

/-- `good_range_very_unready`, for a range of `count` slices. -/
def goodRangeVeryUnready (pageId : PageId P) (count : Nat) : Prop :=
  pageId.idx + count ≤ slicesPerSegment ∧ s.isUnset pageId ∧
    ∀ i, pageId.idx ≤ i → i < pageId.idx + count → s.isUnset { pageId with idx := i }

/-- `good_range0`. -/
def goodRange0 (segmentId : SegmentId P) : Prop :=
  ∃ head count, s.pages { segmentId, idx := 0 } = some head ∧ head.offset = some 0 ∧
    head.count = some count ∧ count ≤ slicesPerSegment ∧
    ∀ i < count, ∃ d, s.pages { segmentId, idx := i } = some d ∧ d.isUsed = false ∧
      d.full = none ∧ d.pageHeaderKind = none ∧ (d.count.isSome ↔ i = 0) ∧ d.dlistEntry = none ∧
      d.offset = some i

/-- `good_range_unused`. -/
def goodRangeUnused (pageId : PageId P) : Prop :=
  ∃ head count, s.pages pageId = some head ∧ head.offset = some 0 ∧ head.count = some count ∧
    pageId.idx + count ≤ slicesPerSegment ∧
    ∀ i, pageId.idx ≤ i → i < pageId.idx + count →
      ∃ d, s.pages { pageId with idx := i } = some d ∧ d.isUsed = false ∧ d.full = none ∧
        d.pageHeaderKind = none ∧ (d.count.isSome ↔ i = pageId.idx) ∧
        (d.dlistEntry.isSome ↔ i = pageId.idx) ∧
        d.offset = if i = pageId.idx ∨ i = pageId.idx + count - 1 then some (i - pageId.idx) else none

/-- `good_range_ready`. -/
def goodRangeReady (pageId : PageId P) : Prop :=
  ∃ head count, s.pages pageId = some head ∧ head.offset = some 0 ∧ head.count = some count ∧
    pageId.idx + count ≤ slicesPerSegment ∧
    ∀ i, pageId.idx ≤ i → i < pageId.idx + count →
      ∃ d, s.pages { pageId with idx := i } = some d ∧ d.isUsed = false ∧ d.full = none ∧
        d.pageHeaderKind = none ∧ (d.count.isSome ↔ i = pageId.idx) ∧ d.dlistEntry = none ∧
        d.offset = some (i - pageId.idx)

/-- `good_range_used`. -/
def goodRangeUsed (pageId : PageId P) : Prop :=
  ∃ head count, s.pages pageId = some head ∧ head.offset = some 0 ∧ head.count = some count ∧
    pageId.idx + count ≤ slicesPerSegment ∧
    ∀ i, pageId.idx ≤ i → i < pageId.idx + count →
      ∃ d, s.pages { pageId with idx := i } = some d ∧ d.isUsed = true ∧
        d.offset = some (i - pageId.idx) ∧ (d.pageHeaderKind.isSome ↔ i = pageId.idx) ∧
        (i ≠ pageId.idx → d.dlistEntry = none) ∧ (i ≠ pageId.idx → d.full = none)

/-- `attached_rec`: from slice `idx` on, ranges follow one another to the end of the segment, with the
popped range among them exactly when `sp`. -/
def attachedRec (segmentId : SegmentId P) (idx : Nat) (sp : Prop) : Prop :=
  if idx = slicesPerSegment then ¬sp
  else if idx > slicesPerSegment then False
  else
    (s.isThePopped segmentId idx ∧ sp ∧ 0 < s.poppedLen ∧ idx + s.poppedLen ≤ slicesPerSegment ∧
      ∃ _ : 0 < s.poppedLen, attachedRec segmentId (idx + s.poppedLen) False) ∨
    (¬s.isThePopped segmentId idx ∧
      ((s.page ⟨segmentId, idx⟩).isUsed = true → s.goodRangeUsed ⟨segmentId, idx⟩) ∧
      ((s.page ⟨segmentId, idx⟩).isUsed = false → s.goodRangeUnused ⟨segmentId, idx⟩) ∧
      idx + s.countAt ⟨segmentId, idx⟩ ≤ slicesPerSegment ∧
      ∃ _ : 0 < s.countAt ⟨segmentId, idx⟩,
        attachedRec segmentId (idx + s.countAt ⟨segmentId, idx⟩) sp)
  termination_by slicesPerSegment - idx
  decreasing_by
    all_goals
      simp only [slicesPerSegment] at *
      omega

/-- `attached_rec0`. -/
def attachedRec0 (segmentId : SegmentId P) (sp : Prop) : Prop :=
  s.goodRange0 segmentId ∧
    s.attachedRec segmentId (s.countAt { segmentId, idx := 0 }) sp

/-- `attached_ranges_segment`. -/
def attachedRangesSegment (segmentId : SegmentId P) : Prop :=
  (∃ idx, s.popped = .segmentFreeing segmentId idx ∧ 0 < idx ∧ s.attachedRec segmentId idx False) ∨
    s.popped = .segmentCreating segmentId ∨
    ((∀ idx, s.popped = .segmentFreeing segmentId idx → idx = 0) ∧
      s.popped ≠ .segmentCreating segmentId ∧ s.attachedRec0 segmentId (s.poppedForSeg segmentId))

/-! ### The invariants -/

/-- `ll_basics`. -/
def llBasics : Prop :=
  s.unusedDlistHeaders.length = segmentBinMax + 1 ∧ s.unusedLists.length = segmentBinMax + 1 ∧
    s.usedDlistHeaders.length = binFull + 1 ∧ s.usedLists.length = binFull + 1

/-- `page_id_domain`. -/
def pageIdDomain : Prop :=
  ∀ id, (s.pages id).isSome ↔ (s.segments id.segmentId).isSome ∧ id.idx ≤ slicesPerSegment

/-- `segments_nonzero`. -/
def segmentsNonzero : Prop := ∀ id, (s.segments id).isSome → segmentStart id ≠ 0

/-- `count_off0`. -/
def countOff0 : Prop :=
  ∀ id count, (s.pages id).isSome → (s.page id).count = some count →
    1 ≤ count ∧ id.idx + count ≤ slicesPerSegment

/-- `end_is_unused`. -/
def endIsUnused [DecidableEq P] : Prop :=
  ∀ segmentId, (s.segments segmentId).isSome → s.popped ≠ .segmentCreating segmentId →
    (∀ idx, s.popped ≠ .segmentFreeing segmentId idx) →
    (s.segment segmentId).used = ecOfPopped s.popped segmentId →
    ∃ d, s.pages { segmentId, idx := 0 } = some d ∧ d.offset = some 0 ∧ d.isUsed = false ∧
      d.count.isSome

/-- `count_is_right`. -/
def countIsRight [DecidableEq P] : Prop :=
  ∀ segmentId, (s.segments segmentId).isSome →
    (s.segment segmentId).used = s.ucount segmentId + ecOfPopped s.popped segmentId

/-- `popped_basics`. -/
def poppedBasics : Prop :=
  match s.popped with
  | .no => True
  | .ready pageId _ | .used pageId _ =>
      (s.segments pageId.segmentId).isSome ∧ pageId.idx ≠ 0 ∧
        ∃ d count, s.pages pageId = some d ∧ d.offset = some 0 ∧ d.count = some count ∧
          1 ≤ count ∧ pageId.idx + count ≤ slicesPerSegment
  | .segmentCreating segmentId => (s.segments segmentId).isSome
  | .veryUnready segmentId start count _ =>
      (s.segments segmentId).isSome ∧ 0 < start ∧ 0 < count ∧ start + count ≤ slicesPerSegment
  | .segmentFreeing segmentId idx => (s.segments segmentId).isSome ∧ idx ≤ slicesPerSegment
  | .extraCount segmentId => (s.segments segmentId).isSome

/-- The header data of a page in use: links, the full flag and a normal size class. -/
def hasUsedData (d : PageData P) : Prop :=
  d.dlistEntry.isSome ∧ d.full.isSome ∧ ∃ bin size, d.pageHeaderKind = some (.normal bin size) ∧
    validBinIdx bin ∧ size = sizeOfBin bin ∧ bin = smallestBinFittingSize size ∧
    size ≤ mediumObjSizeMax

/-- A page of which `used` and `full` say that it is in the list of its size class. -/
def inOwnList (id : PageId P) : Prop :=
  ∃ bin size, (s.page id).pageHeaderKind = some (.normal bin size) ∧ isInListAt id s.usedLists bin

/-- `data_for_used_header`. -/
def dataForUsedHeader : Prop :=
  ∀ id, (s.pages id).isSome → s.settled id → (s.page id).isUsed = true →
    (s.page id).offset = some 0 → hasUsedData (s.page id)

/-- `inv_segment_creating`. -/
def invSegmentCreating : Prop :=
  ∀ segmentId, s.popped = .segmentCreating segmentId →
    (s.segments segmentId).isSome ∧ (s.segment segmentId).used = 0 ∧
    (∀ i ≤ slicesPerSegment, s.isUnset { segmentId, idx := i }) ∧
    (∀ id, (s.pages id).isSome → id.segmentId ≠ segmentId → (s.page id).isUsed = true →
      (s.page id).offset = some 0 → hasUsedData (s.page id) ∧
        ((s.page id).full ≠ some false → isInListAt id s.usedLists binFull) ∧
        ((s.page id).full ≠ some true → s.inOwnList id)) ∧
    (∀ id, (s.pages id).isSome → id.segmentId ≠ segmentId → (s.page id).offset = some 0 →
      (s.page id).isUsed = false → id.idx ≠ 0 →
      (s.page id).count.isSome ∧ isInLls id s.unusedLists)

/-- `inv_very_unready`. -/
def invVeryUnready : Prop :=
  ∀ segmentId start count ec, s.popped = .veryUnready segmentId start count ec →
    0 < start ∧ 0 < count ∧ start + count ≤ slicesPerSegment ∧
      s.goodRangeVeryUnready { segmentId, idx := start } count

/-- `inv_segment_freeing`, with `seg_free_prefix`. -/
def invSegmentFreeing : Prop :=
  ∀ segmentId idx, s.popped = .segmentFreeing segmentId idx →
    (s.segments segmentId).isSome ∧ (s.segment segmentId).used = 0 ∧ 0 < idx ∧
      idx ≤ slicesPerSegment ∧ (∀ i < idx, s.isUnset { segmentId, idx := i }) ∧
      (idx < slicesPerSegment → s.attachedRec segmentId idx False)

/-- `inv_ready`. -/
def invReady : Prop :=
  ∀ pageId ec, s.popped = .ready pageId ec → s.goodRangeReady pageId ∧
    (s.page pageId).dlistEntry = none ∧ (s.page pageId).full = none ∧
    (s.page pageId).pageHeaderKind = none

/-- `inv_used`. -/
def invUsed : Prop :=
  ∀ pageId ec, s.popped = .used pageId ec → s.goodRangeUsed pageId ∧
    (s.page pageId).dlistEntry = none ∧ (s.page pageId).full = none

/-- `ready_popped_not_in_unused_lists`. -/
def readyPoppedNotInUnusedLists : Prop :=
  ∀ pageId ec, s.popped = .ready pageId ec → ∀ list ∈ s.unusedLists, pageId ∉ list

/-- `ll_inv_valid_unused`, which `data_for_unused_header` repeats. -/
def llInvValidUnused : Prop :=
  (∀ i < s.unusedLists.length, validLl s.pages (s.unusedHeader i) (s.unusedList i)) ∧
    ∀ (i j : Nat) (id : PageId P), i < s.unusedLists.length → (s.unusedList i)[j]? = some id →
      i ≤ segmentBinMax ∧ s.validUnusedPage id i j ∧ (s.page id).offset = some 0 ∧
        i = smallestSbinFittingSize (s.countAt id)

/-- `ll_inv_valid_used`. -/
def llInvValidUsed : Prop :=
  (∀ i < s.usedLists.length, validLl s.pages (s.usedHeader i) (s.usedList i)) ∧
    ∀ (i j : Nat) (id : PageId P), i < s.usedLists.length → (s.usedList i)[j]? = some id →
      (validBinIdx i ∨ i = binFull) ∧ s.validUsedPage id i j ∧ (s.page id).count.isSome ∧
        (s.page id).full = some (decide (i = binFull)) ∧ ∀ ec, s.popped ≠ .ready id ec

/-- `ll_inv_exists_in_some_list`, which is `ll_inv_valid_unused2`. -/
def llInvExistsInSomeList : Prop :=
  (∀ id, (s.pages id).isSome → (∀ segmentId, s.popped ≠ .segmentCreating segmentId) →
    ¬s.inPoppedRange id → (s.page id).offset = some 0 → (s.page id).isUsed = false → id.idx ≠ 0 →
    (s.page id).count.isSome ∧ isInLls id s.unusedLists) ∧
  ∀ (i j : Nat) (id : PageId P), i < s.unusedLists.length → (s.unusedList i)[j]? = some id →
    i = smallestSbinFittingSize (s.countAt id)

/-- `ll_inv_valid_used2`. -/
def llInvValidUsed2 : Prop :=
  ∀ id, (s.pages id).isSome → s.settled id → (s.page id).isUsed = true →
    (s.page id).offset = some 0 →
    ((s.page id).full ≠ some false → isInListAt id s.usedLists binFull) ∧
      ((s.page id).full ≠ some true → s.inOwnList id)

/-- `attached_ranges`. -/
def attachedRanges : Prop :=
  ∀ segmentId, (s.segments segmentId).isSome → s.attachedRangesSegment segmentId

/-- **The declared invariants.** -/
structure Invariant [DecidableEq P] : Prop where
  llBasics : s.llBasics
  pageIdDomain : s.pageIdDomain
  segmentsNonzero : s.segmentsNonzero
  countOff0 : s.countOff0
  endIsUnused : s.endIsUnused
  countIsRight : s.countIsRight
  poppedBasics : s.poppedBasics
  dataForUsedHeader : s.dataForUsedHeader
  invSegmentCreating : s.invSegmentCreating
  invVeryUnready : s.invVeryUnready
  invSegmentFreeing : s.invSegmentFreeing
  invReady : s.invReady
  invUsed : s.invUsed
  readyPoppedNotInUnusedLists : s.readyPoppedNotInUnusedLists
  llInvValidUnused : s.llInvValidUnused
  llInvValidUsed : s.llInvValidUsed
  llInvExistsInSomeList : s.llInvExistsInSomeList
  llInvValidUsed2 : s.llInvValidUsed2
  attachedRanges : s.attachedRanges

end State

end VerusMimalloc.PageOrg
