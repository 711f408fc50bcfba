/-
**The page organization machine.**

`page_organization.rs`: the state of the machine that says which slices of which segments form which
pages, and its transitions. A transition has what it requires, what it asserts on the way, and the
state it leads to; counts, slice numbers and queue numbers are bounded below by what is required, so
they are natural numbers. `pages[id]` outside the domain is an arbitrary value of the source; what is
asserted rules it out.
-/

import VerusMimalloc.Model.Ids

namespace VerusMimalloc.PageOrg

variable {P : Type}

/-! ### The state -/

structure DlistHeader (P : Type) where
  first : Option (PageId P)
  last : Option (PageId P)

structure DlistEntry (P : Type) where
  prev : Option (PageId P)
  next : Option (PageId P)

inductive PageHeaderKind where
  | normal (bin size : Int)
  deriving DecidableEq

/-- `PageData`; `none` leaves the physical value open. -/
structure PageData (P : Type) where
  dlistEntry : Option (DlistEntry P)
  count : Option Nat
  offset : Option Nat
  isUsed : Bool
  full : Option Bool
  pageHeaderKind : Option PageHeaderKind

structure SegmentData where
  used : Int

/-- The one thing that is out of place between two transitions. -/
inductive Popped (P : Type) where
  | no
  /-- The offsets of the page are set up. -/
  | ready (pageId : PageId P) (ec : Bool)
  /-- Everything is set to used. -/
  | used (pageId : PageId P) (ec : Bool)
  | segmentCreating (segmentId : SegmentId P)
  /-- No slice of the range is set, not even the first or the last. -/
  | veryUnready (segmentId : SegmentId P) (start count : Nat) (ec : Bool)
  | segmentFreeing (segmentId : SegmentId P) (idx : Nat)
  | extraCount (segmentId : SegmentId P)
  deriving DecidableEq

structure State (P : Type) where
  unusedDlistHeaders : List (DlistHeader P)
  usedDlistHeaders : List (DlistHeader P)
  pages : PageId P → Option (PageData P)
  segments : SegmentId P → Option SegmentData
  popped : Popped P
  unusedLists : List (List (PageId P))
  usedLists : List (List (PageId P))

/-- A slice of which nothing is known. -/
def PageData.unset : PageData P := ⟨none, none, none, false, none, none⟩

/-- The unwrapped `dlist_entry`. -/
def PageData.links (d : PageData P) : DlistEntry P := d.dlistEntry.getD ⟨none, none⟩

namespace State

/-- `pages[page_id]`. -/
def page (s : State P) (id : PageId P) : PageData P := (s.pages id).getD .unset

/-- `segments[segment_id]`. -/
def segment (s : State P) (id : SegmentId P) : SegmentData := (s.segments id).getD ⟨0⟩

def unusedHeader (s : State P) (i : Nat) : DlistHeader P := s.unusedDlistHeaders.getD i ⟨none, none⟩

def usedHeader (s : State P) (i : Nat) : DlistHeader P := s.usedDlistHeaders.getD i ⟨none, none⟩

def unusedList (s : State P) (i : Nat) : List (PageId P) := s.unusedLists.getD i []

def usedList (s : State P) (i : Nat) : List (PageId P) := s.usedLists.getD i []

/-- `valid_unused_page`. -/
def validUnusedPage (s : State P) (id : PageId P) (sbinIdx listIdx : Nat) : Prop :=
  (s.pages id).isSome ∧ id.idx ≠ 0 ∧ (s.page id).isUsed = false ∧
    (∃ count, (s.page id).count = some count ∧ 1 ≤ count ∧ count ≤ slicesPerSegment) ∧
    (s.page id).dlistEntry.isSome ∧ sbinIdx ≤ segmentBinMax ∧
    (s.unusedList sbinIdx)[listIdx]? = some id

/-- `valid_used_page`. -/
def validUsedPage (s : State P) (id : PageId P) (binIdx listIdx : Nat) : Prop :=
  (s.pages id).isSome ∧ id.idx ≠ 0 ∧ (s.page id).isUsed = true ∧
    (s.page id).dlistEntry.isSome ∧ (s.page id).offset = some 0 ∧
    (validBinIdx binIdx ∨ binIdx = binFull) ∧ (s.usedList binIdx)[listIdx]? = some id ∧
    ∃ bin bsize, (s.page id).pageHeaderKind = some (.normal bin bsize) ∧ validBinIdx bin ∧
      sizeOfBin bin = bsize ∧ (binIdx ≠ binFull → binIdx = bin)

end State

/-! ### Updates -/

section Updates

variable [DecidableEq P]

abbrev Pages (P : Type) := PageId P → Option (PageData P)

/-- `update pages[id] = d`. -/
def Pages.insert (pages : Pages P) (id : PageId P) (d : PageData P) : Pages P :=
  Function.update pages id (some d)

/-- `union_prefer_right` with a map on `page_id_range(segment_id, lo, hi)`. -/
def Pages.insertRange (pages : Pages P) (segmentId : SegmentId P) (lo hi : Nat)
    (f : PageId P → PageData P) : Pages P :=
  fun id => if id.segmentId = segmentId ∧ lo ≤ id.idx ∧ id.idx < hi then some (f id) else pages id

/-- The update of a neighbour's `next`, where there is a neighbour. -/
def State.setNext (pre : State P) (pages : Pages P) (target value : Option (PageId P)) : Pages P :=
  match target with
  | some id => pages.insert id
      { pre.page id with dlistEntry := some { (pre.page id).links with next := value } }
  | none => pages

/-- The update of a neighbour's `prev`, where there is a neighbour. -/
def State.setPrev (pre : State P) (pages : Pages P) (target value : Option (PageId P)) : Pages P :=
  match target with
  | some id => pages.insert id
      { pre.page id with dlistEntry := some { (pre.page id).links with prev := value } }
  | none => pages

/-- `insert_front`. -/
def insertFront (ll : List (List (PageId P))) (i : Nat) (id : PageId P) : List (List (PageId P)) :=
  ll.set i (id :: ll.getD i [])

/-- `insert_back`. -/
def insertBack (ll : List (List (PageId P))) (i : Nat) (id : PageId P) : List (List (PageId P)) :=
  ll.set i (ll.getD i [] ++ [id])

/-- `update lists[i] = pre.lists[i].remove(j)`. -/
def removeAt (ll : List (List (PageId P))) (i j : Nat) : List (List (PageId P)) :=
  ll.set i ((ll.getD i []).eraseIdx j)

/-- `get_list_idx`: a list that holds the page, and a place in it. -/
def getListIdx (lists : List (List (PageId P))) (id : PageId P) : Nat × Nat :=
  let i := lists.findIdx fun list => decide (id ∈ list)
  (i, (lists.getD i []).idxOf id)

def State.setUsed (s : State P) (id : SegmentId P) (used : Int) : SegmentId P → Option SegmentData :=
  Function.update s.segments id (some ⟨used⟩)

/-- Linking `id` at the front of a queue, on the header. -/
def DlistHeader.withFront (header : DlistHeader P) (id : PageId P) : DlistHeader P :=
  { first := some id, last := if header.first.isSome then header.last else some id }

/-- Linking `id` at the back of a queue, on the header. -/
def DlistHeader.withBack (header : DlistHeader P) (id : PageId P) : DlistHeader P :=
  { first := if header.last.isSome then header.first else some id, last := some id }

/-- Unlinking a page with the given links, on the header. -/
def DlistHeader.without (header : DlistHeader P) (links : DlistEntry P) : DlistHeader P :=
  { first := if links.prev.isSome then header.first else links.next
    last := if links.next.isSome then header.last else links.prev }

end Updates

/-! ### The transitions -/

inductive Transition (P : Type) where
  | takePageFromUnusedQueue (pageId : PageId P) (sbinIdx listIdx : Nat)
  | splitPage (pageId : PageId P) (currentCount targetCount sbinIdx : Nat)
  | createSegment (segmentId : SegmentId P)
  | allocatePopped
  | forgetAboutFirstPage (count : Nat)
  | forgetAboutFirstPage2
  | clearEc
  | freeToUnusedQueue (sbinIdx : Nat)
  | setRangeToUsed (pageHeaderKind : PageHeaderKind)
  | setRangeToNotUsed
  | intoUsedList (binIdx : Nat)
  | intoUsedListBack (binIdx : Nat)
  | outOfUsedList (pageId : PageId P) (binIdx listIdx : Nat)
  | segmentFreeingStart (segmentId : SegmentId P)
  | segmentFreeingFinish
  | mergeWithAfter
  | mergeWithBefore

/-- What `into_used_list` asks of the page header. -/
def HeaderFits (kind : Option PageHeaderKind) (binIdx : Nat) : Prop :=
  match kind with
  | some (.normal i bsize) =>
      (binIdx ≠ binFull → (binIdx : Int) = i) ∧ validBinIdx i ∧ bsize = sizeOfBin i ∧
        i = smallestBinFittingSize bsize ∧ bsize ≤ mediumObjSizeMax
  | none => False

/-- What a transition requires. -/
def Requires (pre : State P) : Transition P → Prop
  | .takePageFromUnusedQueue pageId sbinIdx listIdx =>
      pre.validUnusedPage pageId sbinIdx listIdx ∧
        (pre.popped = .no ∨ pre.popped = .segmentFreeing pageId.segmentId pageId.idx)
  | .splitPage pageId currentCount targetCount sbinIdx =>
      pre.popped = .veryUnready pageId.segmentId pageId.idx currentCount false ∧
        (pre.page pageId).isUsed = false ∧ 1 ≤ targetCount ∧ targetCount < currentCount ∧
        sbinIdx ≤ segmentBinMax ∧ sbinIdx = smallestSbinFittingSize (currentCount - targetCount)
  | .createSegment segmentId =>
      pre.popped = .no ∧ pre.segments segmentId = none ∧ segmentStart segmentId ≠ 0
  | .allocatePopped => ∃ segmentId idx count, pre.popped = .veryUnready segmentId idx count false
  | .forgetAboutFirstPage count =>
      1 ≤ count ∧ count < slicesPerSegment ∧ ∃ segmentId, pre.popped = .segmentCreating segmentId
  | .forgetAboutFirstPage2 =>
      ∃ segmentId start count, pre.popped = .veryUnready segmentId start count true
  | .clearEc => ∃ segmentId, pre.popped = .extraCount segmentId
  | .freeToUnusedQueue sbinIdx =>
      validSbinIdx sbinIdx ∧ ∃ segmentId start count ec,
        pre.popped = .veryUnready segmentId start count ec ∧ sbinIdx = smallestSbinFittingSize count
  | .setRangeToUsed _ => ∃ pageId ec, pre.popped = .ready pageId ec
  | .setRangeToNotUsed => ∃ pageId ec, pre.popped = .used pageId ec
  | .intoUsedList binIdx | .intoUsedListBack binIdx =>
      (validBinIdx binIdx ∨ binIdx = binFull) ∧ ∃ pageId, pre.popped = .used pageId true ∧
        HeaderFits (pre.page pageId).pageHeaderKind binIdx
  | .outOfUsedList pageId binIdx listIdx =>
      pre.popped = .no ∧ pre.validUsedPage pageId binIdx listIdx
  | .segmentFreeingStart segmentId =>
      pre.popped = .no ∧ (pre.segments segmentId).isSome ∧ (pre.segment segmentId).used = 0
  | .segmentFreeingFinish => ∃ segmentId, pre.popped = .segmentFreeing segmentId slicesPerSegment
  | .mergeWithAfter => ∃ segmentId start count ec,
      pre.popped = .veryUnready segmentId start count ec ∧ start + count < slicesPerSegment ∧
        (pre.page ⟨segmentId, start + count⟩).isUsed = false
  | .mergeWithBefore => ∃ segmentId start count ec,
      pre.popped = .veryUnready segmentId start count ec ∧ 1 < start ∧
        0 < (start - 1) - (pre.page ⟨segmentId, start - 1⟩).offset.getD 0 ∧
        (pre.page ⟨segmentId, (start - 1) - (pre.page ⟨segmentId, start - 1⟩).offset.getD 0⟩).isUsed =
          false

section Steps

variable [DecidableEq P]

/-- `initialize`. -/
def initialState : State P where
  unusedDlistHeaders := List.replicate (segmentBinMax + 1) ⟨none, none⟩
  usedDlistHeaders := List.replicate (binFull + 1) ⟨none, none⟩
  pages := fun _ => none
  segments := fun _ => none
  popped := .no
  unusedLists := List.replicate (segmentBinMax + 1) []
  usedLists := List.replicate (binFull + 1) []

/-- `take_page_from_unused_queue`. -/
def takePageFromUnusedQueue (pre : State P) (pageId : PageId P) (sbinIdx listIdx : Nat) : State P :=
  let links := (pre.page pageId).links
  let pages := Pages.insert pre.pages pageId
    { pre.page pageId with dlistEntry := none, count := none, offset := none }
  let pages := pre.setNext pages links.prev links.next
  let pages := pre.setPrev pages links.next links.prev
  let header := pre.unusedHeader sbinIdx
  let headers :=
    if links.prev.isNone ∧ links.next.isNone then
      pre.unusedDlistHeaders.set sbinIdx { first := links.next, last := links.prev }
    else if links.prev.isNone then
      pre.unusedDlistHeaders.set sbinIdx { header with first := links.next }
    else if links.next.isNone then
      pre.unusedDlistHeaders.set sbinIdx { header with last := links.prev }
    else pre.unusedDlistHeaders
  let count := (pre.page pageId).count.getD 0
  let lastId : PageId P := { pageId with idx := pageId.idx + count - 1 }
  let pages :=
    if lastId ≠ pageId then pages.insert lastId { pre.page lastId with offset := none } else pages
  { pre with
    pages := pages
    unusedDlistHeaders := headers
    popped := match pre.popped with
      | .no => .veryUnready pageId.segmentId pageId.idx count false
      | .segmentFreeing segmentId i => .segmentFreeing segmentId (i + count)
      | popped => popped
    unusedLists := removeAt pre.unusedLists sbinIdx listIdx }

/-- `split_page`. -/
def splitPage (pre : State P) (pageId : PageId P) (currentCount targetCount sbinIdx : Nat) :
    State P :=
  let nextPageId : PageId P := { pageId with idx := pageId.idx + targetCount }
  let lastPageId : PageId P := { pageId with idx := pageId.idx + currentCount - 1 }
  let header := pre.unusedHeader sbinIdx
  let pages := Pages.insert pre.pages nextPageId
    { pre.page nextPageId with
      count := some (currentCount - targetCount)
      offset := some 0
      dlistEntry := some { prev := none, next := header.first } }
  let pages :=
    if currentCount - targetCount > 1 then
      pages.insert lastPageId
        { pre.page lastPageId with
          count := none
          offset := some (currentCount - targetCount - 1) }
    else pages
  { pre with
    pages := pre.setPrev pages header.first (some nextPageId)
    unusedDlistHeaders := pre.unusedDlistHeaders.set sbinIdx (header.withFront nextPageId)
    popped := .veryUnready pageId.segmentId pageId.idx targetCount false
    unusedLists := insertFront pre.unusedLists sbinIdx nextPageId }

/-- `create_segment`. -/
def createSegment (pre : State P) (segmentId : SegmentId P) : State P :=
  { pre with
    segments := Function.update pre.segments segmentId (some ⟨0⟩)
    pages := Pages.insertRange pre.pages segmentId 0 (slicesPerSegment + 1) fun _ => .unset
    popped := .segmentCreating segmentId }

/-- The slices of a range whose count and offsets are set. -/
def readyRange (pre : State P) (pageId : PageId P) (count : Nat) (id : PageId P) : PageData P where
  count := if id = pageId then some count else (pre.page id).count
  offset := some (id.idx - pageId.idx)
  dlistEntry := (pre.page id).dlistEntry
  isUsed := false
  pageHeaderKind := none
  full := none

/-- `allocate_popped`. -/
def allocatePopped (pre : State P) : State P :=
  match pre.popped with
  | .veryUnready segmentId idx count _ =>
      let pageId : PageId P := { segmentId, idx }
      { pre with
        pages := Pages.insertRange pre.pages segmentId idx (idx + count) (readyRange pre pageId count)
        segments := pre.setUsed segmentId ((pre.segment segmentId).used + 1)
        popped := .ready pageId true }
  | _ => pre

/-- `forget_about_first_page`. -/
def forgetAboutFirstPage (pre : State P) (count : Nat) : State P :=
  match pre.popped with
  | .segmentCreating segmentId =>
      { pre with
        pages := Pages.insertRange pre.pages segmentId 0 count
          (readyRange pre { segmentId, idx := 0 } count)
        segments := pre.setUsed segmentId ((pre.segment segmentId).used + 1)
        popped := .veryUnready segmentId count (slicesPerSegment - count) true }
  | _ => pre

/-- `forget_about_first_page2`. -/
def forgetAboutFirstPage2 (pre : State P) : State P :=
  match pre.popped with
  | .veryUnready segmentId start count _ =>
      { pre with
        segments := pre.setUsed segmentId ((pre.segment segmentId).used - 1)
        popped := .veryUnready segmentId start count false }
  | _ => pre

/-- `clear_ec`. -/
def clearEc (pre : State P) : State P :=
  match pre.popped with
  | .extraCount segmentId =>
      { pre with
        segments := pre.setUsed segmentId ((pre.segment segmentId).used - 1)
        popped := .no }
  | _ => pre

/-- `free_to_unused_queue`. -/
def freeToUnusedQueue (pre : State P) (sbinIdx : Nat) : State P :=
  match pre.popped with
  | .veryUnready segmentId start count ec =>
      let firstPage : PageId P := { segmentId, idx := start }
      let lastPage : PageId P := { segmentId, idx := start + count - 1 }
      let header := pre.unusedHeader sbinIdx
      let pages := Pages.insert pre.pages firstPage
        { dlistEntry := some { prev := none, next := header.first }
          count := some count
          offset := some 0
          isUsed := false
          pageHeaderKind := none
          full := none }
      let pages :=
        if count > 1 then
          pages.insert lastPage { pre.page lastPage with offset := some (count - 1) }
        else pages
      { pre with
        pages := pre.setPrev pages header.first (some firstPage)
        unusedDlistHeaders := pre.unusedDlistHeaders.set sbinIdx (header.withFront firstPage)
        popped := if ec then .extraCount segmentId else .no
        unusedLists := insertFront pre.unusedLists sbinIdx firstPage }
  | _ => pre

/-- `set_range_to_used`. -/
def setRangeToUsed (pre : State P) (pageHeaderKind : PageHeaderKind) : State P :=
  match pre.popped with
  | .ready pageId ec =>
      let count := (pre.page pageId).count.getD 0
      { pre with
        pages := Pages.insertRange pre.pages pageId.segmentId pageId.idx (pageId.idx + count)
          fun id => { pre.page id with
            isUsed := true
            pageHeaderKind := if id = pageId then some pageHeaderKind else none }
        popped := .used pageId ec }
  | _ => pre

/-- `set_range_to_not_used`. -/
def setRangeToNotUsed (pre : State P) : State P :=
  match pre.popped with
  | .used pageId ec =>
      let count := (pre.page pageId).count.getD 0
      { pre with
        pages := Pages.insertRange pre.pages pageId.segmentId pageId.idx (pageId.idx + count)
          fun id => { pre.page id with
            isUsed := false
            pageHeaderKind := none
            offset := none
            count := none }
        popped := .veryUnready pageId.segmentId pageId.idx count ec }
  | _ => pre

/-- `into_used_list`. -/
def intoUsedList (pre : State P) (binIdx : Nat) : State P :=
  match pre.popped with
  | .used pageId _ =>
      let header := pre.usedHeader binIdx
      let pages := pre.setPrev pre.pages header.first (some pageId)
      { pre with
        usedDlistHeaders := pre.usedDlistHeaders.set binIdx (header.withFront pageId)
        pages := pages.insert pageId
          { pre.page pageId with
            dlistEntry := some { prev := none, next := header.first }
            full := some (decide (binIdx = binFull)) }
        popped := .no
        usedLists := insertFront pre.usedLists binIdx pageId }
  | _ => pre

/-- `into_used_list_back`. -/
def intoUsedListBack (pre : State P) (binIdx : Nat) : State P :=
  match pre.popped with
  | .used pageId _ =>
      let header := pre.usedHeader binIdx
      let pages := pre.setNext pre.pages header.last (some pageId)
      { pre with
        usedDlistHeaders := pre.usedDlistHeaders.set binIdx (header.withBack pageId)
        pages := pages.insert pageId
          { pre.page pageId with
            dlistEntry := some { prev := header.last, next := none }
            full := some (decide (binIdx = binFull)) }
        popped := .no
        usedLists := insertBack pre.usedLists binIdx pageId }
  | _ => pre

/-- `out_of_used_list`. -/
def outOfUsedList (pre : State P) (pageId : PageId P) (binIdx listIdx : Nat) : State P :=
  let links := (pre.page pageId).links
  let pages := pre.setNext pre.pages links.prev links.next
  let pages := pre.setPrev pages links.next links.prev
  { pre with
    usedDlistHeaders := pre.usedDlistHeaders.set binIdx ((pre.usedHeader binIdx).without links)
    pages := pages.insert pageId { pre.page pageId with full := none, dlistEntry := none }
    popped := .used pageId true
    usedLists := removeAt pre.usedLists binIdx listIdx }

/-- `segment_freeing_start`. -/
def segmentFreeingStart (pre : State P) (segmentId : SegmentId P) : State P :=
  let count := (pre.page { segmentId, idx := 0 }).count.getD 0
  { pre with
    pages := Pages.insertRange pre.pages segmentId 0 count fun _ => .unset
    popped := .segmentFreeing segmentId count }

/-- `segment_freeing_finish`. -/
def segmentFreeingFinish (pre : State P) : State P :=
  match pre.popped with
  | .segmentFreeing segmentId _ =>
      { pre with
        segments := Function.update pre.segments segmentId none
        popped := .no
        pages := fun id =>
          if id.segmentId = segmentId ∧ id.idx < slicesPerSegment + 1 then none else pre.pages id }
  | _ => pre

/-- The part that the two merges share: the unused page `pageId`, which ends at `lastId`, leaves its
queue and loses its data. -/
def mergePage (pre : State P) (pageId lastId : PageId P) (popped : Nat → Popped P) : State P :=
  let count := (pre.page pageId).count.getD 0
  let links := (pre.page pageId).links
  let pages := Pages.insert pre.pages pageId
    { pre.page pageId with offset := none, count := none, dlistEntry := none }
  let pages := pages.insert lastId
    { pre.page lastId with offset := none, count := none, dlistEntry := none }
  let pages := pre.setNext pages links.prev links.next
  let pages := pre.setPrev pages links.next links.prev
  let sbinIdx := smallestSbinFittingSize count
  { pre with
    pages := pages
    unusedDlistHeaders :=
      pre.unusedDlistHeaders.set sbinIdx ((pre.unusedHeader sbinIdx).without links)
    popped := popped count
    unusedLists := removeAt pre.unusedLists sbinIdx (getListIdx pre.unusedLists pageId).2 }

/-- `merge_with_after`. -/
def mergeWithAfter (pre : State P) : State P :=
  match pre.popped with
  | .veryUnready segmentId start count ec =>
      let pageId : PageId P := { segmentId, idx := start + count }
      let nCount := (pre.page pageId).count.getD 0
      mergePage pre pageId { segmentId, idx := start + count + nCount - 1 } fun nCount =>
        .veryUnready segmentId start (count + nCount) ec
  | _ => pre

/-- `merge_with_before`. -/
def mergeWithBefore (pre : State P) : State P :=
  match pre.popped with
  | .veryUnready segmentId start count ec =>
      let lastId : PageId P := { segmentId, idx := start - 1 }
      let offset := (pre.page lastId).offset.getD 0
      let pageId : PageId P := { segmentId, idx := lastId.idx - offset }
      mergePage pre pageId lastId fun pCount =>
        .veryUnready segmentId pageId.idx (count + pCount) ec
  | _ => pre

/-- The state a transition leads to. -/
def next (pre : State P) : Transition P → State P
  | .takePageFromUnusedQueue pageId sbinIdx listIdx =>
      takePageFromUnusedQueue pre pageId sbinIdx listIdx
  | .splitPage pageId currentCount targetCount sbinIdx =>
      splitPage pre pageId currentCount targetCount sbinIdx
  | .createSegment segmentId => createSegment pre segmentId
  | .allocatePopped => allocatePopped pre
  | .forgetAboutFirstPage count => forgetAboutFirstPage pre count
  | .forgetAboutFirstPage2 => forgetAboutFirstPage2 pre
  | .clearEc => clearEc pre
  | .freeToUnusedQueue sbinIdx => freeToUnusedQueue pre sbinIdx
  | .setRangeToUsed pageHeaderKind => setRangeToUsed pre pageHeaderKind
  | .setRangeToNotUsed => setRangeToNotUsed pre
  | .intoUsedList binIdx => intoUsedList pre binIdx
  | .intoUsedListBack binIdx => intoUsedListBack pre binIdx
  | .outOfUsedList pageId binIdx listIdx => outOfUsedList pre pageId binIdx listIdx
  | .segmentFreeingStart segmentId => segmentFreeingStart pre segmentId
  | .segmentFreeingFinish => segmentFreeingFinish pre
  | .mergeWithAfter => mergeWithAfter pre
  | .mergeWithBefore => mergeWithBefore pre

/-- The states that runs of transitions reach. -/
inductive Reachable : State P → Prop where
  | initial : Reachable initialState
  | step {pre : State P} {t : Transition P} (reachable : Reachable pre) (requires : Requires pre t) :
      Reachable (next pre t)

end Steps

end VerusMimalloc.PageOrg
