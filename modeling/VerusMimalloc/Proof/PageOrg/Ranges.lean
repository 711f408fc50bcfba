/-
**Transitions that leave the queues alone.**

* `OrgOk.restamp`: pieces that are on no queue get other roles or bounds;
* `allocate_popped`, `forget_about_first_page`, `set_range_to_used`, `set_range_to_not_used`,
  `segment_freeing_start`: the restamping transitions;
* `create_segment`, `segment_freeing_finish`: whole segments;
* `forget_about_first_page2`, `clear_ec`: the counts alone.
-/

import VerusMimalloc.Proof.PageOrg.Org

namespace VerusMimalloc.PageOrg

open Library

variable {P : Type}

theorem unusedIndex_plain {x : Piece} (plain : x.role.listed = false) : unusedIndex x = none := by
  cases number : unusedIndex x with
  | none => rfl
  | some i =>
      rw [unusedIndex_listed number] at plain
      cases plain

theorem usedIndex_plain {x : Piece} (plain : x.role.listed = false) : usedIndex x = none := by
  cases number : usedIndex x with
  | none => rfl
  | some i =>
      rw [usedIndex_listed number] at plain
      cases plain

/-- A slice of a piece that is on no queue has no links. -/
theorem Piece.unlinked {x : Piece} {entry : Option (DlistEntry P)} {i : Nat} (plain : x.role.listed = false)
    (linked : entry.isSome = x.linked i) : entry = none := by
  rw [Piece.linked, plain, Bool.and_false] at linked
  simpa using linked

theorem Piece.data_blank {x : Piece} (blank : x.role = .blank) (i : Nat) :
    (x.data i none : PageData P) = .unset ∧ x.linked i = false := by
  simp [Piece.data, PageData.unset, Piece.linked, blank, Role.inUse, Role.full, Role.header, Role.listed]

/-- The slices of a page in use hold their distance from its first one. -/
theorem Piece.offset_used {x : Piece} (inUse : x.role.inUse = true) (i : Nat)
    (entry : Option (DlistEntry P)) : (x.data i entry).offset = some (i - x.start) := by
  unfold Piece.data
  cases role : x.role
  all_goals first | rfl | (rw [role] at inUse; cases inUse)

/-- A page is not on a used queue and on an unused queue. -/
theorem LayoutOk.on_one {s : State P} {layout : Layout P} {i j : Nat} {id other : PageId P}
    (ok : LayoutOk s layout) (used : On usedIndex layout i id) (unused : On unusedIndex layout j other) :
    id ≠ other := by
  rintro rfl
  obtain ⟨x, inX, startX, numberX⟩ := used
  obtain ⟨y, inY, startY, numberY⟩ := unused
  obtain rfl := ok.eq_of_start inX inY (startX.trans startY.symm)
  unfold usedIndex at numberX
  unfold unusedIndex at numberY
  cases role : x.role <;> rw [role] at numberX numberY <;>
    first
    | (simp at numberY; done)
    | simp at numberX

variable [DecidableEq P]

theorem insertRange_apply {pages : Pages P} {sid : SegmentId P} {lo hi : Nat}
    {f : PageId P → PageData P} {id : PageId P} (outside : ¬(id.segmentId = sid ∧ lo ≤ id.idx ∧ id.idx < hi)) :
    Pages.insertRange pages sid lo hi f id = pages id := if_neg outside

theorem insertRange_inside {pages : Pages P} {sid : SegmentId P} {lo hi i : Nat}
    {f : PageId P → PageData P} (lower : lo ≤ i) (upper : i < hi) :
    Pages.insertRange pages sid lo hi f ⟨sid, i⟩ = some (f ⟨sid, i⟩) := if_pos ⟨rfl, lower, upper⟩

theorem setUsed_isSome {s : State P} {sid : SegmentId P} {used : Int}
    (known : (s.segments sid).isSome = true) (r : SegmentId P) :
    (s.setUsed sid used r).isSome = (s.segments r).isSome := by
  unfold State.setUsed
  by_cases same : r = sid
  · rw [same, Function.update_self, known]
    rfl
  · rw [Function.update_of_ne same]

/-- The use count of one segment changes by `k`, that of no other. -/
theorem setUsed_counts {s : State P} {sid : SegmentId P} {k : Int} {ec ec' : SegmentId P → Int}
    {difference : Int} (known : (s.segments sid).isSome = true)
    (here : k = ec' sid - ec sid + difference) (others : ∀ r ≠ sid, ec' r = ec r) (r : SegmentId P)
    (d' : SegmentData) (after : s.setUsed sid ((s.segment sid).used + k) r = some d') :
    ∃ d, s.segments r = some d ∧ d'.used - ec' r = d.used - ec r + if r = sid then difference else 0 := by
  unfold State.setUsed at after
  by_cases same : r = sid
  · subst same
    obtain ⟨d, before⟩ := Option.isSome_iff_exists.mp known
    rw [Function.update_self] at after
    cases after
    refine ⟨d, before, ?_⟩
    rw [if_pos rfl, State.segment, before]
    simp only [Option.getD_some]
    omega
  · rw [Function.update_of_ne same] at after
    exact ⟨d', after, by rw [if_neg same, others r same, add_zero]⟩

namespace OrgOk

variable {s s' : State P} {layout : Layout P} {sid : SegmentId P} {left new right : List Piece}
  {x : Piece} {a b : Nat}

/-- **Restamping a piece** that is on no queue. -/
theorem restamp (ok : OrgOk s layout) (swap : Swap s layout sid left [x] right a b)
    (tiles : Tiles Piece.start Piece.count a new b) (plain : ∀ y ∈ x :: new, y.role.listed = false)
    (queues : s'.unusedDlistHeaders = s.unusedDlistHeaders ∧ s'.unusedLists = s.unusedLists ∧
      s'.usedDlistHeaders = s.usedDlistHeaders ∧ s'.usedLists = s.usedLists)
    (segments : ∀ r, (s'.segments r).isSome = (s.segments r).isSome)
    (kept : ∀ id : PageId P, ¬(id.segmentId = sid ∧ a ≤ id.idx ∧ id.idx < b) →
      s'.pages id = s.pages id)
    (fills : ∀ y ∈ new, Fills s'.pages sid y)
    (pending : ∀ y ∈ new, y.role.pending = true → IsPending s'.popped sid y)
    (others : ∀ r y, y ∈ layout r → (r = sid → y ∈ left ∨ y ∈ right) → y.role.pending = false)
    (popped : s'.popped.any = true → ∃ y ∈ new, IsPending s'.popped sid y)
    (first : ∀ y ∈ new, y.role = .first → y.start = 0)
    (start : ∀ y ∈ new, y.start = 0 → y.role = .first ∨ y.role = .blank)
    (counts : ∀ r d', s'.segments r = some d' → ∃ d, s.segments r = some d ∧
      d'.used - State.ecOfPopped s'.popped r = d.used - State.ecOfPopped s.popped r +
        if r = sid then (usedPieces new : Int) - usedPieces [x] else 0)
    (freeing : ∀ r idx, s'.popped = .segmentFreeing r idx →
      usedPieces (Swap.result layout sid left new right r) = 0)
    (extra : ∀ r, s'.popped = .extraCount r → (s'.segments r).isSome = true) :
    OrgOk s' (Swap.result layout sid left new right) := by
  have shapes : ∀ id : PageId P, ¬(id.segmentId = sid ∧ a ≤ id.idx ∧ id.idx < b) →
      shapeAt s'.pages id = shapeAt s.pages id := fun id outside => by
    rw [shapeAt, kept id outside, shapeAt]
  have after := ok.pieces.replace swap.shape swap.known swap.before swap.after tiles segments shapes fills
    pending others popped first start
  have queue : ∀ (n : Nat) headers lists (index : Piece → Option Nat),
      (∀ y : Piece, y.role.listed = false → index y = none) →
      (∀ y i, index y = some i → y.role.listed = true) →
      QueuesOk s.pages n headers lists (On index layout) →
      QueuesOk s'.pages n headers lists (On index (Swap.result layout sid left new right)) := by
    intro n headers lists index unlisted listed before
    have same := swap.on_same index new
      (fun y member => unlisted y (plain y (List.mem_cons.mpr (.inl (List.mem_singleton.mp member)))))
      (fun y member => unlisted y (plain y (List.mem_cons_of_mem _ member)))
    refine before.congr same (fun i id on => ?_) fun i id on => ?_
    · have outside := swap.on_outside on fun y member _ =>
        unlisted y (plain y (List.mem_cons.mpr (.inl (List.mem_singleton.mp member))))
      rw [linksAt, kept id outside, linksAt]
    · exact after.on_linked listed ((same i id).mpr on)
  refine ok.replace swap after counts freeing extra (fun y header full member role => ?_) ?_ ?_
  · have unlisted := plain y (List.mem_cons_of_mem _ member)
    rw [role] at unlisted
    cases unlisted
  · rw [queues.1, queues.2.1]
    exact queue _ _ _ _ (fun _ => unusedIndex_plain) (fun _ _ => unusedIndex_listed) ok.unused
  · rw [queues.2.2.1, queues.2.2.2]
    exact queue _ _ _ _ (fun _ => usedIndex_plain) (fun _ _ => usedIndex_listed) ok.used

/-- The popped piece. -/
theorem popped_piece (ok : OrgOk s layout) (any : s.popped.any = true) :
    ∃ r x, x ∈ layout r ∧ IsPending s.popped r x := by
  obtain ⟨r, x, member, pending⟩ := ok.pieces.popped any
  exact ⟨r, x, member, pending⟩

/-- **`allocate_popped`**. -/
theorem allocatePopped (ok : OrgOk s layout) (requires : Requires s .allocatePopped) :
    ∃ layout', OrgOk (allocatePopped s) layout' := by
  obtain ⟨sid, k, c, popped⟩ := requires
  obtain ⟨r, x, member, pending⟩ := ok.popped_piece (by rw [popped]; rfl)
  have isPending := pending
  rw [popped] at pending
  obtain ⟨rfl, rfl, positive⟩ := pending
  obtain ⟨left, right, swap⟩ := ok.pieces.swap member
  have bounds := ok.pieces.bounds member
  simp only at bounds swap
  have result : PageOrg.allocatePopped s = { s with
      pages := Pages.insertRange s.pages sid k (k + c) (readyRange s ⟨sid, k⟩ c)
      segments := s.setUsed sid ((s.segment sid).used + 1)
      popped := .ready ⟨sid, k⟩ true } := by
    unfold PageOrg.allocatePopped
    rw [popped]
  rw [result]
  refine ⟨_, ok.restamp swap (tiles_one (x := ⟨k, c, .ready⟩) bounds.1) (by simp [Role.listed])
    ⟨rfl, rfl, rfl, rfl⟩ (setUsed_isSome swap.known) (fun id outside => if_neg outside)
    (fun y inNew i lower upper => ?_) (fun y inNew _ => ?_)
    (swap.others_of_pending ok.pieces (List.mem_singleton_self _) isPending)
    (fun _ => ⟨_, List.mem_singleton_self _, rfl, rfl, positive⟩) (by simp) (by simp; omega)
    (setUsed_counts swap.known ?_ fun r differs => ?_) (fun _ _ impossible => by cases impossible)
    fun _ impossible => by cases impossible⟩
  · obtain rfl := List.mem_singleton.mp inNew
    obtain ⟨entry, _, page, linked⟩ := (ok.pieces.fills sid _ member).page lower upper
    obtain rfl := Piece.unlinked rfl linked
    show shapeAt (Pages.insertRange _ _ _ _ _) _ = _
    rw [shapeAt, insertRange_inside lower upper, Option.map_some, readyRange, page]
    simp [PageData.shape, Piece.data, Piece.linked, Role.inUse, Role.full, Role.header, Role.listed]
  · obtain rfl := List.mem_singleton.mp inNew
    exact ⟨rfl, rfl, positive⟩
  · rw [popped]
    simp [State.ecOfPopped, usedPieces, Role.inUse]
  · rw [popped]
    simp [State.ecOfPopped, Ne.symm differs]

/-- **`forget_about_first_page`**. -/
theorem forgetAboutFirstPage {count : Nat} (ok : OrgOk s layout)
    (requires : Requires s (.forgetAboutFirstPage count)) :
    ∃ layout', OrgOk (forgetAboutFirstPage s count) layout' := by
  obtain ⟨positive, small, sid, popped⟩ := requires
  simp only [slicesPerSegment] at small
  obtain ⟨r, x, member, pending⟩ := ok.popped_piece (by rw [popped]; rfl)
  have isPending := pending
  rw [popped] at pending
  obtain ⟨rfl, rfl⟩ := pending
  obtain ⟨left, right, swap⟩ := ok.pieces.swap member
  simp only at swap
  have result : PageOrg.forgetAboutFirstPage s count = { s with
      pages := Pages.insertRange s.pages sid 0 count (readyRange s ⟨sid, 0⟩ count)
      segments := s.setUsed sid ((s.segment sid).used + 1)
      popped := .veryUnready sid count (512 - count) true } := by
    unfold PageOrg.forgetAboutFirstPage
    rw [popped]
    rfl
  rw [result]
  refine ⟨_, ok.restamp swap
    (show Tiles Piece.start Piece.count 0 [⟨0, count, .first⟩, ⟨count, 512 - count, .blank⟩] (0 + 512) from
      ⟨rfl, positive, by simp, by simp; omega, by show 0 + count + (512 - count) = 0 + 512; omega⟩)
    (by simp [Role.listed]) ⟨rfl, rfl, rfl, rfl⟩ (setUsed_isSome swap.known)
    (fun id outside => if_neg fun inside => outside ⟨inside.1, inside.2.1, by omega⟩)
    (fun y inNew i lower upper => ?_) (fun y inNew pending => ?_)
    (swap.others_of_pending ok.pieces (List.mem_singleton_self _) isPending)
    (fun _ => ⟨⟨count, 512 - count, .blank⟩, by simp, rfl, rfl, positive⟩) (by simp) (by simp)
    (setUsed_counts swap.known ?_ fun r differs => ?_) (fun _ _ impossible => by cases impossible)
    fun _ impossible => by cases impossible⟩
  · show shapeAt (Pages.insertRange _ _ _ _ _) _ = _
    rcases List.mem_cons.mp inNew with rfl | inNew
    · simp only at lower upper
      obtain ⟨entry, _, page, linked⟩ := (ok.pieces.fills sid _ member).page (i := i) (by simp)
        (by simp only; omega)
      obtain rfl := Piece.unlinked rfl linked
      rw [shapeAt, insertRange_inside lower (by omega), Option.map_some, readyRange, page]
      simp [PageData.shape, Piece.data, Piece.linked, Role.inUse, Role.full, Role.header, Role.listed]
    · obtain rfl := List.mem_singleton.mp inNew
      simp only at lower upper
      rw [shapeAt, insertRange_apply (by simp only; omega)]
      refine ((ok.pieces.fills sid _ member) i (by simp) (by simp only; omega)).trans ?_
      simp [Piece.data, Piece.linked, Role.inUse, Role.full, Role.header, Role.listed]
  · rcases List.mem_cons.mp inNew with rfl | inNew
    · cases pending
    · obtain rfl := List.mem_singleton.mp inNew
      exact ⟨rfl, rfl, positive⟩
  · rw [popped]
    simp [State.ecOfPopped, usedPieces, Role.inUse]
  · rw [popped]
    simp [State.ecOfPopped, differs]

/-- The use counts stay, what they count changes with the extra count. -/
theorem kept_counts {ec ec' : SegmentId P → Int} {difference : Int}
    (here : 0 = ec' sid - ec sid + difference) (others : ∀ r ≠ sid, ec' r = ec r) (r : SegmentId P)
    (d : SegmentData) (before : s.segments r = some d) :
    ∃ d', s.segments r = some d' ∧ d.used - ec' r = d'.used - ec r +
      if r = sid then difference else 0 := by
  refine ⟨d, before, ?_⟩
  by_cases same : r = sid
  · subst same
    rw [if_pos rfl]
    omega
  · rw [if_neg same, others r same, add_zero]

/-- **`set_range_to_used`**. -/
theorem setRangeToUsed {kind : PageHeaderKind} (ok : OrgOk s layout)
    (requires : Requires s (.setRangeToUsed kind)) :
    ∃ layout', OrgOk (setRangeToUsed s kind) layout' := by
  obtain ⟨pageId, ec, popped⟩ := requires
  obtain ⟨sid, x, member, pending⟩ := ok.popped_piece (by rw [popped]; rfl)
  have isPending := pending
  rw [popped] at pending
  obtain ⟨rfl, role, positive⟩ := pending
  obtain ⟨k, c, _⟩ := x
  simp only at role positive
  subst role
  obtain ⟨left, right, swap⟩ := ok.pieces.swap member
  have bounds := ok.pieces.bounds member
  obtain ⟨_, _, head, _⟩ := ok.pieces.head member
  simp only at bounds swap head
  have result : PageOrg.setRangeToUsed s kind = { s with
      pages := Pages.insertRange s.pages sid k (k + c) fun id => { s.page id with
        isUsed := true
        pageHeaderKind := if id = ⟨sid, k⟩ then some kind else none }
      popped := .used ⟨sid, k⟩ ec } := by
    unfold PageOrg.setRangeToUsed
    rw [popped]
    simp only [head]
    simp [Piece.data]
  rw [result]
  refine ⟨_, ok.restamp swap (tiles_one (x := ⟨k, c, .detached kind⟩) bounds.1)
    (by simp [Role.listed]) ⟨rfl, rfl, rfl, rfl⟩ (fun _ => rfl)
    (fun id outside => if_neg outside) (fun y inNew i lower upper => ?_)
    (fun y inNew _ => ?_) (swap.others_of_pending ok.pieces (List.mem_singleton_self _) isPending)
    (fun _ => ⟨_, List.mem_singleton_self _, rfl, ⟨_, rfl⟩, positive⟩) (by simp) (by simp; omega)
    (kept_counts ?_ fun r differs => ?_) (fun _ _ impossible => by cases impossible)
    fun _ impossible => by cases impossible⟩
  · obtain rfl := List.mem_singleton.mp inNew
    obtain ⟨entry, _, page, linked⟩ := (ok.pieces.fills sid _ member).page lower upper
    obtain rfl := Piece.unlinked rfl linked
    show shapeAt (Pages.insertRange _ _ _ _ _) _ = _
    rw [shapeAt, insertRange_inside lower upper, Option.map_some, page]
    simp [PageData.shape, Piece.data, Piece.linked, Role.inUse, Role.full, Role.header, Role.listed]
  · obtain rfl := List.mem_singleton.mp inNew
    exact ⟨rfl, ⟨_, rfl⟩, positive⟩
  · rw [popped]
    cases ec <;> simp [State.ecOfPopped, usedPieces, Role.inUse]
  · rw [popped]
    simp [State.ecOfPopped, Ne.symm differs]

/-- **`set_range_to_not_used`**. -/
theorem setRangeToNotUsed (ok : OrgOk s layout) (requires : Requires s .setRangeToNotUsed) :
    ∃ layout', OrgOk (setRangeToNotUsed s) layout' := by
  obtain ⟨pageId, ec, popped⟩ := requires
  obtain ⟨sid, x, member, pending⟩ := ok.popped_piece (by rw [popped]; rfl)
  have isPending := pending
  rw [popped] at pending
  obtain ⟨rfl, ⟨header, role⟩, positive⟩ := pending
  obtain ⟨k, c, _⟩ := x
  simp only at role positive
  subst role
  obtain ⟨left, right, swap⟩ := ok.pieces.swap member
  have bounds := ok.pieces.bounds member
  obtain ⟨_, _, head, _⟩ := ok.pieces.head member
  simp only at bounds swap head
  have result : PageOrg.setRangeToNotUsed s = { s with
      pages := Pages.insertRange s.pages sid k (k + c) fun id => { s.page id with
        isUsed := false
        pageHeaderKind := none
        offset := none
        count := none }
      popped := .veryUnready sid k c ec } := by
    unfold PageOrg.setRangeToNotUsed
    rw [popped]
    simp only [head]
    simp [Piece.data]
  rw [result]
  refine ⟨_, ok.restamp swap (tiles_one (x := ⟨k, c, .blank⟩) bounds.1) (by simp [Role.listed])
    ⟨rfl, rfl, rfl, rfl⟩ (fun _ => rfl) (fun id outside => if_neg outside)
    (fun y inNew i lower upper => ?_) (fun y inNew _ => ?_)
    (swap.others_of_pending ok.pieces (List.mem_singleton_self _) isPending)
    (fun _ => ⟨_, List.mem_singleton_self _, rfl, rfl, positive⟩) (by simp) (by simp)
    (kept_counts ?_ fun r differs => ?_) (fun _ _ impossible => by cases impossible)
    fun _ impossible => by cases impossible⟩
  · obtain rfl := List.mem_singleton.mp inNew
    obtain ⟨entry, _, page, linked⟩ := (ok.pieces.fills sid _ member).page lower upper
    obtain rfl := Piece.unlinked rfl linked
    show shapeAt (Pages.insertRange _ _ _ _ _) _ = _
    rw [shapeAt, insertRange_inside lower upper, Option.map_some, page]
    simp [PageData.shape, Piece.data, Piece.linked, Role.inUse, Role.full, Role.header, Role.listed]
  · obtain rfl := List.mem_singleton.mp inNew
    exact ⟨rfl, rfl, positive⟩
  · rw [popped]
    cases ec <;> simp [State.ecOfPopped, usedPieces, Role.inUse]
  · rw [popped]
    simp [State.ecOfPopped, differs, Ne.symm differs]

/-- **`segment_freeing_start`**. -/
theorem segmentFreeingStart (ok : OrgOk s layout) (requires : Requires s (.segmentFreeingStart sid)) :
    ∃ layout', OrgOk (segmentFreeingStart s sid) layout' := by
  obtain ⟨popped, known, unused⟩ := requires
  have none : s.popped.any = false := by rw [popped]; rfl
  obtain ⟨x, member, lower, _⟩ := ok.pieces.covered known (i := 0) (by decide)
  obtain ⟨k, c, role⟩ := x
  obtain rfl : k = 0 := Nat.le_zero.mp lower
  have settled := ok.pieces.settled none member
  obtain rfl : role = .first := by
    rcases ok.pieces.start sid _ member rfl with first | blank
    · exact first
    · simp only at blank settled
      rw [blank] at settled
      cases settled
  obtain ⟨left, right, swap⟩ := ok.pieces.swap member
  have bounds := ok.pieces.bounds member
  obtain ⟨_, _, head, _⟩ := ok.pieces.head member
  simp only at bounds swap head
  have result : PageOrg.segmentFreeingStart s sid = { s with
      pages := Pages.insertRange s.pages sid 0 c fun _ => .unset
      popped := .segmentFreeing sid c } := by
    unfold PageOrg.segmentFreeingStart
    simp only [head]
    simp [Piece.data]
  rw [result]
  refine ⟨_, ok.restamp swap (tiles_one (x := ⟨0, c, .blank⟩) bounds.1) (by simp [Role.listed])
    ⟨rfl, rfl, rfl, rfl⟩ (fun _ => rfl)
    (fun id outside => if_neg fun inside => outside ⟨inside.1, inside.2.1, by omega⟩)
    (fun y inNew i lower upper => ?_) (fun y inNew _ => ?_) (Swap.others_of_none ok.pieces none)
    (fun _ => ⟨_, List.mem_singleton_self _, rfl, rfl⟩) (by simp) (by simp)
    (kept_counts ?_ fun r differs => ?_) (fun r idx freeing => ?_)
    fun _ impossible => by cases impossible⟩
  · obtain rfl := List.mem_singleton.mp inNew
    simp only at lower upper
    show shapeAt (Pages.insertRange _ _ _ _ _) _ = _
    rw [shapeAt, insertRange_inside lower (by omega), Option.map_some]
    simp [PageData.shape, PageData.unset, Piece.data, Piece.linked, Role.inUse, Role.full, Role.header,
      Role.listed]
  · obtain rfl := List.mem_singleton.mp inNew
    exact ⟨rfl, rfl⟩
  · rw [popped]
    simp [State.ecOfPopped, usedPieces, Role.inUse]
  · rw [popped]
    simp [State.ecOfPopped]
  · cases freeing
    obtain ⟨d, before⟩ := Option.isSome_iff_exists.mp known
    have counted := ok.counts sid d before
    rw [State.segment, before] at unused
    simp only [Option.getD_some] at unused
    rw [popped, unused, swap.shape] at counted
    rw [Swap.result_self]
    simp only [usedPieces, State.ecOfPopped, List.countP_append, List.countP_singleton, Role.inUse]
      at counted ⊢
    simp only [Bool.false_eq_true, if_false] at counted ⊢
    omega

/-! ### Counts alone -/

/-- The pages and the popped piece stay, the counts agree with the extra count as before. -/
theorem recount (ok : OrgOk s layout)
    (same : s'.pages = s.pages ∧ s'.unusedDlistHeaders = s.unusedDlistHeaders ∧
      s'.unusedLists = s.unusedLists ∧ s'.usedDlistHeaders = s.usedDlistHeaders ∧
      s'.usedLists = s.usedLists)
    (segments : ∀ r, (s'.segments r).isSome = (s.segments r).isSome)
    (pending : ∀ r x, IsPending s'.popped r x ↔ IsPending s.popped r x)
    (any : s'.popped.any = s.popped.any)
    (counts : ∀ r d', s'.segments r = some d' → ∃ d, s.segments r = some d ∧
      d'.used - State.ecOfPopped s'.popped r = d.used - State.ecOfPopped s.popped r +
        if r = sid then 0 else 0)
    (freeing : ∀ r idx, s'.popped ≠ .segmentFreeing r idx)
    (extra : ∀ r, s'.popped ≠ .extraCount r) : OrgOk s' layout := by
  obtain ⟨pages, unusedHeaders, unusedLists, usedHeaders, usedLists⟩ := same
  have old := ok.pieces
  refine ⟨⟨fun id => ?_, fun id => ?_, fun r known => ?_, fun r unknown => ?_, ?_, fun r known => ?_,
    fun r x member role => (pending r x).mpr (old.pending r x member role), fun yes => ?_, old.first,
    old.start⟩, fun r d' here => ?_, fun r idx impossible => absurd impossible (freeing r idx),
    fun r impossible => absurd impossible (extra r), ok.headers, ?_, ?_⟩
  · rw [pages, segments]
    exact old.domain id
  · rw [segments]
    exact old.nonzero id
  · rw [segments] at known
    exact old.tiles r known
  · refine old.outside r ?_
    have := segments r
    rw [unknown] at this
    simpa using this.symm
  · rw [pages]
    exact old.fills
  · rw [segments] at known
    rw [pages]
    exact old.last r known
  · rw [any] at yes
    obtain ⟨r, x, member, isPending⟩ := old.popped yes
    exact ⟨r, x, member, (pending r x).mpr isPending⟩
  · obtain ⟨d, before, difference⟩ := counts r d' here
    have := ok.counts r d before
    rw [ite_self] at difference
    omega
  · rw [pages, unusedHeaders, unusedLists]
    exact ok.unused
  · rw [pages, usedHeaders, usedLists]
    exact ok.used

/-- **`forget_about_first_page2`**. -/
theorem forgetAboutFirstPage2 (ok : OrgOk s layout) (requires : Requires s .forgetAboutFirstPage2) :
    ∃ layout', OrgOk (forgetAboutFirstPage2 s) layout' := by
  obtain ⟨sid, start, count, popped⟩ := requires
  obtain ⟨r, x, member, pending⟩ := ok.popped_piece (by rw [popped]; rfl)
  rw [popped] at pending
  obtain ⟨rfl, _, _⟩ := pending
  have known := ok.pieces.known member
  have result : PageOrg.forgetAboutFirstPage2 s = { s with
      segments := s.setUsed sid ((s.segment sid).used - 1)
      popped := .veryUnready sid start count false } := by
    unfold PageOrg.forgetAboutFirstPage2
    rw [popped]
  rw [result]
  refine ⟨layout, ok.recount ⟨rfl, rfl, rfl, rfl, rfl⟩ (setUsed_isSome known) (fun r x => ?_)
    ?_ (setUsed_counts known ?_ fun r differs => ?_) (fun _ _ impossible => by cases impossible)
    fun _ impossible => by cases impossible⟩
  · rw [popped]
    exact Iff.rfl
  · rw [popped]
    rfl
  · rw [popped]
    simp [State.ecOfPopped]
  · rw [popped]
    simp [State.ecOfPopped, differs]

/-- **`clear_ec`**. -/
theorem clearEc (ok : OrgOk s layout) (requires : Requires s .clearEc) :
    ∃ layout', OrgOk (clearEc s) layout' := by
  obtain ⟨sid, popped⟩ := requires
  have known := ok.extra sid popped
  have result : PageOrg.clearEc s = { s with
      segments := s.setUsed sid ((s.segment sid).used - 1)
      popped := .no } := by
    unfold PageOrg.clearEc
    rw [popped]
  rw [result]
  refine ⟨layout, ok.recount ⟨rfl, rfl, rfl, rfl, rfl⟩ (setUsed_isSome known) (fun r x => ?_)
    ?_ (setUsed_counts known ?_ fun r differs => ?_) (fun _ _ impossible => by cases impossible)
    fun _ impossible => by cases impossible⟩
  · rw [popped]
    exact Iff.rfl
  · rw [popped]
    rfl
  · rw [popped]
    simp [State.ecOfPopped]
  · rw [popped]
    simp [State.ecOfPopped, differs]

/-! ### Whole segments -/

/-- Giving a segment that had no queued page another layout without one leaves the queues. -/
theorem requeue {pages' : Pages P} {pieces : List Piece} {n : Nat} {headers : List (DlistHeader P)}
    {lists : List (List (PageId P))} {index : Piece → Option Nat}
    (queues : QueuesOk s.pages n headers lists (On index layout))
    (before : ∀ x ∈ layout sid, index x = none) (after : ∀ x ∈ pieces, index x = none)
    (kept : ∀ id : PageId P, id.segmentId ≠ sid → pages' id = s.pages id) :
    QueuesOk pages' n headers lists (On index (Function.update layout sid pieces)) := by
  have away : ∀ i id, On index layout i id → id.segmentId ≠ sid := by
    rintro i id ⟨x, member, _, number⟩ same
    rw [same] at member
    rw [before x member] at number
    cases number
  refine queues.congr (fun i id => ⟨?_, fun on => ?_⟩) (fun i id on => ?_) fun i id on => ?_
  · rintro ⟨x, member, start, number⟩
    by_cases same : id.segmentId = sid
    · rw [same, Function.update_self] at member
      rw [after x member] at number
      cases number
    · rw [Function.update_of_ne same] at member
      exact ⟨x, member, start, number⟩
  · have differs := away i id on
    obtain ⟨x, member, start, number⟩ := on
    exact ⟨x, by rw [Function.update_of_ne differs]; exact member, start, number⟩
  · rw [linksAt, kept id (away i id on), linksAt]
  · rw [kept id (away i id on)]
    exact queues.linked i id on

/-- **`create_segment`**. -/
theorem createSegment (ok : OrgOk s layout) (requires : Requires s (.createSegment sid)) :
    ∃ layout', OrgOk (createSegment s sid) layout' := by
  obtain ⟨popped, unknown, nonzero⟩ := requires
  have old := ok.pieces
  have empty := old.outside sid unknown
  have none : s.popped.any = false := by rw [popped]; rfl
  let blank : List Piece := [⟨0, 512, .blank⟩]
  have other : ∀ r, r ≠ sid → Function.update layout sid blank r = layout r :=
    fun r differs => Function.update_of_ne differs _ _
  have self : Function.update layout sid blank sid = blank := Function.update_self _ _ _
  have segments : ∀ r, (PageOrg.createSegment s sid).segments r = if r = sid then some ⟨0⟩ else s.segments r := by
    intro r
    show Function.update s.segments sid (some ⟨0⟩) r = _
    by_cases same : r = sid
    · rw [same, Function.update_self, if_pos rfl]
    · rw [Function.update_of_ne same, if_neg same]
  have kept : ∀ id : PageId P, id.segmentId ≠ sid → (PageOrg.createSegment s sid).pages id = s.pages id :=
    fun id differs => if_neg fun inside => differs inside.1
  have fresh : ∀ i, i < 513 → (PageOrg.createSegment s sid).pages ⟨sid, i⟩ = some .unset :=
    fun i small => if_pos ⟨rfl, Nat.zero_le i, small⟩
  refine ⟨Function.update layout sid blank, ⟨⟨fun id => ?_, fun r known => ?_, fun r known => ?_,
    fun r unknown => ?_, fun r x member => ?_, fun r known => ?_, fun r x member role => ?_, fun _ => ?_,
    fun r x member role => ?_, fun r x member start => ?_⟩, fun r d here => ?_,
    (fun _ _ impossible => by cases impossible), (fun _ impossible => by cases impossible),
    fun r x header full member role => ?_, ?_, ?_⟩⟩
  · obtain ⟨r, i⟩ := id
    simp only [segments]
    by_cases same : r = sid
    · subst same
      rw [if_pos rfl]
      by_cases small : i < 513
      · rw [fresh i small]
        simp
        omega
      · have : (PageOrg.createSegment s r).pages ⟨r, i⟩ = s.pages ⟨r, i⟩ :=
          if_neg fun inside => small inside.2.2
        rw [this, old.domain]
        simp only [unknown]
        simp
        omega
    · rw [if_neg same, kept _ same]
      exact old.domain ⟨r, i⟩
  · rw [segments] at known
    by_cases same : r = sid
    · rw [same]
      exact nonzero
    · rw [if_neg same] at known
      exact old.nonzero r known
  · rw [segments] at known
    by_cases same : r = sid
    · rw [same, self]
      exact ⟨rfl, by decide, rfl⟩
    · rw [if_neg same] at known
      rw [other r same]
      exact old.tiles r known
  · rw [segments] at unknown
    by_cases same : r = sid
    · rw [if_pos same] at unknown
      cases unknown
    · rw [if_neg same] at unknown
      rw [other r same]
      exact old.outside r unknown
  · by_cases same : r = sid
    · rw [same, self] at member
      obtain rfl := List.mem_singleton.mp member
      rw [same]
      intro i _ upper
      rw [shapeAt, fresh i (by simp only at upper; omega)]
      simp [PageData.shape, PageData.unset, Piece.data, Piece.linked, Role.inUse, Role.full, Role.header,
        Role.listed]
    · rw [other r same] at member
      exact (old.fills r x member).congr fun i _ _ => by rw [shapeAt, kept _ same, shapeAt]
  · rw [segments] at known
    by_cases same : r = sid
    · rw [same, shapeAt, fresh 512 (by decide)]
      rfl
    · rw [if_neg same] at known
      rw [shapeAt, kept _ same]
      exact old.last r known
  · by_cases same : r = sid
    · rw [same, self] at member
      obtain rfl := List.mem_singleton.mp member
      exact ⟨same.symm, rfl⟩
    · rw [other r same] at member
      rw [old.settled none member] at role
      cases role
  · exact ⟨sid, ⟨0, 512, .blank⟩, by rw [self]; exact List.mem_singleton_self _, rfl, rfl⟩
  · by_cases same : r = sid
    · rw [same, self] at member
      obtain rfl := List.mem_singleton.mp member
      cases role
    · rw [other r same] at member
      exact old.first r x member role
  · by_cases same : r = sid
    · rw [same, self] at member
      obtain rfl := List.mem_singleton.mp member
      exact .inr rfl
    · rw [other r same] at member
      exact old.start r x member start
  · rw [segments] at here
    by_cases same : r = sid
    · rw [if_pos same] at here
      cases here
      rw [same, self]
      rfl
    · rw [if_neg same] at here
      rw [other r same, ok.counts r d here, popped]
      rfl
  · by_cases same : r = sid
    · rw [same, self] at member
      obtain rfl := List.mem_singleton.mp member
      cases role
    · rw [other r same] at member
      exact ok.headers r x header full member role
  · exact requeue ok.unused (by simp [empty]) (by simp [blank, unusedIndex]) kept
  · exact requeue ok.used (by simp [empty]) (by simp [blank, usedIndex]) kept

/-- **`segment_freeing_finish`**. -/
theorem segmentFreeingFinish (ok : OrgOk s layout) (requires : Requires s .segmentFreeingFinish) :
    ∃ layout', OrgOk (segmentFreeingFinish s) layout' := by
  obtain ⟨sid, popped⟩ := requires
  have old := ok.pieces
  obtain ⟨r, x, member, pending⟩ := ok.popped_piece (by rw [popped]; rfl)
  have isPending := pending
  rw [popped] at pending
  obtain ⟨rfl, rfl⟩ := pending
  -- the blank piece covers the segment, so it is the only one
  have whole : ∀ y ∈ layout sid, y = ⟨0, 512, .blank⟩ := by
    intro y other
    have bounds := old.bounds other
    exact (old.tiles sid (old.known member)).eq_of_overlap other member (x := y.start) (by omega)
      ⟨Nat.zero_le _, by simp only; omega⟩
  have plain : ∀ r y, y ∈ layout r → r ≠ sid → y.role.pending = false := by
    intro r y other differs
    rw [Bool.eq_false_iff]
    intro role
    exact differs (old.only_pending member isPending other role).1
  have result : PageOrg.segmentFreeingFinish s = { s with
      segments := Function.update s.segments sid none
      popped := .no
      pages := fun id => if id.segmentId = sid ∧ id.idx < 513 then none else s.pages id } := by
    unfold PageOrg.segmentFreeingFinish
    rw [popped]
    rfl
  rw [result]
  have other : ∀ r, r ≠ sid → Function.update layout sid [] r = layout r :=
    fun r differs => Function.update_of_ne differs _ _
  have self : Function.update layout sid [] sid = [] := Function.update_self _ _ _
  have segments : ∀ r, Function.update s.segments sid none r = if r = sid then none else s.segments r := by
    intro r
    by_cases same : r = sid
    · rw [same, Function.update_self, if_pos rfl]
    · rw [Function.update_of_ne same, if_neg same]
  have kept : ∀ id : PageId P, id.segmentId ≠ sid →
      (if id.segmentId = sid ∧ id.idx < 513 then none else s.pages id) = s.pages id :=
    fun id differs => if_neg fun inside => differs inside.1
  have absent : ∀ {r : SegmentId P} {y : Piece}, y ∈ Function.update layout sid [] r →
      r ≠ sid ∧ y ∈ layout r := by
    intro r y member
    by_cases same : r = sid
    · rw [same, self] at member
      cases member
    · rw [other r same] at member
      exact ⟨same, member⟩
  refine ⟨Function.update layout sid [], ⟨⟨fun id => ?_, fun r known => ?_, fun r known => ?_,
    fun r unknown => ?_, fun r y inside => ?_, fun r known => ?_, fun r y inside role => ?_,
    (fun impossible => by cases impossible), fun r y inside role => ?_, fun r y inside start => ?_⟩,
    fun r d here => ?_, (fun _ _ impossible => by cases impossible),
    (fun _ impossible => by cases impossible), fun r y header full inside role => ?_, ?_, ?_⟩⟩
  · obtain ⟨r, i⟩ := id
    simp only [segments]
    by_cases same : r = sid
    · subst same
      rw [if_pos rfl]
      by_cases small : i < 513
      · rw [if_pos ⟨rfl, small⟩]
        simp
      · rw [if_neg fun inside => small inside.2, old.domain]
        simp
        omega
    · rw [if_neg same, if_neg fun inside => same inside.1]
      exact old.domain ⟨r, i⟩
  · simp only [segments] at known
    by_cases same : r = sid
    · rw [if_pos same] at known
      cases known
    · rw [if_neg same] at known
      exact old.nonzero r known
  · simp only [segments] at known
    by_cases same : r = sid
    · rw [if_pos same] at known
      cases known
    · rw [if_neg same] at known
      rw [other r same]
      exact old.tiles r known
  · by_cases same : r = sid
    · rw [same, self]
    · simp only [segments, if_neg same] at unknown
      rw [other r same]
      exact old.outside r unknown
  · obtain ⟨differs, inside⟩ := absent inside
    exact (old.fills r y inside).congr fun i _ _ => congrArg _ (kept ⟨r, i⟩ differs)
  · simp only [segments] at known
    by_cases same : r = sid
    · rw [if_pos same] at known
      cases known
    · rw [if_neg same] at known
      exact (congrArg _ (kept ⟨r, 512⟩ same)).trans (old.last r known)
  · obtain ⟨differs, inside⟩ := absent inside
    rw [plain r y inside differs] at role
    cases role
  · exact old.first r y (absent inside).2 role
  · exact old.start r y (absent inside).2 start
  · simp only [segments] at here
    by_cases same : r = sid
    · rw [if_pos same] at here
      cases here
    · rw [if_neg same] at here
      rw [other r same, ok.counts r d here, popped]
      rfl
  · exact ok.headers r y header full (absent inside).2 role
  · refine requeue ok.unused (fun y inside => ?_) (by simp) kept
    rw [whole y inside]
    rfl
  · refine requeue ok.used (fun y inside => ?_) (by simp) kept
    rw [whole y inside]
    rfl

end OrgOk

end VerusMimalloc.PageOrg
