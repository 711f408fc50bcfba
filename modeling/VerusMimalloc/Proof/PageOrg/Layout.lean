/-
**The layout behind the page organization machine.**

A segment is cut into pieces, each a run of slices with one role; the role and the bounds of a piece
fix all data of its slices but the links of its first one.

* `Piece.data`: the data of a slice of a piece;
* `IsPending`: the one piece that the popped status speaks of;
* `LayoutOk`: the pages of the machine are the slices of the pieces of a tiling;
* `LayoutOk.replace`: other pieces in the place of some.
-/

import VerusMimalloc.Model.PageOrg
import VerusMimalloc.Library.Tiling

namespace VerusMimalloc.PageOrg

open Library

variable {P : Type}

/-! ### Pieces -/

/-- The roles of a run of slices. -/
inductive Role where
  /-- The slices of the segment header. -/
  | first
  | unused
  | used (header : PageHeaderKind) (full : Bool)
  /-- Popped, with its count and offsets set. -/
  | ready
  /-- Popped, with everything set to used. -/
  | detached (header : PageHeaderKind)
  /-- No data at all. -/
  | blank
  deriving DecidableEq

namespace Role

def header : Role → Option PageHeaderKind
  | used header _ | detached header => some header
  | _ => none

def full : Role → Option Bool
  | used _ full => some full
  | _ => none

def inUse : Role → Bool
  | used _ _ | detached _ => true
  | _ => false

/-- The first slice is on a queue. -/
def listed : Role → Bool
  | used _ _ | unused => true
  | _ => false

/-- Only the popped piece has such a role. -/
def pending : Role → Bool
  | ready | detached _ | blank => true
  | _ => false

end Role

structure Piece where
  start : Nat
  count : Nat
  role : Role
  deriving DecidableEq

namespace Piece

/-- The data of slice `i`, with the given links. -/
def data (x : Piece) (i : Nat) (entry : Option (DlistEntry P)) : PageData P where
  dlistEntry := entry
  count := if i = x.start ∧ x.role ≠ .blank then some x.count else none
  offset := match x.role with
    | .blank => none
    | .unused => if i = x.start ∨ i = x.start + x.count - 1 then some (i - x.start) else none
    | _ => some (i - x.start)
  isUsed := x.role.inUse
  full := if i = x.start then x.role.full else none
  pageHeaderKind := if i = x.start then x.role.header else none

/-- Slice `i` has links. -/
def linked (x : Piece) (i : Nat) : Bool := decide (i = x.start) && x.role.listed

end Piece

theorem tiles_one {x : Piece} (positive : 0 < x.count) :
    Tiles Piece.start Piece.count x.start [x] (x.start + x.count) :=
  Tiles.singleton positive

/-- A slice's data without its links, and whether it has links. -/
def PageData.shape (d : PageData P) : PageData P × Bool :=
  ({ d with dlistEntry := none }, d.dlistEntry.isSome)

def shapeAt (pages : Pages P) (id : PageId P) : Option (PageData P × Bool) :=
  (pages id).map PageData.shape

/-- The slices of a piece hold what its role says. -/
def Fills (pages : Pages P) (segmentId : SegmentId P) (x : Piece) : Prop :=
  ∀ i, x.start ≤ i → i < x.start + x.count →
    shapeAt pages ⟨segmentId, i⟩ = some (x.data i none, x.linked i)

theorem Fills.congr {pages pages' : Pages P} {segmentId : SegmentId P} {x : Piece}
    (fills : Fills pages segmentId x)
    (same : ∀ i, x.start ≤ i → i < x.start + x.count →
      shapeAt pages' ⟨segmentId, i⟩ = shapeAt pages ⟨segmentId, i⟩) : Fills pages' segmentId x :=
  fun i lower upper => (same i lower upper).trans (fills i lower upper)

theorem shapeAt_eq_some {pages : Pages P} {id : PageId P} {d : PageData P} {linked : Bool}
    (shape : shapeAt pages id = some (d, linked)) :
    ∃ entry, pages id = some { d with dlistEntry := entry } ∧ entry.isSome = linked := by
  unfold shapeAt PageData.shape at shape
  cases here : pages id with
  | none =>
      rw [here] at shape
      cases shape
  | some found =>
      rw [here] at shape
      cases shape
      exact ⟨found.dlistEntry, rfl, rfl⟩

theorem shapeAt_isSome (pages : Pages P) (id : PageId P) :
    (shapeAt pages id).isSome = (pages id).isSome := Option.isSome_map

/-- **What a slice of a piece reads.** -/
theorem Fills.page {s : State P} {segmentId : SegmentId P} {x : Piece} {i : Nat}
    (fills : Fills s.pages segmentId x) (lower : x.start ≤ i) (upper : i < x.start + x.count) :
    ∃ entry, s.pages ⟨segmentId, i⟩ = some (x.data i entry) ∧
      s.page ⟨segmentId, i⟩ = x.data i entry ∧ entry.isSome = x.linked i := by
  obtain ⟨entry, here, linked⟩ := shapeAt_eq_some (fills i lower upper)
  exact ⟨entry, here, by rw [State.page, here]; rfl, linked⟩

/-! ### The popped piece -/

/-- The popped status speaks of piece `x` of the segment. -/
def IsPending (popped : Popped P) (segmentId : SegmentId P) (x : Piece) : Prop :=
  match popped with
  | .no | .extraCount _ => False
  | .ready id _ => id = ⟨segmentId, x.start⟩ ∧ x.role = .ready ∧ 0 < x.start
  | .used id _ => id = ⟨segmentId, x.start⟩ ∧ (∃ header, x.role = .detached header) ∧ 0 < x.start
  | .veryUnready sid start count _ => sid = segmentId ∧ x = ⟨start, count, .blank⟩ ∧ 0 < start
  | .segmentCreating sid => sid = segmentId ∧ x = ⟨0, 512, .blank⟩
  | .segmentFreeing sid idx => sid = segmentId ∧ x = ⟨0, idx, .blank⟩

/-- There is a popped piece. -/
def Popped.any : Popped P → Bool
  | .no | .extraCount _ => false
  | _ => true

theorem IsPending.any {popped : Popped P} {segmentId : SegmentId P} {x : Piece}
    (pending : IsPending popped segmentId x) : popped.any = true := by
  cases popped with
  | no => exact pending.elim
  | extraCount => exact pending.elim
  | _ => rfl

theorem IsPending.role {popped : Popped P} {segmentId : SegmentId P} {x : Piece}
    (pending : IsPending popped segmentId x) : x.role.pending = true := by
  cases popped with
  | no => exact pending.elim
  | extraCount => exact pending.elim
  | ready id ec =>
      rw [pending.2.1]
      rfl
  | used id ec =>
      obtain ⟨_, ⟨header, role⟩, _⟩ := pending
      rw [role]
      rfl
  | veryUnready sid start count ec =>
      obtain ⟨_, rfl, _⟩ := pending
      rfl
  | segmentCreating sid =>
      obtain ⟨_, rfl⟩ := pending
      rfl
  | segmentFreeing sid idx =>
      obtain ⟨_, rfl⟩ := pending
      rfl

theorem IsPending.unique {popped : Popped P} {r r' : SegmentId P} {x y : Piece}
    (first : IsPending popped r x) (second : IsPending popped r' y) : r = r' ∧ x.start = y.start := by
  cases popped with
  | no => exact first.elim
  | extraCount => exact first.elim
  | ready id ec =>
      have same := first.1.symm.trans second.1
      exact ⟨congrArg PageId.segmentId same, congrArg PageId.idx same⟩
  | used id ec =>
      have same := first.1.symm.trans second.1
      exact ⟨congrArg PageId.segmentId same, congrArg PageId.idx same⟩
  | veryUnready sid start count ec =>
      obtain ⟨rfl, rfl, _⟩ := first
      obtain ⟨rfl, rfl, _⟩ := second
      exact ⟨rfl, rfl⟩
  | segmentCreating sid =>
      obtain ⟨rfl, rfl⟩ := first
      obtain ⟨rfl, rfl⟩ := second
      exact ⟨rfl, rfl⟩
  | segmentFreeing sid idx =>
      obtain ⟨rfl, rfl⟩ := first
      obtain ⟨rfl, rfl⟩ := second
      exact ⟨rfl, rfl⟩

/-! ### Layouts -/

abbrev Layout (P : Type) := SegmentId P → List Piece

/-- **The pages are the slices of the pieces**, and one piece at most is out of place. -/
structure LayoutOk (s : State P) (layout : Layout P) : Prop where
  domain : ∀ id, (s.pages id).isSome ↔ (s.segments id.segmentId).isSome ∧ id.idx ≤ 512
  nonzero : ∀ id, (s.segments id).isSome → segmentStart id ≠ 0
  tiles : ∀ r, (s.segments r).isSome → Tiles Piece.start Piece.count 0 (layout r) 512
  outside : ∀ r, s.segments r = none → layout r = []
  fills : ∀ r, ∀ x ∈ layout r, Fills s.pages r x
  last : ∀ r, (s.segments r).isSome → shapeAt s.pages ⟨r, 512⟩ = some (.unset, false)
  pending : ∀ r, ∀ x ∈ layout r, x.role.pending = true → IsPending s.popped r x
  popped : s.popped.any = true → ∃ r, ∃ x ∈ layout r, IsPending s.popped r x
  first : ∀ r, ∀ x ∈ layout r, x.role = .first → x.start = 0
  start : ∀ r, ∀ x ∈ layout r, x.start = 0 → x.role = .first ∨ x.role = .blank

namespace LayoutOk

variable {s s' : State P} {layout : Layout P} {r sid : SegmentId P} {x y : Piece}

theorem known (ok : LayoutOk s layout) (member : x ∈ layout r) : (s.segments r).isSome = true := by
  by_contra unknown
  rw [ok.outside r (by simpa using unknown)] at member
  cases member

theorem bounds (ok : LayoutOk s layout) (member : x ∈ layout r) :
    0 < x.count ∧ x.start + x.count ≤ 512 :=
  ((ok.tiles r (ok.known member)).bounds member).2

/-- The data of the first slice of a piece. -/
theorem head (ok : LayoutOk s layout) (member : x ∈ layout r) :
    ∃ entry, s.pages ⟨r, x.start⟩ = some (x.data x.start entry) ∧
      s.page ⟨r, x.start⟩ = x.data x.start entry ∧ entry.isSome = x.role.listed := by
  have positive := (ok.bounds member).1
  obtain ⟨entry, here, page, linked⟩ := (ok.fills r x member).page (i := x.start) (by omega) (by omega)
  exact ⟨entry, here, page, by rw [linked, Piece.linked, decide_eq_true rfl, Bool.true_and]⟩

/-- Pieces that start at the same slice are the same. -/
theorem eq_of_start (ok : LayoutOk s layout) (first : x ∈ layout r) (second : y ∈ layout r)
    (same : x.start = y.start) : x = y :=
  (ok.tiles r (ok.known first)).eq_of_start_eq first second same

/-- Every slice of a segment is in a piece. -/
theorem covered (ok : LayoutOk s layout) (known : (s.segments r).isSome = true) {i : Nat}
    (inside : i < 512) : ∃ x ∈ layout r, x.start ≤ i ∧ i < x.start + x.count :=
  (ok.tiles r known).exists_cover (Nat.zero_le i) inside

/-- The piece that the popped status speaks of is the only one of such a role. -/
theorem only_pending (ok : LayoutOk s layout) (member : x ∈ layout r)
    (pending : IsPending s.popped r x) (other : y ∈ layout sid) (role : y.role.pending = true) :
    sid = r ∧ y = x := by
  obtain ⟨rfl, start⟩ := (ok.pending sid y other role).unique pending
  exact ⟨rfl, ok.eq_of_start other member start⟩

/-- **Replacing pieces** by pieces that tile the same slices. -/
theorem replace [DecidableEq P] (ok : LayoutOk s layout) {left old new right : List Piece} {a b : Nat}
    (shape : layout sid = left ++ (old ++ right)) (known : (s.segments sid).isSome = true)
    (before : Tiles Piece.start Piece.count 0 left a)
    (after : Tiles Piece.start Piece.count b right 512)
    (newTiles : Tiles Piece.start Piece.count a new b)
    (segments : ∀ id, (s'.segments id).isSome = (s.segments id).isSome)
    (kept : ∀ id : PageId P, ¬(id.segmentId = sid ∧ a ≤ id.idx ∧ id.idx < b) →
      shapeAt s'.pages id = shapeAt s.pages id)
    (fills : ∀ x ∈ new, Fills s'.pages sid x)
    (pending : ∀ x ∈ new, x.role.pending = true → IsPending s'.popped sid x)
    (others : ∀ id y, y ∈ layout id → (id = sid → y ∈ left ∨ y ∈ right) → y.role.pending = false)
    (popped : s'.popped.any = true → ∃ x ∈ new, IsPending s'.popped sid x)
    (first : ∀ x ∈ new, x.role = .first → x.start = 0)
    (start : ∀ x ∈ new, x.start = 0 → x.role = .first ∨ x.role = .blank) :
    LayoutOk s' (Function.update layout sid (left ++ (new ++ right))) := by
  have length : b ≤ 512 := after.le
  have same : ∀ id, id ≠ sid → Function.update layout sid (left ++ (new ++ right)) id = layout id :=
    fun id differs => Function.update_of_ne differs _ _
  have inNew : ∀ y, y ∈ left ++ (new ++ right) → y ∈ new ∨ (y ∈ left ∨ y ∈ right) := by
    intro y member
    simp only [List.mem_append] at member
    tauto
  have inOld : ∀ y, (y ∈ left ∨ y ∈ right) → y ∈ layout sid := by
    intro y member
    rw [shape]
    simp only [List.mem_append]
    tauto
  have clear : ∀ y, (y ∈ left ∨ y ∈ right) → y.start + y.count ≤ a ∨ b ≤ y.start := by
    rintro y (member | member)
    · exact .inl (before.bounds member).2.2
    · exact .inr (after.bounds member).1
  have whole : Tiles Piece.start Piece.count 0 (left ++ (new ++ right)) 512 :=
    Tiles.append.mpr ⟨a, before, Tiles.append.mpr ⟨b, newTiles, after⟩⟩
  have some_of_shape : ∀ id : PageId P, (s'.pages id).isSome ↔
      (s.segments id.segmentId).isSome ∧ id.idx ≤ 512 := by
    intro id
    by_cases inside : id.segmentId = sid ∧ a ≤ id.idx ∧ id.idx < b
    · obtain ⟨rfl, lower, upper⟩ := inside
      obtain ⟨x, member, covers⟩ := newTiles.exists_cover lower upper
      have here := fills x member id.idx covers.1 covers.2
      have : (s'.pages id).isSome = true := by
        rw [← shapeAt_isSome, here]
        rfl
      exact ⟨fun _ => ⟨known, by omega⟩, fun _ => this⟩
    · rw [← shapeAt_isSome, kept id inside, shapeAt_isSome]
      exact ok.domain id
  refine ⟨fun id => ?_, fun id => ?_, fun id yes => ?_, fun id no => ?_, fun id y member => ?_,
    fun id yes => ?_, fun id y member role => ?_, fun any => ?_, fun id y member role => ?_,
    fun id y member zero => ?_⟩
  · rw [some_of_shape, segments]
  · rw [segments]
    exact ok.nonzero id
  · rw [segments] at yes
    by_cases here : id = sid
    · subst here
      rw [Function.update_self]
      exact whole
    · rw [same id here]
      exact ok.tiles id yes
  · by_cases here : id = sid
    · subst here
      rw [← segments, no] at known
      cases known
    · rw [same id here]
      refine ok.outside id ?_
      have := segments id
      rw [no] at this
      simpa using this.symm
  · by_cases here : id = sid
    · subst here
      rw [Function.update_self] at member
      rcases inNew y member with fresh | old
      · exact fills y fresh
      · refine (ok.fills id y (inOld y old)).congr fun i lower upper => kept _ ?_
        have := clear y old
        simp only [not_and]
        omega
    · rw [same id here] at member
      exact (ok.fills id y member).congr fun i _ _ => kept _ fun inside => here inside.1
  · rw [segments] at yes
    rw [kept]
    · exact ok.last id yes
    · simp only [not_and]
      omega
  · by_cases here : id = sid
    · subst here
      rw [Function.update_self] at member
      rcases inNew y member with fresh | old
      · exact pending y fresh role
      · rw [others id y (inOld y old) fun _ => old] at role
        cases role
    · rw [same id here] at member
      rw [others id y member fun equal => absurd equal here] at role
      cases role
  · obtain ⟨x, member, isPending⟩ := popped any
    refine ⟨sid, x, ?_, isPending⟩
    rw [Function.update_self]
    simp [member]
  · by_cases here : id = sid
    · subst here
      rw [Function.update_self] at member
      rcases inNew y member with fresh | old
      · exact first y fresh role
      · exact ok.first id y (inOld y old) role
    · rw [same id here] at member
      exact ok.first id y member role
  · by_cases here : id = sid
    · subst here
      rw [Function.update_self] at member
      rcases inNew y member with fresh | old
      · exact start y fresh zero
      · exact ok.start id y (inOld y old) zero
    · rw [same id here] at member
      exact ok.start id y member zero

end LayoutOk

end VerusMimalloc.PageOrg
