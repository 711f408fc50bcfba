/-
**Consecutive pieces.**

`Tiles start len a pieces b` says that the pieces, each with its start and its length, follow one
another without gap or overlap from `a` to `b`.

* `Tiles.append`, `Tiles.split`: cutting a tiling between two pieces;
* `Tiles.replace`: putting other pieces in the place of one;
* `Tiles.eq_of_overlap`, `Tiles.exists_cover`: every position is in exactly one piece;
* `Tiles.exists_next`, `Tiles.exists_prev`: the neighbours of a piece;
* `Tiles.adjacent`, `Tiles.merge`: joining two neighbours.
-/

import Mathlib.Data.List.Basic
import Mathlib.Tactic.Linarith

namespace Library

variable {π : Type*} {start len : π → Nat}

/-- The pieces follow one another from `a` to `b`. -/
def Tiles (start len : π → Nat) : Nat → List π → Nat → Prop
  | a, [], b => a = b
  | a, piece :: pieces, b =>
      start piece = a ∧ 0 < len piece ∧ Tiles start len (a + len piece) pieces b

namespace Tiles

variable {a b c : Nat} {pieces left right m : List π} {piece other : π}

theorem append : Tiles start len a (left ++ right) c ↔
    ∃ b, Tiles start len a left b ∧ Tiles start len b right c := by
  induction left generalizing a with
  | nil => simp [Tiles]
  | cons head tail ih => simp only [List.cons_append, Tiles, ih]; tauto

theorem le (tiles : Tiles start len a pieces b) : a ≤ b := by
  induction pieces generalizing a with
  | nil => exact tiles.le
  | cons head tail ih => exact (Nat.le_add_right _ _).trans (ih tiles.2.2)

/-- A piece lies between the ends of the tiling. -/
theorem bounds (tiles : Tiles start len a pieces b) (member : piece ∈ pieces) :
    a ≤ start piece ∧ 0 < len piece ∧ start piece + len piece ≤ b := by
  induction pieces generalizing a with
  | nil => cases member
  | cons head tail ih =>
      obtain ⟨rfl, positive, rest⟩ := tiles
      rcases List.mem_cons.mp member with rfl | inTail
      · exact ⟨Nat.le_refl _, positive, rest.le⟩
      · obtain ⟨lower, more, upper⟩ := ih rest inTail
        exact ⟨by omega, more, upper⟩

/-- **Cutting at a piece.** -/
theorem split (tiles : Tiles start len a (left ++ piece :: right) c) :
    Tiles start len a left (start piece) ∧ 0 < len piece ∧
      Tiles start len (start piece + len piece) right c := by
  obtain ⟨b, front, rfl, positive, back⟩ := append.mp tiles
  exact ⟨front, positive, back⟩

/-- **Replacing a piece** by pieces that tile the same range. -/
theorem replace (tiles : Tiles start len a (left ++ piece :: right) c)
    (inner : Tiles start len (start piece) m (start piece + len piece)) :
    Tiles start len a (left ++ (m ++ right)) c := by
  obtain ⟨front, _, back⟩ := tiles.split
  exact append.mpr ⟨_, front, append.mpr ⟨_, inner, back⟩⟩

theorem singleton (positive : 0 < len piece) :
    Tiles start len (start piece) [piece] (start piece + len piece) :=
  ⟨rfl, positive, rfl⟩

/-- Two pieces that share a position are the same piece. -/
theorem eq_of_overlap (tiles : Tiles start len a pieces b) (first : piece ∈ pieces)
    (second : other ∈ pieces) {x : Nat} (inFirst : start piece ≤ x ∧ x < start piece + len piece)
    (inSecond : start other ≤ x ∧ x < start other + len other) : piece = other := by
  induction pieces generalizing a with
  | nil => cases first
  | cons head tail ih =>
      obtain ⟨rfl, positive, rest⟩ := tiles
      rcases List.mem_cons.mp first with rfl | firstTail
      · rcases List.mem_cons.mp second with rfl | secondTail
        · rfl
        · have := (rest.bounds secondTail).1
          omega
      · rcases List.mem_cons.mp second with rfl | secondTail
        · have := (rest.bounds firstTail).1
          omega
        · exact ih rest firstTail secondTail

theorem eq_of_start_eq (tiles : Tiles start len a pieces b) (first : piece ∈ pieces)
    (second : other ∈ pieces) (same : start piece = start other) : piece = other :=
  tiles.eq_of_overlap first second (x := start piece)
    ⟨Nat.le_refl _, by have := (tiles.bounds first).2.1; omega⟩
    ⟨same.ge, by have := (tiles.bounds second).2.1; omega⟩

/-- Every position between the ends is in a piece. -/
theorem exists_cover (tiles : Tiles start len a pieces b) {x : Nat} (lower : a ≤ x) (upper : x < b) :
    ∃ piece ∈ pieces, start piece ≤ x ∧ x < start piece + len piece := by
  induction pieces generalizing a with
  | nil =>
      cases tiles
      omega
  | cons head tail ih =>
      obtain ⟨rfl, positive, rest⟩ := tiles
      by_cases inside : x < start head + len head
      · exact ⟨head, List.mem_cons_self, lower, inside⟩
      · obtain ⟨piece, member, covers⟩ := ih rest (Nat.le_of_not_lt inside)
        exact ⟨piece, List.mem_cons_of_mem _ member, covers⟩

/-- No piece is repeated. -/
theorem nodup (tiles : Tiles start len a pieces b) : pieces.Nodup := by
  induction pieces generalizing a with
  | nil => exact List.nodup_nil
  | cons head tail ih =>
      obtain ⟨rfl, positive, rest⟩ := tiles
      refine List.nodup_cons.mpr ⟨fun member => ?_, ih rest⟩
      have := (rest.bounds member).1
      omega

/-- The pieces before and after a piece keep clear of it. -/
theorem clear_of_split (tiles : Tiles start len a (left ++ piece :: right) c) :
    (∀ other ∈ left, start other + len other ≤ start piece) ∧
      ∀ other ∈ right, start piece + len piece ≤ start other := by
  obtain ⟨front, _, back⟩ := tiles.split
  exact ⟨fun _ member => (front.bounds member).2.2, fun _ member => (back.bounds member).1⟩

/-- A piece that does not end the tiling has a piece after it. -/
theorem exists_next (tiles : Tiles start len a pieces b) (member : piece ∈ pieces)
    (inner : start piece + len piece < b) :
    ∃ other ∈ pieces, start other = start piece + len piece := by
  have bounds := tiles.bounds member
  obtain ⟨other, otherMember, lower, upper⟩ :=
    tiles.exists_cover (x := start piece + len piece) (by omega) inner
  refine ⟨other, otherMember, ?_⟩
  by_contra differs
  have same := tiles.eq_of_overlap member otherMember (x := start piece + len piece - 1)
    (by omega) (by omega)
  subst same
  omega

/-- A piece that does not start the tiling has a piece before it. -/
theorem exists_prev (tiles : Tiles start len a pieces b) (member : piece ∈ pieces)
    (inner : a < start piece) : ∃ other ∈ pieces, start other + len other = start piece := by
  have bounds := tiles.bounds member
  obtain ⟨other, otherMember, lower, upper⟩ :=
    tiles.exists_cover (x := start piece - 1) (by omega) (by omega)
  refine ⟨other, otherMember, ?_⟩
  by_contra differs
  have same := tiles.eq_of_overlap member otherMember (x := start piece)
    ⟨Nat.le_refl _, by omega⟩ (by omega)
  subst same
  omega

/-- Neighbours stand next to each other in the list. -/
theorem adjacent (tiles : Tiles start len a pieces b) (first : piece ∈ pieces)
    (second : other ∈ pieces) (touch : start piece + len piece = start other) :
    ∃ left right, pieces = left ++ piece :: other :: right := by
  obtain ⟨left, rest, rfl⟩ := List.append_of_mem first
  obtain ⟨front, positive, back⟩ := tiles.split
  cases rest with
  | nil =>
      have := (tiles.bounds second).2
      have : start piece + len piece = b := back
      omega
  | cons head right =>
      obtain ⟨atStart, _, _⟩ := back
      have same : head = other :=
        tiles.eq_of_start_eq (by simp) second (atStart.trans touch)
      exact ⟨left, right, by rw [same]⟩

/-- **Joining two neighbours.** -/
theorem merge {joined : π} (tiles : Tiles start len a (left ++ piece :: other :: right) c)
    (sameStart : start joined = start piece) (sum : len joined = len piece + len other) :
    Tiles start len a (left ++ joined :: right) c := by
  obtain ⟨front, positive, _, otherPositive, back⟩ := tiles.split
  refine append.mpr ⟨_, front, sameStart, by omega, ?_⟩
  rw [sum, ← Nat.add_assoc]
  exact back

end Tiles

end Library
