/-
**Doubly linked lists in a pointer store.**

Nodes are values of a type with a null value `nil`; `prev` and `next` are the link fields of all
nodes. `IsDList prev next nil first last nodes` says that the list with the given head fields
consists of exactly the nodes `nodes`, in this order.

* `IsDList.remove`: unlinking a node removes it from the sequence;
* `IsDList.pushFront`, `IsDList.pushBack`: linking a fresh node at an end adds it there;
* `IsDList.congr`: only the links of the nodes on the list matter;
* `IsDList.unique`: the links determine the sequence.
-/

import Mathlib.Data.List.Basic
import Mathlib.Data.List.Nodup

namespace Library

variable {α : Type*}

/-- The links of a segment of a list, from the node `before` it to the node `after` it. -/
def Linked (prev next : α → α) : α → List α → α → Prop
  | _, [], _ => True
  | before, node :: nodes, after =>
      prev node = before ∧ next node = nodes.head?.getD after ∧
        Linked prev next node nodes after

namespace Linked

variable {prev next prev' next' : α → α} {before after : α} {nodes left right : List α} {node : α}

theorem append : Linked prev next before (left ++ right) after ↔
    Linked prev next before left (right.head?.getD after) ∧
      Linked prev next (left.getLast?.getD before) right after := by
  induction left generalizing before with
  | nil => simp [Linked]
  | cons head tail ih =>
      have nextSame : ((tail ++ right).head?.getD after) = tail.head?.getD (right.head?.getD after) := by
        cases tail <;> rfl
      have lastSame : ((head :: tail).getLast?.getD before) = tail.getLast?.getD head := by
        cases tail with
        | nil => rfl
        | cons second rest => simp [List.getLast?_cons]
      simp only [List.cons_append, Linked, ih, nextSame, lastSame, and_assoc]

theorem congr (linked : Linked prev next before nodes after)
    (samePrev : ∀ node ∈ nodes, prev' node = prev node)
    (sameNext : ∀ node ∈ nodes, next' node = next node) :
    Linked prev' next' before nodes after := by
  induction nodes generalizing before with
  | nil => trivial
  | cons head tail ih =>
      obtain ⟨atPrev, atNext, rest⟩ := linked
      refine ⟨(samePrev head List.mem_cons_self).trans atPrev,
        (sameNext head List.mem_cons_self).trans atNext, ?_⟩
      exact ih rest (fun node member => samePrev node (List.mem_cons_of_mem _ member))
        (fun node member => sameNext node (List.mem_cons_of_mem _ member))

/-- The links of a node inside a list. -/
theorem links_of_mem (linked : Linked prev next before (left ++ node :: right) after) :
    prev node = left.getLast?.getD before ∧ next node = right.head?.getD after := by
  obtain ⟨_, atPrev, atNext, _⟩ := append.mp linked
  exact ⟨atPrev, atNext⟩

/-- Redirecting the last node's `next`. -/
theorem setAfter {target : α} (linked : Linked prev next before (nodes ++ [node]) after)
    (samePrev : ∀ other ∈ nodes ++ [node], prev' other = prev other)
    (sameNext : ∀ other ∈ nodes, next' other = next other) (redirected : next' node = target) :
    Linked prev' next' before (nodes ++ [node]) target := by
  obtain ⟨front, atPrev, _, _⟩ := append.mp linked
  refine append.mpr ⟨front.congr (fun other member => samePrev other (by simp [member])) sameNext, ?_⟩
  exact ⟨(samePrev node (by simp)).trans atPrev, redirected, trivial⟩

/-- Redirecting the first node's `prev`. -/
theorem setBefore {target : α} (linked : Linked prev next before (node :: nodes) after)
    (samePrev : ∀ other ∈ nodes, prev' other = prev other)
    (sameNext : ∀ other ∈ node :: nodes, next' other = next other)
    (redirected : prev' node = target) :
    Linked prev' next' target (node :: nodes) after := by
  obtain ⟨_, atNext, rest⟩ := linked
  refine ⟨redirected, (sameNext node List.mem_cons_self).trans atNext, ?_⟩
  exact rest.congr samePrev fun other member => sameNext other (List.mem_cons_of_mem _ member)

end Linked

/-- The list with head fields `first` and `last` is the sequence `nodes`: the links of neighbours
agree, no node is null and none is repeated. -/
structure IsDList (prev next : α → α) (nil first last : α) (nodes : List α) : Prop where
  first_eq : first = nodes.head?.getD nil
  last_eq : last = nodes.getLast?.getD nil
  nonNil : nil ∉ nodes
  nodup : nodes.Nodup
  linked : Linked prev next nil nodes nil

namespace IsDList

variable {prev next prev' next' : α → α} {nil first last first' last' : α}
  {nodes left right : List α} {node : α}

theorem empty : IsDList prev next nil nil nil [] :=
  ⟨rfl, rfl, List.not_mem_nil, List.nodup_nil, trivial⟩

theorem congr (list : IsDList prev next nil first last nodes)
    (samePrev : ∀ node ∈ nodes, prev' node = prev node)
    (sameNext : ∀ node ∈ nodes, next' node = next node) :
    IsDList prev' next' nil first last nodes :=
  ⟨list.first_eq, list.last_eq, list.nonNil, list.nodup, list.linked.congr samePrev sameNext⟩

theorem first_eq_nil_iff (list : IsDList prev next nil first last nodes) :
    first = nil ↔ nodes = [] := by
  rw [list.first_eq]
  cases nodes with
  | nil => simp
  | cons head tail =>
      have : head ≠ nil := fun same => list.nonNil (by simp [same])
      simp [this]

theorem last_eq_nil_iff (list : IsDList prev next nil first last nodes) :
    last = nil ↔ nodes = [] := by
  rw [list.last_eq]
  rcases List.eq_nil_or_concat nodes with rfl | ⟨front, tail, rfl⟩
  · simp
  · have : tail ≠ nil := fun same => list.nonNil (by simp [same])
    simp [this]

theorem first_mem (list : IsDList prev next nil first last nodes) (nonempty : first ≠ nil) :
    first ∈ nodes := by
  rw [list.first_eq] at nonempty ⊢
  cases nodes with
  | nil => exact absurd rfl nonempty
  | cons head tail => simp

theorem last_mem (list : IsDList prev next nil first last nodes) (nonempty : last ≠ nil) :
    last ∈ nodes := by
  rw [list.last_eq] at nonempty ⊢
  rcases List.eq_nil_or_concat nodes with rfl | ⟨front, tail, rfl⟩
  · exact absurd rfl nonempty
  · simp

/-- A list that starts and ends with a node is that node. -/
theorem eq_of_ends {x : α} (list : IsDList prev next nil node node nodes) (member : x ∈ nodes) :
    x = node := by
  cases nodes with
  | nil => cases member
  | cons head tail =>
      obtain rfl : node = head := list.first_eq
      rcases List.eq_nil_or_concat tail with rfl | ⟨front, final, rfl⟩
      · exact List.mem_singleton.mp member
      · have same : node = final := by simpa [List.getLast?_cons] using list.last_eq
        have apart := (List.nodup_cons.mp list.nodup).1
        rw [same] at apart
        simp at apart

/-- The links of a node on the list. -/
theorem links (list : IsDList prev next nil first last (left ++ node :: right)) :
    prev node = left.getLast?.getD nil ∧ next node = right.head?.getD nil :=
  list.linked.links_of_mem

/-- A node's `prev` is null exactly when it is the first node. -/
theorem prev_eq_nil_iff (list : IsDList prev next nil first last (left ++ node :: right)) :
    prev node = nil ↔ left = [] := by
  rw [list.links.1]
  rcases List.eq_nil_or_concat left with rfl | ⟨front, tail, rfl⟩
  · simp
  · have : tail ≠ nil := fun same => list.nonNil (by simp [same])
    simp [this]

theorem next_eq_nil_iff (list : IsDList prev next nil first last (left ++ node :: right)) :
    next node = nil ↔ right = [] := by
  rw [list.links.2]
  cases right with
  | nil => simp
  | cons head tail =>
      have : head ≠ nil := fun same => list.nonNil (by simp [same])
      simp [this]

/-- The neighbours of a node are on the list. -/
theorem prev_mem (list : IsDList prev next nil first last (left ++ node :: right))
    (inner : prev node ≠ nil) : prev node ∈ left := by
  rw [list.links.1] at inner ⊢
  rcases List.eq_nil_or_concat left with rfl | ⟨front, tail, rfl⟩
  · exact absurd rfl inner
  · simp

theorem next_mem (list : IsDList prev next nil first last (left ++ node :: right))
    (inner : next node ≠ nil) : next node ∈ right := by
  rw [list.links.2] at inner ⊢
  cases right with
  | nil => exact absurd rfl inner
  | cons head tail => simp

/-- The links determine the sequence. -/
theorem unique {other : List α} (list : IsDList prev next nil first last nodes)
    (second : IsDList prev next nil first last other) : nodes = other := by
  have heads : nodes.head?.getD nil = other.head?.getD nil :=
    list.first_eq.symm.trans second.first_eq
  have walk : ∀ {before : α} {xs ys : List α}, nil ∉ xs → nil ∉ ys →
      Linked prev next before xs nil → Linked prev next before ys nil →
      xs.head?.getD nil = ys.head?.getD nil → xs = ys := by
    intro before xs
    induction xs generalizing before with
    | nil =>
        intro ys _ nonNil _ _ same
        cases ys with
        | nil => rfl
        | cons y ys => exact absurd same fun equal => nonNil (by simp at equal; simp [equal])
    | cons x xs ih =>
        intro ys nonNil nonNil' linked linked' same
        cases ys with
        | nil => exact absurd same fun equal => nonNil (by simp at equal; simp [equal])
        | cons y ys =>
            simp only [List.head?_cons, Option.getD_some] at same
            subst same
            obtain ⟨_, after, rest⟩ := linked
            obtain ⟨_, after', rest'⟩ := linked'
            rw [ih (fun inside => nonNil (List.mem_cons_of_mem _ inside))
              (fun inside => nonNil' (List.mem_cons_of_mem _ inside)) rest rest' (after.symm.trans after')]
  exact walk list.nonNil second.nonNil list.linked second.linked heads

/-! ### The operations -/

variable [DecidableEq α]

/-- **Unlinking a node**: its neighbours point at each other, the head fields at its neighbours
where it was an end. -/
theorem remove (list : IsDList prev next nil first last (left ++ node :: right))
    (nextEq : ∀ other ∈ left ++ right, next' other = if other = prev node then next node else next other)
    (prevEq : ∀ other ∈ left ++ right, prev' other = if other = next node then prev node else prev other)
    (firstEq : first' = if prev node = nil then next node else first)
    (lastEq : last' = if next node = nil then prev node else last) :
    IsDList prev' next' nil first' last' (left ++ right) := by
  have nodup := list.nodup
  obtain ⟨atPrev, atNext⟩ := list.links
  have disjoint : ∀ x ∈ left, ∀ y ∈ right, x ≠ y := fun x inLeft y inRight =>
    (List.nodup_append.mp nodup).2.2 x inLeft y (List.mem_cons_of_mem _ inRight)
  obtain ⟨leftLinked, _, _, rightLinked⟩ := Linked.append.mp list.linked
  have firstNil := list.prev_eq_nil_iff
  have lastNil := list.next_eq_nil_iff
  refine ⟨?_, ?_, ?_, ?_, Linked.append.mpr ⟨?_, ?_⟩⟩
  · rw [firstEq]
    by_cases front : prev node = nil
    · obtain rfl := firstNil.mp front
      rw [if_pos front, atNext, List.nil_append]
    · rw [if_neg front, list.first_eq]
      cases left with
      | nil => exact absurd (firstNil.mpr rfl) front
      | cons head tail => rfl
  · rw [lastEq]
    by_cases back : next node = nil
    · obtain rfl := lastNil.mp back
      rw [if_pos back, atPrev, List.append_nil]
    · rw [if_neg back, list.last_eq]
      rcases List.eq_nil_or_concat right with rfl | ⟨front, tail, rfl⟩
      · exact absurd (lastNil.mpr rfl) back
      · simp only [← List.cons_append, ← List.append_assoc, List.concat_eq_append,
          List.getLast?_concat]
  · intro member
    exact list.nonNil (by simp only [List.mem_append, List.mem_cons] at member ⊢; tauto)
  · exact nodup.sublist (List.Sublist.append_left (List.sublist_cons_self _ _) _)
  · rcases List.eq_nil_or_concat left with rfl | ⟨front, tail, rfl⟩
    · trivial
    · rw [List.concat_eq_append] at *
      simp only [List.getLast?_concat, Option.getD_some] at atPrev
      have frontNe : ∀ other ∈ front, other ≠ tail := fun other member same => by
        have := (List.nodup_append.mp (List.nodup_append.mp nodup).1).2.2 other member tail (by simp)
        exact this same
      refine leftLinked.setAfter (fun other member => ?_) (fun other member => ?_) ?_
      · rw [prevEq other (List.mem_append_left _ member), if_neg]
        intro same
        by_cases back : next node = nil
        · exact list.nonNil (List.mem_append_left _ (back ▸ same ▸ member))
        · exact disjoint other member _ (list.next_mem back) same
      · rw [nextEq other (by simp [member]), if_neg]
        rw [atPrev]
        exact frontNe other member
      · rw [nextEq tail (by simp), if_pos atPrev.symm, atNext]
  · cases right with
    | nil => trivial
    | cons head tail =>
        simp only [List.head?_cons, Option.getD_some] at atNext
        have headNotTail : ∀ other ∈ tail, other ≠ head := fun other member same => by
          have := (List.nodup_cons.mp (List.nodup_cons.mp (List.nodup_append.mp nodup).2.1).2).1
          exact this (same ▸ member)
        refine rightLinked.setBefore (fun other member => ?_) (fun other member => ?_) ?_
        · rw [prevEq other (by simp [member]), if_neg]
          rw [atNext]
          exact headNotTail other member
        · rw [nextEq other (List.mem_append_right _ member), if_neg]
          intro same
          by_cases front : prev node = nil
          · exact list.nonNil (List.mem_append_right _
              (List.mem_cons_of_mem _ (front ▸ same ▸ member)))
          · exact disjoint _ (list.prev_mem front) other member same.symm
        · rw [prevEq head (by simp), if_pos atNext.symm, atPrev]

/-- **Linking a fresh node at the front.** -/
theorem pushFront (list : IsDList prev next nil first last nodes) (fresh : node ∉ nodes)
    (nonNil : node ≠ nil)
    (nextEq : ∀ other ∈ nodes, next' other = next other)
    (prevEq : ∀ other ∈ nodes, prev' other = if other = first then node else prev other)
    (nextNode : next' node = first) (prevNode : prev' node = nil)
    (lastEq : last' = if first = nil then node else last) :
    IsDList prev' next' nil node last' (node :: nodes) := by
  have firstNil := list.first_eq_nil_iff
  refine ⟨rfl, ?_, ?_, List.nodup_cons.mpr ⟨fresh, list.nodup⟩, prevNode, ?_, ?_⟩
  · rw [lastEq]
    cases nodes with
    | nil => rw [if_pos (firstNil.mpr rfl)]; rfl
    | cons head tail =>
        rw [if_neg (fun front => by simpa using firstNil.mp front), list.last_eq]
        simp [List.getLast?_cons]
  · simp only [List.mem_cons, not_or]
    exact ⟨nonNil.symm, list.nonNil⟩
  · rw [nextNode, list.first_eq]
  · cases nodes with
    | nil => trivial
    | cons head tail =>
        have firstEq : first = head := list.first_eq
        refine list.linked.setBefore (fun other member => ?_) nextEq ?_
        · rw [prevEq other (List.mem_cons_of_mem _ member), if_neg]
          rintro rfl
          exact (List.nodup_cons.mp list.nodup).1 (firstEq ▸ member)
        · rw [prevEq head List.mem_cons_self, if_pos firstEq.symm]

/-- **Linking a fresh node at the back.** -/
theorem pushBack (list : IsDList prev next nil first last nodes) (fresh : node ∉ nodes)
    (nonNil : node ≠ nil)
    (nextEq : ∀ other ∈ nodes, next' other = if other = last then node else next other)
    (prevEq : ∀ other ∈ nodes, prev' other = prev other)
    (nextNode : next' node = nil) (prevNode : prev' node = last)
    (firstEq : first' = if last = nil then node else first) :
    IsDList prev' next' nil first' node (nodes ++ [node]) := by
  have lastNil := list.last_eq_nil_iff
  refine ⟨?_, by simp, ?_, ?_, Linked.append.mpr ⟨?_, ?_, nextNode, trivial⟩⟩
  · rw [firstEq]
    cases nodes with
    | nil => rw [if_pos (lastNil.mpr rfl)]; rfl
    | cons head tail =>
        rw [if_neg (fun back => by simpa using lastNil.mp back), list.first_eq]
        rfl
  · simp only [List.mem_append, List.mem_singleton, not_or]
    exact ⟨list.nonNil, nonNil.symm⟩
  · refine List.nodup_append.mpr ⟨list.nodup, List.nodup_singleton _, fun x member y single => ?_⟩
    rw [List.mem_singleton.mp single]
    rintro rfl
    exact fresh member
  · rcases List.eq_nil_or_concat nodes with rfl | ⟨front, tail, rfl⟩
    · trivial
    · rw [List.concat_eq_append] at *
      have lastEq : last = tail := by rw [list.last_eq]; simp
      refine list.linked.setAfter prevEq (fun other member => ?_) ?_
      · rw [nextEq other (by simp [member]), if_neg]
        rintro rfl
        have := (List.nodup_append.mp list.nodup).2.2 _ member tail (by simp)
        exact this lastEq
      · rw [nextEq tail (by simp), if_pos lastEq.symm]
        rfl
  · rw [prevNode, list.last_eq]

end IsDList

end Library
