/-
**Block lists that share a memory.**

* `Separate`: lists whose nodes have no common byte; `Holds`: the memory holds these lists;
* `Holds.push`, `Holds.pop`, `Holds.clear`, `Holds.move`, `Holds.append`, `Holds.prepend`: the functions of
  `linked_list.rs` on one or two of the lists, where the others stay.
-/

import VerusMimalloc.Result.BlockLists

namespace VerusMimalloc

open Library Function

namespace LL

variable {ι : Type} {mem mem' : Bytes} {first : ι → Nat} {lists : ι → List Nat} {i j : ι} {p : Nat}
  {xs ys : List Nat}

/-- Lists whose nodes have no common byte. -/
structure Separate (lists : ι → List Nat) : Prop where
  nonzero : ∀ i, ∀ p ∈ lists i, p ≠ 0
  inside : ∀ i, ∀ p ∈ lists i, p + 8 ≤ 2 ^ 64
  apart : ∀ i, (lists i).Pairwise NodesApart
  across : ∀ i j, i ≠ j → ∀ p ∈ lists i, ∀ q ∈ lists j, NodesApart p q

/-- **The memory holds the lists** with these first nodes. -/
def Holds (mem : Bytes) (first : ι → Nat) (lists : ι → List Nat) : Prop :=
  ∀ i, IsList mem ⟨first i⟩ (lists i)

/-- Only nodes of the lists are written. -/
def OnlyListed (mem mem' : Bytes) (lists : ι → List Nat) : Prop :=
  ∀ a, (∀ i, ∀ x ∈ lists i, a < x ∨ x + 8 ≤ a) → mem' a = mem a

theorem OnlyListed.refl : OnlyListed mem mem lists := fun _ _ => rfl

theorem OnlyNodes.listed (only : OnlyNodes mem mem' ys) (i : ι) (included : ys ⊆ lists i) :
    OnlyListed mem mem' lists :=
  fun a outside => only a fun y member => outside i y (included member)

/-- **Lists apart from what is written stay.** -/
theorem Holds.frame (holds : Holds mem first lists) (only : OnlyNodes mem mem' ys)
    (apart : ∀ i, ∀ y ∈ ys, ∀ x ∈ lists i, NodesApart y x) : Holds mem' first lists :=
  fun i => (holds i).frame only (apart i)

/-- The memory outside the nodes of the lists does not matter. -/
theorem Holds.congr (holds : Holds mem first lists)
    (same : ∀ i, ∀ x ∈ lists i, readNode mem' x = readNode mem x) : Holds mem' first lists :=
  fun i => ⟨(holds i).chain.congr (same i), (holds i).inside, (holds i).apart⟩

/-- The first node. -/
theorem Holds.first_eq (holds : Holds mem first lists) (i : ι) : first i = (lists i).headD 0 :=
  (holds i).chain.head

variable [DecidableEq ι]

/-- One list changes. -/
theorem Holds.change (holds : Holds mem first lists) (only : OnlyNodes mem mem' ys)
    (apart : ∀ j, j ≠ i → ∀ y ∈ ys, ∀ x ∈ lists j, NodesApart y x) (list : IsList mem' ⟨p⟩ xs) :
    Holds mem' (update first i p) (update lists i xs) := by
  intro j
  by_cases same : j = i
  · subst same
    rw [update_self, update_self]
    exact list
  · rw [update_of_ne same, update_of_ne same]
    exact (holds j).frame only (apart j same)

/-- `make_empty`. -/
theorem Holds.clear (holds : Holds mem first lists) (i : ι) :
    Holds mem (update first i 0) (update lists i []) :=
  holds.change .refl (fun _ _ _ member => absurd member List.not_mem_nil) isList_nil

/-- A list goes to the place of another one. -/
theorem Holds.move (holds : Holds mem first lists) (i j : ι) :
    Holds mem (update (update first i (first j)) j 0)
      (update (update lists i (lists j)) j []) :=
  (holds.change .refl (fun _ _ _ member => absurd member List.not_mem_nil) (holds j)).clear j

/-- `pop_block` of a list that is not empty. -/
theorem Holds.pop (holds : Holds mem first lists) (nonempty : lists i ≠ []) :
    ((LL.mk (first i)).popBlock mem).1 = (lists i).headD 0 ∧
      Holds mem (update first i ((LL.mk (first i)).popBlock mem).2.first)
        (update lists i (lists i).tail) := by
  obtain ⟨x, rest, cons⟩ := List.exists_cons_of_ne_nil nonempty
  have list := holds i
  rw [cons] at list
  obtain ⟨popped, left⟩ := popBlock_isList list
  rw [cons]
  exact ⟨popped, holds.change .refl (fun _ _ _ member => absurd member List.not_mem_nil) left⟩

/-- What is put in front of a list is apart from all the lists. -/
theorem Separate.front (after : Separate (update lists i (xs ++ lists i))) (j : ι) :
    ∀ y ∈ xs, ∀ x ∈ lists j, NodesApart y x := by
  intro y front x member
  by_cases same : j = i
  · subst same
    have apart := after.apart j
    rw [update_self] at apart
    exact (List.pairwise_append.mp apart).2.2 y front x member
  · refine after.across i j (Ne.symm same) y ?_ x ?_
    · rw [update_self]
      exact List.mem_append_left _ front
    · rw [update_of_ne same]
      exact member

/-- A block whose next pointer is written already becomes the first one. -/
theorem Holds.link (holds : Holds mem first lists) (linked : readNode mem p = first i) (nonzero : p ≠ 0)
    (inside : p + 8 ≤ 2 ^ 64) (apart : ∀ x ∈ lists i, NodesApart p x) :
    Holds mem (update first i p) (update lists i (p :: lists i)) := by
  refine holds.change .refl (fun _ _ _ member => absurd member List.not_mem_nil)
    ⟨⟨rfl, nonzero, ?_⟩, fun x member => ?_, List.pairwise_cons.mpr ⟨apart, (holds i).apart⟩⟩
  · rw [linked]
    exact (holds i).chain
  · rcases List.mem_cons.mp member with rfl | member
    · exact inside
    · exact (holds i).inside x member

/-- `insert_block`. -/
theorem Holds.push (holds : Holds mem first lists)
    (after : Separate (update lists i (p :: lists i))) :
    Holds (writeNode mem p (first i)) (update first i p) (update lists i (p :: lists i)) ∧
      OnlyListed mem (writeNode mem p (first i)) (update lists i (p :: lists i)) := by
  have inFront : Separate (update lists i ([p] ++ lists i)) := after
  have front : ∀ j, ∀ x ∈ lists j, NodesApart p x := fun j =>
    inFront.front j p (List.mem_singleton.mpr rfl)
  have here : p ∈ update lists i (p :: lists i) i := by
    rw [update_self]
    exact List.mem_cons_self
  have only : OnlyNodes mem (writeNode mem p (first i)) [p] := onlyNodes_write
  have written := holds.frame only fun j y member => by
    obtain rfl := List.mem_singleton.mp member
    exact front j
  refine ⟨written.link (readNode_writeNode (holds i).first_lt) (after.nonzero i p here)
    (after.inside i p here) (front i), only.listed i fun y member => ?_⟩
  obtain rfl := List.mem_singleton.mp member
  exact here

/-- `append`. -/
theorem Holds.append {fuel : Nat} (holds : Holds mem first lists) (separate : Separate lists)
    (differs : i ≠ j) (enough : (lists j).length ≤ fuel) :
    ∃ mem' self other, LL.append mem ⟨first i⟩ ⟨first j⟩ fuel =
        some (mem', self, other, BitVec.ofNat 32 (lists j).length) ∧ other.first = 0 ∧
      Holds mem' (update (update first i self.first) j 0)
        (update (update lists i (lists j ++ lists i)) j []) ∧
      OnlyListed mem mem' (update (update lists i (lists j ++ lists i)) j []) := by
  obtain ⟨mem', self, other, run, list, none, only⟩ := append_isList (holds i) (holds j)
    (separate.across j i (Ne.symm differs)) enough
  have last : (lists j).getLast?.toList ⊆ lists j := fun y member =>
    List.mem_of_getLast? (Option.mem_toList.mp member)
  refine ⟨mem', self, other, run, none.chain, ?_, only.listed i fun y member => ?_⟩
  · -- The list `j` is read no more: it counts as empty from here on.
    have emptied := (holds.clear j).change (i := i) only (fun k other y member x inside => ?_) list
    · rw [update_comm differs, update_comm differs]
      exact emptied
    · by_cases same : k = j
      · subst same
        rw [update_self] at inside
        cases inside
      · rw [update_of_ne same] at inside
        exact separate.across j k (Ne.symm same) y (last member) x inside
  · rw [update_of_ne differs, update_self]
    exact List.mem_append_left _ (last member)

/-- `prepend_contiguous_blocks`. -/
theorem Holds.prepend {start bsize n fuel : Nat} (holds : Holds mem first lists) (some : 1 ≤ n)
    (large : 8 ≤ bsize) (valid : start ≠ 0) (inside : start + n * bsize ≤ 2 ^ 64)
    (after : Separate (update lists i (blocksFrom start bsize n ++ lists i))) (enough : n ≤ fuel) :
    ∃ mem', prependContiguousBlocks mem ⟨first i⟩ start (start + (n - 1) * bsize) bsize fuel =
        .some (mem', ⟨start⟩) ∧
      Holds mem' (update first i start)
        (update lists i (blocksFrom start bsize n ++ lists i)) ∧
      OnlyListed mem mem' (update lists i (blocksFrom start bsize n ++ lists i)) := by
  obtain ⟨mem', run, list, only⟩ :=
    prepend_isList (holds i) some large valid inside (after.front i) enough
  refine ⟨mem', run, holds.change only (fun j _ => after.front j) list, only.listed i fun y member => ?_⟩
  rw [update_self]
  exact List.mem_append_left _ member

end LL

end VerusMimalloc
