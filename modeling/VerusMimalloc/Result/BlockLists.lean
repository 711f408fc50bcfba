/-
**The block lists are sequences.**

* `IsList`: a memory holds a list with these blocks, in this order;
* `OnlyNodes`: a change of memory that stays within the nodes of some blocks;
* `insertBlock_isList`, `popBlock_isList`, `append_isList`, `prepend_isList`: each operation on
  sequences;
* `block_lists`: all of them together;
* `prepend_contiguousBlocks`: the blocks that `page_free_list_extend` adds.
-/

import VerusMimalloc.Model.BlockList
import VerusMimalloc.Proof.Page.Geometry

namespace VerusMimalloc

open Library

namespace LL

variable {mem mem' mem'' : Bytes} {self other : LL} {xs ys zs : List Nat} {x p ptr v : Nat}

/-- Two nodes without a common byte. -/
def NodesApart (x y : Nat) : Prop := x + 8 ≤ y ∨ y + 8 ≤ x

theorem NodesApart.symm {x y : Nat} (apart : NodesApart x y) : NodesApart y x := Or.symm apart

/-- **The memory holds the list of the blocks `xs`.** -/
structure IsList (mem : Bytes) (ll : LL) (xs : List Nat) : Prop where
  chain : Chain (readNode mem) ll.first xs
  inside : ∀ x ∈ xs, x + 8 ≤ 2 ^ 64
  apart : xs.Pairwise NodesApart

/-- Only nodes of blocks in `xs` are written. -/
def OnlyNodes (mem mem' : Bytes) (xs : List Nat) : Prop :=
  ∀ a, (∀ x ∈ xs, a < x ∨ x + 8 ≤ a) → mem' a = mem a

/-! ### Nodes -/

theorem readNode_writeNode (bound : v < 2 ^ 64) : readNode (writeNode mem p v) p = v :=
  Bytes.read_write bound

theorem readNode_writeNode_apart (apart : NodesApart p x) :
    readNode (writeNode mem p v) x = readNode mem x :=
  Bytes.read_write_apart apart.symm

theorem onlyNodes_write : OnlyNodes mem (writeNode mem p v) [p] := by
  intro a outside
  exact Bytes.write_apart (outside p (List.mem_singleton.mpr rfl))

theorem OnlyNodes.refl : OnlyNodes mem mem xs := fun _ _ => rfl

theorem OnlyNodes.trans (one : OnlyNodes mem mem' xs) (two : OnlyNodes mem' mem'' ys) :
    OnlyNodes mem mem'' (xs ++ ys) := by
  intro a outside
  rw [two a fun y mem => outside y (List.mem_append_right xs mem)]
  exact one a fun x mem => outside x (List.mem_append_left ys mem)

theorem OnlyNodes.readNode (only : OnlyNodes mem mem' xs) (apart : ∀ y ∈ xs, NodesApart y x) :
    readNode mem' x = readNode mem x := by
  apply Bytes.read_congr
  intro a above below
  apply only
  intro y mem
  rcases apart y mem with lower | upper
  · exact .inr (by omega)
  · exact .inl (by omega)

/-! ### Lists -/

theorem IsList.first_lt (list : IsList mem self xs) : self.first < 2 ^ 64 := by
  rw [list.chain.head]
  cases xs with
  | nil => exact Nat.two_pow_pos 64
  | cons x xs =>
      have := list.inside x List.mem_cons_self
      show x < 2 ^ 64
      omega

/-- **A list apart from what is written stays.** -/
theorem IsList.frame (list : IsList mem self xs) (only : OnlyNodes mem mem' ys)
    (apart : ∀ y ∈ ys, ∀ x ∈ xs, NodesApart y x) : IsList mem' self xs := by
  refine ⟨list.chain.congr fun x mem => ?_, list.inside, list.apart⟩
  exact only.readNode fun y within => apart y within x mem

/-- A memory holds one list. -/
theorem IsList.unique (list : IsList mem self xs) (other : IsList mem self ys) : xs = ys :=
  list.chain.unique other.chain

theorem isList_nil : IsList mem { first := 0 } [] :=
  ⟨rfl, fun _ mem => absurd mem List.not_mem_nil, .nil⟩

/-! ### One block -/

/-- `insert_block` is cons. -/
theorem insertBlock_isList (list : IsList mem self xs) (valid : ptr ≠ 0) (inside : ptr + 8 ≤ 2 ^ 64)
    (apart : ∀ x ∈ xs, NodesApart ptr x) :
    IsList (self.insertBlock mem ptr).1 (self.insertBlock mem ptr).2 (ptr :: xs) ∧
      OnlyNodes mem (self.insertBlock mem ptr).1 [ptr] := by
  have link : readNode (writeNode mem ptr self.first) ptr = self.first :=
    readNode_writeNode list.first_lt
  refine ⟨⟨⟨rfl, valid, ?_⟩, ?_, ?_⟩, onlyNodes_write⟩
  · show Chain (readNode (writeNode mem ptr self.first))
      (readNode (writeNode mem ptr self.first) ptr) xs
    rw [link]
    exact list.chain.congr fun _ mem => readNode_writeNode_apart (apart _ mem)
  · intro y mem
    rcases List.mem_cons.mp mem with rfl | mem
    · exact inside
    · exact list.inside y mem
  · exact List.pairwise_cons.mpr ⟨apart, list.apart⟩

/-- `pop_block` is uncons. -/
theorem popBlock_isList (list : IsList mem self (x :: xs)) :
    (self.popBlock mem).1 = x ∧ IsList mem (self.popBlock mem).2 xs := by
  obtain ⟨first, _, chain⟩ := list.chain
  refine ⟨first, ⟨?_, fun y mem => list.inside y (List.mem_cons_of_mem x mem),
    (List.pairwise_cons.mp list.apart).2⟩⟩
  show Chain (readNode mem) (readNode mem self.first) xs
  rw [first]
  exact chain

/-! ### Appending -/

/-- The walk ends at the last node and counts every node once. -/
theorem appendLoop_spec {fuel : Nat} {count : BitVec 32} (chain : Chain (readNode mem) p (xs ++ [x]))
    (enough : xs.length < fuel) :
    appendLoop mem fuel p count = some (x, count + BitVec.ofNat 32 xs.length) := by
  induction xs generalizing p fuel count with
  | nil =>
      obtain ⟨fuel, rfl⟩ : ∃ n, fuel = n + 1 := ⟨fuel - 1, by simp at enough; omega⟩
      obtain ⟨first, _, last⟩ := chain
      have ends : ¬readNode mem p ≠ 0 := by
        rw [first]
        exact fun no => no last
      rw [appendLoop, if_neg ends, first]
      show some (x, count) = some (x, count + 0#32)
      rw [BitVec.add_zero]
  | cons y xs ih =>
      obtain ⟨fuel, rfl⟩ : ∃ n, fuel = n + 1 := ⟨fuel - 1, by simp at enough; omega⟩
      obtain ⟨first, _, rest⟩ := chain
      have more : readNode mem p ≠ 0 := by
        rw [first]
        intro zero
        exact absurd (rest.eq_nil_iff.mp zero) (List.append_ne_nil_of_right_ne_nil xs (by simp))
      have shorter : xs.length < fuel := by
        rw [List.length_cons] at enough
        omega
      rw [appendLoop, if_pos more, first, ih rest shorter, List.length_cons, BitVec.ofNat_add,
        BitVec.add_comm (BitVec.ofNat 32 xs.length), ← BitVec.add_assoc]
      rfl

/-- **`append` is concatenation**, with only the last node of the other list written. -/
theorem append_isList {fuel : Nat} (list : IsList mem self ys) (otherList : IsList mem other xs)
    (apart : ∀ x ∈ xs, ∀ y ∈ ys, NodesApart x y) (enough : xs.length ≤ fuel) :
    ∃ mem' self' other',
      append mem self other fuel = some (mem', self', other', BitVec.ofNat 32 xs.length) ∧
      IsList mem' self' (xs ++ ys) ∧ IsList mem' other' [] ∧
      OnlyNodes mem mem' xs.getLast?.toList := by
  rcases List.eq_nil_or_concat xs with rfl | ⟨zs, x, rfl⟩
  · have empty : other.first = 0 := otherList.chain
    refine ⟨mem, self, other, ?_, list, otherList, OnlyNodes.refl⟩
    rw [append, if_pos empty]
    rfl
  · rw [List.concat_eq_append] at *
    have full : ¬other.first = 0 := by
      intro zero
      exact absurd (otherList.chain.eq_nil_iff.mp zero)
        (List.append_ne_nil_of_right_ne_nil zs (by simp))
    have shorter : zs.length < fuel := by
      rw [List.length_append, List.length_singleton] at enough
      omega
    have atEnd : x ∈ zs ++ [x] := List.mem_append_right zs (List.mem_singleton.mpr rfl)
    have walk : appendLoop mem fuel other.first 1 = some (x, 1 + BitVec.ofNat 32 zs.length) :=
      appendLoop_spec otherList.chain shorter
    have before : ∀ z ∈ zs, NodesApart x z := fun z mem =>
      ((List.pairwise_append.mp otherList.apart).2.2 z mem x (List.mem_singleton.mpr rfl)).symm
    refine ⟨writeNode mem x self.first, { first := other.first }, { first := 0 }, ?_, ⟨?_, ?_, ?_⟩,
      isList_nil, ?_⟩
    · rw [append, if_neg full, bind_of_some walk, List.length_append, List.length_singleton,
        BitVec.ofNat_add, BitVec.add_comm]
      rfl
    · refine otherList.chain.splice (list.chain.congr fun y mem => ?_) (fun z mem => ?_) ?_
      · exact readNode_writeNode_apart (apart x atEnd y mem)
      · exact readNode_writeNode_apart (before z mem)
      · exact readNode_writeNode list.first_lt
    · intro y mem
      rcases List.mem_append.mp mem with mem | mem
      · exact otherList.inside y mem
      · exact list.inside y mem
    · exact List.pairwise_append.mpr ⟨otherList.apart, list.apart, apart⟩
    · rw [List.getLast?_append, List.getLast?_singleton]
      exact onlyNodes_write

/-! ### Prepending -/

/-- The addresses of `n` blocks of `bsize` bytes from `start` on. -/
def blocksFrom (start bsize n : Nat) : List Nat := (List.range n).map fun i => start + i * bsize

theorem blocksFrom_succ {start bsize n : Nat} :
    blocksFrom start bsize (n + 1) = start :: blocksFrom (start + bsize) bsize n := by
  rw [blocksFrom, List.range_succ_eq_map, List.map_cons, List.map_map, Nat.zero_mul, Nat.add_zero]
  refine congrArg (List.cons start) (List.map_congr_left fun i _ => ?_)
  show start + (i + 1) * bsize = start + bsize + i * bsize
  rw [Nat.succ_mul]
  omega

theorem mem_blocksFrom {start bsize n y : Nat} :
    y ∈ blocksFrom start bsize n ↔ ∃ i, i < n ∧ start + i * bsize = y := by
  rw [blocksFrom, List.mem_map]
  simp only [List.mem_range]

/-- The blocks do not overlap. -/
theorem blocksFrom_apart {start bsize n : Nat} (large : 8 ≤ bsize) :
    (blocksFrom start bsize n).Pairwise NodesApart := by
  rw [blocksFrom, List.pairwise_map]
  refine List.pairwise_lt_range.imp fun {i j} less => .inl ?_
  have := Nat.mul_le_mul_right bsize (Nat.succ_le_of_lt less)
  rw [Nat.succ_mul] at this
  omega

/-- The loop writes every block but the last one, each leading to the next. -/
theorem prependLoop_spec {bsize : Nat} (mem : Bytes) (m fuel start : Nat) (large : 8 ≤ bsize)
    (enough : m < fuel) (inside : start + m * bsize + 8 ≤ 2 ^ 64) :
    ∃ mem', prependLoop (start + m * bsize) bsize fuel mem start = some (mem', start + m * bsize) ∧
      (∀ i, i < m → readNode mem' (start + i * bsize) = start + (i + 1) * bsize) ∧
      OnlyNodes mem mem' (blocksFrom start bsize m) := by
  induction m generalizing fuel start mem with
  | zero =>
      obtain ⟨fuel, rfl⟩ : ∃ n, fuel = n + 1 := ⟨fuel - 1, by omega⟩
      refine ⟨mem, ?_, fun i less => absurd less (Nat.not_lt_zero i), OnlyNodes.refl⟩
      rw [Nat.zero_mul, Nat.add_zero, prependLoop, if_neg (Nat.lt_irrefl start)]
  | succ m ih =>
      obtain ⟨fuel, rfl⟩ : ∃ n, fuel = n + 1 := ⟨fuel - 1, by omega⟩
      have shifted : start + (m + 1) * bsize = start + bsize + m * bsize := by
        rw [Nat.succ_mul]
        omega
      rw [shifted] at inside ⊢
      have next : addWord start bsize = some (start + bsize) := addWord_eq (by omega)
      obtain ⟨mem', run, links, only⟩ :=
        ih (writeNode mem start (start + bsize)) fuel (start + bsize) (by omega) inside
      refine ⟨mem', ?_, fun i less => ?_, ?_⟩
      · rw [prependLoop, if_pos (by omega), bind_of_some next]
        exact run
      · cases i with
        | zero =>
            have later : ∀ y ∈ blocksFrom (start + bsize) bsize m, NodesApart y start := by
              intro y mem
              obtain ⟨i, _, rfl⟩ := mem_blocksFrom.mp mem
              exact .inr (by omega)
            have kept := only.readNode later
            rw [Nat.zero_mul, Nat.add_zero, kept, readNode_writeNode (by omega), Nat.zero_add,
              Nat.one_mul]
        | succ i =>
            have link := links i (by omega)
            have here : start + (i + 1) * bsize = start + bsize + i * bsize := by
              rw [Nat.succ_mul]
              omega
            have there : start + (i + 1 + 1) * bsize = start + bsize + (i + 1) * bsize := by
              rw [Nat.succ_mul (i + 1)]
              omega
            rw [here, there]
            exact link
      · rw [blocksFrom_succ]
        exact onlyNodes_write.trans only

/-- Blocks that lead to each other, before a list. -/
theorem chain_blocksFrom {next : Nat → Nat} {start bsize m second : Nat} (valid : start ≠ 0)
    (links : ∀ i, i < m → next (start + i * bsize) = start + (i + 1) * bsize)
    (last : next (start + m * bsize) = second) (chain : Chain next second ys) :
    Chain next start (blocksFrom start bsize (m + 1) ++ ys) := by
  induction m generalizing start with
  | zero =>
      rw [Nat.zero_mul, Nat.add_zero] at last
      refine ⟨?_, ?_, ?_⟩
      · show start = start + 0 * bsize
        rw [Nat.zero_mul, Nat.add_zero]
      · show start + 0 * bsize ≠ 0
        rwa [Nat.zero_mul, Nat.add_zero]
      · show Chain next (next (start + 0 * bsize)) ys
        rw [Nat.zero_mul, Nat.add_zero, last]
        exact chain
  | succ m ih =>
      have first := links 0 (Nat.succ_pos m)
      rw [Nat.zero_mul, Nat.add_zero, Nat.zero_add, Nat.one_mul] at first
      have step : ∀ i, start + (i + 1) * bsize = start + bsize + i * bsize := by
        intro i
        rw [Nat.succ_mul]
        omega
      rw [blocksFrom_succ, List.cons_append]
      refine ⟨rfl, valid, ?_⟩
      rw [first]
      apply ih
      · omega
      · intro i less
        rw [← step i, ← step (i + 1)]
        exact links (i + 1) (by omega)
      · rw [← step m]
        exact last

/-- **`prepend_contiguous_blocks` puts the blocks in front**, each node within its own block. -/
theorem prepend_isList {start bsize n fuel : Nat} (list : IsList mem self ys) (some : 1 ≤ n)
    (large : 8 ≤ bsize) (valid : start ≠ 0) (inside : start + n * bsize ≤ 2 ^ 64)
    (apart : ∀ x ∈ blocksFrom start bsize n, ∀ y ∈ ys, NodesApart x y) (enough : n ≤ fuel) :
    ∃ mem', prependContiguousBlocks mem self start (start + (n - 1) * bsize) bsize fuel =
        .some (mem', { first := start }) ∧
      IsList mem' { first := start } (blocksFrom start bsize n ++ ys) ∧
      OnlyNodes mem mem' (blocksFrom start bsize n) := by
  obtain ⟨m, rfl⟩ : ∃ m, n = m + 1 := ⟨n - 1, by omega⟩
  rw [Nat.add_sub_cancel]
  rw [Nat.succ_mul] at inside
  obtain ⟨mem', run, links, only⟩ :=
    prependLoop_spec mem m fuel start large enough (by omega)
  have split : blocksFrom start bsize (m + 1) = blocksFrom start bsize m ++ [start + m * bsize] := by
    rw [blocksFrom, List.range_succ, List.map_append]
    rfl
  have written : OnlyNodes mem (writeNode mem' (start + m * bsize) self.first)
      (blocksFrom start bsize (m + 1)) := by
    rw [split]
    exact only.trans onlyNodes_write
  refine ⟨writeNode mem' (start + m * bsize) self.first, ?_, ⟨?_, ?_, ?_⟩, written⟩
  · rw [prependContiguousBlocks, bind_of_some run]
    rfl
  · show Chain _ start (blocksFrom start bsize (m + 1) ++ ys)
    refine chain_blocksFrom valid (fun i less => ?_) (readNode_writeNode list.first_lt) ?_
    · rw [readNode_writeNode_apart]
      · exact links i less
      · have := Nat.mul_le_mul_right bsize (Nat.succ_le_of_lt less)
        rw [Nat.succ_mul] at this
        exact .inr (by omega)
    · exact (list.frame written apart).chain
  · intro y mem
    rcases List.mem_append.mp mem with mem | mem
    · obtain ⟨i, less, rfl⟩ := mem_blocksFrom.mp mem
      have := Nat.mul_le_mul_right bsize (Nat.le_of_lt_succ less)
      omega
    · exact list.inside y mem
  · exact List.pairwise_append.mpr ⟨blocksFrom_apart large, list.apart, apart⟩

/-! ### All operations -/

/-- **The block lists refine sequences.** -/
theorem block_lists :
    (∀ (mem : Bytes) (self : LL) (xs ys : List Nat),
      IsList mem self xs → IsList mem self ys → xs = ys) ∧
    (∀ (mem : Bytes) (self : LL) (xs : List Nat) (ptr : Nat), IsList mem self xs → ptr ≠ 0 →
      ptr + 8 ≤ 2 ^ 64 → (∀ x ∈ xs, NodesApart ptr x) →
      IsList (self.insertBlock mem ptr).1 (self.insertBlock mem ptr).2 (ptr :: xs) ∧
        OnlyNodes mem (self.insertBlock mem ptr).1 [ptr]) ∧
    (∀ (mem : Bytes) (self : LL) (x : Nat) (xs : List Nat), IsList mem self (x :: xs) →
      (self.popBlock mem).1 = x ∧ IsList mem (self.popBlock mem).2 xs) ∧
    (∀ (mem : Bytes) (self other : LL) (xs ys : List Nat) (fuel : Nat), IsList mem self ys →
      IsList mem other xs → (∀ x ∈ xs, ∀ y ∈ ys, NodesApart x y) → xs.length ≤ fuel →
      ∃ mem' self' other' count, append mem self other fuel = some (mem', self', other', count) ∧
        (xs.length < 2 ^ 32 → count.toNat = xs.length) ∧
        IsList mem' self' (xs ++ ys) ∧ IsList mem' other' [] ∧
        OnlyNodes mem mem' xs.getLast?.toList) ∧
    (∀ (mem : Bytes) (self : LL) (ys : List Nat) (start bsize n fuel : Nat), IsList mem self ys →
      1 ≤ n → 8 ≤ bsize → start ≠ 0 → start + n * bsize ≤ 2 ^ 64 →
      (∀ x ∈ blocksFrom start bsize n, ∀ y ∈ ys, NodesApart x y) → n ≤ fuel →
      ∃ mem', prependContiguousBlocks mem self start (start + (n - 1) * bsize) bsize fuel =
          some (mem', { first := start }) ∧
        IsList mem' { first := start } (blocksFrom start bsize n ++ ys) ∧
        OnlyNodes mem mem' (blocksFrom start bsize n)) ∧
    ∀ (mem : Bytes) (self : LL), IsList mem self.makeEmpty [] := by
  refine ⟨fun _ _ _ _ one two => one.unique two,
    fun _ _ _ _ list valid inside apart => insertBlock_isList list valid inside apart,
    fun _ _ _ _ list => popBlock_isList list, ?_, ?_, fun _ _ => isList_nil⟩
  · intro mem self other xs ys fuel list otherList apart enough
    obtain ⟨mem', self', other', run, rest⟩ := append_isList list otherList apart enough
    refine ⟨mem', self', other', BitVec.ofNat 32 xs.length, run, fun small => ?_, rest⟩
    rw [BitVec.toNat_ofNat]
    exact Nat.mod_eq_of_lt small
  · intro mem self ys start bsize n fuel list some large valid inside apart enough
    exact prepend_isList list some large valid inside apart enough

theorem block_lists_4096 :
    ∃ mem', prependContiguousBlocks (fun _ => 0) { first := 0 } 4096 (4096 + (2 - 1) * 16) 16 2 =
        some (mem', { first := 4096 }) ∧
      IsList mem' { first := 4096 } (blocksFrom 4096 16 2 ++ []) ∧
      OnlyNodes (fun _ => 0) mem' (blocksFrom 4096 16 2) :=
  block_lists.2.2.2.2.1 (fun _ => 0) { first := 0 } [] 4096 16 2 2 isList_nil (by decide) (by decide)
    (by decide) (by decide) (fun _ _ y mem => absurd mem List.not_mem_nil) le_rfl

/-- The blocks of `page_free_list_extend` are the ones that are prepended. -/
theorem prepend_contiguousBlocks {start bsize n : Nat} (some : 1 ≤ n) (positive : 0 < bsize) :
    contiguousBlocks (start + (n - 1) * bsize) bsize ((n - 1) * bsize) start =
      blocksFrom start bsize n := by
  have enough : n - 1 ≤ (n - 1) * bsize := Nat.le_mul_of_pos_right (n - 1) positive
  rw [Nat.mul_comm (n - 1) bsize] at enough ⊢
  rw [contiguousBlocks_eq positive (n - 1) enough, Nat.sub_add_cancel some]
  refine List.map_congr_left fun i _ => ?_
  rw [Nat.mul_comm]

end LL

end VerusMimalloc
