/-
**Bytes, words and chains in memory.**

A memory gives a byte at every address; `read` and `write` move a word of `k` bytes, low byte first.
A chain is a sequence of non-zero addresses, each leading to the next and the last one to zero.

* `read_write`, `read_write_apart`: a word is read back where it was written, and nowhere else;
* `Chain.congr`, `Chain.splice`: chains after a change of some of their links;
* `Chain.unique`: a first address has one chain.
-/

import Mathlib.Data.List.Basic
import Mathlib.Logic.Function.Basic
import Mathlib.Tactic.Ring

namespace Library

/-! ### Words -/

abbrev Bytes := Nat → BitVec 8

namespace Bytes

variable {m m' : Bytes} {a b c k j v : Nat}

/-- The word of `k` bytes at `a`. -/
def read (m : Bytes) : Nat → Nat → Nat
  | _, 0 => 0
  | a, k + 1 => (m a).toNat + 256 * read m (a + 1) k

/-- Writing `k` bytes of `v` at `a`. -/
def write (m : Bytes) : Nat → Nat → Nat → Bytes
  | _, 0, _ => m
  | a, k + 1, v => Function.update (write m (a + 1) k (v / 256)) a (BitVec.ofNat 8 v)

/-- **Bytes apart from the word keep their value.** -/
theorem write_apart (apart : c < a ∨ a + k ≤ c) : write m a k v c = m c := by
  induction k generalizing a v with
  | zero => rfl
  | succ k ih =>
      have other : c ≠ a := by omega
      rw [write, Function.update_of_ne other, ih (by omega)]

/-- The bytes of the word are those of its value. -/
theorem write_inside (lower : a ≤ c) (upper : c < a + k) : write m a k v c = write m' a k v c := by
  induction k generalizing a v with
  | zero => omega
  | succ k ih =>
      by_cases first : c = a
      · rw [first, write, write, Function.update_self, Function.update_self]
      · rw [write, write, Function.update_of_ne first, Function.update_of_ne first]
        exact ih (by omega) (by omega)

/-- **The last value of a word stays.** -/
theorem write_write {w : Nat} : write (write m a k v) a k w = write m a k w := by
  funext c
  by_cases inside : a ≤ c ∧ c < a + k
  · exact write_inside inside.1 inside.2
  · have apart : c < a ∨ a + k ≤ c := by omega
    rw [write_apart apart, write_apart apart, write_apart apart]

theorem read_congr (same : ∀ c, a ≤ c → c < a + k → m c = m' c) : read m a k = read m' a k := by
  induction k generalizing a with
  | zero => rfl
  | succ k ih =>
      have rest : read m (a + 1) k = read m' (a + 1) k := by
        apply ih
        intro c above below
        exact same c (by omega) (by omega)
      rw [read, read, same a le_rfl (by omega), rest]

/-- **A word is read back.** -/
theorem read_write (bound : v < 256 ^ k) : read (write m a k v) a k = v := by
  induction k generalizing a v with
  | zero =>
      rw [pow_zero] at bound
      exact (Nat.lt_one_iff.mp bound).symm
  | succ k ih =>
      have rest : v / 256 < 256 ^ k := by
        rw [pow_succ] at bound
        exact Nat.div_lt_of_lt_mul (by rwa [Nat.mul_comm] at bound)
      have tail : read (write m a (k + 1) v) (a + 1) k = v / 256 := by
        rw [← ih (a := a + 1) rest]
        apply read_congr
        intro c above _
        exact Function.update_of_ne (by omega) _ _
      rw [read, tail, write, Function.update_self, BitVec.toNat_ofNat]
      exact Nat.mod_add_div v 256

theorem read_write_apart (apart : b + j ≤ a ∨ a + k ≤ b) : read (write m a k v) b j = read m b j := by
  apply read_congr
  intro c above below
  exact write_apart (by omega)

end Bytes

/-! ### Chains -/

/-- The addresses `xs`, from `first` on, each leading to the next one. -/
def Chain (next : Nat → Nat) : Nat → List Nat → Prop
  | first, [] => first = 0
  | first, x :: xs => first = x ∧ x ≠ 0 ∧ Chain next (next x) xs

namespace Chain

variable {next next' : Nat → Nat} {first second x : Nat} {xs ys : List Nat}

theorem head (chain : Chain next first xs) : first = xs.headD 0 := by
  cases xs with
  | nil => exact chain
  | cons x xs => exact chain.1

theorem eq_nil_iff (chain : Chain next first xs) : first = 0 ↔ xs = [] := by
  cases xs with
  | nil => exact ⟨fun _ => rfl, fun _ => chain⟩
  | cons x xs =>
      constructor
      · intro zero
        exact absurd (chain.1.symm.trans zero) chain.2.1
      · intro empty
        exact absurd empty (List.cons_ne_nil x xs)

/-- A chain only depends on the links of its addresses. -/
theorem congr (chain : Chain next first xs) (same : ∀ x ∈ xs, next' x = next x) :
    Chain next' first xs := by
  induction xs generalizing first with
  | nil => exact chain
  | cons x xs ih =>
      refine ⟨chain.1, chain.2.1, ?_⟩
      rw [same x List.mem_cons_self]
      exact ih chain.2.2 fun y mem => same y (List.mem_cons_of_mem x mem)

/-- **Two chains joined**, where the last address of the first one now leads to the second. -/
theorem splice (front : Chain next first (xs ++ [x])) (back : Chain next' second ys)
    (same : ∀ y ∈ xs, next' y = next y) (link : next' x = second) :
    Chain next' first (xs ++ [x] ++ ys) := by
  induction xs generalizing first with
  | nil =>
      refine ⟨front.1, front.2.1, ?_⟩
      rw [link]
      exact back
  | cons y xs ih =>
      refine ⟨front.1, front.2.1, ?_⟩
      rw [same y List.mem_cons_self]
      exact ih front.2.2 fun z mem => same z (List.mem_cons_of_mem y mem)

/-- **A first address has one chain.** -/
theorem unique (one : Chain next first xs) (two : Chain next first ys) : xs = ys := by
  induction xs generalizing first ys with
  | nil => exact (two.eq_nil_iff.mp one).symm
  | cons x xs ih =>
      cases ys with
      | nil => exact absurd (one.1.symm.trans two) one.2.1
      | cons y ys =>
          have same : x = y := one.1.symm.trans two.1
          subst same
          rw [ih one.2.2 two.2.2]

end Chain

end Library
