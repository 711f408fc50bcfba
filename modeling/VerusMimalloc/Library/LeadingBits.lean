/-
**Classes of numbers by their three leading bits.**

The class of a number is its leading power of two and the two bits below it; the classes are
consecutive intervals, four to each power of two.

* `leadingClass`, `leastOf`: the class of a number, and the least number of a class;
* `leastOf_succ`, `leastOf_strict`: where a class ends, and that the classes follow one another;
* `leadingClass_spec`: a number lies between the ends of its class.
-/

import Mathlib.Data.Nat.Log
import Mathlib.Tactic.Linarith
import Mathlib.Tactic.Ring
import Mathlib.Order.Monotone.Basic

namespace Library

variable {w j k : Nat}

/-- Four times the leading power, plus the two bits below it. -/
def leadingClass (w : Nat) : Nat := 4 * w.log2 + (w / 2 ^ (w.log2 - 2) - 4)

/-- The least number of a class, for classes from 8 on. -/
def leastOf (j : Nat) : Nat := (j % 4 + 4) * 2 ^ (j / 4 - 2)

/-- The three leading bits. -/
theorem leading_bits (large : 4 ≤ w) :
    2 ≤ w.log2 ∧ 4 ≤ w / 2 ^ (w.log2 - 2) ∧ w / 2 ^ (w.log2 - 2) < 8 := by
  have nonzero : w ≠ 0 := by omega
  have two : 2 ≤ w.log2 := (Nat.le_log2 nonzero).mpr large
  have lower := Nat.log2_self_le nonzero
  have upper := Nat.lt_log2_self (n := w)
  have four : 2 ^ w.log2 = 4 * 2 ^ (w.log2 - 2) := by
    rw [← Nat.pow_sub_mul_pow 2 two, Nat.mul_comm]
  have eight : 2 ^ (w.log2 + 1) = 8 * 2 ^ (w.log2 - 2) := by
    rw [pow_succ, four]
    omega
  have positive := Nat.two_pow_pos (w.log2 - 2)
  refine ⟨two, (Nat.le_div_iff_mul_le positive).mpr (by omega), ?_⟩
  exact (Nat.div_lt_iff_lt_mul positive).mpr (by omega)

/-- The end of a class is the least number of the next one. -/
theorem leastOf_succ (large : 8 ≤ j) : leastOf (j + 1) = (j % 4 + 5) * 2 ^ (j / 4 - 2) := by
  unfold leastOf
  by_cases last : j % 4 = 3
  · have rest : (j + 1) % 4 = 0 := by omega
    have quotient : (j + 1) / 4 - 2 = j / 4 - 2 + 1 := by omega
    rw [rest, quotient, last, pow_succ]
    ring
  · have rest : (j + 1) % 4 = j % 4 + 1 := by omega
    have quotient : (j + 1) / 4 = j / 4 := by omega
    rw [rest, quotient]

theorem leastOf_lt_succ (large : 8 ≤ j) : leastOf j < leastOf (j + 1) := by
  rw [leastOf_succ large]
  exact Nat.mul_lt_mul_of_pos_right (by omega) (Nat.two_pow_pos _)

/-- The classes follow one another. -/
theorem leastOf_strict (large : 8 ≤ j) (less : j < k) : leastOf j < leastOf k := by
  induction k, less using Nat.le_induction with
  | base => exact leastOf_lt_succ large
  | succ k above ih => exact ih.trans (leastOf_lt_succ (by omega))

theorem leastOf_le (large : 8 ≤ j) (le : j ≤ k) : leastOf j ≤ leastOf k := by
  rcases Nat.eq_or_lt_of_le le with rfl | less
  · exact le_rfl
  · exact (leastOf_strict large less).le

/-- A class is at most a quarter as long as its least number. -/
theorem leastOf_succ_le (large : 8 ≤ j) : 4 * leastOf (j + 1) ≤ 5 * leastOf j := by
  rw [leastOf_succ large, leastOf, ← Nat.mul_assoc, ← Nat.mul_assoc]
  exact Nat.mul_le_mul_right _ (by omega)

/-- **A number lies between the ends of its class.** -/
theorem leadingClass_spec (large : 4 ≤ w) :
    8 ≤ leadingClass w ∧ leastOf (leadingClass w) ≤ w ∧ w < leastOf (leadingClass w + 1) := by
  obtain ⟨two, lower, upper⟩ := leading_bits large
  have rest : leadingClass w % 4 = w / 2 ^ (w.log2 - 2) - 4 := by
    unfold leadingClass
    omega
  have quotient : leadingClass w / 4 = w.log2 := by
    unfold leadingClass
    omega
  have atLeast : 8 ≤ leadingClass w := by
    unfold leadingClass
    omega
  refine ⟨atLeast, ?_, ?_⟩
  · have bits : leadingClass w % 4 + 4 = w / 2 ^ (w.log2 - 2) := by omega
    rw [leastOf, quotient, bits]
    exact Nat.div_mul_le_self _ _
  · have bits : leadingClass w % 4 + 5 = w / 2 ^ (w.log2 - 2) + 1 := by omega
    rw [leastOf_succ atLeast, quotient, bits, Nat.mul_comm]
    exact Nat.lt_mul_div_succ w (Nat.two_pow_pos _)

end Library
