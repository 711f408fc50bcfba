/-
**The arithmetic of size classes.**

* `binFormula`, `sizeOfSbin`: the sizes that `size_of_bin`, without its last bin, and `size_of_sbin`
  give to the classes;
* `binWord`: `bin` on machine words, where the 64-bit operations wrap around and an 8-bit value out
  of range is an overflow;
* `bin_least`, `sliceBin_least`: a size goes to the least class that holds it;
* `size_classes`.
-/

import VerusMimalloc.Model.BinSizes
import VerusMimalloc.Model.Ids
import Mathlib.Order.Bounds.Basic

namespace VerusMimalloc

open Library

variable {size count k : Nat}

/-- The formula of `size_of_bin`, for all bins from 1 on. -/
def binFormula (k : Nat) : Nat :=
  if 1 ≤ k ∧ k ≤ 8 then 8 * k else 8 * ((k - 9) % 4 + 5) * 2 ^ ((k - 9) / 4 + 1)

/-- `size_of_sbin`. -/
def sizeOfSbin (k : Nat) : Nat :=
  if k ≤ 7 then k
  else if k = 8 then 10
  else ((k - 8) % 4 + 5) * 2 ^ ((k - 8) / 4 + 1)

/-- An 8-bit value. -/
def asU8 (x : Nat) : Option Nat := if x < 256 then some x else none

/-- `bin` on machine words; `none` is an overflow of an 8-bit value. -/
def binWord (size : BitVec 64) : Option Nat :=
  let wsize := (size + 8 - 1) / 8
  if wsize ≤ 1 then some 1
  else if wsize ≤ 8 then asU8 wsize.toNat
  else do
    let w := wsize - 1
    let b ← asU8 (63 - leadingZeros w.toNat)
    let shifted := (w >>> (b - 2)).toNat % 256
    let high ← asU8 (b * 4)
    let sum ← asU8 (high + (shifted &&& 3))
    if 3 ≤ sum then some (sum - 3) else none

/-- `size_of_bin` is the formula, but for its last bin. -/
theorem sizeOfBin_eq (positive : 1 ≤ k) (ordinary : k ≠ binHuge) : sizeOfBin k = binFormula k := by
  unfold sizeOfBin binFormula
  simp only [binHuge] at ordinary
  by_cases small : k ≤ 8
  · rw [if_pos ⟨by omega, by omega⟩, if_pos ⟨positive, small⟩, Int.toNat_natCast]
  · rw [if_neg (by omega), if_neg (by simp only [binHuge]; omega), if_neg (by omega)]
    have group : (((k : Int) - 9) / 4 + 1).toNat = (k - 9) / 4 + 1 := by omega
    have inner : ((k : Int) - 9) % 4 = ((k - 9) % 4 : Nat) := by omega
    show (8 * ((k - 9 : Int) % 4 + 5) * 2 ^ (((k : Int) - 9) / 4 + 1).toNat).toNat = _
    rw [group, inner]
    exact_mod_cast Int.toNat_natCast _

/-! ### The classes are those of the leading bits -/

theorem binFormula_small (positive : 1 ≤ k) (small : k ≤ 8) : binFormula k = 8 * k := if_pos ⟨positive, small⟩

theorem binFormula_eq (large : 4 ≤ k) : binFormula k = 8 * leastOf (k + 4) := by
  by_cases small : k ≤ 8
  · have : k = 4 ∨ k = 5 ∨ k = 6 ∨ k = 7 ∨ k = 8 := by omega
    rcases this with rfl | rfl | rfl | rfl | rfl <;> rfl
  · have next : k + 4 = k + 3 + 1 := rfl
    have rest : (k + 3) % 4 = (k - 9) % 4 := by omega
    have quotient : (k + 3) / 4 - 2 = (k - 9) / 4 + 1 := by omega
    rw [next, leastOf_succ (by omega), rest, quotient, binFormula, if_neg (by omega), Nat.mul_assoc]

theorem sizeOfSbin_eq (large : 8 ≤ k) : sizeOfSbin k = leastOf (k + 5) := by
  by_cases first : k = 8
  · subst first
    rfl
  · have next : k + 5 = k + 4 + 1 := rfl
    have rest : (k + 4) % 4 = (k - 8) % 4 := by omega
    have quotient : (k + 4) / 4 - 2 = (k - 8) / 4 + 1 := by omega
    rw [next, leastOf_succ (by omega), rest, quotient, sizeOfSbin, if_neg (by omega), if_neg first]

/-- The sizes of the bins increase. -/
theorem binFormula_strict {j : Nat} (positive : 1 ≤ j) (less : j < k) : binFormula j < binFormula k := by
  by_cases small : k ≤ 8
  · rw [binFormula_small positive (by omega), binFormula_small (by omega) small]
    omega
  · rw [binFormula_eq (k := k) (by omega)]
    by_cases low : j < 4
    · have := leastOf_le (j := 12) (k := k + 4) (by decide) (by omega)
      have : leastOf 12 = 8 := rfl
      rw [binFormula_small positive (by omega)]
      omega
    · have := leastOf_strict (j := j + 4) (k := k + 4) (by omega) (by omega)
      rw [binFormula_eq (by omega)]
      omega

/-- The largest bin that a word reaches. -/
theorem binFormula_last : binFormula 240 = 2 ^ 64 := rfl

theorem leadingClass_large {w : Nat} (large : 8 ≤ w) : 12 ≤ leadingClass w := by
  obtain ⟨_, _, upper⟩ := leadingClass_spec (w := w) (by omega)
  by_contra low
  have := leastOf_le (j := leadingClass w + 1) (k := 12) (by omega) (by omega)
  have : leastOf 12 = 8 := rfl
  omega

/-- More than eight words. -/
theorem bin_leadingClass {w : Nat} (words : (size + 7) / 8 = w + 1) (large : 8 ≤ w) (word : w < 2 ^ 64) :
    bin size = leadingClass w - 3 := bin_eq words large word

/-- **A size goes to the least bin that holds it.** -/
theorem bin_least (word : size ≤ 2 ^ 64) : IsLeast {k | 1 ≤ k ∧ size ≤ binFormula k} (bin size) := by
  by_cases large : 8 < (size + 7) / 8
  · obtain ⟨w, words⟩ : ∃ w, (size + 7) / 8 = w + 1 := ⟨(size + 7) / 8 - 1, by omega⟩
    obtain ⟨_, lower, upper⟩ := leadingClass_spec (w := w) (by omega)
    have class' := leadingClass_large (w := w) (by omega)
    have next : leadingClass w - 3 + 4 = leadingClass w + 1 := by omega
    rw [bin_leadingClass words (by omega) (by omega)]
    refine ⟨⟨by omega, ?_⟩, fun k holds => ?_⟩
    · rw [binFormula_eq (by omega), next]
      omega
    · obtain ⟨positive, fits⟩ := holds
      by_contra less
      by_cases low : k < 4
      · rw [binFormula_small positive (by omega)] at fits
        omega
      · have := leastOf_le (j := k + 4) (k := leadingClass w) (by omega) (by omega)
        rw [binFormula_eq (by omega)] at fits
        omega
  · by_cases one : (size + 7) / 8 ≤ 1
    · have same : bin size = 1 := by simp only [bin, if_pos one]
      rw [same]
      refine ⟨⟨le_rfl, ?_⟩, fun k holds => holds.1⟩
      rw [binFormula_small le_rfl (by decide)]
      omega
    · have same : bin size = (size + 7) / 8 := by
        simp only [bin, if_neg one, if_pos (Nat.le_of_not_lt large)]
      rw [same]
      refine ⟨⟨by omega, ?_⟩, fun k holds => ?_⟩
      · rw [binFormula_small (by omega) (by omega)]
        omega
      · obtain ⟨positive, fits⟩ := holds
        by_contra less
        rw [binFormula_small positive (by omega)] at fits
        omega

/-- **The waste of a bin** above eight words is less than a quarter of the size. -/
theorem bin_waste (word : size ≤ 2 ^ 64) (large : 64 < size) :
    binFormula (bin size) - size < size / 4 := by
  obtain ⟨w, words⟩ : ∃ w, (size + 7) / 8 = w + 1 := ⟨(size + 7) / 8 - 1, by omega⟩
  obtain ⟨atLeast, lower, upper⟩ := leadingClass_spec (w := w) (by omega)
  have class' := leadingClass_large (w := w) (by omega)
  have next : leadingClass w - 3 + 4 = leadingClass w + 1 := by omega
  have short := leastOf_succ_le atLeast
  rw [bin_leadingClass words (by omega) (by omega), binFormula_eq (by omega), next]
  omega

/-- **A number of slices goes to the least span bin that holds it.** -/
theorem sliceBin_least (word : count < 2 ^ 64) : IsLeast {k | count ≤ sizeOfSbin k} (sliceBin count) := by
  by_cases large : 8 < count
  · obtain ⟨w, rfl⟩ : ∃ w, count = w + 1 := ⟨count - 1, by omega⟩
    obtain ⟨_, lower, upper⟩ := leadingClass_spec (w := w) (by omega)
    have class' := leadingClass_large (w := w) (by omega)
    have next : leadingClass w - 4 + 5 = leadingClass w + 1 := by omega
    have same : sliceBin (w + 1) = leadingClass w - 4 := sliceBin_eq (by omega) (by omega)
    rw [same]
    refine ⟨?_, fun k fits => ?_⟩
    · show w + 1 ≤ sizeOfSbin (leadingClass w - 4)
      rw [sizeOfSbin_eq (by omega), next]
      omega
    · change w + 1 ≤ sizeOfSbin k at fits
      by_contra less
      by_cases low : k ≤ 7
      · rw [sizeOfSbin, if_pos low] at fits
        omega
      · have := leastOf_le (j := k + 5) (k := leadingClass w) (by omega) (by omega)
        rw [sizeOfSbin_eq (by omega)] at fits
        omega
  · have same : sliceBin count = count := by simp only [sliceBin, if_pos (Nat.le_of_not_lt large)]
    have small : ∀ n < 9, n ≤ sizeOfSbin n := by decide
    rw [same]
    refine ⟨small count (by omega), fun k fits => ?_⟩
    change count ≤ sizeOfSbin k at fits
    by_contra less
    rw [sizeOfSbin, if_pos (by omega)] at fits
    omega

/-- **`bin` on machine words** does not overflow an 8-bit value. -/
theorem binWord_eq (word : size ≤ 2 ^ 64 - 8) : binWord (BitVec.ofNat 64 size) = some (bin size) := by
  have wsize : ((BitVec.ofNat 64 size + 8 - 1) / 8).toNat = (size + 7) / 8 := by
    rw [BitVec.toNat_udiv, BitVec.toNat_sub, BitVec.toNat_add, BitVec.toNat_ofNat]
    simp only [BitVec.reduceToNat]
    omega
  unfold binWord
  simp only [BitVec.le_def, wsize, BitVec.reduceToNat]
  by_cases one : (size + 7) / 8 ≤ 1
  · rw [if_pos one]
    simp only [bin, if_pos one]
  · rw [if_neg one]
    by_cases small : (size + 7) / 8 ≤ 8
    · rw [if_pos small, asU8, if_pos (by omega)]
      simp only [bin, if_neg one, if_pos small]
    · rw [if_neg small]
      obtain ⟨w, words⟩ : ∃ w, (size + 7) / 8 = w + 1 := ⟨(size + 7) / 8 - 1, by omega⟩
      have top : ((BitVec.ofNat 64 size + 8 - 1) / 8 - 1).toNat = w := by
        rw [BitVec.toNat_sub, wsize, words]
        simp only [BitVec.reduceToNat]
        omega
      obtain ⟨_, lower, upper⟩ := top_bits (w := w) (by omega)
      have high : w.log2 < 61 := (Nat.log2_lt (by omega)).mpr (by omega)
      have bits : w / 2 ^ (w.log2 - 2) % 256 &&& 3 = w / 2 ^ (w.log2 - 2) - 4 := by
        rw [Nat.mod_eq_of_lt (by omega), and_three lower upper]
      rw [bin_eq words (by omega) (by omega), top, leadingZeros_eq (by omega) (by omega)]
      simp only [asU8, Option.bind_eq_bind, BitVec.toNat_ushiftRight, top, Nat.shiftRight_eq_div_pow]
      rw [if_pos (by omega), Option.bind_some, if_pos (by omega), Option.bind_some, bits,
        if_pos (by omega), Option.bind_some, if_pos (by omega), Nat.mul_comm]

/-- **The size classes**: each size goes to the least class that holds it, on machine words without
an overflow of an 8-bit value, and what follows from this. -/
theorem size_classes :
    (∀ size ≤ 2 ^ 64 - 8, binWord (BitVec.ofNat 64 size) = some (bin size) ∧
      IsLeast {k | 1 ≤ k ∧ size ≤ binFormula k} (bin size) ∧
      (64 < size → binFormula (bin size) - size < size / 4)) ∧
    (∀ size size', size ≤ size' → size' ≤ 2 ^ 64 - 8 → bin size ≤ bin size') ∧
    (∀ size ≤ 2 ^ 64 - 8, bin (binFormula (bin size)) = bin size) ∧
    (∀ count < 2 ^ 64, IsLeast {k | count ≤ sizeOfSbin k} (sliceBin count)) ∧
    ∀ count count', count ≤ count' → count' < 2 ^ 64 → sliceBin count ≤ sliceBin count' := by
  refine ⟨fun size word => ⟨binWord_eq word, bin_least (by omega), bin_waste (by omega)⟩,
    fun size size' le word => ?_, fun size word => ?_, fun count word => sliceBin_least word,
    fun count count' le word => ?_⟩
  · obtain ⟨positive, fits⟩ := (bin_least (show size' ≤ 2 ^ 64 by omega)).1
    exact (bin_least (show size ≤ 2 ^ 64 by omega)).2 ⟨positive, le.trans fits⟩
  · obtain ⟨⟨positive, _⟩, least⟩ := bin_least (show size ≤ 2 ^ 64 by omega)
    have last : bin size ≤ 240 := least ⟨by decide, by rw [binFormula_last]; omega⟩
    have bound : binFormula (bin size) ≤ 2 ^ 64 := by
      rcases Nat.eq_or_lt_of_le last with same | less
      · rw [same, binFormula_last]
      · have := binFormula_strict positive less
        rw [binFormula_last] at this
        omega
    refine (bin_least bound).unique ⟨⟨positive, le_rfl⟩, fun k holds => ?_⟩
    by_contra less
    have := binFormula_strict holds.1 (Nat.lt_of_not_le less)
    have := holds.2
    omega
  · exact (sliceBin_least (by omega)).2 (le.trans (sliceBin_least word).1)

/-- The edge at 128 words. -/
theorem size_classes_edge : bin 1024 = 24 ∧ bin 1025 = 25 ∧
    IsLeast {k | 1 ≤ k ∧ 1025 ≤ binFormula k} (bin 1025) ∧ bin 1024 ≤ bin 1025 :=
  ⟨by decide, by decide, (size_classes.1 1025 (by decide)).2.1,
    size_classes.2.1 1024 1025 (by decide) (by decide)⟩

end VerusMimalloc
