/-
**Size classes.**

`bin` maps a request size to a page queue, `slice_bin` a span length to a span queue; the block
sizes of the page queues are the table that `pages_tmp` builds.

* `bin_eq`, `sliceBin_eq`: the bit formulas in terms of the leading power of two and the two bits
  below it;
* `le_queueBlockSize_bin`: the block size of a request's queue covers the request;
* `bin_queueBlockSize`: a queue's block size belongs to that queue;
* `bin_eq_iff_small`: the word sizes of a small bin are the range the direct table uses.
-/

import VerusMimalloc.Model.Config
import VerusMimalloc.Library.LeadingBits
import Mathlib.Tactic.IntervalCases
import Mathlib.Tactic.Linarith

namespace VerusMimalloc

open Library

/-- `bin`. -/
def bin (size : Nat) : Nat :=
  let wsize := (size + 7) / 8
  if wsize ≤ 1 then 1
  else if wsize ≤ 8 then wsize
  else
    let w := wsize - 1
    let lz := leadingZeros w
    let b := 63 - lz
    let shifted := (w >>> (b - 2)) % 256
    (b * 4 + (shifted &&& 3)) - 3

/-- `slice_bin`. -/
def sliceBin (sliceCount : Nat) : Nat :=
  if sliceCount ≤ 8 then sliceCount
  else
    let w := sliceCount - 1
    let lz := leadingZeros w
    let b := 63 - lz
    ((b <<< 2) ||| ((w >>> (b - 2)) &&& 3)) - 4

/-- The word sizes of the page queues, in the order of `pages_tmp`. -/
def pagesTmp : List Nat :=
  [1, 1, 2, 3, 4, 5, 6, 7, 8, 10, 12, 14, 16, 20, 24, 28, 32, 40, 48, 56, 64, 80, 96, 112, 128,
    160, 192, 224, 256, 320, 384, 448, 512, 640, 768, 896, 1024, 1280, 1536, 1792, 2048, 2560,
    3072, 3584, 4096, 5120, 6144, 7168, 8192, 10240, 12288, 14336, 16384, 20480, 24576, 28672,
    32768, 40960, 49152, 57344, 65536, 81920, 98304, 114688, 131072, 163840, 196608, 229376,
    262144, 327680, 393216, 458752, 524288, 524288 + 1, 524288 + 2]

/-- The block size of a page queue. -/
def queueBlockSize (pq : Nat) : Nat := pagesTmp.getD pq 0 * intptrSize

/-! ### The formulas -/

theorem leadingZeros_eq {w : Nat} (positive : 0 < w) (word : w < 2 ^ 64) :
    63 - leadingZeros w = w.log2 := by
  have small : w.log2 < 64 := (Nat.log2_lt (by omega)).mpr word
  rw [leadingZeros, if_neg (by omega)]
  omega

/-- The three leading bits of a word with at least three bits. -/
theorem top_bits {w : Nat} (large : 8 ≤ w) :
    3 ≤ w.log2 ∧ 4 ≤ w / 2 ^ (w.log2 - 2) ∧ w / 2 ^ (w.log2 - 2) < 8 := by
  obtain ⟨_, lower, upper⟩ := leading_bits (w := w) (by omega)
  exact ⟨(Nat.le_log2 (by omega)).mpr large, lower, upper⟩

theorem and_three {x : Nat} (lower : 4 ≤ x) (upper : x < 8) : x &&& 3 = x - 4 := by
  interval_cases x <;> rfl

/-- **The formula of `bin`** above eight words. -/
theorem bin_eq {size w : Nat} (words : (size + 7) / 8 = w + 1) (large : 8 ≤ w)
    (word : w < 2 ^ 64) :
    bin size = 4 * w.log2 + (w / 2 ^ (w.log2 - 2) - 4) - 3 := by
  obtain ⟨_, lower, upper⟩ := top_bits large
  simp only [bin, words]
  rw [if_neg (by omega), if_neg (by omega), Nat.add_sub_cancel,
    leadingZeros_eq (by omega) word, Nat.shiftRight_eq_div_pow, Nat.mod_eq_of_lt (by omega),
    and_three lower upper]
  omega

/-- **The formula of `slice_bin`** above eight slices. -/
theorem sliceBin_eq {w : Nat} (large : 8 ≤ w) (word : w < 2 ^ 64) :
    sliceBin (w + 1) = 4 * w.log2 + (w / 2 ^ (w.log2 - 2) - 4) - 4 := by
  obtain ⟨_, lower, upper⟩ := top_bits large
  simp only [sliceBin]
  rw [if_neg (by omega), Nat.add_sub_cancel, leadingZeros_eq (by omega) word,
    Nat.shiftRight_eq_div_pow, and_three lower upper, Nat.shiftLeft_eq,
    Nat.mul_comm w.log2, ← Nat.two_pow_add_eq_or_of_lt (b := w / 2 ^ (w.log2 - 2) - 4) (by omega)]

/-- `bin` looks at the word size only. -/
theorem bin_words (size : Nat) : bin (8 * ((size + 7) / 8)) = bin size := by
  have : (8 * ((size + 7) / 8) + 7) / 8 = (size + 7) / 8 := by omega
  simp only [bin, this]

/-! ### The queues of requests of at most 128 KiB -/

/-- The table entry of a queue above eight words. -/
theorem pagesTmp_eq : ∀ b < 14, 3 ≤ b → ∀ q < 4,
    pagesTmp.getD (4 * b + q - 3) 0 = (5 + q) * 2 ^ (b - 2) := by decide

/-- The position of a request of more than eight words. -/
theorem large_request {size : Nat} (medium : size ≤ mediumObjSizeMax) (large : 8 < (size + 7) / 8) :
    ∃ b q, 3 ≤ b ∧ b < 14 ∧ q < 4 ∧ bin size = 4 * b + q - 3 ∧
      (size + 7) / 8 ≤ (5 + q) * 2 ^ (b - 2) := by
  simp only [mediumObjSizeMax] at medium
  obtain ⟨w, words⟩ : ∃ w, (size + 7) / 8 = w + 1 := ⟨(size + 7) / 8 - 1, by omega⟩
  have atLeast : 8 ≤ w := by omega
  obtain ⟨three, lower, upper⟩ := top_bits atLeast
  have small : w.log2 < 14 := (Nat.log2_lt (by omega)).mpr (by omega)
  refine ⟨w.log2, w / 2 ^ (w.log2 - 2) - 4, three, small, by omega,
    bin_eq words atLeast (by omega), ?_⟩
  have := Nat.lt_mul_div_succ w (Nat.two_pow_pos (w.log2 - 2))
  have sum : 5 + (w / 2 ^ (w.log2 - 2) - 4) = w / 2 ^ (w.log2 - 2) + 1 := by omega
  rw [words, sum, Nat.mul_comm]
  omega

theorem bin_bounds {size : Nat} (medium : size ≤ mediumObjSizeMax) :
    1 ≤ bin size ∧ bin size ≤ 52 := by
  by_cases large : 8 < (size + 7) / 8
  · obtain ⟨b, q, _, _, _, same, _⟩ := large_request medium large
    omega
  · by_cases one : (size + 7) / 8 ≤ 1
    · simp [bin, one]
    · simp only [bin, if_neg one, if_pos (Nat.le_of_not_lt large)]
      omega

theorem pagesTmp_small : ∀ w < 9, 1 ≤ w → pagesTmp.getD w 0 = w := by decide

/-- **A request fits its queue's blocks.** -/
theorem le_queueBlockSize_bin {size : Nat} (medium : size ≤ mediumObjSizeMax) :
    size ≤ queueBlockSize (bin size) := by
  by_cases large : 8 < (size + 7) / 8
  · obtain ⟨b, q, three, small, two, same, fits⟩ := large_request medium large
    rw [same, queueBlockSize, pagesTmp_eq b small three q two, intptrSize]
    omega
  · by_cases one : (size + 7) / 8 ≤ 1
    · have : bin size = 1 := by simp [bin, one]
      rw [this]
      have : queueBlockSize 1 = 8 := rfl
      omega
    · have same : bin size = (size + 7) / 8 := by
        simp only [bin, if_neg one, if_pos (Nat.le_of_not_lt large)]
      rw [same, queueBlockSize, pagesTmp_small _ (by omega) (by omega), intptrSize]
      omega

/-- **A queue's block size belongs to the queue.** -/
theorem bin_queueBlockSize : ∀ pq ≤ 52, 1 ≤ pq → bin (queueBlockSize pq) = pq := by decide +kernel

theorem queueBlockSize_bounds : ∀ pq ≤ 52, 1 ≤ pq →
    8 ≤ queueBlockSize pq ∧ queueBlockSize pq ≤ 131072 ∧ 8 ∣ queueBlockSize pq := by decide

/-- A block size is at most 1024 exactly in the first 24 queues. -/
theorem queueBlockSize_small : ∀ pq ≤ 74, (queueBlockSize pq ≤ smallSizeMax ↔ pq ≤ 24) := by decide

/-- **The word sizes of a small bin** are those above the previous queue's block size. -/
theorem bin_eq_iff_small : ∀ pq ≤ 24, 1 ≤ pq → ∀ w ≤ 128,
    (bin (8 * w) = pq ↔
      (if queueBlockSize pq / 8 ≤ 1 then 0 else 1 + queueBlockSize (pq - 1) / 8) ≤ w ∧
        w ≤ queueBlockSize pq / 8) := by decide +kernel

/-! ### Span queues -/

theorem sliceBin_le : ∀ n ≤ 512, sliceBin n ≤ segmentBinMax := by decide +kernel

end VerusMimalloc
