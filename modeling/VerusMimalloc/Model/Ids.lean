/-
**Identifiers of the ghost state.**

`tokens.rs`: segments, pages and blocks as the ghost state names them. Provenances are compared and
never looked into, so they come from any type.
-/

import VerusMimalloc.Model.Config

namespace VerusMimalloc

structure SegmentId (P : Type) where
  id : Nat
  provenance : P
  uniq : Int
  deriving DecidableEq

structure PageId (P : Type) where
  segmentId : SegmentId P
  idx : Nat
  deriving DecidableEq

variable {P : Type}

/-- `segment_start`. -/
def segmentStart (segmentId : SegmentId P) : Nat := segmentId.id * segmentSize

/-! ### Bins -/

/-- `valid_bin_idx`. -/
def validBinIdx (binIdx : Int) : Prop := 1 ≤ binIdx ∧ binIdx ≤ binHuge

instance : DecidablePred validBinIdx := fun _ => inferInstanceAs (Decidable (_ ∧ _))

/-- `size_of_bin`. -/
def sizeOfBin (binIdx : Int) : Nat :=
  if 1 ≤ binIdx ∧ binIdx ≤ 8 then 8 * binIdx.toNat
  else if binIdx = binHuge then 8 * (524288 + 1)
  else
    let group := (binIdx - 9) / 4
    let inner := (binIdx - 9) % 4
    (8 * (inner + 5) * 2 ^ (group + 1).toNat).toNat

/-- `smallest_bin_fitting_size`. -/
def smallestBinFittingSize (size : Int) : Int :=
  let wsize := (size + 7) / 8
  if wsize ≤ 1 then 1
  else if wsize ≤ 8 then wsize
  else if wsize > 524288 then binHuge
  else
    let w := (wsize - 1).toNat
    let b := 63 - leadingZeros w
    let shifted := (w >>> (b - 2)) % 256
    ((b * 4 + (shifted &&& 3) : Nat) : Int) - 3

/-- `valid_sbin_idx`. -/
def validSbinIdx (sbinIdx : Nat) : Prop := sbinIdx ≤ segmentBinMax

instance : DecidablePred validSbinIdx := fun _ => inferInstanceAs (Decidable (_ ≤ _))

/-- `smallest_sbin_fitting_size`. -/
def smallestSbinFittingSize (i : Nat) : Nat :=
  if i ≤ 8 then i
  else
    let w := i - 1
    let b := 63 - leadingZeros w
    ((b <<< 2) ||| ((w >>> (b - 2)) &&& 3)) - 4

theorem smallestSbinFittingSize_le : ∀ n ≤ 512, smallestSbinFittingSize n ≤ 31 := by decide +kernel

end VerusMimalloc
