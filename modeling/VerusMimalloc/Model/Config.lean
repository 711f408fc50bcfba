/-
**Constants of the allocator.**

The numbers of `config.rs`, with the layout sizes of the headers, and the option values the code
reads. Machine words and addresses are natural numbers, the null pointer is `0`; the operations
that could leave the word size reduce explicitly.
-/

import Mathlib.Data.Nat.Log
import Mathlib.Tactic.Linarith

namespace VerusMimalloc

/-! ### Sizes -/

@[simp] def intptrSize : Nat := 8
@[simp] def sliceSize : Nat := 65536
@[simp] def segmentSize : Nat := 33554432
@[simp] def segmentAlign : Nat := segmentSize
@[simp] def slicesPerSegment : Nat := 512

@[simp] def binHuge : Nat := 73
@[simp] def binFull : Nat := binHuge + 1

@[simp] def mediumPageSize : Nat := 524288
@[simp] def smallObjSizeMax : Nat := 16384
@[simp] def mediumObjSizeMax : Nat := 131072
@[simp] def largeObjSizeMax : Nat := 16777216
@[simp] def maxAllocSize : Nat := 9223372036854775807

@[simp] def smallWsizeMax : Nat := 128
@[simp] def smallSizeMax : Nat := smallWsizeMax * intptrSize

@[simp] def maxAlignSize : Nat := 16
@[simp] def maxAlignGuarantee : Nat := 8 * maxAlignSize

@[simp] def segmentBinMax : Nat := 31
@[simp] def alignmentMax : Nat := 16777216

@[simp] def sizeofSegmentHeader : Nat := 264
@[simp] def sizeofPageHeader : Nat := 80

@[simp] def commitSize : Nat := sliceSize
@[simp] def commitMaskBits : Nat := slicesPerSegment
@[simp] def hugeBlockSize : Nat := 2147483648

/-- The page size of the operating system. -/
@[simp] def osPageSize : Nat := 4096

/-! ### Options -/

@[simp] def optionEagerCommitDelay : Nat := 1
@[simp] def optionEagerCommit : Bool := true
@[simp] def optionAllowDecommit : Bool := true
@[simp] def optionPageReset : Bool := false
@[simp] def optionDecommitDelay : Int := 25
@[simp] def optionDecommitExtendDelay : Int := 1

/-! ### Machine words -/

/-- Bitwise complement of a `usize`. -/
def complement (x : Nat) : Nat := 2 ^ 64 - 1 - x

/-- `i64::wrapping_add`. -/
def wrappingAdd64 (x y : Int) : Int := (x + y).bmod (2 ^ 64)

/-- `u64::leading_zeros`. -/
def leadingZeros (w : Nat) : Nat := if w = 0 then 64 else 63 - w.log2

end VerusMimalloc
