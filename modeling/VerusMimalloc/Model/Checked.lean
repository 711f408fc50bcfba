/-
**The address roundings with every operation checked.**

The same code as `align_down`, `align_up` and `segment_commit_mask`, where a sum, a difference or a
product that leaves the 64-bit range ends the computation.

* `alignDownChecked_eq`, `alignUpChecked_eq`: where the roundings stay in range.
-/

import VerusMimalloc.Model.CommitSegment

namespace VerusMimalloc

/-! ### Checked operations -/

def addWord (x y : Nat) : Option Nat := if x + y < 2 ^ 64 then some (x + y) else none

def subWord (x y : Nat) : Option Nat := if y ≤ x then some (x - y) else none

def mulWord (x y : Nat) : Option Nat := if x * y < 2 ^ 64 then some (x * y) else none

variable {x y : Nat}

theorem addWord_eq (small : x + y < 2 ^ 64) : addWord x y = some (x + y) := if_pos small

theorem subWord_eq (le : y ≤ x) : subWord x y = some (x - y) := if_pos le

theorem mulWord_eq (small : x * y < 2 ^ 64) : mulWord x y = some (x * y) := if_pos small

theorem bind_of_some {α β : Type} {x : Option α} {a : α} {f : α → Option β} (result : x = some a) :
    (x >>= f) = f a := by
  rw [result]
  rfl

/-! ### Checked functions -/

/-- `align_down`, checked. -/
def alignDownChecked (x y : Nat) : Option Nat := do
  let mask ← subWord y 1
  if y &&& mask = 0 then some (x &&& complement mask) else mulWord (x / y) y

/-- `align_up`, checked. -/
def alignUpChecked (x y : Nat) : Option Nat := do
  let mask ← subWord y 1
  let sum ← addWord x mask
  if y &&& mask = 0 then some (sum &&& complement mask) else mulWord (sum / y) y

/-- `segment_commit_mask`, checked. -/
def segmentCommitMaskChecked (segment : Nat) (conservative : Bool) (p size : Nat) (cm : CommitMask) :
    Option (Nat × Nat × CommitMask) :=
  if size = 0 ∨ size > segmentSize then some (0, 0, cm)
  else do
    let segend ← addWord segment segmentSize
    if p ≥ segend then return (0, 0, cm)
    let segstart := sliceSize
    let segsize := segmentSize
    let pstart ← subWord p segment
    let sum ← addWord pstart size
    let start ←
      (if conservative then alignUpChecked pstart commitSize else alignDownChecked pstart commitSize)
    let stop ←
      (if conservative then alignDownChecked sum commitSize else alignUpChecked sum commitSize)
    let start := if pstart ≥ segstart ∧ start < segstart then segstart else start
    let stop := if stop > segsize then segsize else stop
    let startP ← addWord segment start
    let fullSize ← (if stop > start then subWord stop start else some 0)
    if fullSize = 0 then return (startP, fullSize, cm)
    return (startP, fullSize, cm.create (start / commitSize) (fullSize / commitSize))

/-- `os_page_align_areax`, checked. -/
def osPageAlignAreaxChecked (conservative : Bool) (addr size : Nat) : Option (Nat × Nat) :=
  if size = 0 ∨ addr = 0 then some (0, 0)
  else do
    let start ←
      (if conservative then alignUpChecked addr osPageSize else alignDownChecked addr osPageSize)
    let sum ← addWord addr size
    let stop ←
      (if conservative then alignDownChecked sum osPageSize else alignUpChecked sum osPageSize)
    let diff ← subWord stop start
    if diff ≤ 0 then return (0, 0)
    return (start, diff)

/-- The slices that `segments_page_alloc` asks for, checked. -/
def slicesNeededChecked (required : Nat) : Option Nat := do
  let alignment := if required > mediumPageSize then mediumPageSize else sliceSize
  let pageSize ← alignUpChecked required alignment
  return pageSize / sliceSize

theorem alignDownChecked_eq (positive : 0 < y) (word : x < 2 ^ 64) :
    alignDownChecked x y = some (alignDown x y) := by
  simp only [alignDownChecked, alignDown, Option.bind_eq_bind, Option.bind_some,
    subWord_eq (show 1 ≤ y from positive)]
  by_cases power : y &&& (y - 1) = 0
  · rw [if_pos power, if_pos power]
  · rw [if_neg power, if_neg power]
    exact mulWord_eq ((Nat.div_mul_le_self x y).trans_lt word)

theorem alignUpChecked_eq (positive : 0 < y) (word : x + (y - 1) < 2 ^ 64) :
    alignUpChecked x y = some (alignUp x y) := by
  simp only [alignUpChecked, alignUp, Option.bind_eq_bind, Option.bind_some,
    subWord_eq (show 1 ≤ y from positive), addWord_eq word]
  by_cases power : y &&& (y - 1) = 0
  · rw [if_pos power, if_pos power]
  · rw [if_neg power, if_neg power]
    exact mulWord_eq ((Nat.div_mul_le_self _ y).trans_lt word)

end VerusMimalloc
