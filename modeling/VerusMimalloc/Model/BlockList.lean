/-
**Block lists in memory.**

`LL` of `linked_list.rs`: the first node of a list, with the address of the next node in the first
8 bytes of each block. The other fields of `LL` exist for the proof in the source only.
-/

import VerusMimalloc.Library.Bytes
import VerusMimalloc.Model.Checked

namespace VerusMimalloc

open Library

/-- `LL`. -/
structure LL where
  first : Nat
  deriving DecidableEq

/-- Reading the `Node` at `ptr`. -/
def readNode (mem : Bytes) (ptr : Nat) : Nat := mem.read ptr 8

/-- Writing `Node { ptr: next }` at `ptr`. -/
def writeNode (mem : Bytes) (ptr next : Nat) : Bytes := mem.write ptr 8 next

namespace LL

variable (mem : Bytes) (self other : LL)

/-- `insert_block`. -/
def insertBlock (ptr : Nat) : Bytes × LL := (writeNode mem ptr self.first, { first := ptr })

/-- `pop_block`. -/
def popBlock : Nat × LL := (self.first, { first := readNode mem self.first })

/-- The loop of `append`: the last node from `p` on, and the number of nodes. -/
def appendLoop : Nat → Nat → BitVec 32 → Option (Nat × BitVec 32)
  | 0, _, _ => none
  | fuel + 1, p, count =>
      let next := readNode mem p
      if next ≠ 0 then appendLoop fuel next (count + 1) else some (p, count)

/-- `append`: the memory, both lists and the number of blocks that moved. -/
def append (fuel : Nat) : Option (Bytes × LL × LL × BitVec 32) :=
  if other.first = 0 then some (mem, self, other, 0)
  else do
    let (p, count) ← appendLoop mem fuel other.first 1
    return (writeNode mem p self.first, { first := other.first }, { first := 0 }, count)

/-- The loop of `prepend_contiguous_blocks`. -/
def prependLoop (last bsize : Nat) : Nat → Bytes → Nat → Option (Bytes × Nat)
  | 0, _, _ => none
  | fuel + 1, mem, block =>
      if block < last then do
        let next ← addWord block bsize
        prependLoop last bsize fuel (writeNode mem block next) next
      else some (mem, block)

/-- `prepend_contiguous_blocks`. -/
def prependContiguousBlocks (start last bsize fuel : Nat) : Option (Bytes × LL) := do
  let (mem, block) ← prependLoop last bsize fuel mem start
  return (writeNode mem block self.first, { first := start })

/-- `make_empty`. -/
def makeEmpty (_self : LL) : LL := { first := 0 }

end LL

end VerusMimalloc
