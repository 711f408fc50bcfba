/-
**Memory of the operating system.**

`os_mem.rs`, `os_alloc.rs`, `os_commit.rs` and `arena.rs`: mapping fresh ranges and changing the
protection of a range, on the owner's view of which bytes may be read and written.
-/

import VerusMimalloc.Model.Types

namespace VerusMimalloc

namespace Local

variable (l : Local)

/-- One answer of the environment is used up. -/
def tick : Local := { l with os := { l.os with calls := l.os.calls + 1 } }

/-- The bytes of a range may be read and written from now on, or not. -/
def setAccessible (start len : Nat) (readWrite : Bool) : Local :=
  { l with os := { l.os with
      accessible := fun byte =>
        if start ≤ byte ∧ byte < start + len then readWrite else l.os.accessible byte } }

/-- `mprotect_prot_read_write` and `mprotect_prot_none`. Whether the change is granted is asked at the end of
the stretch that it is in, by `osStep`. -/
def protect (start len : Nat) (readWrite : Bool) : Local :=
  { l with os := { (l.setAccessible start len readWrite).os with
      protections := (start, len, readWrite) :: l.os.protections } }

variable {l} {start len byte : Nat} {readWrite : Bool}

@[simp] theorem protect_accessible : (l.protect start len readWrite).os.accessible byte =
    if start ≤ byte ∧ byte < start + len then readWrite else l.os.accessible byte := rfl
@[simp] theorem protect_segs : (l.protect start len readWrite).segs = l.segs := rfl
@[simp] theorem protect_protections : (l.protect start len readWrite).os.protections =
    (start, len, readWrite) :: l.os.protections := rfl

end Local

/-- `mmap_prot_read_write` and `mmap_prot_none`; `none` is `MAP_FAILED`. -/
def mmap (l : Local) (len : Nat) (readWrite : Bool) : Option Nat × Local :=
  match l.os.oracle.mmap l.os.calls len with
  | some p => (some p, l.tick.setAccessible p len readWrite)
  | none => (none, l.tick)

/-- `clock_now`. -/
def clockNow (l : Local) : Int × Local := (l.os.oracle.clock l.os.calls, l.tick)

/-- `current_thread_count`. -/
def currentThreadCount (l : Local) : Nat × Local := (l.os.oracle.threadCount l.os.calls, l.tick)

/-- `os_get_aligned_hint`, whose counter all threads share. -/
def osGetAlignedHint (l : Local) : Nat × Local := (l.os.oracle.hint l.os.calls, l.tick)

/-! ### Mapping -/

/-- `unix_mmapx`: first with a hint, then without. -/
def unixMmapx (l : Local) (size : Nat) (protRw : Bool) : Nat × Local :=
  let (hint, l) := osGetAlignedHint l
  let (hinted, l) := if hint ≠ 0 then mmap l size protRw else (none, l)
  match hinted with
  | some p => (p, l)
  | none =>
      match mmap l size protRw with
      | (some p, l) => (p, l)
      | (none, l) => (0, l)

/-- `unix_mmap`, with `os_mem_alloc`: the result is never a large page. -/
def unixMmap (l : Local) (size : Nat) (protRw : Bool) : Except Abort (Nat × Bool × Local) :=
  let (p, l) := unixMmapx l size protRw
  if p ≠ 0 then .ok (p, false, l) else .error .todo

/-- `os_mem_alloc_aligned`. -/
def osMemAllocAligned (l : Local) (size alignment : Nat) (requestCommit allowLarge : Bool) :
    Except Abort (Nat × Bool × Local) := do
  let allowLarge := if !requestCommit then false else allowLarge
  if ¬(osPageSize ≤ alignment ∧ alignment &&& (alignment - 1) = 0) then
    return (0, allowLarge, l)
  if size = 0 then return (0, allowLarge, l)
  let (p, isLarge, l) ← unixMmap l size requestCommit
  if p = 0 then return (p, isLarge, l)
  if p % alignment ≠ 0 then throw .todo
  return (p, isLarge, l)

/-- `os_good_alloc_size`. -/
def osGoodAllocSize (size : Nat) : Nat :=
  let kib := 1024
  let mib := 1024 * 1024
  let alignSize :=
    if size < 512 * kib then osPageSize
    else if size < 2 * mib then 64 * kib
    else if size < 8 * mib then 256 * kib
    else if size < 32 * mib then mib
    else 4 * mib
  if size ≥ 2 ^ 64 - 1 - alignSize then size else alignUp size alignSize

/-- `os_alloc_aligned`. -/
def osAllocAligned (l : Local) (size alignment : Nat) (requestCommit allowLarge : Bool) :
    Except Abort (Nat × Bool × Local) :=
  if size = 0 then .ok (0, allowLarge, l)
  else osMemAllocAligned l (osGoodAllocSize size) (alignUp alignment osPageSize) requestCommit
    allowLarge

/-- `arena_alloc_aligned` with `os_alloc_aligned_offset`: the address, whether it is committed, large
and pinned. -/
def arenaAllocAligned (l : Local) (size alignment alignOffset : Nat)
    (requestCommit allowLarge : Bool) : Except Abort ((Nat × Bool × Bool × Bool) × Local) :=
  if alignOffset > segmentSize then .ok ((0, requestCommit, allowLarge, allowLarge), l)
  else if alignOffset = 0 then do
    let (p, isLarge, l) ← osAllocAligned l size alignment requestCommit allowLarge
    return ((p, requestCommit, isLarge, isLarge), l)
  else .error .todo

/-! ### Protection -/

/-- `os_page_align_areax`. -/
def osPageAlignAreax (conservative : Bool) (addr size : Nat) : Nat × Nat :=
  if size = 0 ∨ addr = 0 then (0, 0)
  else
    let start := if conservative then alignUp addr osPageSize else alignDown addr osPageSize
    let stop :=
      if conservative then alignDown (addr + size) osPageSize else alignUp (addr + size) osPageSize
    let diff := stop - start
    if diff ≤ 0 then (0, 0) else (start, diff)

/-- `os_commitx`: it never returns an error. -/
def osCommitx (l : Local) (addr size : Nat) (commit conservative : Bool) : Bool × Local :=
  let (start, csize) := osPageAlignAreax conservative addr size
  if csize = 0 then (true, l) else (true, l.protect start csize commit)

/-- `os_commit`. -/
def osCommit (l : Local) (addr size : Nat) : Bool × Local := osCommitx l addr size true false

/-- `os_decommit`. -/
def osDecommit (l : Local) (addr size : Nat) : Bool × Local := osCommitx l addr size false true

end VerusMimalloc
