/-
**What the client keeps in its blocks.**

* `block_kept`: from one state to a later one, whatever the owner, other threads and the operating system do in
  between, a block that is not passed to `free` has the bytes that the client has written to it;
* `calloc_zeroed`: so `calloc` returns zeros, for as many bytes as the product that it computes says.
-/

import VerusMimalloc.Model.Client
import VerusMimalloc.Result.Memory.System

namespace VerusMimalloc

open Library Function

variable {c₀ c c' : MemSys} {earlier events : List MemEvent} {p size a : Nat} {bytes bytes' : Bytes}

/-! ### Bytes and events -/

/-- A byte after some events depends on this byte only. -/
theorem foldl_apply_congr (events : List MemEvent) (same : bytes a = bytes' a) :
    events.foldl MemEvent.apply bytes a = events.foldl MemEvent.apply bytes' a := by
  induction events generalizing bytes bytes' with
  | nil => exact same
  | cons event events ih =>
      refine ih ?_
      cases event with
      | write b v => simp only [MemEvent.apply, update_apply, same]
      | free ptr => exact same

/-- **A block keeps what the client writes.** In every run, a block that is live and not passed to `free` stays
live, and its bytes are those from before with the client's own writes. -/
theorem block_kept (start : memorySystem.start c₀) (before : memorySystem.Run c₀ earlier c)
    (live : (p, size) ∈ c.sys.st.sh.live) (run : memorySystem.Run c events c') (kept : .free p ∉ events) :
    (p, size) ∈ c'.sys.st.sh.live ∧
      ∀ a, p ≤ a → a < p + size → c'.mem.bytes a = events.foldl MemEvent.apply c.mem.bytes a := by
  have inv := (memInv_start start).run before
  induction run with
  | refl => exact ⟨live, fun _ _ _ => rfl⟩
  | @tail t u events event run step ih =>
      rw [List.mem_append, not_or] at kept
      obtain ⟨live', same⟩ := ih kept.1
      have other : event ≠ some (.free p) := fun isFree =>
        kept.2 (by rw [isFree]; exact List.mem_singleton.mpr rfl)
      obtain ⟨still, written⟩ := ((inv.run run).step step).2 p size live' other
      refine ⟨still, fun a lower upper => ?_⟩
      rw [written a lower upper, List.foldl_append]
      exact foldl_apply_congr event.toList (same a lower upper)

theorem block_kept_served : ∃ c c', memorySystem.Run c [.write 671154560 7] c' ∧
    (671154560, 24) ∈ c'.sys.st.sh.live ∧ ∀ a, 671154560 ≤ a → a < 671154560 + 24 →
      c'.mem.bytes a = [MemEvent.write 671154560 7].foldl MemEvent.apply c.mem.bytes a := by
  obtain ⟨c₀, earlier, c, start, before, _, live⟩ := served_in_memory
  have write : memorySystem.step _ _ _ :=
    MemSysStep.write c.sys c.mem 671154560 24 671154560 7 live le_rfl (by decide)
  exact ⟨c, _, .single write, block_kept start before live (.single write) (by decide)⟩

/-! ### `calloc` -/

/-- `core::ptr::write_bytes(p, 0, sz)` of `calloc`. -/
def callocWrites (p sz : Nat) : List MemEvent :=
  if p ≠ 0 then (List.range sz).map fun i => .write (p + i) 0 else []

/-- The event is a write into a range. -/
def MemEvent.within (p size : Nat) : MemEvent → Bool
  | .write a _ => decide (p ≤ a ∧ a < p + size)
  | .free _ => false

/-- Only writes into a range matter for its bytes. -/
theorem foldl_within (events : List MemEvent) (bytes : Bytes) (lower : p ≤ a) (upper : a < p + size) :
    events.foldl MemEvent.apply bytes a =
      (events.filter (MemEvent.within p size)).foldl MemEvent.apply bytes a := by
  induction events generalizing bytes with
  | nil => rfl
  | cons event events ih =>
      rw [List.filter_cons]
      split
      · exact ih _
      · rename_i outside
        refine (foldl_apply_congr events ?_).trans (ih bytes)
        cases event with
        | write b v =>
            have differs : a ≠ b := fun same => outside (by
              subst same
              exact decide_eq_true ⟨lower, upper⟩)
            exact update_of_ne differs _ _
        | free ptr => rfl

/-- What `write_bytes` writes. -/
theorem foldl_zeros (bytes : Bytes) (p n : Nat) (lower : p ≤ a) (upper : a < p + n) :
    ((List.range n).map fun i => MemEvent.write (p + i) 0).foldl MemEvent.apply bytes a = 0 := by
  induction n with
  | zero => omega
  | succ n ih =>
      rw [List.range_succ, List.map_append, List.foldl_append]
      show update _ (p + n) 0 a = _
      by_cases last : a = p + n
      · rw [last, update_self]
      · rw [update_of_ne last]
        exact ih (by omega)

/-- What `write_bytes` does is possible. -/
theorem run_zeros {sys : Sys} (live : (p, size) ∈ sys.st.sh.live) (m : Mem) {n : Nat} (bound : n ≤ size) :
    ∃ m', memorySystem.Run ⟨sys, m⟩ ((List.range n).map fun i => .write (p + i) 0) ⟨sys, m'⟩ := by
  induction n with
  | zero => exact ⟨m, .refl⟩
  | succ n ih =>
      obtain ⟨m', run⟩ := ih (by omega)
      have write : memorySystem.step _ _ _ :=
        MemSysStep.write sys m' p size (p + n) 0 live (Nat.le_add_right p n) (by omega)
      rw [List.range_succ, List.map_append]
      exact ⟨_, run.append (.single write)⟩

/-- **`calloc`.** When `malloc` has returned a block for the product that `calloc` computes, and `calloc` writes to
it while all others go on, the bytes of this block are zero. The block has room for the `number * size` bytes that
were asked for if and only if the product has not overflowed, which `calloc` does not look at. -/
theorem calloc_zeroed {number : Nat} (start : memorySystem.start c₀) (before : memorySystem.Run c₀ earlier c)
    (live : (p, (countSizeOverflow number size).1) ∈ c.sys.st.sh.live) (run : memorySystem.Run c events c')
    (kept : .free p ∉ events) (writes : events.filter (MemEvent.within p (countSizeOverflow number size).1) =
      callocWrites p (countSizeOverflow number size).1) :
    (∀ a, p ≤ a → a < p + (countSizeOverflow number size).1 → c'.mem.bytes a = 0) ∧
      (number * size ≤ blockSizeOf c'.sys.st.loc p ↔ (countSizeOverflow number size).2 = false) := by
  obtain ⟨live', same⟩ := block_kept start before live run kept
  have inv := (((memInv_start start).run before).run run).reachable.sysInv.inv.toCore
  obtain ⟨known, fits⟩ := inv.known_of_live live'
  obtain ⟨nonzero, _, _, bound⟩ := inv.wf.known_inside known
  refine ⟨fun a lower upper => ?_, ?_⟩
  · rw [same a lower upper, foldl_within events _ lower upper, writes, callocWrites, if_pos nonzero]
    exact foldl_zeros _ p _ lower upper
  · rw [countSizeOverflow] at fits ⊢
    split at fits
    · rename_i one
      rw [if_pos one, one, Nat.one_mul]
      exact iff_of_true fits rfl
    · rename_i more
      simp only [if_neg more, decide_eq_false_iff_not, not_le]
      refine ⟨fun room => by omega, fun small => ?_⟩
      rw [← Nat.mod_eq_of_lt small]
      exact fits

theorem calloc_zeroed_served : ∃ c c', (671154560, (countSizeOverflow 3 8).1) ∈ c.sys.st.sh.live ∧
    memorySystem.Run c (callocWrites 671154560 24) c' ∧
    (∀ a, 671154560 ≤ a → a < 671154560 + (countSizeOverflow 3 8).1 → c'.mem.bytes a = 0) ∧
    (3 * 8 ≤ blockSizeOf c'.sys.st.loc 671154560 ↔ (countSizeOverflow 3 8).2 = false) := by
  obtain ⟨c₀, earlier, c, start, before, _, live⟩ := served_in_memory
  obtain ⟨m', run⟩ := run_zeros live c.mem le_rfl
  exact ⟨c, _, live, run, calloc_zeroed start before live run (by decide) (by decide)⟩

end VerusMimalloc
