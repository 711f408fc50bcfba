/-
**How allocating spans can abort.**

The functions of `segment.rs` that allocate spans end in `todo()`, or run out of fuel; they never
subtract below zero.

* `segmentAlloc_error`, `segmentPageAlloc_error`, `pageFresh_error`.
-/

import VerusMimalloc.Model.Page

namespace VerusMimalloc

open Library

variable {ε α β : Type} {e : Abort} {l : Local}

/-- A sequence fails where one of its parts fails. -/
theorem bind_error {x : Except ε α} {f : α → Except ε β} {e : ε} (fails : x.bind f = .error e) :
    x = .error e ∨ ∃ value, x = .ok value ∧ f value = .error e := by
  cases x with
  | error other =>
      cases fails
      exact .inl rfl
  | ok value => exact .inr ⟨value, rfl, fails⟩

/-- Not every failure of the owner, but no subtraction below zero. -/
def Expected (e : Abort) : Prop := e = .timeout ∨ e = .todo ∨ e = .mprotect

theorem findInSpanQueue_error {sliceCount fuel slice : Nat}
    (fails : findInSpanQueue l sliceCount fuel slice = .error e) : e = .timeout := by
  induction fuel generalizing slice with
  | zero =>
      cases fails
      rfl
  | succ fuel ih =>
      rw [findInSpanQueue] at fails
      split at fails
      · cases fails
      split at fails
      · cases fails
      · exact ih fails

theorem findSpan_error {sliceCount fuel queues sbinIdx : Nat}
    (fails : findSpan l sliceCount fuel queues sbinIdx = .error e) : e = .timeout := by
  induction queues generalizing sbinIdx with
  | zero => cases fails
  | succ queues ih =>
      rw [findSpan] at fails
      split at fails
      · rcases bind_error fails with search | ⟨found, _, rest⟩
        · exact findInSpanQueue_error search
        · cases found with
          | some slice => cases rest
          | none => exact ih rest
      · cases fails

theorem segmentsPageFindAndAllocate_error {fuel sliceCount : Nat}
    (fails : segmentsPageFindAndAllocate fuel l sliceCount = .error e) : Expected e := by
  rcases bind_error fails with search | ⟨found, _, rest⟩
  · exact .inl (findSpan_error search)
  · cases found with
    | none => cases rest
    | some entry =>
        simp only at rest
        generalize segmentSpanAllocate _ _ _ _ = allocated at rest
        split at rest
        · cases rest
          exact .inr (.inl rfl)
        · cases rest

/-! ### Creating a segment -/

theorem osMemAllocAligned_error {size alignment : Nat} {commit large : Bool}
    (fails : osMemAllocAligned l size alignment commit large = .error e) : e = .todo := by
  unfold osMemAllocAligned at fails
  simp only at fails
  split at fails
  · cases fails
  split at fails
  · cases fails
  rcases bind_error fails with mapped | ⟨⟨p, isLarge, l₁⟩, _, rest⟩
  · unfold unixMmap at mapped
    simp only at mapped
    split at mapped
    · cases mapped
    · cases mapped
      rfl
  · simp only at rest
    split at rest
    · cases rest
    split at rest
    · cases rest
      rfl
    · cases rest

theorem segmentOsAlloc_error {alignment slices info : Nat} {eager commit : Bool}
    (fails : segmentOsAlloc l alignment eager slices info commit = .error e) : e = .todo := by
  unfold segmentOsAlloc at fails
  split at fails
  · cases fails
    rfl
  rcases bind_error fails with alloc | ⟨answer, _, rest⟩
  · unfold arenaAllocAligned at alloc
    split at alloc
    · cases alloc
    split at alloc
    · rcases bind_error alloc with mapped | ⟨_, _, done⟩
      · unfold osAllocAligned at mapped
        split at mapped
        · cases mapped
        · exact osMemAllocAligned_error mapped
      · cases done
    · cases alloc
      rfl
  · simp only at rest
    generalize (if answer.1.2.1 = true then CommitMask.createFull else .createEmpty) = mask at rest
    split at rest
    · cases rest
    split at rest
    · split at rest <;> cases rest
    · cases rest

/-- The segment's count of pages after a span came into use. -/
theorem segmentSpanAllocate_used {segment slice count : Nat}
    (success : (segmentSpanAllocate l segment slice count).1 = true) :
    ((segmentSpanAllocate l segment slice count).2.segs segment).used ≠ 0 := by
  unfold segmentSpanAllocate at success ⊢
  simp only at success ⊢
  split
  · rename_i failed
    rw [if_pos failed] at success
    cases success
  · simp

theorem segmentPerhapsDecommit_error {segment p size : Nat}
    (fails : segmentPerhapsDecommit l segment p size = .error e) : e = .todo := by
  unfold segmentPerhapsDecommit at fails
  split at fails
  · cases fails
  split at fails
  · cases fails
    rfl
  · simp only at fails
    split at fails <;> cases fails

theorem segmentSpanFree_error {segment index count : Nat} {decommit : Bool}
    (fails : segmentSpanFree l segment index count decommit = .error e) : e = .todo := by
  unfold segmentSpanFree at fails
  simp only at fails
  cases decommit with
  | false => cases fails
  | true =>
      rcases bind_error fails with changed | ⟨_, _, done⟩
      · exact segmentPerhapsDecommit_error changed
      · cases done

/-- **`segment_alloc`** never counts below zero. -/
theorem segmentAlloc_error {required alignment : Nat}
    (fails : segmentAlloc l required alignment = .error e) : e = .todo := by
  unfold segmentAlloc at fails
  simp only at fails
  rcases bind_error fails with alloc | ⟨answer, _, rest⟩
  · exact segmentOsAlloc_error alloc
  · split at rest
    · cases rest
    split at rest
    · cases rest
      rfl
    rename_i allocated
    have positive := segmentSpanAllocate_used (by simpa using allocated)
    rw [if_neg positive] at rest
    split at rest
    · rcases bind_error rest with freed | ⟨_, _, done⟩
      · exact segmentSpanFree_error freed
      · cases done
    · cases rest
      rfl

/-! ### Allocating a page -/

theorem segmentsPageAlloc_error {fuel required : Nat}
    (fails : segmentsPageAlloc fuel l required = .error e) : Expected e := by
  induction fuel generalizing l with
  | zero =>
      cases fails
      exact .inl rfl
  | succ fuel ih =>
      rw [segmentsPageAlloc] at fails
      rcases bind_error fails with search | ⟨⟨page, l₁⟩, _, rest⟩
      · exact segmentsPageFindAndAllocate_error search
      · simp only at rest
        split at rest
        · rcases bind_error rest with alloc | ⟨⟨segment, l₂⟩, _, again⟩
          · exact .inr (.inl (segmentAlloc_error alloc))
          · simp only at again
            split at again
            · cases again
            · exact ih again
        · cases rest

theorem segmentPageAlloc_error {fuel blockSize alignment : Nat}
    (fails : segmentPageAlloc fuel l blockSize alignment = .error e) : Expected e := by
  unfold segmentPageAlloc at fails
  split at fails
  · cases fails
    exact .inr (.inl rfl)
  split at fails
  · exact segmentsPageAlloc_error fails
  split at fails
  · exact segmentsPageAlloc_error fails
  split at fails
  · exact segmentsPageAlloc_error fails
  · cases fails
    exact .inr (.inl rfl)

/-- **`page_fresh`** never counts below zero. -/
theorem pageFresh_error {fuel pq : Nat} (fails : pageFresh fuel l pq = .error e) : Expected e := by
  unfold pageFresh at fails
  simp only at fails
  rcases bind_error fails with alloc | ⟨⟨page, l₁⟩, _, rest⟩
  · exact segmentPageAlloc_error alloc
  · simp only at rest
    split at rest <;> cases rest

end VerusMimalloc
