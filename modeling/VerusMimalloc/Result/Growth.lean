/-
**Initialising and growing a page.**

* `PageInitialised`: what `page_init` writes, for every block size that `bin` produces for a request of at
  most 128 KiB and the slices that `segments_page_alloc` gives a page of such blocks;
* `Extended`: what one call of `page_extend_free` adds to a page that is not full;
* `Filled`: what finitely many calls add;
* `page_growth`: these hold.
-/

import VerusMimalloc.Result.Addresses

namespace VerusMimalloc

variable {l l' : Local} {segment k a blockSize size n : Nat}

/-- The slices of a page, as `segment_page_alloc` and `segments_page_alloc` choose them. -/
def slicesChosen (blockSize : Nat) : Nat :=
  slicesNeeded (if blockSize ≤ smallObjSizeMax then blockSize else mediumPageSize)

/-- `segment_page_alloc` asks for these slices. -/
theorem segmentPageAlloc_slices (fuel : Nat) (medium : blockSize ≤ mediumObjSizeMax) :
    segmentPageAlloc fuel l blockSize 0 = segmentsPageAlloc fuel l
      (if blockSize ≤ smallObjSizeMax then blockSize else mediumPageSize) := by
  unfold segmentPageAlloc
  rw [if_neg (by decide)]
  by_cases small : blockSize ≤ smallObjSizeMax
  · rw [if_pos small, if_pos small]
  · rw [if_neg small, if_pos medium, if_neg small]

/-! ### What the calls do -/

/-- A page whose free lists hold blocks of the page, each once. -/
structure GrowingPage (l : Local) (a : Nat) : Prop where
  size : 0 < (l.pages a).xblockSize
  capacity : (l.pages a).capacity ≤ (l.pages a).reserved
  inside : ∀ p ∈ (l.pages a).free ++ (l.pages a).localFree, p ∈ blocksOf l a
  nodup : ((l.pages a).free ++ (l.pages a).localFree).Nodup

/-- What `page_init` writes to the header `a` of the span at slice `k`. -/
structure PageInitialised (l l' : Local) (segment k a blockSize : Nat) : Prop where
  xblockSize : (l'.pages a).xblockSize = blockSize
  reserved : (l'.pages a).reserved =
    ((l.pages a).count * sliceSize - calculateStartOffset blockSize) / blockSize
  room : 1 ≤ (l'.pages a).reserved
  word : (l'.pages a).reserved < 2 ^ 16
  fits : ∀ i < (l'.pages a).reserved, segment + k * sliceSize ≤ blockAt l' a i ∧
    blockAt l' a i + blockSize ≤ segment + (k + (l.pages a).count) * sliceSize
  growing : GrowingPage l' a
  free : (l'.pages a).free = blocksOf l' a

/-- What one call of `page_extend_free` does. -/
structure Extended (l : Local) (a : Nat) : Prop where
  full : (l.pages a).capacity = (l.pages a).reserved → pageExtendFree l a = l
  grows : (l.pages a).capacity < (l.pages a).reserved →
    ∃ n, 1 ≤ n ∧ n ≤ extendLimit (l.pages a).xblockSize ∧
      (l.pages a).capacity + n ≤ (l.pages a).reserved ∧
      pageExtendFree l a = l.modifyPage a fun p =>
        { p with
          free := (List.range n).map (fun i => blockAt l a ((l.pages a).capacity + i)) ++ p.free
          capacity := p.capacity + n }
  fresh : ∀ i, (l.pages a).capacity ≤ i → blockAt l a i ∉ blocksOf l a
  once : ∀ i j, blockAt l a i = blockAt l a j → i = j
  growing : GrowingPage (pageExtendFree l a) a

/-- What `n` calls of `page_extend_free` do that fill the page. -/
structure Filled (l : Local) (a n : Nat) : Prop where
  bound : n ≤ (l.pages a).reserved - (l.pages a).capacity
  header : ∃ free, (fun l => pageExtendFree l a)^[n] l =
    l.modifyPage a (fun p => { p with free, capacity := p.reserved }) ∧
    free.Perm ((List.range ((l.pages a).reserved - (l.pages a).capacity)).map
      (fun i => blockAt l a ((l.pages a).capacity + i)) ++ (l.pages a).free)
  growing : GrowingPage ((fun l => pageExtendFree l a)^[n] l) a

/-! ### They do it -/

theorem blockAt_injective (positive : 0 < (l.pages a).xblockSize) :
    Function.Injective (blockAt l a) := by
  intro i j same
  simp only [blockAt, calculatePageBlockAt, Nat.add_left_cancel_iff] at same
  exact Nat.eq_of_mul_eq_mul_left positive same

theorem blockAt_not_mem (positive : 0 < (l.pages a).xblockSize) {i : Nat}
    (later : (l.pages a).capacity ≤ i) : blockAt l a i ∉ blocksOf l a := by
  intro inside
  obtain ⟨j, small, same⟩ := mem_blocksOf.mp inside
  have equal := blockAt_injective positive same
  omega

theorem setCapacity_self {p : Page} (full : p.capacity = p.reserved) :
    { p with free := p.free, capacity := p.reserved } = p := by
  cases p
  simp only at full
  subst full
  rfl

namespace GrowingPage

/-- One call keeps the page well formed. -/
theorem extend (page : GrowingPage l a) : GrowingPage (pageExtendFree l a) a := by
  have extended := pageExtendFree_exact l a page.size
  have room := (extendCount_bounds (l.pages a)).1
  rw [Nat.max_eq_left page.capacity] at room
  generalize extendCount (l.pages a) = n at extended room
  have header : (pageExtendFree l a).pages a =
      { l.pages a with
        free := freshBlocks l a n ++ (l.pages a).free
        capacity := (l.pages a).capacity + n } := by
    rw [extended, Local.modifyPage_pages, if_pos rfl]
  have blocks : blocksOf (pageExtendFree l a) a = blocksOf l a ++ freshBlocks l a n :=
    blocksOf_extend (by rw [header]) (by rw [header])
  refine ⟨by rw [header]; exact page.size, by rw [header]; exact room, ?_, ?_⟩
  · rw [header, blocks]
    intro p inside
    simp only [List.append_assoc, List.mem_append] at inside ⊢
    rcases inside with fresh | old
    · exact .inr fresh
    · exact .inl (page.inside p (List.mem_append.mpr old))
  · rw [header]
    simp only [List.append_assoc]
    refine List.nodup_append.mpr ⟨?_, page.nodup, fun p fresh q old same => ?_⟩
    · exact List.nodup_range.map fun i j same => by
        have := blockAt_injective page.size same
        omega
    · obtain ⟨i, _, rfl⟩ := List.mem_map.mp fresh
      exact blockAt_not_mem page.size (Nat.le_add_right _ _) (page.inside _ (same ▸ old))

theorem extended (page : GrowingPage l a) : Extended l a := by
  refine ⟨fun full => ?_, fun room => ?_, fun i later => blockAt_not_mem page.size later,
    fun i j same => blockAt_injective page.size same, page.extend⟩
  · unfold pageExtendFree
    exact if_pos full.ge
  · obtain ⟨bound, some⟩ := extendCount_bounds (l.pages a)
    rw [Nat.max_eq_left page.capacity] at bound
    exact ⟨_, some room, Nat.min_le_left _ _, bound, pageExtendFree_exact l a page.size⟩

/-- **Finitely many calls fill the page.** -/
theorem filled (page : GrowingPage l a) : ∃ n, Filled l a n := by
  obtain ⟨left, leftEq⟩ : ∃ left, left = (l.pages a).reserved - (l.pages a).capacity := ⟨_, rfl⟩
  induction left using Nat.strong_induction_on generalizing l with
  | _ left ih =>
      by_cases full : (l.pages a).capacity = (l.pages a).reserved
      · refine ⟨0, Nat.zero_le _, ⟨(l.pages a).free, ?_, ?_⟩, page⟩
        · refine (modifyPage_self l a ?_).symm
          rw [← setCapacity_self full]
        · rw [full, Nat.sub_self]
          exact .refl _
      · obtain ⟨m, positive, _, room, extended⟩ :=
          page.extended.grows (Nat.lt_of_le_of_ne page.capacity full)
        have header : (pageExtendFree l a).pages a =
            { l.pages a with
              free := freshBlocks l a m ++ (l.pages a).free
              capacity := (l.pages a).capacity + m } := by
          rw [extended, Local.modifyPage_pages, if_pos rfl]
          rfl
        obtain ⟨n, bound, ⟨free, filled, perm⟩, growing⟩ := ih _ (by rw [header]; simp only; omega) page.extend rfl
        rw [header] at bound perm
        simp only at bound perm
        refine ⟨n + 1, by omega, ⟨free, ?_, ?_⟩, growing⟩
        · rw [Function.iterate_succ_apply, filled, extended]
          simp only [Local.modifyPage]
          congr 1
          funext x
          by_cases here : x = a
          · simp only [if_pos here]
          · simp only [if_neg here]
        · have later : (l.pages a).reserved - (l.pages a).capacity =
              m + ((l.pages a).reserved - ((l.pages a).capacity + m)) := by omega
          have same : blockAt (pageExtendFree l a) a = blockAt l a := blockAt_congr (by rw [header])
          rw [same] at perm
          rw [later, List.range_add, List.map_append, List.map_map, List.append_assoc]
          refine perm.trans ?_
          rw [← List.append_assoc, ← List.append_assoc]
          refine (List.perm_append_comm.trans ?_).append_right _
          simp only [freshBlocks, Function.comp_def, Nat.add_assoc]
          exact .refl _

end GrowingPage

/-! ### A fresh page -/

theorem slicesChosen_eq (positive : 0 < blockSize) : slicesChosen blockSize = pageSlices blockSize := by
  unfold slicesChosen pageSlices
  by_cases small : blockSize ≤ smallObjSizeMax
  · rw [if_pos small, if_pos small]
    exact slicesNeeded_small positive small
  · rw [if_neg small, if_neg small]
    exact slicesNeeded_medium

/-- **`page_init`.** -/
theorem pageInit_initialised (medium : size ≤ mediumObjSizeMax) (aligned : segmentSize ∣ segment)
    (inside : k ≤ slicesPerSegment)
    (count : (l.pages (getPageHeaderPtr segment k)).count = slicesChosen (queueBlockSize (bin size)))
    (clean : Clean (l.pages (getPageHeaderPtr segment k))) :
    PageInitialised l (pageInit l (getPageHeaderPtr segment k) (queueBlockSize (bin size))) segment k
      (getPageHeaderPtr segment k) (queueBlockSize (bin size)) := by
  obtain ⟨lower, upper⟩ := bin_bounds medium
  generalize bin size = pq at *
  obtain ⟨sizeLower, sizeUpper, _⟩ := queueBlockSize_bounds pq upper lower
  rw [slicesChosen_eq (by omega)] at count
  obtain ⟨room, word⟩ := reserved_bounds lower upper
  generalize getEq : getPageHeaderPtr segment k = a at *
  obtain ⟨n, bound, _, init⟩ := pageInit_eq l a (queueBlockSize pq) (by omega) (by omega) clean
  rw [count, word] at bound init
  obtain ⟨l₁, l₁Eq⟩ : ∃ l₁, l₁ = pageInit l a (queueBlockSize pq) := ⟨_, rfl⟩
  rw [← l₁Eq] at init ⊢
  have header := congrArg (fun l => l.pages a) init
  simp only [Local.modifyPage_pages, if_true] at header
  have slices : 1 ≤ pageSlices (queueBlockSize pq) := by
    unfold pageSlices
    split <;> decide
  have offset := (PageOk.startOffset_bounds (queueBlockSize pq)).1
  have nodup : (blocksOf l₁ a).Nodup := List.nodup_range.map (blockAt_injective (by
    rw [header]
    simp only
    omega))
  refine ⟨by rw [header], by rw [header, count], by rw [header]; exact room, ?_, ?_, ?_, by rw [header]⟩
  · rw [header]
    simp only
    rw [← word]
    exact Nat.mod_lt _ (by decide)
  · intro i small
    rw [header] at small
    simp only at small
    have address : blockAt l₁ a i =
        segment + k * sliceSize + calculateStartOffset (queueBlockSize pq) + queueBlockSize pq * i := by
      rw [blockAt, header]
      simp only [calculatePageBlockAt]
      rw [← getEq, calculatePageStart_header aligned inside]
    have last : queueBlockSize pq * (i + 1) ≤
        pageSlices (queueBlockSize pq) * sliceSize - calculateStartOffset (queueBlockSize pq) :=
      (Nat.mul_le_mul_left _ small).trans (Nat.mul_div_le _ _)
    rw [Nat.mul_add, Nat.mul_one] at last
    rw [address, count]
    simp only [sliceSize] at last ⊢
    omega
  · refine ⟨by rw [header]; simp only; omega, by rw [header]; exact bound, ?_, ?_⟩
    · rw [header]
      simp only [clean.localFree, List.append_nil]
      exact fun p member => member
    · rw [header]
      simp only [clean.localFree, List.append_nil]
      exact nodup

/-- The pages of a reachable state are such pages. -/
theorem Inv.growing {s : State} (inv : Inv s) (page : InUse s.loc a) : GrowingPage s.loc a := by
  have ok := (inv.wf.page page).2
  refine ⟨by have := ok.size_bounds.1; omega, ok.capacity, fun p member => ?_, ?_⟩
  · refine inv.accounting.of_listed page ?_
    have positive := List.count_pos_iff.mpr member
    rw [List.count_append] at positive
    simp only [listed]
    omega
  · refine List.nodup_iff_count_le_one.mpr fun p => ?_
    have once := List.nodup_iff_count_le_one.mp (inv.wf.blocksOf_nodup page) p
    have balance := inv.accounting.balance a page p
    rw [List.count_append]
    simp only [listed] at balance
    omega

/-! ### The statement -/

/-- **Initialisation and growth of pages.** For every request of at most 128 KiB, `page_init` leaves a
page whose reserved blocks fit; and every page in such a state grows by `page_extend_free`, until
after finitely many calls each block below the reserved number was added once. -/
theorem page_growth (medium : size ≤ mediumObjSizeMax) (aligned : segmentSize ∣ segment)
    (inside : k ≤ slicesPerSegment)
    (count : (l.pages (getPageHeaderPtr segment k)).count = slicesChosen (queueBlockSize (bin size)))
    (clean : Clean (l.pages (getPageHeaderPtr segment k))) :
    PageInitialised l (pageInit l (getPageHeaderPtr segment k) (queueBlockSize (bin size))) segment k
      (getPageHeaderPtr segment k) (queueBlockSize (bin size)) ∧
    ∀ l' a, GrowingPage l' a → Extended l' a ∧ ∃ n, Filled l' a n :=
  ⟨pageInit_initialised medium aligned inside count clean, fun _ _ page =>
    ⟨page.extended, page.filled⟩⟩

/-- The span of eight slices in `plainSpan` becomes a page of twelve blocks of 40 KiB. -/
theorem page_growth_plain :
    PageInitialised plainSpan (pageInit plainSpan (getPageHeaderPtr (5 * 2 ^ 27) 100)
      (queueBlockSize (bin 40000))) (5 * 2 ^ 27) 100 (getPageHeaderPtr (5 * 2 ^ 27) 100)
      (queueBlockSize (bin 40000)) ∧
    ∀ l' a, GrowingPage l' a → Extended l' a ∧ ∃ n, Filled l' a n :=
  page_growth (by decide) (by decide) (by decide) (by decide +kernel)
    ⟨by decide +kernel, by decide +kernel, by decide +kernel, by decide +kernel⟩

end VerusMimalloc
