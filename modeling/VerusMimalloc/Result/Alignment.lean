/-
**The alignment of blocks.**

* `aligned_of_size`: the blocks of a size class are multiples of 16 where its block size is;
* `OddWords`: the requests whose size class has an odd number of words;
* `alignment`: the blocks that `heap_malloc` returns are multiples of 16 for all other requests, and
  for no such request always;
* `natural_alignment`: every block is aligned to the power of two in its size, up to the guarantee.
-/

import VerusMimalloc.Proof.Calls
import VerusMimalloc.Result.Addresses
import Mathlib.Order.Bounds.Basic

namespace VerusMimalloc

variable {l : Local} {s t : State} {size p a : Nat}

/-- Requests of three, five or seven words, rounded up. -/
def OddWords (size : Nat) : Prop :=
  (17 ≤ size ∧ size ≤ 24) ∨ (33 ≤ size ∧ size ≤ 40) ∨ (49 ≤ size ∧ size ≤ 56)

instance : DecidablePred OddWords := fun _ => inferInstanceAs (Decidable (_ ∨ _))

/-- The block sizes of more than eight words are multiples of two words. -/
theorem even_words (lower : 16 ≤ size) (medium : size ≤ mediumObjSizeMax) (even : ¬OddWords size) :
    16 ∣ queueBlockSize (bin size) := by
  have small : ∀ n < 65, 16 ≤ n → ¬OddWords n → 16 ∣ queueBlockSize (bin n) := by decide
  have large : ∀ pq < 53, 9 ≤ pq → 16 ∣ queueBlockSize pq := by decide
  have few : ∀ pq < 9, queueBlockSize pq ≤ 64 := by decide
  by_cases words : size < 65
  · exact small size words lower even
  · have fits := le_queueBlockSize_bin medium
    refine large (bin size) (by have := (bin_bounds medium).2; omega) ?_
    by_contra low
    have := few (bin size) (by omega)
    omega

/-- **The blocks of a page are aligned as its block size is**, up to 128 bytes. -/
theorem aligned_of_size (wf : Wf l) (page : InUse l a) (size : 16 ∣ (l.pages a).xblockSize)
    (member : p ∈ blocksOf l a) : 16 ∣ p := by
  obtain ⟨⟨segment, k, c, place⟩, _⟩ := wf.page page
  obtain ⟨i, _, rfl⟩ := mem_blocksOf.mp member
  obtain ⟨n, rfl⟩ := place.base.1
  have offset : 16 ∣ calculateStartOffset (l.pages a).xblockSize := by
    unfold calculateStartOffset
    split <;> decide
  have blocks : 16 ∣ (l.pages a).xblockSize * i := Dvd.dvd.mul_right size i
  rw [place.blockAt_eq]
  simp only [segmentSize]
  omega

/-- The second block that a fresh heap hands out, for requests of one size. -/
def secondBlock (size : Nat) : Option Nat :=
  match (heapMalloc 9 size).run plainStart.st with
  | (.ok _, s) =>
      match (heapMalloc 9 size).run s with
      | (.ok p, _) => some p
      | _ => none
  | _ => none

theorem secondBlock_returned (medium : size ≤ mediumObjSizeMax) (second : secondBlock size = some p) :
    ∃ s t, Reachable { st := s, owner := none } ∧ Returns s (heapMalloc 9 size) p t := by
  unfold secondBlock at second
  cases first : (heapMalloc 9 size).run plainStart.st with
  | mk outcome s =>
      rw [first] at second
      cases outcome with
      | error e => cases second
      | ok q =>
          simp only at second
          cases result : (heapMalloc 9 size).run s with
          | mk outcome t =>
              rw [result] at second
              cases outcome with
              | error e => cases second
              | ok p' =>
                  cases second
                  exact ⟨s, t, plainStart_reachable.malloc medium first, returns_of_run result⟩

/-- Every second block of an odd number of words is misaligned. -/
theorem secondBlock_misaligned : ∀ size < 57, OddWords size →
    (secondBlock size).any (fun p => p % 16 == 8) = true := by decide +kernel

/-- **The blocks that `heap_malloc` returns are multiples of 16**, for requests of at least 16 bytes,
unless their size class has an odd number of words. -/
theorem alignment (lower : 16 ≤ size) (medium : size ≤ mediumObjSizeMax) :
    (∀ s t fuel p, Reachable { st := s, owner := none } → Returns s (heapMalloc fuel size) p t →
      p ≠ 0 → 16 ∣ p) ↔ ¬OddWords size := by
  constructor
  · intro aligned odd
    have small : size < 57 := by
      unfold OddWords at odd
      omega
    have misaligned := secondBlock_misaligned size small odd
    cases second : secondBlock size with
    | none =>
        rw [second] at misaligned
        cases misaligned
    | some p =>
        rw [second] at misaligned
        simp only [Option.any_some, beq_iff_eq] at misaligned
        obtain ⟨s, t, reachable, returned⟩ := secondBlock_returned medium second
        have := aligned s t 9 p reachable returned (by omega)
        omega
  · intro even s t fuel p reachable returned _
    have inv := reachable.sysInv.inv
    have idle := reachable.sysInv.idle rfl
    have safe : OwnerSafe False CallFails (heapMalloc fuel size) (fun p l' => Idle l' ∧ Served l' size p)
        s.loc :=
      heapMallocZero_safe (fun _ => Expected.callFails) (by simp [CallFails]) idle medium fuel false
    obtain ⟨inv', _, served⟩ := safe.returns inv returned
    obtain ⟨a, page, member, blockSize⟩ := served.page
    exact aligned_of_size inv'.wf page (blockSize ▸ even_words lower medium even) member

theorem alignment_even : (∀ s t fuel p, Reachable { st := s, owner := none } →
    Returns s (heapMalloc fuel 32) p t → p ≠ 0 → 16 ∣ p) ↔ ¬OddWords 32 :=
  alignment (by decide) (by decide)

/-- The second block of 24 bytes. -/
theorem misaligned_24 : ∃ s t p, Reachable { st := s, owner := none } ∧
    Returns s (heapMalloc 9 24) p t ∧ p ≠ 0 ∧ ¬16 ∣ p := by
  have second : secondBlock 24 = some (5 * 2 ^ 27 + 65536 + 384 + 24) := by decide +kernel
  obtain ⟨s, t, reachable, returned⟩ := secondBlock_returned (by decide) second
  exact ⟨s, t, _, reachable, returned, by decide, by decide⟩

/-! ### Natural alignment -/

/-- The powers of two that divide a block size. -/
def powersOfTwo (blockSize : Nat) : Set Nat := {d | (∃ e, d = 2 ^ e) ∧ d ∣ blockSize}

/-- The smaller of two powers of two divides both. -/
theorem min_pow_dvd (e k : Nat) : min (2 ^ e) (2 ^ k) ∣ 2 ^ e ∧ min (2 ^ e) (2 ^ k) ∣ 2 ^ k := by
  rcases Nat.le_total e k with le | le
  · rw [min_eq_left (Nat.pow_le_pow_right (by decide) le)]
    exact ⟨dvd_rfl, pow_dvd_pow 2 le⟩
  · rw [min_eq_right (Nat.pow_le_pow_right (by decide) le)]
    exact ⟨pow_dvd_pow 2 le, dvd_rfl⟩

/-- **Blocks are naturally aligned**: to the largest power of two in the block size, up to 128 bytes,
and up to a slice where no start offset is left. -/
theorem natural_alignment {segment start blockSize i d : Nat} (aligned : segmentSize ∣ segment)
    (inside : start ≤ slicesPerSegment) (largest : IsGreatest (powersOfTwo blockSize) d) :
    min d maxAlignGuarantee ∣ blockPtr segment start blockSize i ∧
      (1024 < blockSize → min d sliceSize ∣ blockPtr segment start blockSize i) := by
  obtain ⟨⟨e, rfl⟩, divides⟩ := largest.1
  obtain ⟨n, rfl⟩ := aligned
  rw [blockPtr, calculatePageBlockAt, calculatePageStart_header (Dvd.intro n rfl) inside]
  have blocks : ∀ {m : Nat}, m ∣ 2 ^ e → m ∣ blockSize * i := fun small =>
    (small.trans divides).mul_right i
  constructor
  · -- the start offset is three times the guarantee
    obtain ⟨size, guarantee⟩ := min_pow_dvd e 7
    have offset : 2 ^ 7 ∣ calculateStartOffset blockSize := by
      unfold calculateStartOffset
      split <;> decide
    refine Nat.dvd_add (Nat.dvd_add (Nat.dvd_add ?_ ?_) (guarantee.trans offset)) (blocks size)
    · exact (guarantee.trans (by decide)).mul_right n
    · exact (guarantee.trans (by decide)).mul_left start
  · intro large
    obtain ⟨size, slice⟩ := min_pow_dvd e 16
    have offset : calculateStartOffset blockSize = 0 := if_neg (by omega)
    rw [offset, Nat.add_zero]
    refine Nat.dvd_add (Nat.dvd_add ?_ ?_) (blocks size)
    · exact (slice.trans (by decide)).mul_right n
    · exact (slice.trans (by decide)).mul_left start

/-- The blocks of 40 KiB are multiples of 8 KiB. -/
theorem natural_alignment_40960 : min 8192 sliceSize ∣ blockPtr (5 * 2 ^ 27) 100 40960 4 := by
  have largest : IsGreatest (powersOfTwo 40960) 8192 := by
    refine ⟨⟨⟨13, rfl⟩, by decide⟩, ?_⟩
    rintro _ ⟨⟨e, rfl⟩, divides⟩
    by_contra less
    have high : 14 ≤ e := by
      by_contra low
      exact less (show 2 ^ e ≤ 2 ^ 13 from Nat.pow_le_pow_right (by decide) (by omega))
    have : 2 ^ 14 ∣ 40960 := (pow_dvd_pow 2 high).trans divides
    omega
  exact (natural_alignment (by decide) (by decide) largest).2 (by decide)

end VerusMimalloc
