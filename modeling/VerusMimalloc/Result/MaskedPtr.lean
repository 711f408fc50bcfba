/-
**The encoding of the `xthread_free` word.**

* `maskedPtrDelay_bit`: the two low bits of a word are the state's, the others the pointer's;
* `unpack`: the pointer and the state of a word;
* `masked_ptr_encoding`: packing and unpacking are inverse, and every edit changes its own field;
* `threadFree_edits`: the steps on the shared state are these edits of packed pairs.
-/

import VerusMimalloc.Model.MaskedPtr

namespace VerusMimalloc

variable {ptr v : BitVec 64} {delay : DelayState} {i : Nat}

/-! ### Bits -/

theorem aligned_iff : 4 ∣ v.toNat ↔ v.getLsbD 0 = false ∧ v.getLsbD 1 = false := by
  simp only [BitVec.getLsbD, Nat.testBit_zero, Nat.testBit_succ, decide_eq_false_iff_not]
  omega

theorem aligned_bit (aligned : 4 ∣ ptr.toNat) (low : i < 2) : ptr.getLsbD i = false := by
  obtain ⟨zero, one⟩ := aligned_iff.mp aligned
  have : i = 0 ∨ i = 1 := by omega
  rcases this with rfl | rfl
  · exact zero
  · exact one

theorem three_bit (inside : i < 64) : (3 : BitVec 64).getLsbD i = decide (i < 2) := by
  show (BitVec.ofNat 64 (2 ^ 2 - 1)).getLsbD i = _
  rw [BitVec.getLsbD_ofNat, Nat.testBit_two_pow_sub_one, decide_eq_true inside, Bool.true_and]

theorem toWord_bit (high : ¬i < 2) : delay.toWord.getLsbD i = false := by
  have small : delay.toNat < 2 ^ 2 := by cases delay <;> decide
  have := Nat.testBit_lt_two_pow (small.trans_le (Nat.pow_le_pow_right (by decide) (Nat.le_of_not_lt high)))
  rw [DelayState.toWord, BitVec.getLsbD_ofNat, this, Bool.and_false]

/-- **The bits of a packed word.** -/
theorem maskedPtrDelay_bit (aligned : 4 ∣ ptr.toNat) :
    (maskedPtrDelay ptr delay).getLsbD i = if i < 2 then delay.toWord.getLsbD i else ptr.getLsbD i := by
  have apart : ptr &&& delay.toWord = 0#64 := by
    apply BitVec.eq_of_getLsbD_eq
    intro j _
    rw [BitVec.getLsbD_and, BitVec.getLsbD_zero]
    by_cases low : j < 2
    · rw [aligned_bit aligned low, Bool.false_and]
    · rw [toWord_bit low, Bool.and_false]
  rw [maskedPtrDelay, BitVec.add_eq_or_of_and_eq_zero _ _ apart, BitVec.getLsbD_or]
  by_cases low : i < 2
  · rw [if_pos low, aligned_bit aligned low, Bool.false_or]
  · rw [if_neg low, toWord_bit low, Bool.or_false]

theorem mod_four : v % 4 = v &&& 3 := by
  apply BitVec.eq_of_toNat_eq
  rw [BitVec.toNat_umod, BitVec.toNat_and]
  exact (Nat.and_two_pow_sub_one_eq_mod v.toNat 2).symm

/-- The state of a word, as a word. -/
theorem toWord_ofWord : (DelayState.ofWord v).toWord = v &&& 3 := by
  rw [← mod_four]
  apply BitVec.eq_of_toNat_eq
  rw [BitVec.toNat_umod]
  show (DelayState.ofWord v).toWord.toNat = v.toNat % 4
  unfold DelayState.ofWord
  have : v.toNat % 4 = 0 ∨ v.toNat % 4 = 1 ∨ v.toNat % 4 = 2 ∨ v.toNat % 4 = 3 := by omega
  rcases this with rest | rest | rest | rest <;> rw [rest] <;> rfl

theorem toWord_inj {other : DelayState} (same : delay.toWord = other.toWord) : delay = other := by
  cases delay <;> cases other <;> first | rfl | exact absurd same (by decide)

/-! ### The fields of a packed word -/

theorem maskedPtrDelay_and_three (aligned : 4 ∣ ptr.toNat) : maskedPtrDelay ptr delay &&& 3 = delay.toWord := by
  apply BitVec.eq_of_getLsbD_eq
  intro j inside
  rw [BitVec.getLsbD_and, maskedPtrDelay_bit aligned, three_bit inside]
  by_cases low : j < 2
  · rw [if_pos low, decide_eq_true low, Bool.and_true]
  · rw [toWord_bit low, decide_eq_false low, Bool.and_false]

theorem maskedPtrDelay_and_not_three (aligned : 4 ∣ ptr.toNat) : maskedPtrDelay ptr delay &&& ~~~3 = ptr := by
  apply BitVec.eq_of_getLsbD_eq
  intro j inside
  rw [BitVec.getLsbD_and, BitVec.getLsbD_not, maskedPtrDelay_bit aligned, three_bit inside,
    decide_eq_true inside, Bool.true_and]
  by_cases low : j < 2
  · rw [decide_eq_true low, Bool.not_true, Bool.and_false, aligned_bit aligned low]
  · rw [if_neg low, decide_eq_false low, Bool.not_false, Bool.and_true]

/-- Adding a state to an aligned pointer is the bitwise union. -/
theorem or_toWord (aligned : 4 ∣ ptr.toNat) : ptr ||| delay.toWord = maskedPtrDelay ptr delay := by
  apply BitVec.eq_of_getLsbD_eq
  intro j _
  rw [BitVec.getLsbD_or, maskedPtrDelay_bit aligned]
  by_cases low : j < 2
  · rw [if_pos low, aligned_bit aligned low, Bool.false_or]
  · rw [if_neg low, toWord_bit low, Bool.or_false]

/-- The sum has no carry out of the word. -/
theorem maskedPtrDelay_toNat (aligned : 4 ∣ ptr.toNat) :
    (maskedPtrDelay ptr delay).toNat = ptr.toNat + delay.toNat := by
  have small : delay.toNat < 4 := by cases delay <;> decide
  have word := ptr.isLt
  rw [maskedPtrDelay, BitVec.toNat_add, DelayState.toWord, BitVec.toNat_ofNat]
  omega

/-! ### Packing and unpacking -/

/-- The pointer and the state of a word. -/
def unpack (v : BitVec 64) : BitVec 64 × DelayState :=
  (maskedPtrDelayGetPtr v, .ofWord (maskedPtrDelayGetDelay v))

theorem unpack_pack (aligned : 4 ∣ ptr.toNat) : unpack (maskedPtrDelay ptr delay) = (ptr, delay) := by
  have low : (maskedPtrDelay ptr delay &&& 3) &&& 3 = maskedPtrDelay ptr delay &&& 3 := by
    rw [BitVec.and_assoc, BitVec.and_self]
  refine Prod.ext (maskedPtrDelay_and_not_three aligned) (toWord_inj ?_)
  show (DelayState.ofWord (maskedPtrDelay ptr delay % 4)).toWord = _
  rw [toWord_ofWord, mod_four, low, maskedPtrDelay_and_three aligned]

theorem pack_unpack (v : BitVec 64) :
    4 ∣ (unpack v).1.toNat ∧ maskedPtrDelay (unpack v).1 (unpack v).2 = v := by
  have bits : ∀ j, j < 64 → (unpack v).1.getLsbD j = (v.getLsbD j && !decide (j < 2)) := by
    intro j inside
    show (v &&& ~~~3).getLsbD j = _
    rw [BitVec.getLsbD_and, BitVec.getLsbD_not, three_bit inside, decide_eq_true inside, Bool.true_and]
  have aligned : 4 ∣ (unpack v).1.toNat := by
    rw [aligned_iff, bits 0 (by decide), bits 1 (by decide)]
    exact ⟨Bool.and_false _, Bool.and_false _⟩
  refine ⟨aligned, ?_⟩
  apply BitVec.eq_of_getLsbD_eq
  intro j inside
  rw [maskedPtrDelay_bit aligned, bits j inside]
  by_cases low : j < 2
  · have state : (unpack v).2.toWord = v &&& 3 := by
      show (DelayState.ofWord (v % 4)).toWord = _
      rw [toWord_ofWord, mod_four, BitVec.and_assoc, BitVec.and_self]
    rw [if_pos low, state, BitVec.getLsbD_and, three_bit inside, decide_eq_true low, Bool.and_true]
  · rw [if_neg low, decide_eq_false low, Bool.not_false, Bool.and_true]

/-! ### The edits -/

/-- What the functions on words do to a packed word. -/
structure Edits (ptr : BitVec 64) (delay : DelayState) : Prop where
  noCarry : (maskedPtrDelay ptr delay).toNat = ptr.toNat + delay.toNat
  isUseDelayed : maskedPtrDelayGetIsUseDelayed (maskedPtrDelay ptr delay) = true ↔
    delay = .useDelayedFree
  getDelay : maskedPtrDelayGetDelay (maskedPtrDelay ptr delay) = delay.toWord
  getPtr : maskedPtrDelayGetPtr (maskedPtrDelay ptr delay) = ptr
  setPtr : ∀ newPtr : BitVec 64, 4 ∣ newPtr.toNat →
    maskedPtrDelaySetPtr (maskedPtrDelay ptr delay) newPtr = maskedPtrDelay newPtr delay
  setFreeing : maskedPtrDelaySetFreeing (maskedPtrDelay ptr delay) = maskedPtrDelay ptr .freeing
  setDelay : ∀ newDelay : DelayState,
    maskedPtrDelaySetDelay (maskedPtrDelay ptr delay) newDelay.toWord = maskedPtrDelay ptr newDelay
  fetchXor : delay = .freeing →
    fetchXorThree (maskedPtrDelay ptr delay) = maskedPtrDelay ptr .noDelayedFree
  fetchAnd : fetchAndThree (maskedPtrDelay ptr delay) = maskedPtrDelay 0 delay

/-- **Every edit changes its own field.** -/
theorem edits (aligned : 4 ∣ ptr.toNat) : Edits ptr delay := by
  have getDelay : maskedPtrDelayGetDelay (maskedPtrDelay ptr delay) = delay.toWord := by
    rw [maskedPtrDelayGetDelay, mod_four, maskedPtrDelay_and_three aligned]
  refine ⟨maskedPtrDelay_toNat aligned, ?_, getDelay, maskedPtrDelay_and_not_three aligned, fun newPtr new => ?_, ?_,
    fun newDelay => ?_, fun isFreeing => ?_, ?_⟩
  · show (maskedPtrDelayGetDelay (maskedPtrDelay ptr delay) == 0) = true ↔ _
    rw [getDelay, beq_iff_eq]
    cases delay <;> decide
  · rw [maskedPtrDelaySetPtr, maskedPtrDelay_and_three aligned, BitVec.or_comm, or_toWord new]
  · rw [maskedPtrDelaySetFreeing, maskedPtrDelay_and_not_three aligned]
    show ptr ||| DelayState.freeing.toWord = _
    exact or_toWord aligned
  · rw [maskedPtrDelaySetDelay, maskedPtrDelay_and_not_three aligned, or_toWord aligned]
  · subst isFreeing
    apply BitVec.eq_of_getLsbD_eq
    intro j inside
    rw [fetchXorThree, BitVec.getLsbD_xor, maskedPtrDelay_bit aligned, maskedPtrDelay_bit aligned,
      three_bit inside]
    by_cases low : j < 2
    · rw [if_pos low, if_pos low, decide_eq_true low]
      have : j = 0 ∨ j = 1 := by omega
      rcases this with rfl | rfl <;> decide
    · rw [if_neg low, if_neg low, decide_eq_false low, Bool.xor_false]
  · rw [fetchAndThree, maskedPtrDelay_and_three aligned]
    exact (BitVec.zero_add _).symm

/-- **The encoding.** On pointers that are multiples of 4, packing and unpacking are inverse to each
other, and every edit changes its own field only. -/
theorem masked_ptr_encoding :
    (∀ (ptr : BitVec 64) (delay : DelayState), 4 ∣ ptr.toNat →
      unpack (maskedPtrDelay ptr delay) = (ptr, delay) ∧ Edits ptr delay) ∧
    ∀ v : BitVec 64, 4 ∣ (unpack v).1.toNat ∧ maskedPtrDelay (unpack v).1 (unpack v).2 = v := by
  refine ⟨fun ptr delay aligned => ?_, pack_unpack⟩
  exact ⟨unpack_pack aligned, edits aligned⟩

theorem masked_ptr_encoding_64 :
    unpack (maskedPtrDelay 64 .freeing) = (64, .freeing) ∧ Edits 64 .freeing :=
  masked_ptr_encoding.1 64 .freeing (by decide)

/-! ### The words of the shared state -/

/-- The word of a page is the packed pair of its first block and its delay state. -/
theorem threadFree_word (t : ThreadFree) :
    BitVec.ofNat 64 t.word = maskedPtrDelay (BitVec.ofNat 64 (t.list.headD 0)) t.delay := by
  rw [ThreadFree.word, BitVec.ofNat_add]
  rfl

/-- The steps on the word of a page are the edits. -/
theorem threadFree_edits (t : ThreadFree) (aligned : 4 ∣ (BitVec.ofNat 64 (t.list.headD 0)).toNat) :
    (∀ block : Nat, 4 ∣ (BitVec.ofNat 64 block).toNat →
      maskedPtrDelaySetPtr (BitVec.ofNat 64 t.word) (BitVec.ofNat 64 block) =
        BitVec.ofNat 64 { t with list := block :: t.list }.word) ∧
    (∀ delay, maskedPtrDelaySetDelay (BitVec.ofNat 64 t.word) delay.toWord =
      BitVec.ofNat 64 { t with delay := delay }.word) ∧
    fetchAndThree (BitVec.ofNat 64 t.word) = BitVec.ofNat 64 { t with list := [] }.word := by
  simp only [threadFree_word]
  exact ⟨fun block new => (edits aligned).setPtr _ new, fun delay => (edits aligned).setDelay delay,
    (edits aligned).fetchAnd⟩

end VerusMimalloc
