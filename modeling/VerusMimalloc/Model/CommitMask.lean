/-
**Commit masks.**

A mask of eight 64-bit words, one bit a slice of a segment, with the loops of `commit_mask.rs`.
`bit m k` reads a mask as a set of slice numbers.

* `bit_createIntersect`, `bit_clear`, `bit_set`: intersection, difference and union;
* `allSet_iff`, `anySet_iff`, `isEmpty_iff`, `isFull_iff`: the tests, in both directions;
* `bit_create`: `create` on an empty mask is an interval;
* `nextRun_spec`: `next_run` finds the first maximal run at or after its argument.
-/

import VerusMimalloc.Model.Config
import Mathlib.Tactic.IntervalCases

namespace VerusMimalloc

structure CommitMask where
  mask : Fin 8 → BitVec 64

namespace CommitMask

/-- The word at an index of the array. -/
def word (m : CommitMask) (i : Nat) : BitVec 64 := if h : i < 8 then m.mask ⟨i, h⟩ else 0

/-- Writing one word. -/
def setWord (m : CommitMask) (i : Nat) (value : BitVec 64) : CommitMask :=
  ⟨fun j => if j.val = i then value else m.mask j⟩

/-- `CommitMask::empty`. -/
def empty : CommitMask := ⟨fun _ => 0⟩

/-- `CommitMask::all_set`. -/
def allSet (self other : CommitMask) : Bool :=
  (List.finRange 8).all fun i => self.mask i &&& other.mask i == other.mask i

/-- `CommitMask::any_set`. -/
def anySet (self other : CommitMask) : Bool :=
  (List.finRange 8).any fun i => self.mask i &&& other.mask i != 0

/-- `CommitMask::create_intersect`. -/
def createIntersect (self other : CommitMask) : CommitMask :=
  ⟨fun i => self.mask i &&& other.mask i⟩

/-- `CommitMask::clear`. -/
def clear (self other : CommitMask) : CommitMask := ⟨fun i => self.mask i &&& ~~~other.mask i⟩

/-- `CommitMask::set`. -/
def set (self other : CommitMask) : CommitMask := ⟨fun i => self.mask i ||| other.mask i⟩

/-- `CommitMask::create_empty`. -/
def createEmpty : CommitMask := ⟨fun _ => 0⟩

/-- `CommitMask::create_full`. -/
def createFull : CommitMask := ⟨fun _ => ~~~0⟩

/-- The loop of `CommitMask::create`, with one round for each word. -/
def createLoop : Nat → CommitMask → Nat → Nat → Nat → CommitMask
  | 0, self, _, _, _ => self
  | rounds + 1, self, i, ofs, bitcount =>
      if 0 < bitcount then
        let avail := 64 - ofs
        let c := if bitcount > avail then avail else bitcount
        let mask : BitVec 64 := if c ≥ 64 then ~~~0 else ((1#64 <<< c) - 1#64) <<< ofs
        createLoop rounds (self.setWord i mask) (i + 1) 0 (bitcount - c)
      else self

/-- `CommitMask::create`. -/
def create (self : CommitMask) (idx count : Nat) : CommitMask :=
  if count = commitMaskBits then createFull
  else if count = 0 then self
  else createLoop 8 self (idx / 64) (idx % 64) count

/-- The loop of `next_run` over the low zero bits of a word. -/
def skipZeros : Nat → BitVec 64 → Nat → BitVec 64 × Nat
  | 0, mask, ofs => (mask, ofs)
  | rounds + 1, mask, ofs =>
      if mask &&& 1 = 0 then skipZeros rounds (mask >>> 1) (ofs + 1) else (mask, ofs)

/-- The loop of `next_run` that finds the first set bit: its word, its offset, and the word shifted
by the offset. -/
def findStart (self : CommitMask) : Nat → Nat → Nat → Option (Nat × Nat × BitVec 64)
  | 0, _, _ => none
  | rounds + 1, i, ofs =>
      if i < 8 then
        let mask := self.word i >>> ofs
        if mask ≠ 0 then
          let (mask, ofs) := skipZeros 64 mask ofs
          some (i, ofs, mask)
        else findStart self rounds (i + 1) 0
      else none

/-- The inner loop of `next_run` over the one bits of a word. -/
def countOnes : Nat → BitVec 64 → Nat → BitVec 64 × Nat
  | 0, mask, count => (mask, count)
  | rounds + 1, mask, count =>
      let count := count + 1
      let mask := mask >>> 1
      if mask &&& 1 ≠ 1 then (mask, count) else countOnes rounds mask count

/-- The outer loop of `next_run` over the words of a run. -/
def countRun (self : CommitMask) (nextIdx : Nat) : Nat → Nat → BitVec 64 → Nat → Nat
  | 0, _, _, count => count
  | rounds + 1, i, mask, count =>
      let (mask, count) := countOnes 64 mask count
      if (nextIdx + count) % 64 = 0 then
        if i + 1 ≥ 8 then count
        else
          let mask := self.word (i + 1)
          if mask &&& 1 ≠ 1 then count else countRun self nextIdx rounds (i + 1) mask count
      else if mask &&& 1 ≠ 1 then count
      else countRun self nextIdx rounds i mask count

/-- `CommitMask::next_run`. -/
def nextRun (self : CommitMask) (idx : Nat) : Nat × Nat :=
  match self.findStart 8 (idx / 64) (idx % 64) with
  | none => (commitMaskBits, 0)
  | some (i, ofs, mask) =>
      let nextIdx := i * 64 + ofs
      (nextIdx, self.countRun nextIdx 8 i mask 0)

/-- `CommitMask::is_empty`. -/
def isEmpty (self : CommitMask) : Bool := (List.finRange 8).all fun i => self.mask i == 0

/-- `CommitMask::is_full`. -/
def isFull (self : CommitMask) : Bool := (List.finRange 8).all fun i => self.mask i == ~~~0

/-! ### Masks as sets -/

/-- A slice is in the mask. -/
def bit (m : CommitMask) (k : Nat) : Bool := (m.word (k / 64)).getLsbD (k % 64)

variable {m other : CommitMask} {k : Nat}

theorem ones_bit (j : Nat) : (~~~0 : BitVec 64).getLsbD j = decide (j < 64) := by
  rw [BitVec.getLsbD_not, BitVec.ofNat_eq_ofNat, BitVec.getLsbD_zero, Bool.not_false, Bool.and_true]

theorem word_of_lt {i : Nat} (inside : i < 8) : m.word i = m.mask ⟨i, inside⟩ := dif_pos inside

theorem bit_of_ge (outside : 512 ≤ k) : m.bit k = false := by
  rw [bit, word, dif_neg (by omega), BitVec.ofNat_eq_ofNat, BitVec.getLsbD_zero]

theorem lt_of_bit (member : m.bit k = true) : k < 512 := by
  by_contra outside
  rw [bit_of_ge (by omega)] at member
  exact Bool.noConfusion member

theorem bit_of_lt (inside : k < 512) :
    m.bit k = (m.mask ⟨k / 64, by omega⟩).getLsbD (k % 64) := by
  rw [bit, word_of_lt]

/-- The bit at an offset of a word. -/
theorem bit_word (i : Nat) {ofs : Nat} (inside : ofs < 64) :
    m.bit (64 * i + ofs) = (m.word i).getLsbD ofs := by
  have quotient : (64 * i + ofs) / 64 = i := by omega
  have rest : (64 * i + ofs) % 64 = ofs := by omega
  rw [bit, quotient, rest]

@[simp] theorem bit_empty : empty.bit k = false := by
  by_cases inside : k < 512
  · rw [bit_of_lt inside]; simp [empty]
  · exact bit_of_ge (by omega)

@[simp] theorem bit_createEmpty : createEmpty.bit k = false := bit_empty

@[simp] theorem bit_createFull : createFull.bit k = decide (k < 512) := by
  by_cases inside : k < 512
  · rw [bit_of_lt inside, createFull, ones_bit]
    simp [inside, Nat.mod_lt]
  · rw [bit_of_ge (by omega)]
    simp [inside]

@[simp] theorem bit_createIntersect :
    (m.createIntersect other).bit k = (m.bit k && other.bit k) := by
  by_cases inside : k < 512
  · simp [bit_of_lt inside, createIntersect]
  · simp [bit_of_ge (Nat.le_of_not_lt inside)]

@[simp] theorem bit_clear : (m.clear other).bit k = (m.bit k && !other.bit k) := by
  by_cases inside : k < 512
  · simp [bit_of_lt inside, clear, Nat.mod_lt]
  · simp [bit_of_ge (Nat.le_of_not_lt inside)]

@[simp] theorem bit_set : (m.set other).bit k = (m.bit k || other.bit k) := by
  by_cases inside : k < 512
  · simp [bit_of_lt inside, set]
  · simp [bit_of_ge (Nat.le_of_not_lt inside)]

theorem bit_setWord (i : Nat) (value : BitVec 64) (inside : i < 8) :
    (m.setWord i value).bit k = if k / 64 = i then value.getLsbD (k % 64) else m.bit k := by
  by_cases small : k < 512
  · simp only [bit_of_lt small, setWord]
    by_cases same : k / 64 = i
    · rw [if_pos same, if_pos same]
    · rw [if_neg same, if_neg same]
  · rw [bit_of_ge (by omega), bit_of_ge (by omega), if_neg (by omega)]

/-- A property of all bits, word by word. -/
theorem forall_words {p : Fin 8 → Nat → Prop} :
    (∀ i : Fin 8, ∀ ofs < 64, p i ofs) ↔
      ∀ k (inside : k < 512), p ⟨k / 64, by omega⟩ (k % 64) := by
  constructor
  · intro words k _
    exact words _ _ (Nat.mod_lt _ (by decide))
  · intro bits i ofs small
    have quotient : (64 * i.val + ofs) / 64 = i.val := by omega
    have rest : (64 * i.val + ofs) % 64 = ofs := by omega
    have := bits (64 * i.val + ofs) (by omega)
    simp only [quotient, rest] at this
    exact this

theorem allSet_iff : m.allSet other = true ↔ ∀ k, other.bit k = true → m.bit k = true := by
  have words : m.allSet other = true ↔
      ∀ i : Fin 8, ∀ ofs < 64, (other.mask i).getLsbD ofs = true → (m.mask i).getLsbD ofs = true := by
    simp only [allSet, List.all_eq_true, List.mem_finRange, true_imp_iff, beq_iff_eq]
    refine forall_congr' fun i => ⟨fun same ofs _ set => ?_, fun sub => ?_⟩
    · rw [← same, BitVec.getLsbD_and, Bool.and_eq_true] at set
      exact set.1
    · apply BitVec.eq_of_getLsbD_eq
      intro ofs small
      rw [BitVec.getLsbD_and]
      cases set : (other.mask i).getLsbD ofs with
      | false => simp
      | true => simp [sub ofs small set]
  rw [words, forall_words (p := fun i ofs =>
    (other.mask i).getLsbD ofs = true → (m.mask i).getLsbD ofs = true)]
  refine forall_congr' fun k => ⟨fun sub set => ?_, fun sub inside => ?_⟩
  · have inside := lt_of_bit set
    rw [bit_of_lt inside] at set ⊢
    exact sub inside set
  · rw [bit_of_lt inside, bit_of_lt inside] at sub
    exact sub

theorem isEmpty_iff : m.isEmpty = true ↔ ∀ k, m.bit k = false := by
  have words : m.isEmpty = true ↔ ∀ i : Fin 8, ∀ ofs < 64, (m.mask i).getLsbD ofs = false := by
    simp only [isEmpty, List.all_eq_true, List.mem_finRange, true_imp_iff, beq_iff_eq]
    refine forall_congr' fun i => ⟨fun zero ofs _ => by simp [zero], fun zero => ?_⟩
    apply BitVec.eq_of_getLsbD_eq
    intro ofs small
    simp [zero ofs small]
  rw [words, forall_words (p := fun i ofs => (m.mask i).getLsbD ofs = false)]
  refine forall_congr' fun k => ⟨fun zero => ?_, fun zero inside => ?_⟩
  · by_cases inside : k < 512
    · rw [bit_of_lt inside]
      exact zero inside
    · exact bit_of_ge (by omega)
  · rw [bit_of_lt inside] at zero
    exact zero

theorem anySet_iff : m.anySet other = true ↔ ∃ k, m.bit k = true ∧ other.bit k = true := by
  have complementary : m.anySet other = !(m.createIntersect other).isEmpty := by
    simp [anySet, isEmpty, createIntersect, List.not_all_eq_any_not, bne]
  rw [complementary, Bool.not_eq_true', Bool.eq_false_iff, ne_eq, isEmpty_iff]
  simp

theorem isFull_iff : m.isFull = true ↔ ∀ k < 512, m.bit k = true := by
  have words : m.isFull = true ↔ ∀ i : Fin 8, ∀ ofs < 64, (m.mask i).getLsbD ofs = true := by
    simp only [isFull, List.all_eq_true, List.mem_finRange, true_imp_iff, beq_iff_eq]
    refine forall_congr' fun i => ⟨fun ones ofs small => ?_, fun ones => ?_⟩
    · rw [ones, ones_bit]
      simp [small]
    · apply BitVec.eq_of_getLsbD_eq
      intro ofs small
      rw [ones ofs small, ones_bit]
      simp [small]
  rw [words, forall_words (p := fun i ofs => (m.mask i).getLsbD ofs = true)]
  exact forall_congr' fun k => forall_congr' fun inside => by rw [bit_of_lt inside]

/-- Masks with the same bits are equal. -/
theorem ext_bit (same : ∀ k, m.bit k = other.bit k) : m = other := by
  obtain ⟨words⟩ := m
  obtain ⟨otherWords⟩ := other
  congr 1
  funext i
  apply BitVec.eq_of_getLsbD_eq
  intro ofs small
  have := same (64 * i.val + ofs)
  rw [bit_word _ small, bit_word _ small, word_of_lt i.isLt, word_of_lt i.isLt] at this
  exact this

/-! ### Intervals -/

/-- The word that `create` writes has the bits from `ofs` on. -/
theorem createWord_bit {ofs c j : Nat} (positive : 0 < c) (inside : ofs + c ≤ 64) (small : j < 64) :
    (if c ≥ 64 then ~~~0 else ((1#64 <<< c) - 1#64) <<< ofs : BitVec 64).getLsbD j =
      decide (ofs ≤ j ∧ j < ofs + c) := by
  by_cases whole : c ≥ 64
  · rw [if_pos whole]
    rw [ones_bit]
    congr 1
    apply propext
    omega
  · rw [if_neg whole]
    have power : (1#64 <<< c) - 1#64 = BitVec.ofNat 64 (2 ^ c - 1) := by
      have small : 2 ^ c < 2 ^ 64 := Nat.pow_lt_pow_right (by decide) (by omega)
      have := Nat.two_pow_pos c
      apply BitVec.eq_of_toNat_eq
      simp only [BitVec.toNat_sub, BitVec.toNat_shiftLeft, BitVec.toNat_ofNat, Nat.shiftLeft_eq]
      omega
    rw [power, BitVec.getLsbD_shiftLeft, BitVec.getLsbD_ofNat, Nat.testBit_two_pow_sub_one]
    simp only [small, decide_true, Bool.true_and]
    by_cases low : j < ofs
    · simp [low, Nat.not_le_of_lt low]
    · simp only [low, decide_false, Bool.not_false, Bool.true_and]
      have : j - ofs < 64 := by omega
      simp only [this, decide_true, Bool.true_and]
      congr 1
      apply propext
      omega

/-- **The loop of `create`** overwrites the words of the range and leaves the others. -/
theorem bit_createLoop (rounds : Nat) (m : CommitMask) {i ofs bitcount : Nat} (inWord : ofs < 64)
    (bound : 64 * i + ofs + bitcount ≤ 512) (enough : 8 ≤ i + rounds)
    (clear : ∀ k, 64 * i ≤ k → m.bit k = false) (k : Nat) :
    (createLoop rounds m i ofs bitcount).bit k =
      (m.bit k || decide (64 * i + ofs ≤ k ∧ k < 64 * i + ofs + bitcount)) := by
  induction rounds generalizing m i ofs bitcount with
  | zero =>
      have : ¬(64 * i + ofs ≤ k ∧ k < 64 * i + ofs + bitcount) := by omega
      simp [createLoop, this]
  | succ rounds ih =>
      simp only [createLoop]
      by_cases more : 0 < bitcount
      · rw [if_pos more]
        generalize count : (if bitcount > 64 - ofs then 64 - ofs else bitcount) = c
        have cases : (c = 64 - ofs ∧ 64 - ofs < bitcount) ∨ (c = bitcount ∧ bitcount ≤ 64 - ofs) := by
          rw [← count]
          by_cases beyond : bitcount > 64 - ofs
          · rw [if_pos beyond]; exact .inl ⟨rfl, beyond⟩
          · rw [if_neg beyond]; exact .inr ⟨rfl, by omega⟩
        have inside : i < 8 := by omega
        rw [ih _ (by omega) (by omega) (by omega), bit_setWord _ _ inside]
        · by_cases here : k / 64 = i
          · rw [if_pos here, createWord_bit (by omega) (by omega) (Nat.mod_lt _ (by decide)),
              clear k (by omega)]
            simp only [Bool.false_or, ← Bool.decide_or]
            congr 1
            apply propext
            omega
          · rw [if_neg here]
            congr 2
            apply propext
            omega
        · intro j after
          rw [bit_setWord _ _ inside, if_neg (by omega)]
          exact clear j (by omega)
      · rw [if_neg more]
        have : ¬(64 * i + ofs ≤ k ∧ k < 64 * i + ofs + bitcount) := by omega
        simp [this]

/-- **`create`** makes an interval of an empty mask. -/
theorem bit_create {idx count : Nat} (bound : idx + count ≤ 512) (k : Nat) :
    (empty.create idx count).bit k = decide (idx ≤ k ∧ k < idx + count) := by
  unfold create
  by_cases whole : count = commitMaskBits
  · simp only [commitMaskBits, slicesPerSegment] at whole
    rw [if_pos (by simpa using whole), bit_createFull]
    congr 1
    apply propext
    omega
  · rw [if_neg whole]
    by_cases none : count = 0
    · have : ¬(idx ≤ k ∧ k < idx + count) := by omega
      simp [none]
    · rw [if_neg none, bit_createLoop 8 empty (Nat.mod_lt _ (by decide)) (by omega) (by omega)
        (fun _ _ => bit_empty), bit_empty, Bool.false_or]
      congr 1
      apply propext
      omega

/-! ### Runs -/

theorem and_one_eq_zero (mask : BitVec 64) : mask &&& 1 = 0 ↔ mask.getLsbD 0 = false := by
  constructor
  · intro zero
    have := congrArg (BitVec.getLsbD · 0) zero
    simpa using this
  · intro low
    apply BitVec.eq_of_getLsbD_eq
    intro j small
    rw [BitVec.getLsbD_and]
    cases j with
    | zero => simp only [low, Bool.false_and, BitVec.ofNat_eq_ofNat, BitVec.getLsbD_zero]
    | succ j => simp [BitVec.getLsbD_one]

theorem and_one_ne_one (mask : BitVec 64) : mask &&& 1 ≠ 1 ↔ mask.getLsbD 0 = false := by
  constructor
  · intro differs
    cases low : mask.getLsbD 0 with
    | false => rfl
    | true =>
        refine absurd (BitVec.eq_of_getLsbD_eq fun j small => ?_) differs
        rw [BitVec.getLsbD_and]
        cases j with
        | zero => simp only [low, Bool.true_and]
        | succ j => simp [BitVec.getLsbD_one]
  · intro low same
    have := congrArg (BitVec.getLsbD · 0) same
    simp only [BitVec.getLsbD_and, low, Bool.false_and] at this
    exact Bool.noConfusion this

/-- `skipZeros` stops at the lowest set bit. -/
theorem skipZeros_spec (rounds : Nat) (mask : BitVec 64) (ofs : Nat)
    (nonzero : ∃ j < rounds, mask.getLsbD j = true) :
    ∃ d < rounds, (skipZeros rounds mask ofs) = (mask >>> d, ofs + d) ∧
      mask.getLsbD d = true ∧ ∀ j < d, mask.getLsbD j = false := by
  induction rounds generalizing mask ofs with
  | zero =>
      obtain ⟨j, small, _⟩ := nonzero
      omega
  | succ rounds ih =>
      simp only [skipZeros, and_one_eq_zero]
      by_cases low : mask.getLsbD 0 = false
      · rw [if_pos low]
        obtain ⟨j, small, set⟩ := nonzero
        have positive : j ≠ 0 := by
          rintro rfl
          rw [low] at set
          exact Bool.noConfusion set
        obtain ⟨d, bound, result, atEnd, before⟩ := ih (mask >>> 1) (ofs + 1)
          ⟨j - 1, by omega, by
            rw [BitVec.getLsbD_ushiftRight, Nat.add_sub_cancel' (by omega)]; exact set⟩
        refine ⟨d + 1, by omega, ?_, ?_, ?_⟩
        · rw [result, ← BitVec.shiftRight_add]
          simp [Nat.add_comm, Nat.add_left_comm]
        · rw [BitVec.getLsbD_ushiftRight, Nat.add_comm] at atEnd
          exact atEnd
        · intro i small
          cases i with
          | zero => exact low
          | succ i =>
              have := before i (by omega)
              rw [BitVec.getLsbD_ushiftRight, Nat.add_comm] at this
              exact this
      · rw [if_neg low]
        exact ⟨0, by omega, by simp, by simpa using low, by omega⟩

theorem exists_bit_of_ne_zero {mask : BitVec 64} (nonzero : mask ≠ 0) :
    ∃ j < 64, mask.getLsbD j = true := by
  by_contra none
  push Not at none
  refine nonzero (BitVec.eq_of_getLsbD_eq fun j small => ?_)
  simpa using none j small

/-- `findStart` finds the first set bit from a position on. -/
theorem findStart_spec (rounds : Nat) {i ofs : Nat} (inWord : ofs < 64) (enough : 8 ≤ i + rounds) :
    match m.findStart rounds i ofs with
    | none => ∀ k, 64 * i + ofs ≤ k → m.bit k = false
    | some (i', ofs', mask) =>
        i' < 8 ∧ ofs' < 64 ∧ mask = m.word i' >>> ofs' ∧ 64 * i + ofs ≤ 64 * i' + ofs' ∧
          m.bit (64 * i' + ofs') = true ∧
          ∀ k, 64 * i + ofs ≤ k → k < 64 * i' + ofs' → m.bit k = false := by
  induction rounds generalizing i ofs with
  | zero => exact fun k _ => bit_of_ge (by omega)
  | succ rounds ih =>
      simp only [findStart]
      by_cases inside : i < 8
      · rw [if_pos inside]
        by_cases here : m.word i >>> ofs ≠ 0
        · rw [if_pos here]
          obtain ⟨d, small, result, atEnd, before⟩ :=
            skipZeros_spec 64 (m.word i >>> ofs) ofs (exists_bit_of_ne_zero here)
          rw [BitVec.getLsbD_ushiftRight] at atEnd
          have inRange : ofs + d < 64 := BitVec.lt_of_getLsbD atEnd
          rw [result]
          refine ⟨inside, inRange, (BitVec.shiftRight_add _ _ _).symm, by omega, ?_, ?_⟩
          · rw [bit_word _ inRange]
            exact atEnd
          · intro k lower upper
            have := before (k - (64 * i + ofs)) (by omega)
            rw [BitVec.getLsbD_ushiftRight, ← bit_word _ (by omega)] at this
            have same : 64 * i + (ofs + (k - (64 * i + ofs))) = k := by omega
            rw [same] at this
            exact this
        · rw [if_neg here]
          have clear : ∀ k, 64 * i + ofs ≤ k → k < 64 * (i + 1) → m.bit k = false := by
            intro k lower upper
            have zero := congrArg (BitVec.getLsbD · (k - (64 * i + ofs))) (not_not.mp here)
            simp only [BitVec.getLsbD_ushiftRight, ← bit_word i (by omega : ofs + (k - (64 * i + ofs)) < 64)]
              at zero
            have same : 64 * i + (ofs + (k - (64 * i + ofs))) = k := by omega
            rw [same] at zero
            simpa using zero
          have rest := ih (show 0 < 64 by decide) (show 8 ≤ i + 1 + rounds by omega)
          cases outcome : m.findStart rounds (i + 1) 0 with
          | none =>
              rw [outcome] at rest
              intro k lower
              by_cases early : k < 64 * (i + 1)
              · exact clear k lower early
              · exact rest k (by omega)
          | some found =>
              obtain ⟨i', ofs', mask⟩ := found
              rw [outcome] at rest
              obtain ⟨bound, small, shifted, later, set, before⟩ := rest
              refine ⟨bound, small, shifted, by omega, set, fun k lower upper => ?_⟩
              by_cases early : k < 64 * (i + 1)
              · exact clear k lower early
              · exact before k (by omega) upper
      · rw [if_neg inside]
        exact fun k lower => bit_of_ge (by omega)

/-- `countOnes` counts the one bits above the lowest one. -/
theorem countOnes_spec (rounds : Nat) (mask : BitVec 64) (count : Nat)
    (zeros : ∀ j, rounds ≤ j → mask.getLsbD j = false) (low : mask.getLsbD 0 = true) :
    ∃ r, 0 < r ∧ countOnes rounds mask count = (mask >>> r, count + r) ∧
      (∀ j < r, mask.getLsbD j = true) ∧ mask.getLsbD r = false := by
  induction rounds generalizing mask count with
  | zero =>
      rw [zeros 0 (Nat.le_refl _)] at low
      exact Bool.noConfusion low
  | succ rounds ih =>
      simp only [countOnes, and_one_ne_one, BitVec.getLsbD_ushiftRight]
      by_cases ends : mask.getLsbD (1 + 0) = false
      · rw [if_pos ends]
        refine ⟨1, by decide, rfl, fun j small => ?_, ends⟩
        have : j = 0 := by omega
        rw [this]
        exact low
      · rw [if_neg ends]
        obtain ⟨r, positive, result, ones, atEnd⟩ := ih (mask >>> 1) (count + 1)
          (fun j bound => by
            rw [BitVec.getLsbD_ushiftRight]
            exact zeros _ (by omega))
          (by rw [BitVec.getLsbD_ushiftRight]; simpa using ends)
        refine ⟨r + 1, by omega, ?_, fun j small => ?_, ?_⟩
        · rw [result, ← BitVec.shiftRight_add]
          simp [Nat.add_comm, Nat.add_left_comm]
        · cases j with
          | zero => exact low
          | succ j =>
              have := ones j (by omega)
              rw [BitVec.getLsbD_ushiftRight, Nat.add_comm] at this
              exact this
        · rw [BitVec.getLsbD_ushiftRight, Nat.add_comm] at atEnd
          exact atEnd

/-- **The run loop**: from a position inside a run, it counts up to the first clear bit. -/
theorem countRun_spec (rounds : Nat) {nextIdx i ofs count : Nat} {mask : BitVec 64}
    (inside : i < 8) (inWord : ofs < 64) (enough : 8 ≤ i + rounds)
    (position : 64 * i + ofs = nextIdx + count) (shifted : mask = m.word i >>> ofs)
    (here : m.bit (64 * i + ofs) = true)
    (ones : ∀ k, nextIdx ≤ k → k < nextIdx + count → m.bit k = true) :
    count < m.countRun nextIdx rounds i mask count ∧
      nextIdx + m.countRun nextIdx rounds i mask count ≤ 512 ∧
      (∀ k, nextIdx ≤ k → k < nextIdx + m.countRun nextIdx rounds i mask count → m.bit k = true) ∧
      m.bit (nextIdx + m.countRun nextIdx rounds i mask count) = false := by
  induction rounds generalizing i ofs count mask with
  | zero => omega
  | succ rounds ih =>
      rw [bit_word _ inWord] at here
      obtain ⟨r, positive, result, run, atEnd⟩ := countOnes_spec 64 mask count
        (fun j bound => BitVec.getLsbD_of_ge _ _ bound)
        (by rw [shifted, BitVec.getLsbD_ushiftRight, Nat.add_zero]; exact here)
      rw [shifted] at run atEnd
      simp only [BitVec.getLsbD_ushiftRight] at run atEnd
      have reach : ofs + r ≤ 64 := by
        have := BitVec.lt_of_getLsbD (run (r - 1) (by omega))
        omega
      have extended : ∀ k, nextIdx ≤ k → k < nextIdx + (count + r) → m.bit k = true := by
        intro k lower upper
        by_cases early : k < nextIdx + count
        · exact ones k lower early
        · have := run (k - (nextIdx + count)) (by omega)
          rw [← bit_word _ (by omega)] at this
          have same : 64 * i + (ofs + (k - (nextIdx + count))) = k := by omega
          rw [same] at this
          exact this
      simp only [countRun, result]
      by_cases edge : (nextIdx + (count + r)) % 64 = 0
      · have full : ofs + r = 64 := by omega
        rw [if_pos edge]
        by_cases last : i + 1 ≥ 8
        · rw [if_pos last]
          exact ⟨by omega, by omega, extended, bit_of_ge (by omega)⟩
        · rw [if_neg last]
          have next : nextIdx + (count + r) = 64 * (i + 1) + 0 := by omega
          simp only [and_one_ne_one]
          by_cases ends : (m.word (i + 1)).getLsbD 0 = false
          · rw [if_pos ends]
            refine ⟨by omega, by omega, extended, ?_⟩
            rw [next, bit_word _ (by decide)]
            exact ends
          · rw [if_neg ends]
            obtain ⟨more, bound, all, stop⟩ := ih (show i + 1 < 8 by omega) (show 0 < 64 by decide)
              (by omega) next.symm (show m.word (i + 1) = m.word (i + 1) >>> 0 by simp)
              (by rw [bit_word _ (by decide)]; simpa using ends) extended
            exact ⟨by omega, bound, all, stop⟩
      · have short : ofs + r < 64 := by omega
        rw [if_neg edge, if_pos]
        · refine ⟨by omega, by omega, extended, ?_⟩
          rw [← bit_word _ short] at atEnd
          have same : 64 * i + (ofs + r) = nextIdx + (count + r) := by omega
          rw [same] at atEnd
          exact atEnd
        · rw [and_one_ne_one, shifted, BitVec.getLsbD_ushiftRight, BitVec.getLsbD_ushiftRight]
          exact atEnd

/-- **`next_run`** returns the first maximal run at or after its argument, and the end of the mask
with length zero when there is none. -/
theorem nextRun_spec (m : CommitMask) (idx : Nat) :
    (m.nextRun idx = (512, 0) ∧ ∀ k, idx ≤ k → m.bit k = false) ∨
      ∃ i n, m.nextRun idx = (i, n) ∧ 0 < n ∧ idx ≤ i ∧ i + n ≤ 512 ∧
        (∀ k, idx ≤ k → k < i → m.bit k = false) ∧
        (∀ k, i ≤ k → k < i + n → m.bit k = true) ∧ m.bit (i + n) = false := by
  have split : 64 * (idx / 64) + idx % 64 = idx := by omega
  have start := findStart_spec (m := m) 8 (Nat.mod_lt idx (show 0 < 64 by decide))
    (show 8 ≤ idx / 64 + 8 by omega)
  rw [split] at start
  unfold nextRun
  cases outcome : m.findStart 8 (idx / 64) (idx % 64) with
  | none =>
      rw [outcome] at start
      exact .inl ⟨rfl, start⟩
  | some found =>
      obtain ⟨i, ofs, mask⟩ := found
      rw [outcome] at start
      obtain ⟨inside, inWord, shifted, later, set, before⟩ := start
      have position : 64 * i + ofs = i * 64 + ofs + 0 := by omega
      obtain ⟨positive, bound, all, stop⟩ := countRun_spec 8 inside inWord (by omega) position
        shifted set (fun k lower upper => by omega)
      refine .inr ⟨i * 64 + ofs, _, rfl, positive, by omega, bound, fun k lower upper => ?_, all, stop⟩
      exact before k lower (by omega)

end CommitMask

end VerusMimalloc
