/-
**The owner's calls on lists in memory.**

* `Mem.Holds`: the memory holds the lists, and the words of the pages are the packed pairs;
* `Mem.Holds.run`: every call of the owner does to the memory what it does to the lists, returns the same
  number or pointer and writes only nodes of the lists;
* `ListCall.run_unique`: whatever bound its loops are run with.
-/

import VerusMimalloc.Proof.Blocks.Relisted
import VerusMimalloc.Result.MaskedPtr
import VerusMimalloc.Result.Memory.Lists

namespace VerusMimalloc

open Library Function

variable {m m' : Mem} {lists : ListName → List Nat} {delay : Nat → DelayState} {page heap ptr : Nat}

/-- The first node of a list. -/
def Mem.first (m : Mem) : ListName → Nat
  | .free page => (m.free page).first
  | .localFree page => (m.localFree page).first
  | .threadFree page => (maskedPtrDelayGetPtr (m.xthreadFree page)).toNat
  | .delayed heap => m.threadDelayedFree heap
  | .taken => m.ll.first

/-- **The memory holds the lists and the delay states.** -/
structure Mem.Holds (m : Mem) (lists : ListName → List Nat) (delay : Nat → DelayState) : Prop where
  blocks : LL.Holds m.bytes m.first lists
  words : ∀ page, m.xthreadFree page =
    BitVec.ofNat 64 { list := lists (.threadFree page), delay := delay page : ThreadFree }.word

/-- The call does to the memory what it does to the lists. -/
def ListCall.Done (call : ListCall) (m : Mem) (lists : ListName → List Nat) (delay : Nat → DelayState) : Prop :=
  ∃ fuel m', call.run fuel m = some (call.result lists, m') ∧ m'.Holds (call.lists lists) (call.delay delay) ∧
    LL.OnlyListed m.bytes m'.bytes (call.lists lists) ∧ m'.threads = m.threads

/-! ### First nodes -/

section First

variable (m : Mem) (bytes : Bytes) (page : Nat)

theorem first_free (ll : LL) :
    Mem.first { m with bytes, free := update m.free page ll } = update m.first (.free page) ll.first := by
  funext name
  cases name with
  | free x =>
      simp only [Mem.first, update_apply, ListName.free.injEq]
      split <;> rfl
  | _ => exact (update_of_ne (by simp) _ _).symm

theorem first_localFree (ll : LL) :
    Mem.first { m with bytes, localFree := update m.localFree page ll } =
      update m.first (.localFree page) ll.first := by
  funext name
  cases name with
  | localFree x =>
      simp only [Mem.first, update_apply, ListName.localFree.injEq]
      split <;> rfl
  | _ => exact (update_of_ne (by simp) _ _).symm

theorem first_threadFree (word : BitVec 64) :
    Mem.first { m with bytes, xthreadFree := update m.xthreadFree page word } =
      update m.first (.threadFree page) (maskedPtrDelayGetPtr word).toNat := by
  funext name
  cases name with
  | threadFree x =>
      simp only [Mem.first, update_apply, ListName.threadFree.injEq]
      split <;> rfl
  | _ => exact (update_of_ne (by simp) _ _).symm

theorem first_delayed (heap ptr : Nat) :
    Mem.first { m with bytes, threadDelayedFree := update m.threadDelayedFree heap ptr } =
      update m.first (.delayed heap) ptr := by
  funext name
  cases name with
  | delayed x => simp only [Mem.first, update_apply, ListName.delayed.injEq]
  | _ => exact (update_of_ne (by simp) _ _).symm

theorem first_taken (ll : LL) : Mem.first { m with ll } = update m.first .taken ll.first := by
  funext name
  cases name with
  | taken => exact (update_self (f := m.first) _ _).symm
  | _ => exact (update_of_ne (by simp) _ _).symm

end First

/-- The pointer of a packed pair. -/
theorem getPtr_word {t : ThreadFree} (aligned : 4 ∣ (BitVec.ofNat 64 (t.list.headD 0)).toNat) :
    maskedPtrDelayGetPtr (BitVec.ofNat 64 t.word) = BitVec.ofNat 64 (t.list.headD 0) := by
  rw [threadFree_word]
  exact (edits aligned).getPtr

namespace Mem.Holds

variable (holds : m.Holds lists delay)
include holds

/-! ### Words -/

/-- The pointer in the word of a page. -/
theorem getPtr (page : Nat) : (maskedPtrDelayGetPtr (m.xthreadFree page)).toNat =
    (lists (.threadFree page)).headD 0 := holds.blocks.first_eq (.threadFree page)

/-- The pointer leaves room for the delay state. -/
theorem aligned (page : Nat) : 4 ∣ (BitVec.ofNat 64 ((lists (.threadFree page)).headD 0)).toNat := by
  rw [← holds.getPtr, BitVec.ofNat_toNat, BitVec.setWidth_eq]
  exact (pack_unpack (m.xthreadFree page)).1

/-- The words are as before. -/
theorem words_of_eq {lists' : ListName → List Nat}
    (same : ∀ page, lists' (.threadFree page) = lists (.threadFree page)) (page : Nat) : m.xthreadFree page =
      BitVec.ofNat 64 { list := lists' (.threadFree page), delay := delay page : ThreadFree }.word := by
  rw [same]
  exact holds.words page

/-- The word of a page changes. -/
theorem words_update {lists' : ListName → List Nat} {delay' : Nat → DelayState} {word : BitVec 64}
    (here : word = BitVec.ofNat 64 { list := lists' (.threadFree page), delay := delay' page : ThreadFree }.word)
    (others : ∀ x, x ≠ page → lists' (.threadFree x) = lists (.threadFree x) ∧ delay' x = delay x) (x : Nat) :
    update m.xthreadFree page word x =
      BitVec.ofNat 64 { list := lists' (.threadFree x), delay := delay' x : ThreadFree }.word := by
  rw [update_apply]
  split
  · rename_i same
    rw [same]
    exact here
  · rename_i differs
    rw [(others x differs).1, (others x differs).2]
    exact holds.words x

/-- The delay state of a page changes. -/
theorem setWord {word : BitVec 64} {new : DelayState}
    (here : word = BitVec.ofNat 64 { list := lists (.threadFree page), delay := new : ThreadFree }.word) :
    { m with xthreadFree := update m.xthreadFree page word : Mem }.Holds lists (update delay page new) := by
  refine ⟨?_, holds.words_update ?_ fun x differs => ⟨rfl, update_of_ne differs _ _⟩⟩
  · have same : (maskedPtrDelayGetPtr word).toNat = m.first (.threadFree page) := by
      show _ = (maskedPtrDelayGetPtr (m.xthreadFree page)).toNat
      rw [here, holds.words, getPtr_word (holds.aligned page), getPtr_word (holds.aligned page)]
    rw [first_threadFree m m.bytes, same, update_eq_self]
    exact holds.blocks
  · rw [here, update_self]

/-! ### The calls -/

theorem nothing : ListCall.nothing.Done m lists delay :=
  ⟨0, m, rfl, holds, .refl, rfl⟩

theorem popBlock (nonempty : lists (.free page) ≠ []) : (ListCall.popBlock page).Done m lists delay := by
  obtain ⟨popped, left⟩ := holds.blocks.pop nonempty
  refine ⟨0, { m with free := update m.free page ((m.free page).popBlock m.bytes).2 },
    congrArg (fun ptr => some (ptr, _)) popped, ⟨?_, holds.words_of_eq fun x => ?_⟩, .refl, rfl⟩
  · rw [first_free m m.bytes]
    exact left
  · simp [ListCall.lists]

theorem insertBlock (after : LL.Separate ((ListCall.insertBlock page ptr).lists lists)) :
    (ListCall.insertBlock page ptr).Done m lists delay := by
  obtain ⟨pushed, only⟩ := holds.blocks.push after
  refine ⟨0, _, rfl, ⟨?_, holds.words_of_eq fun x => ?_⟩, only, rfl⟩
  · rw [first_free]
    exact pushed
  · simp [ListCall.lists]

theorem extend {start bsize n : Nat} (ready : (ListCall.extend page start bsize n).Ready lists)
    (after : LL.Separate ((ListCall.extend page start bsize n).lists lists)) :
    (ListCall.extend page start bsize n).Done m lists delay := by
  obtain ⟨some, large, valid, inside⟩ := ready
  obtain ⟨bytes, run, list, only⟩ := holds.blocks.prepend some large valid inside after le_rfl
  refine ⟨n, _, bind_of_some run, ⟨?_, holds.words_of_eq fun x => ?_⟩, only, rfl⟩
  · rw [first_free]
    exact list
  · simp [ListCall.lists]

theorem swap : (ListCall.swap page).Done m lists delay := by
  refine ⟨0, _, rfl, ⟨?_, holds.words_of_eq fun x => ?_⟩, .refl, rfl⟩
  · rw [first_localFree { m with free := update m.free page (m.localFree page) } m.bytes,
      first_free m m.bytes]
    exact holds.blocks.move (.free page) (.localFree page)
  · simp [ListCall.lists]

theorem append (before : LL.Separate lists) (short : (lists (.localFree page)).length < 2 ^ 32) :
    (ListCall.append page).Done m lists delay := by
  obtain ⟨bytes, free, localFree, run, none, list, only⟩ :=
    holds.blocks.append (i := .free page) (j := .localFree page) before (by simp) le_rfl
  have count : (BitVec.ofNat 32 (lists (.localFree page)).length).toNat = (lists (.localFree page)).length :=
    (BitVec.toNat_ofNat _ _).trans (Nat.mod_eq_of_lt short)
  refine ⟨(lists (.localFree page)).length, _,
    (bind_of_some run).trans (congrArg (fun count => some (count, _)) count),
    ⟨?_, holds.words_of_eq fun x => ?_⟩, only, rfl⟩
  · rw [first_localFree { m with free := update m.free page free } bytes, first_free m m.bytes, none]
    exact list
  · simp [ListCall.lists]

theorem collect (before : LL.Separate lists) (short : (lists (.threadFree page)).length < 2 ^ 32) :
    (ListCall.collect page).Done m lists delay := by
  obtain ⟨bytes, localFree, ll, run, _, list, only⟩ :=
    holds.blocks.append (i := .localFree page) (j := .threadFree page) before (by simp) le_rfl
  have count : (BitVec.ofNat 32 (lists (.threadFree page)).length).toNat = (lists (.threadFree page)).length :=
    (BitVec.toNat_ofNat _ _).trans (Nat.mod_eq_of_lt short)
  have word : fetchAndThree (m.xthreadFree page) =
      BitVec.ofNat 64 { list := [], delay := delay page : ThreadFree }.word := by
    rw [holds.words]
    exact (threadFree_edits ⟨_, _⟩ (holds.aligned page)).2.2
  have noPtr : 4 ∣ (BitVec.ofNat 64 ({ list := [], delay := delay page : ThreadFree }.list.headD 0)).toNat :=
    ⟨0, rfl⟩
  refine ⟨(lists (.threadFree page)).length, _,
    (bind_of_some run).trans (congrArg (fun count => some (count, _)) count),
    ⟨?_, holds.words_update ?_ fun x differs => ⟨?_, rfl⟩⟩, only, rfl⟩
  · rw [first_threadFree { m with localFree := update m.localFree page localFree } bytes,
      first_localFree m m.bytes, word, getPtr_word noPtr]
    exact list
  · rw [word, ListCall.lists, update_self]
    rfl
  · exact (update_of_ne (by simpa using differs) _ _).trans (update_of_ne (by simp) _ _)

theorem makeEmpty : (ListCall.makeEmpty page).Done m lists delay := by
  refine ⟨0, _, rfl, ⟨?_, holds.words_of_eq fun x => ?_⟩, .refl, rfl⟩
  · rw [first_localFree { m with free := update m.free page (m.free page).makeEmpty } m.bytes,
      first_free m m.bytes]
    exact (holds.blocks.clear (.free page)).clear (.localFree page)
  · simp [ListCall.lists]

theorem disable : (ListCall.disable page).Done m lists delay := by
  refine ⟨0, _, rfl, ⟨?_, holds.words_update ?_ fun x differs => ⟨?_, ?_⟩⟩, .refl, rfl⟩
  · rw [first_threadFree m m.bytes]
    exact holds.blocks.clear (.threadFree page)
  · simp only [ListCall.lists, ListCall.delay, update_self]
    rfl
  · exact update_of_ne (by simpa using differs) _ _
  · exact update_of_ne differs _ _

theorem setDelay (new : DelayState) : (ListCall.setDelay page new).Done m lists delay := by
  have word := (threadFree_edits ⟨_, delay page⟩ (holds.aligned page)).2.1 new
  rw [← holds.words] at word
  exact ⟨0, _, rfl, holds.setWord word, .refl, rfl⟩

theorem takeNone : ListCall.takeNone.Done m lists delay := by
  refine ⟨0, _, rfl, ⟨?_, holds.words_of_eq fun x => by simp [ListCall.lists]⟩, .refl, rfl⟩
  rw [first_taken]
  exact holds.blocks.clear .taken

theorem take : (ListCall.take heap).Done m lists delay := by
  refine ⟨0, _, rfl, ⟨?_, holds.words_of_eq fun x => ?_⟩, .refl, rfl⟩
  · rw [first_taken { m with threadDelayedFree := update m.threadDelayedFree heap 0 }, first_delayed m m.bytes]
    rw [← update_comm (by simp)]
    exact holds.blocks.move .taken (.delayed heap)
  · simp [ListCall.lists]

theorem popTaken (nonempty : lists .taken ≠ []) : ListCall.popTaken.Done m lists delay := by
  obtain ⟨popped, left⟩ := holds.blocks.pop nonempty
  refine ⟨0, { m with ll := (m.ll.popBlock m.bytes).2 }, congrArg (fun ptr => some (ptr, _)) popped,
    ⟨?_, holds.words_of_eq fun x => by simp [ListCall.lists]⟩, .refl, rfl⟩
  rw [first_taken]
  exact left

theorem insertDelayed (after : LL.Separate ((ListCall.insertDelayed heap ptr).lists lists)) :
    (ListCall.insertDelayed heap ptr).Done m lists delay := by
  obtain ⟨pushed, only⟩ := holds.blocks.push after
  refine ⟨0, _, rfl, ⟨?_, holds.words_of_eq fun x => by simp [ListCall.lists]⟩, only, rfl⟩
  rw [first_delayed]
  exact pushed

/-- **Every call does to the memory what it does to the lists**, and only writes nodes of the lists. -/
theorem run (call : ListCall) (ready : call.Ready lists) (before : LL.Separate lists)
    (after : LL.Separate (call.lists lists)) (short : ∀ page, (lists (.localFree page)).length < 2 ^ 32 ∧
      (lists (.threadFree page)).length < 2 ^ 32) : call.Done m lists delay := by
  cases call with
  | nothing => exact holds.nothing
  | popBlock page => exact holds.popBlock ready
  | insertBlock page ptr => exact holds.insertBlock after
  | extend page start bsize n => exact holds.extend ready after
  | swap page => exact holds.swap
  | append page => exact holds.append before (short page).1
  | collect page => exact holds.collect before (short page).2
  | makeEmpty page => exact holds.makeEmpty
  | disable page => exact holds.disable
  | setDelay page new => exact holds.setDelay new
  | takeNone => exact holds.takeNone
  | take heap => exact holds.take
  | popTaken => exact holds.popTaken ready
  | insertDelayed heap ptr => exact holds.insertDelayed after

end Mem.Holds

/-! ### Bounds of the loops -/

namespace LL

variable {mem : Bytes} {fuel fuel' : Nat}

/-- The walk of `append` ends at one node. -/
theorem appendLoop_unique {p : Nat} {count : BitVec 32} {x y : Nat × BitVec 32}
    (one : appendLoop mem fuel p count = some x) (two : appendLoop mem fuel' p count = some y) : x = y := by
  induction fuel generalizing fuel' p count with
  | zero => cases one
  | succ fuel ih =>
      cases fuel' with
      | zero => cases two
      | succ fuel' =>
          rw [appendLoop] at one two
          split at one
          · rw [if_pos ‹_›] at two
            exact ih one two
          · rw [if_neg ‹_›] at two
            exact Option.some.inj (one.symm.trans two)

theorem append_unique {self other : LL} {x y : Bytes × LL × LL × BitVec 32}
    (one : append mem self other fuel = some x) (two : append mem self other fuel' = some y) : x = y := by
  rw [append] at one two
  split at one
  · rw [if_pos ‹_›] at two
    exact Option.some.inj (one.symm.trans two)
  · rw [if_neg ‹_›] at two
    obtain ⟨walk, walked, one⟩ := Option.bind_eq_some_iff.mp one
    obtain ⟨walk', walked', two⟩ := Option.bind_eq_some_iff.mp two
    rw [appendLoop_unique walked walked'] at one
    exact Option.some.inj (one.symm.trans two)

/-- The loop of `prepend_contiguous_blocks` ends with one memory. -/
theorem prependLoop_unique {last bsize block : Nat} {x y : Bytes × Nat}
    (one : prependLoop last bsize fuel mem block = some x)
    (two : prependLoop last bsize fuel' mem block = some y) : x = y := by
  induction fuel generalizing fuel' mem block with
  | zero => cases one
  | succ fuel ih =>
      cases fuel' with
      | zero => cases two
      | succ fuel' =>
          rw [prependLoop] at one two
          split at one
          · rw [if_pos ‹_›] at two
            obtain ⟨next, sum, one⟩ := Option.bind_eq_some_iff.mp one
            obtain ⟨next', sum', two⟩ := Option.bind_eq_some_iff.mp two
            obtain rfl := Option.some.inj (sum.symm.trans sum')
            exact ih one two
          · rw [if_neg ‹_›] at two
            exact Option.some.inj (one.symm.trans two)

theorem prepend_unique {self : LL} {start last bsize : Nat} {x y : Bytes × LL}
    (one : prependContiguousBlocks mem self start last bsize fuel = some x)
    (two : prependContiguousBlocks mem self start last bsize fuel' = some y) : x = y := by
  obtain ⟨walk, walked, one⟩ := Option.bind_eq_some_iff.mp one
  obtain ⟨walk', walked', two⟩ := Option.bind_eq_some_iff.mp two
  rw [prependLoop_unique walked walked'] at one
  exact Option.some.inj (one.symm.trans two)

end LL

/-- **What a call does** does not depend on the bound of its loops. -/
theorem ListCall.run_unique {call : ListCall} {fuel fuel' : Nat} {x y : Nat × Mem}
    (one : call.run fuel m = some x) (two : call.run fuel' m = some y) : x = y := by
  cases call with
  | extend page start bsize n =>
      obtain ⟨walk, walked, one⟩ := Option.bind_eq_some_iff.mp one
      obtain ⟨walk', walked', two⟩ := Option.bind_eq_some_iff.mp two
      rw [LL.prepend_unique walked walked'] at one
      exact Option.some.inj (one.symm.trans two)
  | append page | collect page =>
      obtain ⟨walk, walked, one⟩ := Option.bind_eq_some_iff.mp one
      obtain ⟨walk', walked', two⟩ := Option.bind_eq_some_iff.mp two
      rw [LL.append_unique walked walked'] at one
      exact Option.some.inj (one.symm.trans two)
  | _ => exact Option.some.inj (one.symm.trans two)

end VerusMimalloc
