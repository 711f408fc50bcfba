/-
**The page queues of the heap.**

* `PageQueuesOk`: the queues are disjoint doubly linked lists, and the page count is their total;
* `DirectOk`: the table for small sizes holds the first pages of the queues;
* `heapQueueFirstUpdate_spec`: the table after a queue got a new first page;
* `LinkedOut`, `PageQueuesOk.remove`: one page less;
* `LinkedIn`, `PageQueuesOk.push`, `PageQueuesOk.pushBack`: one page more.
-/

import VerusMimalloc.Proof.Page.Geometry
import Mathlib.Algebra.BigOperators.Fin
import Mathlib.Algebra.Order.BigOperators.Group.Finset

namespace VerusMimalloc

open Library

variable {l l' : Local} {nodes nodes' : Nat → List Nat} {pq a : Nat}

/-- The queues of the heap, as lists of pages. -/
structure PageQueuesOk (l : Local) (nodes : Nat → List Nat) : Prop where
  list : ∀ pq, IsDList (fun x => (l.pages x).prev) (fun x => (l.pages x).next) 0
    (l.heap.pages pq).first (l.heap.pages pq).last (nodes pq)
  disjoint : ∀ {pq pq' x}, x ∈ nodes pq → x ∈ nodes pq' → pq = pq'
  known : ∀ pq, binFull < pq → nodes pq = []
  word : ∀ {pq x}, x ∈ nodes pq → x < 2 ^ 64
  blockSize : ∀ pq, (l.heap.pages pq).blockSize = queueBlockSize pq
  count : l.heap.pageCount = ∑ pq ∈ Finset.range (binFull + 1), (nodes pq).length

/-- The page that the table holds for a queue. -/
def queueFirst (l : Local) (pq : Nat) : Nat :=
  if (l.heap.pages pq).first = 0 then l.heap.pageEmptyPtr else (l.heap.pages pq).first

/-- The table holds the first page of the queue of each small size. -/
def DirectOk (l : Local) : Prop :=
  ∀ w ≤ 128, l.heap.pagesFreeDirect w = queueFirst l (bin (8 * w))

/-- Linking and unlinking pages changes links, queue heads, the table and the page count. -/
structure QueueFrame (l l' : Local) : Prop where
  segs : l'.segs = l.segs
  segments : l'.segments = l.segments
  tld : l'.tld = l.tld
  os : l'.os = l.os
  taken : l'.taken = l.taken
  held : l'.held = l.held
  heapPtr : l'.heap.heapPtr = l.heap.heapPtr
  threadId : l'.heap.threadId = l.heap.threadId
  pageEmptyPtr : l'.heap.pageEmptyPtr = l.heap.pageEmptyPtr

theorem QueueFrame.trans {l'' : Local} (first : QueueFrame l l') (second : QueueFrame l' l'') :
    QueueFrame l l'' :=
  ⟨second.1.trans first.1, second.2.trans first.2, second.3.trans first.3, second.4.trans first.4,
    second.5.trans first.5, second.6.trans first.6, second.7.trans first.7, second.8.trans first.8,
    second.9.trans first.9⟩

/-- The table and the page count are not part of the frame. -/
theorem QueueFrame.rewriteHeap (frame : QueueFrame l l') {table : Nat → Nat} {count : Nat} :
    QueueFrame l { l' with heap := { l'.heap with pagesFreeDirect := table, pageCount := count } } :=
  ⟨frame.segs, frame.segments, frame.tld, frame.os, frame.taken, frame.held, frame.heapPtr,
    frame.threadId, frame.pageEmptyPtr⟩

/-! ### The table for small sizes -/

theorem setDirect_eq (pagePtr start n : Nat) (l : Local) :
    setDirect pagePtr start n l = { l with heap := { l.heap with
      pagesFreeDirect := fun i =>
        if start ≤ i ∧ i < start + n then pagePtr else l.heap.pagesFreeDirect i } } := by
  induction n with
  | zero =>
      have same : (fun i => if start ≤ i ∧ i < start + 0 then pagePtr else l.heap.pagesFreeDirect i) =
          l.heap.pagesFreeDirect := by
        funext i
        rw [if_neg (by omega)]
      rw [same]
      rfl
  | succ n ih =>
      simp only [setDirect, ih]
      congr 2
      funext i
      by_cases last : i = start + n
      · rw [if_pos last, if_pos (by omega)]
      · by_cases inside : start ≤ i ∧ i < start + n
        · rw [if_neg last, if_pos inside, if_pos (by omega)]
        · rw [if_neg last, if_neg inside, if_neg (by omega)]

theorem small_bin : ∀ w ≤ 128, 1 ≤ bin (8 * w) ∧ bin (8 * w) ≤ 24 := by decide +kernel

theorem bin_small_queue : ∀ pq ≤ 24, 1 ≤ pq →
    queueBlockSize pq / 8 ≤ 128 ∧ bin (8 * (queueBlockSize pq / 8)) = pq := by decide +kernel

/-- **`heap_queue_first_update`**: if only the entries of queue `pq` may be stale, and these are all
the same, the whole table is right afterwards. -/
theorem heapQueueFirstUpdate_spec (positive : 1 ≤ pq) (known : pq ≤ 74)
    (blockSize : ∀ i, (l.heap.pages i).blockSize = queueBlockSize i)
    (others : ∀ w ≤ 128, bin (8 * w) ≠ pq → l.heap.pagesFreeDirect w = queueFirst l (bin (8 * w)))
    (same : ∀ w ≤ 128, bin (8 * w) = pq → ∀ w' ≤ 128, bin (8 * w') = pq →
      l.heap.pagesFreeDirect w = l.heap.pagesFreeDirect w') :
    ∃ direct, heapQueueFirstUpdate l pq =
        { l with heap := { l.heap with pagesFreeDirect := direct } } ∧
      ∀ w ≤ 128, direct w = queueFirst l (bin (8 * w)) := by
  unfold heapQueueFirstUpdate
  simp only [blockSize]
  by_cases large : queueBlockSize pq > smallSizeMax
  · rw [if_pos large]
    refine ⟨_, rfl, fun w small => others w small ?_⟩
    rintro rfl
    have := (queueBlockSize_small _ known).mpr (small_bin w small).2
    omega
  · rw [if_neg large]
    have small : pq ≤ 24 := (queueBlockSize_small pq known).mp (by omega)
    obtain ⟨idxSmall, idxBin⟩ := bin_small_queue pq small positive
    change ∃ direct, (if l.heap.pagesFreeDirect (queueBlockSize pq / 8) = queueFirst l pq then l
      else setDirect (queueFirst l pq) _ _ l) = _ ∧ _
    by_cases done : l.heap.pagesFreeDirect (queueBlockSize pq / 8) = queueFirst l pq
    · rw [if_pos done]
      refine ⟨_, rfl, fun w wSmall => ?_⟩
      by_cases mine : bin (8 * w) = pq
      · rw [same w wSmall mine _ idxSmall idxBin, done, mine]
      · exact others w wSmall mine
    · rw [if_neg done, setDirect_eq]
      refine ⟨_, rfl, fun w wSmall => ?_⟩
      have range := bin_eq_iff_small pq small positive w wSmall
      generalize (if queueBlockSize pq / 8 ≤ 1 then 0 else 1 + queueBlockSize (pq - 1) / 8) = start
        at *
      by_cases mine : bin (8 * w) = pq
      · have inside := range.mp mine
        rw [if_pos (by omega), mine]
      · have outside := fun inside => mine (range.mpr inside)
        rw [if_neg (fun inside => outside (by omega)), others w wSmall mine]

/-! ### The number of pages -/

namespace PageQueuesOk

/-- Different pages have different addresses. -/
theorem count_lt_bound (ok : PageQueuesOk l nodes) {bound : Nat} (positive : 0 < bound)
    (word : ∀ pq x, x ∈ nodes pq → x < bound) : l.heap.pageCount < bound := by
  have count := ok.count
  generalize binFull + 1 = queues at count
  have total : ∑ pq ∈ Finset.range queues, (nodes pq).length =
      ((Finset.range queues).biUnion fun pq => (nodes pq).toFinset).card := by
    rw [Finset.card_biUnion]
    · exact Finset.sum_congr rfl fun pq _ => (List.toFinset_card_of_nodup (ok.list pq).nodup).symm
    · intro pq _ pq' _ differs
      refine Finset.disjoint_left.mpr fun x here there => ?_
      exact differs (ok.disjoint (List.mem_toFinset.mp here) (List.mem_toFinset.mp there))
  have inside : ((Finset.range queues).biUnion fun pq => (nodes pq).toFinset) ⊆
      (Finset.range bound).erase 0 := by
    intro x member
    obtain ⟨pq, _, here⟩ := Finset.mem_biUnion.mp member
    rw [List.mem_toFinset] at here
    refine Finset.mem_erase.mpr ⟨?_, Finset.mem_range.mpr (word pq x here)⟩
    rintro rfl
    exact (ok.list pq).nonNil here
  have size := Finset.card_le_card inside
  rw [← total, ← count, Finset.card_erase_of_mem (Finset.mem_range.mpr positive),
    Finset.card_range] at size
  omega

/-- The page count fits a word. -/
theorem count_lt (ok : PageQueuesOk l nodes) : l.heap.pageCount < 2 ^ 64 :=
  ok.count_lt_bound (Nat.two_pow_pos 64) fun _ _ member => ok.word member

theorem le_binFull (ok : PageQueuesOk l nodes) (member : a ∈ nodes pq) : pq ≤ binFull := by
  by_contra beyond
  rw [ok.known pq (by omega)] at member
  cases member

/-- The total after one queue changed. -/
theorem sum_update (ok : PageQueuesOk l nodes) (known : pq ≤ binFull) (list : List Nat) :
    ∑ i ∈ Finset.range (binFull + 1), (Function.update nodes pq list i).length + (nodes pq).length =
      l.heap.pageCount + list.length := by
  have member : pq ∈ Finset.range (binFull + 1) := Finset.mem_range.mpr (by omega)
  have before := Finset.add_sum_erase _ (fun i => (nodes i).length) member
  have after := Finset.add_sum_erase _ (fun i => (Function.update nodes pq list i).length) member
  have rest : ∑ i ∈ (Finset.range (binFull + 1)).erase pq, (Function.update nodes pq list i).length =
      ∑ i ∈ (Finset.range (binFull + 1)).erase pq, (nodes i).length :=
    Finset.sum_congr rfl fun i inRest => by
      rw [Function.update_of_ne (Finset.ne_of_mem_erase inRest)]
  simp only [Function.update_self] at before after
  rw [ok.count]
  omega

end PageQueuesOk

/-! ### Updating the table and the count -/

/-- What the queue operations do to one page: they may relink it. -/
def Relinked (p q : Page) : Prop := ∃ prev next, q = { p with prev, next }

theorem Relinked.refl (p : Page) : Relinked p p := ⟨p.prev, p.next, rfl⟩

theorem Relinked.trans {p q r : Page} (first : Relinked p q) (second : Relinked q r) :
    Relinked p r := by
  obtain ⟨_, _, rfl⟩ := first
  obtain ⟨_, _, rfl⟩ := second
  exact ⟨_, _, rfl⟩

/-- The links and the head of queue `pq` are changed, the table and the page count not yet. -/
structure HeadChanged (l l₁ : Local) (pq : Nat) : Prop where
  frame : QueueFrame l l₁
  table : l₁.heap.pagesFreeDirect = l.heap.pagesFreeDirect
  count : l₁.heap.pageCount = l.heap.pageCount
  elsewhere : ∀ i, i ≠ pq → l₁.heap.pages i = l.heap.pages i
  blockSize : (l₁.heap.pages pq).blockSize = (l.heap.pages pq).blockSize

/-- **The end of each queue operation**: the table is updated if the first page may have changed, and
the page count is written. -/
theorem HeadChanged.finish {l₁ : Local} {P : Prop} [Decidable P] (changed : HeadChanged l l₁ pq)
    (ok : PageQueuesOk l nodes) (direct : DirectOk l) (positive : 1 ≤ pq) (known : pq ≤ 74)
    (kept : ¬P → (l₁.heap.pages pq).first = (l.heap.pages pq).first) (count : Nat → Nat) :
    let u := if P then heapQueueFirstUpdate l₁ pq else l₁
    ∃ table, setPageCount u (count u.heap.pageCount) = { l₁ with heap := { l₁.heap with
        pagesFreeDirect := table, pageCount := count l.heap.pageCount } } ∧
      ∀ w ≤ 128, table w = queueFirst l₁ (bin (8 * w)) := by
  intro u
  have blockSize : ∀ i, (l₁.heap.pages i).blockSize = queueBlockSize i := fun i => by
    rw [← ok.blockSize i]
    by_cases same : i = pq
    · rw [same, changed.blockSize]
    · rw [changed.elsewhere i same]
  have first : ∀ i, i ≠ pq → queueFirst l₁ i = queueFirst l i := fun i differs => by
    simp only [queueFirst, changed.elsewhere i differs, changed.frame.pageEmptyPtr]
  obtain ⟨table, tableEq, tableOk⟩ : ∃ table,
      u = { l₁ with heap := { l₁.heap with pagesFreeDirect := table } } ∧
      ∀ w ≤ 128, table w = queueFirst l₁ (bin (8 * w)) := by
    by_cases head : P
    · simp only [u, if_pos head]
      refine heapQueueFirstUpdate_spec positive known blockSize (fun w small differs => ?_)
        (fun w small mine w' small' mine' => ?_)
      · rw [changed.table, direct w small, first _ differs]
      · rw [changed.table, direct w small, direct w' small', mine, mine']
    · simp only [u, if_neg head]
      refine ⟨_, rfl, fun w small => ?_⟩
      rw [changed.table, direct w small]
      by_cases same : bin (8 * w) = pq
      · simp only [queueFirst, same, kept head, changed.frame.pageEmptyPtr]
      · rw [first _ same]
  refine ⟨table, ?_, tableOk⟩
  rw [tableEq]
  simp only [setPageCount, changed.count]

/-- The rest of the invariant, once the lists are known. -/
theorem HeadChanged.queuesOk {l₁ l' : Local} (changed : HeadChanged l l₁ pq)
    (ok : PageQueuesOk l nodes) (known : pq ≤ binFull) {list : List Nat}
    (pages : l'.pages = l₁.pages) (queues : l'.heap.pages = l₁.heap.pages)
    (mine : IsDList (fun x => (l₁.pages x).prev) (fun x => (l₁.pages x).next) 0
      (l₁.heap.pages pq).first (l₁.heap.pages pq).last list)
    (links : ∀ i, i ≠ pq → ∀ x ∈ nodes i,
      (l₁.pages x).prev = (l.pages x).prev ∧ (l₁.pages x).next = (l.pages x).next)
    (apart : ∀ i, i ≠ pq → ∀ x ∈ nodes i, x ∉ list) (word : ∀ x ∈ list, x < 2 ^ 64)
    (count : l'.heap.pageCount + (nodes pq).length = l.heap.pageCount + list.length) :
    PageQueuesOk l' (Function.update nodes pq list) := by
  have place : ∀ i x, x ∈ Function.update nodes pq list i →
      (i = pq ∧ x ∈ list) ∨ (i ≠ pq ∧ x ∈ nodes i) := by
    intro i x member
    by_cases same : i = pq
    · subst same
      rw [Function.update_self] at member
      exact .inl ⟨rfl, member⟩
    · rw [Function.update_of_ne same] at member
      exact .inr ⟨same, member⟩
  refine ⟨fun i => ?_, fun {i i' x} here there => ?_, fun i beyond => ?_, fun {i x} here => ?_,
    fun i => ?_, ?_⟩
  · rw [pages, queues]
    by_cases same : i = pq
    · subst same
      rw [Function.update_self]
      exact mine
    · rw [Function.update_of_ne same, changed.elsewhere i same]
      exact (ok.list i).congr (fun x member => (links i same x member).1)
        fun x member => (links i same x member).2
  · rcases place i x here with ⟨rfl, inList⟩ | ⟨differs, member⟩ <;>
      rcases place i' x there with ⟨same, inList'⟩ | ⟨differs', member'⟩
    · exact same.symm
    · exact absurd inList (apart i' differs' x member')
    · exact absurd inList' (apart i differs x member)
    · exact ok.disjoint member member'
  · rw [Function.update_of_ne (by omega), ok.known i beyond]
  · rcases place i x here with ⟨_, inList⟩ | ⟨_, member⟩
    · exact word x inList
    · exact ok.word member
  · rw [queues, ← ok.blockSize i]
    by_cases same : i = pq
    · rw [same, changed.blockSize]
    · rw [changed.elsewhere i same]
  · have sum := ok.sum_update known list
    omega

/-! ### One page less -/

/-- Page `a` is taken out of queue `pq`, which is `list` now; the table and the page count are not yet changed. -/
structure LinkedOut (l l₁ : Local) (nodes : Nat → List Nat) (pq a : Nat) (list : List Nat) : Prop where
  changed : HeadChanged l l₁ pq
  chain : IsDList (fun x => (l₁.pages x).prev) (fun x => (l₁.pages x).next) 0
    (l₁.heap.pages pq).first (l₁.heap.pages pq).last list
  perm : (nodes pq).Perm (a :: list)
  relinked : ∀ x, Relinked (l.pages x) (l₁.pages x)
  others : ∀ x, x ∉ nodes pq → l₁.pages x = l.pages x

namespace PageQueuesOk

/-- `page_queue_remove`, up to the table. -/
theorem linkedOut (ok : PageQueuesOk l nodes) (member : a ∈ nodes pq) :
    ∃ l₁ list, LinkedOut l l₁ nodes pq a list ∧
      ((l.pages a).prev ≠ 0 → (l₁.heap.pages pq).first = (l.heap.pages pq).first) ∧
      let u := if (l.pages a).prev = 0 then heapQueueFirstUpdate l₁ pq else l₁
      pageQueueRemove l pq a = setPageCount u ((u.heap.pageCount + 2 ^ 64 - 1) % 2 ^ 64) := by
  obtain ⟨before, after, shape⟩ := List.append_of_mem member
  have list := ok.list pq
  rw [shape] at list
  generalize prevEq : (l.pages a).prev = prev
  generalize nextEq : (l.pages a).next = next
  have prevIn : prev ≠ 0 → prev ∈ nodes pq := fun nonzero => by
    rw [shape, ← prevEq]
    exact List.mem_append_left _ (list.prev_mem (prevEq ▸ nonzero))
  have nextIn : next ≠ 0 → next ∈ nodes pq := fun nonzero => by
    rw [shape, ← nextEq]
    exact List.mem_append_right _ (List.mem_cons_of_mem _ (list.next_mem (nextEq ▸ nonzero)))
  let l₁ := (if next ≠ 0 then
        (if prev ≠ 0 then l.modifyPage prev fun p => { p with next := next } else l).modifyPage next
          fun p => { p with prev := prev }
      else if prev ≠ 0 then l.modifyPage prev fun p => { p with next := next } else l).modifyQueue pq
      fun q => { q with
        last := if next = 0 then prev else q.last
        first := if prev = 0 then next else q.first }
  have pages₁ : ∀ x, l₁.pages x = { l.pages x with
      next := if prev ≠ 0 ∧ x = prev then next else (l.pages x).next
      prev := if next ≠ 0 ∧ x = next then prev else (l.pages x).prev } := by
    intro x
    by_cases prevNull : prev = 0 <;> by_cases nextNull : next = 0 <;>
      simp only [l₁, prevNull, nextNull, if_true, if_false, Local.modifyPage_pages,
        Local.modifyQueue_pages, ne_eq, not_true, not_false_iff, false_and, true_and] <;>
      split_ifs <;> rfl
  have head : l₁.heap.pages pq = { l.heap.pages pq with
      last := if next = 0 then prev else (l.heap.pages pq).last
      first := if prev = 0 then next else (l.heap.pages pq).first } := by
    simp only [l₁]
    rw [Local.modifyQueue_queue, if_pos rfl]
    split_ifs <;> rfl
  have changed : HeadChanged l l₁ pq := by
    simp only [l₁]
    refine ⟨?_, ?_, ?_, fun i differs => ?_, ?_⟩
    · constructor <;> (simp only [Local.modifyQueue]; split_ifs <;> rfl)
    · rw [Local.modifyQueue_direct]
      split_ifs <;> rfl
    · rw [Local.modifyQueue_pageCount]
      split_ifs <;> rfl
    · rw [Local.modifyQueue_queue, if_neg differs]
      split_ifs <;> rfl
    · rw [Local.modifyQueue_queue, if_pos rfl]
      split_ifs <;> rfl
  have notZero : ∀ x ∈ before ++ after, x ≠ 0 := fun x inside zero => list.nonNil (by
    simp only [List.mem_append, List.mem_cons] at inside ⊢
    exact zero ▸ (by tauto))
  refine ⟨l₁, before ++ after, ⟨changed, ?_, ?_, fun x => ⟨_, _, pages₁ x⟩, fun x away => ?_⟩,
    fun inner => by rw [head]; exact if_neg inner, ?_⟩
  · refine list.remove (fun x inside => ?_) (fun x inside => ?_) ?_ ?_
    · rw [pages₁, prevEq, nextEq]
      by_cases atPrev : x = prev
      · simp only [atPrev, if_true, and_true]
        exact if_pos (atPrev ▸ notZero x inside)
      · simp only [atPrev, and_false, if_false]
    · rw [pages₁, prevEq, nextEq]
      by_cases atNext : x = next
      · simp only [atNext, if_true, and_true]
        exact if_pos (atNext ▸ notZero x inside)
      · simp only [atNext, and_false, if_false]
    · rw [head, prevEq, nextEq]
    · rw [head, prevEq, nextEq]
  · rw [shape]
    exact List.perm_middle
  · have notPrev : ¬(prev ≠ 0 ∧ x = prev) := fun both => away (both.2 ▸ prevIn both.1)
    have notNext : ¬(next ≠ 0 ∧ x = next) := fun both => away (both.2 ▸ nextIn both.1)
    simp only [pages₁, if_neg notPrev, if_neg notNext]
  · subst prevEq nextEq
    rfl

/-- **`page_queue_remove`** of a page of the queue. -/
theorem remove (ok : PageQueuesOk l nodes) (direct : DirectOk l) (positive : 1 ≤ pq)
    (member : a ∈ nodes pq) :
    (∃ nodes', PageQueuesOk (pageQueueRemove l pq a) nodes' ∧
      ∀ i x, x ∈ nodes' i ↔ x ∈ nodes i ∧ x ≠ a) ∧
    DirectOk (pageQueueRemove l pq a) ∧ QueueFrame l (pageQueueRemove l pq a) ∧
    (∀ x, Relinked (l.pages x) ((pageQueueRemove l pq a).pages x)) ∧
    ∀ x, (∀ i, x ∉ nodes i) → (pageQueueRemove l pq a).pages x = l.pages x := by
  have known := ok.le_binFull member
  obtain ⟨l₁, list, out, kept, result⟩ := ok.linkedOut member
  obtain ⟨table, finish, tableOk⟩ := out.changed.finish ok direct positive known kept
    fun count => (count + 2 ^ 64 - 1) % 2 ^ 64
  rw [result]
  simp only at finish
  rw [finish]
  have inList : ∀ x ∈ list, x ∈ nodes pq := fun x inside =>
    out.perm.mem_iff.mpr (List.mem_cons_of_mem a inside)
  have gone : a ∉ list := (List.nodup_cons.mp (out.perm.nodup_iff.mp (ok.list pq).nodup)).1
  refine ⟨⟨_, out.changed.queuesOk ok known rfl rfl out.chain (fun i differs x inside => ?_)
    (fun i differs x inside both => differs (ok.disjoint inside (inList x both)))
    (fun x inside => ok.word (inList x inside)) ?_, fun i x => ?_⟩, tableOk,
    out.changed.frame.rewriteHeap, out.relinked, fun x away => out.others x (away pq)⟩
  · rw [out.others x fun mine => differs (ok.disjoint inside mine)]
    exact ⟨rfl, rfl⟩
  · have bound := ok.count_lt
    have total := ok.sum_update known []
    have length := out.perm.length_eq
    simp only [List.length_nil, Nat.add_zero] at total
    simp only [List.length_cons] at length ⊢
    omega
  · by_cases same : i = pq
    · subst same
      rw [Function.update_self, out.perm.mem_iff, List.mem_cons]
      exact ⟨fun inside => ⟨.inr inside, fun equal => gone (equal ▸ inside)⟩,
        fun both => both.1.resolve_left both.2⟩
    · rw [Function.update_of_ne same]
      refine ⟨fun inside => ⟨inside, ?_⟩, fun both => both.1⟩
      rintro rfl
      exact same (ok.disjoint inside member)

end PageQueuesOk

/-! ### One page more -/

/-- Page `a` is linked into queue `pq`, which is `list` now; the table and the page count are not yet changed. -/
structure LinkedIn (l l₁ : Local) (nodes : Nat → List Nat) (pq a : Nat) (list : List Nat) : Prop where
  changed : HeadChanged l l₁ pq
  chain : IsDList (fun x => (l₁.pages x).prev) (fun x => (l₁.pages x).next) 0
    (l₁.heap.pages pq).first (l₁.heap.pages pq).last list
  perm : list.Perm (a :: nodes pq)
  relinked : ∀ x, Relinked (if x = a then (l.pages x).setInFull (pq == binFull) else l.pages x) (l₁.pages x)
  others : ∀ x, x ∉ nodes pq → x ≠ a → l₁.pages x = l.pages x

/-- **A page more**: the end of both pushes, once the page is linked. -/
theorem LinkedIn.finish {l₁ : Local} {list : List Nat} {P : Prop} [Decidable P]
    (linked : LinkedIn l l₁ nodes pq a list) (ok : PageQueuesOk l nodes) (direct : DirectOk l)
    (positive : 1 ≤ pq) (known : pq ≤ binFull) (fresh : ∀ i, a ∉ nodes i) (word : a < 2 ^ 64)
    (kept : ¬P → (l₁.heap.pages pq).first = (l.heap.pages pq).first) :
    let u := if P then heapQueueFirstUpdate l₁ pq else l₁
    let l' := setPageCount u ((u.heap.pageCount + 1) % 2 ^ 64)
    (∃ nodes', PageQueuesOk l' nodes' ∧ ∀ i x, x ∈ nodes' i ↔ x ∈ nodes i ∨ (i = pq ∧ x = a)) ∧
    DirectOk l' ∧ QueueFrame l l' ∧
    (∀ x, Relinked (if x = a then (l.pages x).setInFull (pq == binFull) else l.pages x) (l'.pages x)) ∧
    ∀ x, (∀ i, x ∉ nodes i) → x ≠ a → l'.pages x = l.pages x := by
  intro u l'
  obtain ⟨table, finish, tableOk⟩ := linked.changed.finish (P := P) ok direct positive known kept
    fun count => (count + 1) % 2 ^ 64
  have inList : ∀ x, x ∈ list ↔ x ∈ nodes pq ∨ x = a := fun x => by
    rw [linked.perm.mem_iff, List.mem_cons, or_comm]
  have bigger : PageQueuesOk { l₁ with heap := { l₁.heap with
      pagesFreeDirect := table, pageCount := l.heap.pageCount + 1 } } (Function.update nodes pq list) := by
    refine linked.changed.queuesOk ok known rfl rfl linked.chain (fun i differs x inside => ?_)
      (fun i differs x inside both => ?_) (fun x member => ?_) ?_
    · have notMine : x ∉ nodes pq := fun mine => differs (ok.disjoint inside mine)
      rw [linked.others x notMine fun same => fresh i (same ▸ inside)]
      exact ⟨rfl, rfl⟩
    · rcases (inList x).mp both with mine | rfl
      · exact differs (ok.disjoint inside mine)
      · exact fresh i inside
    · rcases (inList x).mp member with mine | rfl
      · exact ok.word mine
      · exact word
    · have length := linked.perm.length_eq
      simp only [List.length_cons] at length ⊢
      omega
  have bound := bigger.count_lt
  simp only at bound
  have result : l' = { l₁ with heap := { l₁.heap with
      pagesFreeDirect := table, pageCount := l.heap.pageCount + 1 } } := by
    rw [← Nat.mod_eq_of_lt bound]
    exact finish
  rw [result]
  refine ⟨⟨_, bigger, fun i x => ?_⟩, tableOk, linked.changed.frame.rewriteHeap, linked.relinked,
    fun x away differs => linked.others x (away pq) differs⟩
  by_cases same : i = pq
  · subst same
    rw [Function.update_self, inList]
    tauto
  · rw [Function.update_of_ne same]
    tauto

namespace PageQueuesOk

/-- `page_queue_push`, up to the table. -/
theorem linkedFirst (pq : Nat) (ok : PageQueuesOk l nodes) (fresh : ∀ i, a ∉ nodes i) (nonzero : a ≠ 0) :
    ∃ l₁, LinkedIn l l₁ nodes pq a (a :: nodes pq) ∧ pageQueuePush l pq a =
      setPageCount (heapQueueFirstUpdate l₁ pq) (((heapQueueFirstUpdate l₁ pq).heap.pageCount + 1) % 2 ^ 64) := by
  have list := ok.list pq
  generalize firstEq : (l.heap.pages pq).first = first at list
  have firstIn : first ≠ 0 → first ∈ nodes pq := fun inner => list.first_mem inner
  have notFirst : ∀ x, x ∉ nodes pq → ¬(first ≠ 0 ∧ x = first) :=
    fun x away both => away (both.2 ▸ firstIn both.1)
  let l₀ := (l.modifyPage a fun p => p.setInFull (pq == binFull)).modifyQueue pq
    fun q => { q with first := a, last := if first = 0 then a else q.last }
  let l₁ := (if first ≠ 0 then l₀.modifyPage first fun p => { p with prev := a } else l₀).modifyPage a
    fun p => { p with prev := 0, next := first }
  have pages₁ : ∀ x, l₁.pages x =
      if x = a then { (l.pages x).setInFull (pq == binFull) with prev := 0, next := first }
      else { l.pages x with prev := if first ≠ 0 ∧ x = first then a else (l.pages x).prev } := by
    intro x
    by_cases atNode : x = a
    · subst atNode
      by_cases null : first = 0
      · simp [l₁, l₀, null]
      · simp [l₁, l₀, null, show x ≠ first from fun same => notFirst x (fresh pq) ⟨null, same⟩]
    · by_cases null : first = 0
      · simp [l₁, l₀, null, atNode]
      · by_cases atFirst : x = first
        · subst atFirst
          simp [l₁, l₀, null, atNode]
        · simp [l₁, l₀, null, atNode, atFirst]
  have head : l₁.heap.pages pq = { l.heap.pages pq with
      first := a, last := if first = 0 then a else (l.heap.pages pq).last } := by
    simp only [l₁, l₀]
    split_ifs <;> simp [*]
  have changed : HeadChanged l l₁ pq := by
    simp only [l₁, l₀]
    refine ⟨?_, ?_, ?_, fun i differs => ?_, ?_⟩
    · constructor <;> (simp only [Local.modifyPage, Local.modifyQueue]; split_ifs <;> rfl)
    all_goals split_ifs <;> simp [*]
  have notNode : ∀ x ∈ nodes pq, x ≠ a := fun x inside same => fresh pq (same ▸ inside)
  refine ⟨l₁, ⟨changed, ?_, .refl _, fun x => ?_, fun x away differs => ?_⟩, ?_⟩
  · rw [head]
    refine list.pushFront (fresh pq) nonzero (fun x inside => ?_) (fun x inside => ?_) ?_ ?_ rfl
    · rw [pages₁, if_neg (notNode x inside)]
    · rw [pages₁, if_neg (notNode x inside)]
      by_cases atFirst : x = first
      · have inner : first ≠ 0 := fun zero => list.nonNil (by rw [← zero, ← atFirst]; exact inside)
        simp only [atFirst, and_true, if_true]
        exact if_pos inner
      · simp only [atFirst, and_false, if_false]
    · rw [pages₁, if_pos rfl]
    · rw [pages₁, if_pos rfl]
  · rw [pages₁]
    split_ifs <;> exact ⟨_, _, rfl⟩
  · simp only [pages₁, if_neg differs, if_neg (notFirst x away)]
  · subst firstEq
    rfl

/-- **`page_queue_push`** of a page that is in no queue. -/
theorem push (ok : PageQueuesOk l nodes) (direct : DirectOk l) (positive : 1 ≤ pq)
    (known : pq ≤ binFull) (fresh : ∀ i, a ∉ nodes i) (nonzero : a ≠ 0) (word : a < 2 ^ 64) :
    (∃ nodes', PageQueuesOk (pageQueuePush l pq a) nodes' ∧
      ∀ i x, x ∈ nodes' i ↔ x ∈ nodes i ∨ (i = pq ∧ x = a)) ∧
    DirectOk (pageQueuePush l pq a) ∧ QueueFrame l (pageQueuePush l pq a) ∧
    (∀ x, Relinked (if x = a then (l.pages x).setInFull (pq == binFull) else l.pages x)
      ((pageQueuePush l pq a).pages x)) ∧
    ∀ x, (∀ i, x ∉ nodes i) → x ≠ a → (pageQueuePush l pq a).pages x = l.pages x := by
  obtain ⟨l₁, linked, result⟩ := ok.linkedFirst pq fresh nonzero
  rw [result]
  exact linked.finish (P := True) ok direct positive known fresh word fun never => absurd trivial never

/-- `page_queue_push_back`, up to the table. -/
theorem linkedLast (pq : Nat) (ok : PageQueuesOk l nodes) (fresh : ∀ i, a ∉ nodes i) (nonzero : a ≠ 0) :
    ∃ l₁, LinkedIn l l₁ nodes pq a (nodes pq ++ [a]) ∧
      ((l.heap.pages pq).last ≠ 0 → (l₁.heap.pages pq).first = (l.heap.pages pq).first) ∧
      let u := if (l.heap.pages pq).last = 0 then heapQueueFirstUpdate l₁ pq else l₁
      pageQueuePushBack l pq a = setPageCount u ((u.heap.pageCount + 1) % 2 ^ 64) := by
  have list := ok.list pq
  generalize lastEq : (l.heap.pages pq).last = last at list ⊢
  have lastIn : last ≠ 0 → last ∈ nodes pq := fun inner => list.last_mem inner
  have notLast : ∀ x, x ∉ nodes pq → ¬(last ≠ 0 ∧ x = last) :=
    fun x away both => away (both.2 ▸ lastIn both.1)
  let l₀ := ((l.modifyPage a fun p => p.setInFull (pq == binFull)).modifyQueue pq
    fun q => { q with last := a, first := if last = 0 then a else q.first }).modifyPage a
      fun p => { p with next := 0, prev := last }
  let l₁ := if last ≠ 0 then l₀.modifyPage last fun p => { p with next := a } else l₀
  have pages₁ : ∀ x, l₁.pages x =
      if x = a then { (l.pages x).setInFull (pq == binFull) with prev := last, next := 0 }
      else { l.pages x with next := if last ≠ 0 ∧ x = last then a else (l.pages x).next } := by
    intro x
    by_cases atNode : x = a
    · subst atNode
      by_cases null : last = 0
      · simp [l₁, l₀, null]
      · simp [l₁, l₀, null, show x ≠ last from fun same => notLast x (fresh pq) ⟨null, same⟩]
    · by_cases null : last = 0
      · simp [l₁, l₀, null, atNode]
      · by_cases atLast : x = last
        · subst atLast
          simp [l₁, l₀, null, atNode]
        · simp [l₁, l₀, null, atNode, atLast]
  have head : l₁.heap.pages pq = { l.heap.pages pq with
      last := a, first := if last = 0 then a else (l.heap.pages pq).first } := by
    simp only [l₁, l₀]
    split_ifs <;> simp [*]
  have changed : HeadChanged l l₁ pq := by
    simp only [l₁, l₀]
    refine ⟨?_, ?_, ?_, fun i differs => ?_, ?_⟩
    · constructor <;> (simp only [Local.modifyPage, Local.modifyQueue]; split_ifs <;> rfl)
    all_goals split_ifs <;> simp [*]
  have notNode : ∀ x ∈ nodes pq, x ≠ a := fun x inside same => fresh pq (same ▸ inside)
  refine ⟨l₁, ⟨changed, ?_, List.perm_append_singleton a _, fun x => ?_, fun x away differs => ?_⟩,
    fun inner => by rw [head]; exact if_neg inner, ?_⟩
  · rw [head]
    refine list.pushBack (fresh pq) nonzero (fun x inside => ?_) (fun x inside => ?_) ?_ ?_ rfl
    · rw [pages₁, if_neg (notNode x inside)]
      by_cases atLast : x = last
      · have inner : last ≠ 0 := fun zero => list.nonNil (by rw [← zero, ← atLast]; exact inside)
        simp only [atLast, and_true, if_true]
        exact if_pos inner
      · simp only [atLast, and_false, if_false]
    · rw [pages₁, if_neg (notNode x inside)]
    · rw [pages₁, if_pos rfl]
    · rw [pages₁, if_pos rfl]
  · rw [pages₁]
    split_ifs <;> exact ⟨_, _, rfl⟩
  · simp only [pages₁, if_neg differs, if_neg (notLast x away)]
  · subst lastEq
    rfl

/-- **`page_queue_push_back`** of a page that is in no queue. -/
theorem pushBack (ok : PageQueuesOk l nodes) (direct : DirectOk l) (positive : 1 ≤ pq)
    (known : pq ≤ binFull) (fresh : ∀ i, a ∉ nodes i) (nonzero : a ≠ 0) (word : a < 2 ^ 64) :
    (∃ nodes', PageQueuesOk (pageQueuePushBack l pq a) nodes' ∧
      ∀ i x, x ∈ nodes' i ↔ x ∈ nodes i ∨ (i = pq ∧ x = a)) ∧
    DirectOk (pageQueuePushBack l pq a) ∧ QueueFrame l (pageQueuePushBack l pq a) ∧
    (∀ x, Relinked (if x = a then (l.pages x).setInFull (pq == binFull) else l.pages x)
      ((pageQueuePushBack l pq a).pages x)) ∧
    ∀ x, (∀ i, x ∉ nodes i) → x ≠ a → (pageQueuePushBack l pq a).pages x = l.pages x := by
  obtain ⟨l₁, linked, kept, result⟩ := ok.linkedLast pq fresh nonzero
  rw [result]
  exact linked.finish ok direct positive known fresh word kept

end PageQueuesOk

end VerusMimalloc
