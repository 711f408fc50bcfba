/-
**The queues of the page organization machine.**

The used queues and the unused queues are two families of doubly linked lists; `QueuesOk` says of a
family that every list is what its header and the links of its pages describe, and which pages are on
which list.

* `State.setNext_spec`, `State.setPrev_spec`: what redirecting a neighbour changes;
* `QueuesOk.congr`, `QueuesOk.remove`, `QueuesOk.pushFront`, `QueuesOk.pushBack`.
-/

import VerusMimalloc.Proof.PageOrg.Layout
import VerusMimalloc.Library.DList

namespace VerusMimalloc.PageOrg

open Library

variable {P : Type}

/-! ### Links -/

/-- The links of a page, as far as there are any. -/
def linksAt (pages : Pages P) (id : PageId P) : DlistEntry P :=
  ((pages id).bind PageData.dlistEntry).getD ⟨none, none⟩

def prevOf (pages : Pages P) (id : Option (PageId P)) : Option (PageId P) :=
  id.bind fun id => (linksAt pages id).prev

def nextOf (pages : Pages P) (id : Option (PageId P)) : Option (PageId P) :=
  id.bind fun id => (linksAt pages id).next

theorem State.links_eq (s : State P) (id : PageId P) : (s.page id).links = linksAt s.pages id := by
  unfold State.page PageData.links linksAt
  cases s.pages id <;> rfl

section Updates

variable [DecidableEq P] {pages : Pages P} {id other : PageId P} {d : PageData P}

theorem insert_apply : Pages.insert pages id d other = if other = id then some d else pages other := by
  unfold Pages.insert
  by_cases same : other = id
  · rw [same, Function.update_self, if_pos rfl]
  · rw [Function.update_of_ne same, if_neg same]

theorem shapeAt_insert : shapeAt (Pages.insert pages id d) other =
    if other = id then some d.shape else shapeAt pages other := by
  unfold shapeAt
  rw [insert_apply]
  split <;> rfl

theorem linksAt_insert : linksAt (Pages.insert pages id d) other =
    if other = id then d.links else linksAt pages other := by
  unfold linksAt
  rw [insert_apply]
  split <;> rfl

/-- A neighbour that is about to be redirected still is as before, and has links. -/
def Redirects (pre : State P) (pages : Pages P) (target : Option (PageId P)) : Prop :=
  ∀ id, target = some id → pages id = pre.pages id ∧ ∃ d, pre.pages id = some d ∧ d.dlistEntry.isSome

theorem State.setNext_spec {pre : State P} {target : Option (PageId P)} (value : Option (PageId P))
    (there : Redirects pre pages target) (id : PageId P) :
    shapeAt (pre.setNext pages target value) id = shapeAt pages id ∧
      linksAt (pre.setNext pages target value) id =
        if some id = target then { linksAt pages id with next := value } else linksAt pages id := by
  cases target with
  | none => exact ⟨rfl, by rw [if_neg (by simp)]; rfl⟩
  | some neighbour =>
      obtain ⟨same, d, here, linked⟩ := there neighbour rfl
      have page : pre.page neighbour = d := by rw [State.page, here]; rfl
      simp only [State.setNext]
      rw [shapeAt_insert, linksAt_insert]
      by_cases equal : id = neighbour
      · subst equal
        rw [if_pos rfl, if_pos rfl, if_pos rfl, page]
        constructor
        · rw [shapeAt, same, here]
          simp only [Option.map_some, PageData.shape, linked, Option.isSome_some]
        · simp only [linksAt, PageData.links, same, here, Option.bind_some, Option.getD_some]
      · rw [if_neg equal, if_neg equal, if_neg (by simpa using equal)]
        exact ⟨rfl, rfl⟩

theorem State.setPrev_spec {pre : State P} {target : Option (PageId P)} (value : Option (PageId P))
    (there : Redirects pre pages target) (id : PageId P) :
    shapeAt (pre.setPrev pages target value) id = shapeAt pages id ∧
      linksAt (pre.setPrev pages target value) id =
        if some id = target then { linksAt pages id with prev := value } else linksAt pages id := by
  cases target with
  | none => exact ⟨rfl, by rw [if_neg (by simp)]; rfl⟩
  | some neighbour =>
      obtain ⟨same, d, here, linked⟩ := there neighbour rfl
      have page : pre.page neighbour = d := by rw [State.page, here]; rfl
      simp only [State.setPrev]
      rw [shapeAt_insert, linksAt_insert]
      by_cases equal : id = neighbour
      · subst equal
        rw [if_pos rfl, if_pos rfl, if_pos rfl, page]
        constructor
        · rw [shapeAt, same, here]
          simp only [Option.map_some, PageData.shape, linked, Option.isSome_some]
        · simp only [linksAt, PageData.links, same, here, Option.bind_some, Option.getD_some]
      · rw [if_neg equal, if_neg equal, if_neg (by simpa using equal)]
        exact ⟨rfl, rfl⟩

theorem State.setNext_other {pre : State P} {target value : Option (PageId P)}
    (other : some id ≠ target) : pre.setNext pages target value id = pages id := by
  cases target with
  | none => rfl
  | some neighbour =>
      simp only [State.setNext]
      rw [insert_apply, if_neg (by simpa using other)]

end Updates

/-! ### Families of queues -/

def headerAt (headers : List (DlistHeader P)) (i : Nat) : DlistHeader P := headers.getD i ⟨none, none⟩

def listAt (lists : List (List (PageId P))) (i : Nat) : List (PageId P) := lists.getD i []

/-- **The queues `0` to `n - 1`**; `member i id` says that the page is on queue `i`. -/
structure QueuesOk (pages : Pages P) (n : Nat) (headers : List (DlistHeader P))
    (lists : List (List (PageId P))) (member : Nat → PageId P → Prop) : Prop where
  headers_length : headers.length = n
  lists_length : lists.length = n
  list : ∀ i < n, IsDList (prevOf pages) (nextOf pages) none (headerAt headers i).first
    (headerAt headers i).last ((listAt lists i).map some)
  mem : ∀ i < n, ∀ id, id ∈ listAt lists i ↔ member i id
  bound : ∀ i id, member i id → i < n
  once : ∀ i j id, member i id → member j id → i = j
  linked : ∀ i id, member i id → ∃ d, pages id = some d ∧ d.dlistEntry.isSome

namespace QueuesOk

variable {pages pages' : Pages P} {n i j : Nat} {headers : List (DlistHeader P)}
  {lists : List (List (PageId P))} {member member' : Nat → PageId P → Prop} {id : PageId P}

theorem empty (pages : Pages P) (n : Nat) (none : ∀ i id, ¬member i id) :
    QueuesOk pages n (List.replicate n ⟨Option.none, Option.none⟩) (List.replicate n []) member := by
  have headers : ∀ i < n, headerAt (List.replicate n (⟨Option.none, Option.none⟩ : DlistHeader P)) i =
      ⟨Option.none, Option.none⟩ := by
    intro i inside
    rw [headerAt, List.getD_eq_getElem?_getD, List.getElem?_replicate, if_pos inside, Option.getD_some]
  have lists : ∀ i < n, listAt (List.replicate n ([] : List (PageId P))) i = [] := by
    intro i inside
    rw [listAt, List.getD_eq_getElem?_getD, List.getElem?_replicate, if_pos inside, Option.getD_some]
  refine ⟨List.length_replicate, List.length_replicate, fun i inside => ?_, fun i inside id => ?_,
    fun i id here => absurd here (none i id), fun i j id here => absurd here (none i id),
    fun i id here => absurd here (none i id)⟩
  · rw [headers i inside, lists i inside]
    exact .empty
  · rw [lists i inside]
    exact ⟨fun here => absurd here List.not_mem_nil, fun here => absurd here (none i id)⟩

/-- Only the links of pages on the queues matter. -/
theorem congr (ok : QueuesOk pages n headers lists member)
    (same : ∀ i id, member' i id ↔ member i id)
    (links : ∀ i id, member i id → linksAt pages' id = linksAt pages id)
    (linked : ∀ i id, member i id → ∃ d, pages' id = some d ∧ d.dlistEntry.isSome) :
    QueuesOk pages' n headers lists member' := by
  refine ⟨ok.headers_length, ok.lists_length, fun i inside => ?_, fun i inside id => ?_,
    fun i id here => ok.bound i id ((same i id).mp here),
    fun i j id first second => ok.once i j id ((same i id).mp first) ((same j id).mp second),
    fun i id here => linked i id ((same i id).mp here)⟩
  · refine (ok.list i inside).congr (fun node here => ?_) (fun node here => ?_)
    · obtain ⟨id, inList, rfl⟩ := List.mem_map.mp here
      simp only [prevOf, Option.bind_some, links i id ((ok.mem i inside id).mp inList)]
    · obtain ⟨id, inList, rfl⟩ := List.mem_map.mp here
      simp only [nextOf, Option.bind_some, links i id ((ok.mem i inside id).mp inList)]
  · rw [same]
    exact ok.mem i inside id

/-- The header and the links of a page on a queue name pages of the same queue. -/
theorem first_member (ok : QueuesOk pages n headers lists member) (inside : i < n)
    (first : (headerAt headers i).first = some id) : member i id := by
  have := (ok.list i inside).first_mem (by rw [first]; simp)
  rw [first] at this
  obtain ⟨_, here, same⟩ := List.mem_map.mp this
  cases same
  exact (ok.mem i inside id).mp here

theorem last_member (ok : QueuesOk pages n headers lists member) (inside : i < n)
    (last : (headerAt headers i).last = some id) : member i id := by
  have := (ok.list i inside).last_mem (by rw [last]; simp)
  rw [last] at this
  obtain ⟨_, here, same⟩ := List.mem_map.mp this
  cases same
  exact (ok.mem i inside id).mp here

/-- A page on a queue divides it. -/
theorem split (ok : QueuesOk pages n headers lists member) (inside : i < n)
    (here : (listAt lists i)[j]? = some id) :
    ∃ left right, listAt lists i = left ++ id :: right ∧
      (listAt lists i).eraseIdx j = left ++ right ∧
      IsDList (prevOf pages) (nextOf pages) none (headerAt headers i).first
        (headerAt headers i).last (left.map some ++ some id :: right.map some) := by
  obtain ⟨small, rfl⟩ := List.getElem?_eq_some_iff.mp here
  have shape : listAt lists i =
      (listAt lists i).take j ++ (listAt lists i)[j] :: (listAt lists i).drop (j + 1) := by
    rw [← List.drop_eq_getElem_cons small, List.take_append_drop]
  refine ⟨_, _, shape, List.eraseIdx_eq_take_drop_succ _ _, ?_⟩
  have list := ok.list i inside
  rw [shape, List.map_append, List.map_cons] at list
  simpa using list

/-- The neighbours of a page on a queue are other pages of the same queue. -/
theorem prev_member (ok : QueuesOk pages n headers lists member) (inside : i < n)
    (here : (listAt lists i)[j]? = some id) {neighbour : PageId P}
    (prev : (linksAt pages id).prev = some neighbour) : member i neighbour ∧ neighbour ≠ id := by
  obtain ⟨left, right, shape, _, list⟩ := ok.split inside here
  have inner : prevOf pages (some id) = some neighbour := prev
  have inLeft := list.prev_mem (by rw [inner]; simp)
  rw [inner] at inLeft
  obtain ⟨_, inLeft, same⟩ := List.mem_map.mp inLeft
  cases same
  refine ⟨(ok.mem i inside neighbour).mp (by rw [shape]; simp [inLeft]), ?_⟩
  rintro rfl
  have := (List.nodup_append.mp list.nodup).2.2 (some neighbour) (by simpa using inLeft)
    (some neighbour) (by simp)
  exact this rfl

theorem next_member (ok : QueuesOk pages n headers lists member) (inside : i < n)
    (here : (listAt lists i)[j]? = some id) {neighbour : PageId P}
    (next : (linksAt pages id).next = some neighbour) : member i neighbour ∧ neighbour ≠ id := by
  obtain ⟨left, right, shape, _, list⟩ := ok.split inside here
  have inner : nextOf pages (some id) = some neighbour := next
  have inRight := list.next_mem (by rw [inner]; simp)
  rw [inner] at inRight
  obtain ⟨_, inRight, same⟩ := List.mem_map.mp inRight
  cases same
  refine ⟨(ok.mem i inside neighbour).mp (by rw [shape]; simp [inRight]), ?_⟩
  rintro rfl
  have := (List.nodup_cons.mp (List.nodup_append.mp list.nodup).2.1).1
  exact this (by simpa using inRight)

/-- The two neighbours of a page differ. -/
theorem neighbours_differ (ok : QueuesOk pages n headers lists member) (inside : i < n)
    (here : (listAt lists i)[j]? = some id) {neighbour : PageId P}
    (prev : (linksAt pages id).prev = some neighbour) :
    (linksAt pages id).next ≠ some neighbour := by
  intro next
  obtain ⟨left, right, _, _, list⟩ := ok.split inside here
  have before : prevOf pages (some id) = some neighbour := prev
  have after : nextOf pages (some id) = some neighbour := next
  have inLeft := list.prev_mem (by rw [before]; simp)
  have inRight := list.next_mem (by rw [after]; simp)
  rw [before] at inLeft
  rw [after] at inRight
  exact (List.nodup_append.mp list.nodup).2.2 _ inLeft _ (List.mem_cons_of_mem _ inRight) rfl

theorem headerAt_set (header : DlistHeader P) (k : Nat) (inside : i < headers.length) :
    headerAt (headers.set i header) k = if k = i then header else headerAt headers k := by
  unfold headerAt
  by_cases same : k = i
  · subst same
    rw [if_pos rfl, List.getD_eq_getElem?_getD, List.getElem?_set_self inside, Option.getD_some]
  · rw [if_neg same, List.getD_eq_getElem?_getD, List.getElem?_set_ne (Ne.symm same),
      ← List.getD_eq_getElem?_getD]

theorem listAt_set (list : List (PageId P)) (k : Nat) (inside : i < lists.length) :
    listAt (lists.set i list) k = if k = i then list else listAt lists k := by
  unfold listAt
  by_cases same : k = i
  · subst same
    rw [if_pos rfl, List.getD_eq_getElem?_getD, List.getElem?_set_self inside, Option.getD_some]
  · rw [if_neg same, List.getD_eq_getElem?_getD, List.getElem?_set_ne (Ne.symm same),
      ← List.getD_eq_getElem?_getD]

variable [DecidableEq P]

/-- **Unlinking a page**: its neighbours are redirected to one another. -/
theorem remove (ok : QueuesOk pages n headers lists member) (inside : i < n)
    (here : (listAt lists i)[j]? = some id)
    (next : ∀ other ≠ id, (linksAt pages' other).next =
      if some other = (linksAt pages id).prev then (linksAt pages id).next
      else (linksAt pages other).next)
    (prev : ∀ other ≠ id, (linksAt pages' other).prev =
      if some other = (linksAt pages id).next then (linksAt pages id).prev
      else (linksAt pages other).prev)
    (same : ∀ k other, member' k other ↔ member k other ∧ other ≠ id)
    (linked : ∀ k other, member' k other → ∃ d, pages' other = some d ∧ d.dlistEntry.isSome) :
    QueuesOk pages' n (headers.set i ((headerAt headers i).without (linksAt pages id)))
      (removeAt lists i j) member' := by
  obtain ⟨left, right, shape, erased, list⟩ := ok.split inside here
  have atId : member i id := (ok.mem i inside id).mp (by rw [shape]; simp)
  have fresh : id ∉ left ++ right := by
    have nodup : (left ++ id :: right).Nodup := by
      have := list.nodup
      rw [← List.map_cons, ← List.map_append] at this
      exact List.Nodup.of_map _ this
    rw [List.nodup_middle] at nodup
    exact (List.nodup_cons.mp nodup).1
  refine ⟨by rw [List.length_set, ok.headers_length], by rw [removeAt, List.length_set, ok.lists_length],
    fun k small => ?_, fun k small other => ?_,
    fun k other on => ok.bound k other ((same k other).mp on).1,
    fun k k' other first second =>
      ok.once k k' other ((same k other).mp first).1 ((same k' other).mp second).1, linked⟩
  · rw [headerAt_set _ _ (by rw [ok.headers_length]; exact inside), removeAt,
      listAt_set _ _ (by rw [ok.lists_length]; exact inside)]
    by_cases equal : k = i
    · subst equal
      rw [if_pos rfl, if_pos rfl]
      show IsDList _ _ none _ _ (((listAt lists k).eraseIdx j).map some)
      rw [erased, List.map_append]
      have off : ∀ node ∈ left.map some ++ right.map some, ∃ other ≠ id, node = some other := by
        intro node on
        rw [← List.map_append] at on
        obtain ⟨other, inList, rfl⟩ := List.mem_map.mp on
        exact ⟨other, fun equal => fresh (equal ▸ inList), rfl⟩
      refine list.remove (fun node on => ?_) (fun node on => ?_) ?_ ?_
      · obtain ⟨other, differs, rfl⟩ := off node on
        exact next other differs
      · obtain ⟨other, differs, rfl⟩ := off node on
        exact prev other differs
      · show (if (linksAt pages id).prev.isSome then _ else _) = _
        show _ = if (linksAt pages id).prev = none then (linksAt pages id).next else _
        cases (linksAt pages id).prev <;> rfl
      · show (if (linksAt pages id).next.isSome then _ else _) = _
        show _ = if (linksAt pages id).next = none then (linksAt pages id).prev else _
        cases (linksAt pages id).next <;> rfl
    · rw [if_neg equal, if_neg equal]
      have away : ∀ node ∈ (listAt lists k).map some, ∃ other, member k other ∧ other ≠ id ∧
          node = some other := by
        intro node on
        obtain ⟨other, inList, rfl⟩ := List.mem_map.mp on
        have atOther := (ok.mem k small other).mp inList
        exact ⟨other, atOther, fun same => equal (ok.once k i id (same ▸ atOther) atId), rfl⟩
      refine (ok.list k small).congr (fun node on => ?_) (fun node on => ?_)
      · obtain ⟨other, atOther, differs, rfl⟩ := away node on
        refine (prev other differs).trans (if_neg fun neighbour => ?_)
        exact equal (ok.once k i other atOther (ok.next_member inside here neighbour.symm).1)
      · obtain ⟨other, atOther, differs, rfl⟩ := away node on
        refine (next other differs).trans (if_neg fun neighbour => ?_)
        exact equal (ok.once k i other atOther (ok.prev_member inside here neighbour.symm).1)
  · rw [removeAt, listAt_set _ _ (by rw [ok.lists_length]; exact inside), same]
    by_cases equal : k = i
    · subst equal
      rw [if_pos rfl]
      show other ∈ (listAt lists k).eraseIdx j ↔ _
      rw [erased, ← ok.mem k small, shape]
      simp only [List.mem_append, List.mem_cons] at fresh ⊢
      constructor
      · intro on
        exact ⟨by tauto, fun same => fresh (same ▸ on)⟩
      · rintro ⟨on, differs⟩
        tauto
    · rw [if_neg equal, ok.mem k small]
      exact ⟨fun on => ⟨on, fun same => equal (ok.once k i id (same ▸ on) atId)⟩, fun on => on.1⟩

/-- **Linking a page at the front.** -/
theorem pushFront (ok : QueuesOk pages n headers lists member) (inside : i < n)
    (fresh : ∀ k, ¬member k id)
    (links : linksAt pages' id = ⟨none, (headerAt headers i).first⟩)
    (next : ∀ k other, member k other → (linksAt pages' other).next = (linksAt pages other).next)
    (prev : ∀ k other, member k other → (linksAt pages' other).prev =
      if some other = (headerAt headers i).first then some id else (linksAt pages other).prev)
    (same : ∀ k other, member' k other ↔ member k other ∨ k = i ∧ other = id)
    (linked : ∀ k other, member' k other → ∃ d, pages' other = some d ∧ d.dlistEntry.isSome) :
    QueuesOk pages' n (headers.set i ((headerAt headers i).withFront id))
      (insertFront lists i id) member' := by
  have out : ∀ k < n, id ∉ listAt lists k := fun k small on => fresh k ((ok.mem k small id).mp on)
  refine ⟨by rw [List.length_set, ok.headers_length],
    by rw [insertFront, List.length_set, ok.lists_length], fun k small => ?_, fun k small other => ?_,
    fun k other on => ?_, fun k k' other first second => ?_, linked⟩
  · rw [headerAt_set _ _ (by rw [ok.headers_length]; exact inside), insertFront,
      listAt_set _ _ (by rw [ok.lists_length]; exact inside)]
    by_cases equal : k = i
    · subst equal
      rw [if_pos rfl, if_pos rfl]
      show IsDList _ _ none (some id) _ (some id :: (listAt lists k).map some)
      refine (ok.list k small).pushFront ?_ (by simp) (fun node on => ?_) (fun node on => ?_)
        (congrArg DlistEntry.next links) (congrArg DlistEntry.prev links) ?_
      · intro on
        obtain ⟨other, on, equal⟩ := List.mem_map.mp on
        cases equal
        exact out k small on
      · obtain ⟨other, inList, rfl⟩ := List.mem_map.mp on
        exact next k other ((ok.mem k small other).mp inList)
      · obtain ⟨other, inList, rfl⟩ := List.mem_map.mp on
        exact prev k other ((ok.mem k small other).mp inList)
      · show (if (headerAt headers k).first.isSome then _ else _) = _
        cases (headerAt headers k).first <;> rfl
    · rw [if_neg equal, if_neg equal]
      refine (ok.list k small).congr (fun node on => ?_) (fun node on => ?_)
      · obtain ⟨other, inList, rfl⟩ := List.mem_map.mp on
        have atOther := (ok.mem k small other).mp inList
        refine (prev k other atOther).trans (if_neg fun first => ?_)
        exact equal (ok.once k i other atOther (ok.first_member inside first.symm))
      · obtain ⟨other, inList, rfl⟩ := List.mem_map.mp on
        exact next k other ((ok.mem k small other).mp inList)
  · rw [insertFront, listAt_set _ _ (by rw [ok.lists_length]; exact inside), same]
    by_cases equal : k = i
    · subst equal
      rw [if_pos rfl, List.mem_cons]
      show other = id ∨ other ∈ listAt lists k ↔ _
      rw [ok.mem k small]
      tauto
    · rw [if_neg equal, ok.mem k small]
      tauto
  · rcases (same k other).mp on with on | ⟨rfl, rfl⟩
    · exact ok.bound k other on
    · exact inside
  · rcases (same k other).mp first with first | ⟨rfl, rfl⟩
    · rcases (same k' other).mp second with second | ⟨rfl, rfl⟩
      · exact ok.once k k' other first second
      · exact absurd first (fresh k)
    · rcases (same k' other).mp second with second | ⟨rfl, _⟩
      · exact absurd second (fresh k')
      · rfl

/-- **Linking a page at the back.** -/
theorem pushBack (ok : QueuesOk pages n headers lists member) (inside : i < n)
    (fresh : ∀ k, ¬member k id)
    (links : linksAt pages' id = ⟨(headerAt headers i).last, none⟩)
    (next : ∀ k other, member k other → (linksAt pages' other).next =
      if some other = (headerAt headers i).last then some id else (linksAt pages other).next)
    (prev : ∀ k other, member k other → (linksAt pages' other).prev = (linksAt pages other).prev)
    (same : ∀ k other, member' k other ↔ member k other ∨ k = i ∧ other = id)
    (linked : ∀ k other, member' k other → ∃ d, pages' other = some d ∧ d.dlistEntry.isSome) :
    QueuesOk pages' n (headers.set i ((headerAt headers i).withBack id))
      (insertBack lists i id) member' := by
  have out : ∀ k < n, id ∉ listAt lists k := fun k small on => fresh k ((ok.mem k small id).mp on)
  refine ⟨by rw [List.length_set, ok.headers_length],
    by rw [insertBack, List.length_set, ok.lists_length], fun k small => ?_, fun k small other => ?_,
    fun k other on => ?_, fun k k' other first second => ?_, linked⟩
  · rw [headerAt_set _ _ (by rw [ok.headers_length]; exact inside), insertBack,
      listAt_set _ _ (by rw [ok.lists_length]; exact inside)]
    by_cases equal : k = i
    · subst equal
      rw [if_pos rfl, if_pos rfl, List.map_append]
      show IsDList _ _ none _ (some id) ((listAt lists k).map some ++ [some id])
      refine (ok.list k small).pushBack ?_ (by simp) (fun node on => ?_) (fun node on => ?_)
        (congrArg DlistEntry.next links) (congrArg DlistEntry.prev links) ?_
      · intro on
        obtain ⟨other, on, equal⟩ := List.mem_map.mp on
        cases equal
        exact out k small on
      · obtain ⟨other, inList, rfl⟩ := List.mem_map.mp on
        exact next k other ((ok.mem k small other).mp inList)
      · obtain ⟨other, inList, rfl⟩ := List.mem_map.mp on
        exact prev k other ((ok.mem k small other).mp inList)
      · show (if (headerAt headers k).last.isSome then _ else _) = _
        cases (headerAt headers k).last <;> rfl
    · rw [if_neg equal, if_neg equal]
      refine (ok.list k small).congr (fun node on => ?_) (fun node on => ?_)
      · obtain ⟨other, inList, rfl⟩ := List.mem_map.mp on
        exact prev k other ((ok.mem k small other).mp inList)
      · obtain ⟨other, inList, rfl⟩ := List.mem_map.mp on
        have atOther := (ok.mem k small other).mp inList
        refine (next k other atOther).trans (if_neg fun last => ?_)
        exact equal (ok.once k i other atOther (ok.last_member inside last.symm))
  · rw [insertBack, listAt_set _ _ (by rw [ok.lists_length]; exact inside), same]
    by_cases equal : k = i
    · subst equal
      rw [if_pos rfl, List.mem_append, List.mem_singleton]
      show other ∈ listAt lists k ∨ other = id ↔ _
      rw [ok.mem k small]
      tauto
    · rw [if_neg equal, ok.mem k small]
      tauto
  · rcases (same k other).mp on with on | ⟨rfl, rfl⟩
    · exact ok.bound k other on
    · exact inside
  · rcases (same k other).mp first with first | ⟨rfl, rfl⟩
    · rcases (same k' other).mp second with second | ⟨rfl, rfl⟩
      · exact ok.once k k' other first second
      · exact absurd first (fresh k)
    · rcases (same k' other).mp second with second | ⟨rfl, _⟩
      · exact absurd second (fresh k')
      · rfl

end QueuesOk

end VerusMimalloc.PageOrg
