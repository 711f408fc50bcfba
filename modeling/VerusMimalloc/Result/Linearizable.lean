/-
**The allocator is an atomic object.**

* `object`: the specification: a call of `malloc` takes a fresh block in one step, a call of `free` gives
  its block back in one step, and nothing else happens to the blocks that the client has;
* `heapMalloc_once`, `free_silent`: where the calls take effect;
* `simulation`: the allocator with its threads simulates the specification;
* `linearizable`: so every client sees what the specification may show, and the blocks that it has at one
  time do not overlap.
-/

import VerusMimalloc.Model.Client
import VerusMimalloc.Proof.Owner.Spare
import VerusMimalloc.Result.Blocks

namespace VerusMimalloc

open Library

variable {α : Type} {s t : State} {l : Local} {sh : Shared} {p size : Nat} {given : List (Nat × Nat)}

/-! ### The specification -/

/-- The call of the owner, in the specification. -/
inductive Pending where
  | idle
  | wants (size : Nat)
  | has (ptr size : Nat)
  | freeing

/-- What the client has, and the call of the owner. -/
structure Object where
  given : List (Nat × Nat)
  pending : Pending

/-- A block that may be given to the client. -/
structure Fresh (given : List (Nat × Nat)) (ptr size : Nat) : Prop where
  nonzero : ptr ≠ 0
  aligned : 8 ∣ ptr
  bound : ptr + size < 2 ^ 64
  apart : ∀ x ∈ given, ptr ≠ x.1 ∧ Apart ptr size x.1 x.2

inductive ObjectStep : Object → Option Event → Object → Prop where
  | malloc (given : List (Nat × Nat)) (size : Nat) :
      ObjectStep ⟨given, .idle⟩ (some (.malloc size)) ⟨given, .wants size⟩
  | take (given : List (Nat × Nat)) (ptr size : Nat) : Fresh given ptr size →
      ObjectStep ⟨given, .wants size⟩ none ⟨given, .has ptr size⟩
  | returned (given : List (Nat × Nat)) (ptr size : Nat) :
      ObjectStep ⟨given, .has ptr size⟩ (some (.returned ptr)) ⟨(ptr, size) :: given, .idle⟩
  | free (given : List (Nat × Nat)) (ptr size : Nat) : (ptr, size) ∈ given →
      ObjectStep ⟨given, .idle⟩ (some (.free ptr)) ⟨given.erase (ptr, size), .freeing⟩
  | freed (given : List (Nat × Nat)) : ObjectStep ⟨given, .freeing⟩ (some .freed) ⟨given, .idle⟩
  | threadFree (given : List (Nat × Nat)) (pending : Pending) (ptr size : Nat) :
      (ptr, size) ∈ given →
      ObjectStep ⟨given, pending⟩ (some (.threadFree ptr)) ⟨given.erase (ptr, size), pending⟩

/-- **An atomic allocator.** -/
def object : System Object Event where
  start o := o = ⟨[], .idle⟩
  step := ObjectStep

/-! ### Steps that take no block -/

/-- The step makes nothing live. -/
def Silent (s t : State) : Prop := t.sh.live = s.sh.live

theorem silent_of_spares {program : P α} (spares : program.Always Spares) : program.Always Silent :=
  spares.mono fun _ _ both => both.1

theorem localStep_silent (f : Local → Except Abort (α × Local)) : (localStep f).Always Silent := by
  refine Prog.always_act (fun _ => rfl) fun s value t result => ?_
  cases outcome : f s.loc with
  | error e =>
      rw [outcome] at result
      cases result
  | ok answer =>
      rw [outcome] at result
      cases result
      rfl

theorem pageFreeCollect_silent (page : Nat) (force : Bool) :
    (pageFreeCollect page force).Always Silent := silent_of_spares (pageFreeCollect_spares page force)

theorem findFreeRound_silent (pq page : Nat) : (findFreeRound pq page).Always Silent := by
  unfold findFreeRound
  split
  · trivial
  · refine Always.seq (localStep_silent _) fun next => Always.seq (pageFreeCollect_silent _ _) fun _ =>
      Always.seq (localStep_silent _) fun found => ?_
    split
    · trivial
    · exact Always.seq (Always.seq (localStep_silent _) fun _ => pageFreeCollect_silent _ _) fun _ => trivial

theorem pageQueueFindFree_silent (fuel pq : Nat) {again : P Nat} (last : again.Always Silent) :
    (pageQueueFindFree fuel pq again).Always Silent := by
  refine Always.seq (localStep_silent _) fun first =>
    Always.seq (Prog.always_loop (findFreeRound_silent pq) _ _) fun page => ?_
  split
  · refine Always.seq (localStep_silent _) fun fresh => ?_
    split
    · exact last
    · trivial
  · exact Always.seq (localStep_silent _) fun _ => trivial

theorem pageQueueFindFreeEx_silent (fuel pq : Nat) (firstTry : Bool) :
    (pageQueueFindFreeEx fuel pq firstTry).Always Silent := by
  refine pageQueueFindFree_silent fuel pq ?_
  split
  · exact pageQueueFindFree_silent fuel pq trivial
  · trivial

theorem findPage_silent (fuel size hugeAlignment : Nat) :
    (findPage fuel size hugeAlignment).Always Silent := by
  unfold findPage
  split_ifs
  · trivial
  · trivial
  · unfold findFreePage
    refine Always.seq (localStep_silent _) fun page => ?_
    split
    · exact pageQueueFindFreeEx_silent fuel (bin size) true
    · refine Always.seq (pageFreeCollect_silent _ _) fun _ =>
        Always.seq (localStep_silent _) fun nonempty => ?_
      split
      · trivial
      · exact pageQueueFindFreeEx_silent fuel (bin size) true

/-- **`free`** takes no block. -/
theorem free_silent (fuel ptr : Nat) : (free fuel ptr).Always Silent := by
  have rest : ∀ page freed, (pageFreeRest fuel page freed).Always Silent := fun page freed => by
    unfold pageFreeRest
    split
    · exact silent_of_spares (segmentPageFree_spares fuel page)
    · trivial
  have mt : ∀ page, (freeBlockMt page ptr).Always Silent := fun page =>
    Prog.always_act (fun _ => rfl) fun s value t result => by
      cases result
      rfl
  unfold free
  split
  · trivial
  refine Always.seq (localStep_silent _) fun found => ?_
  obtain ⟨page, isLocal, plain⟩ := found
  cases isLocal with
  | false => exact mt page
  | true =>
      cases plain with
      | true => exact Always.seq (localStep_silent _) fun freed => rest page freed
      | false => exact Always.seq (localStep_silent _) fun freed => rest page freed

/-! ### The step that takes the block -/

/-- The step makes the block live. -/
def Takes (size ptr : Nat) (s t : State) : Prop := t.sh.live = (ptr, size) :: s.sh.live

theorem mallocGenericWith_once {take : Nat → P Nat} (taking : ∀ page, (take page).Once Silent (Takes size))
    (fuel : Nat) (zero : Bool) :
    (mallocGenericWith take fuel size zero 0).Once Silent (Takes size) := by
  refine Prog.Always.once (silent_of_spares (heapDelayedFreePartial_spares fuel)) fun _ =>
    Prog.Always.once (findPage_silent fuel size 0) fun page => ?_
  split
  · trivial
  · refine Prog.Always.once (localStep_silent _) fun blockSize => ?_
    split
    · trivial
    · exact taking page

theorem pageMalloc_once (fuel page size : Nat) (zero : Bool) :
    (pageMalloc fuel page size zero).Once Silent (Takes size) := by
  induction fuel generalizing page with
  | zero => trivial
  | succ fuel ih =>
      intro s
      cases free : (s.loc.pages page).free with
      | nil =>
          left
          simp only [free]
          exact ⟨rfl, mallocGenericWith_once ih fuel zero⟩
      | cons ptr rest =>
          right
          refine ⟨ptr, ?_⟩
          simp only [free]
          exact ⟨rfl, rfl⟩

/-- **`heap_malloc`** takes the block that it returns in one step, and no other one. -/
theorem heapMalloc_once (fuel size : Nat) : (heapMalloc fuel size).Once Silent (Takes size) := by
  unfold heapMalloc heapMallocZero heapMallocZeroEx
  split
  · exact Prog.Always.once (localStep_silent _) fun page => pageMalloc_once fuel page size false
  · exact mallocGenericWith_once (fun page => pageMalloc_once fuel page size false) fuel false

/-! ### Blocks -/

/-- A block that has just become live is apart from those that were live before. -/
theorem Inv.fresh_live {rest : List (Nat × Nat)} (inv : Inv s) (live : s.sh.live = (p, size) :: rest)
    (same : rest.Perm given) : Fresh given p size := by
  obtain ⟨l, sh⟩ := s
  change sh.live = _ at live
  obtain ⟨spans, nodes, wf⟩ : Wf l := inv.wf
  have known : ∀ q m, (q, m) ∈ sh.live → InUse l (pageOfBlock l q) ∧ q ∈ blocksOf l (pageOfBlock l q) ∧
      m ≤ (l.pages (pageOfBlock l q)).xblockSize := fun q m member =>
    ⟨inv.accounting.placed q (outside_of_live member), inv.accounting.of_outside (outside_of_live member),
      inv.accounting.sizes q m member⟩
  obtain ⟨page, inside, fits⟩ := known p size (live ▸ List.mem_cons_self)
  obtain ⟨aligned, positive, _⟩ := inv.wf.of_mem_blocksOf page inside
  have once := inv.toCore.outside_le p
  simp only [outside, directBlocks, live, List.map_cons, List.count_append, List.count_cons_self] at once
  refine ⟨by omega, aligned, ?_, fun x inGiven => ?_⟩
  · obtain ⟨r, k, c, place, _⟩ := wf.exists_pageAt page
    obtain ⟨_, upper, _⟩ := place.of_mem_blocksOf (wf.page _ page) inside
    have bound := place.inside
    have base := place.base.2.2
    simp only [segmentSize] at base
    omega
  · obtain ⟨q, m⟩ := x
    have inRest : (q, m) ∈ rest := same.mem_iff.mpr inGiven
    obtain ⟨page', inside', fits'⟩ := known q m (live ▸ List.mem_cons_of_mem _ inRest)
    have differs : p ≠ q := fun equal => by
      have again : 0 < (rest.map Prod.fst).count p :=
        List.count_pos_iff.mpr (List.mem_map.mpr ⟨(q, m), inRest, equal.symm⟩)
      omega
    exact ⟨differs, (wf.blocks_apart page page' inside inside' differs).imp (by omega) (by omega)⟩

/-! ### The simulation -/

/-- What the owner still has to do, and its call in the specification. -/
inductive Agrees (live given : List (Nat × Nat)) : Doing → Pending → Prop where
  | idle : live.Perm given → Agrees live given .idle .idle
  /-- The block is still to be taken. -/
  | wants {size : Nat} {rest : P Nat} : live.Perm given → rest.Once Silent (Takes size) →
      Agrees live given (.allocating size rest) (.wants size)
  /-- The block is taken. -/
  | has {size ptr : Nat} {rest : P Nat} : live.Perm ((ptr, size) :: given) →
      rest.Returning Silent ptr → Agrees live given (.allocating size rest) (.has ptr size)
  | freeing {rest : P Unit} : live.Perm given → rest.Always Silent →
      Agrees live given (.freeing rest) .freeing

/-- What the client has is live. -/
theorem Agrees.live {live : List (Nat × Nat)} {doing : Doing} {pending : Pending}
    (agrees : Agrees live given doing pending) {x : Nat × Nat} (member : x ∈ given) : x ∈ live := by
  cases agrees with
  | idle same => exact same.mem_iff.mpr member
  | wants same _ => exact same.mem_iff.mpr member
  | has same _ => exact same.mem_iff.mpr (List.mem_cons_of_mem _ member)
  | freeing same _ => exact same.mem_iff.mpr member

/-- A block goes back from both sides. -/
theorem Agrees.erase {live : List (Nat × Nat)} {doing : Doing} {pending : Pending}
    (agrees : Agrees live given doing pending) (x : Nat × Nat) (member : x ∈ given) :
    Agrees (live.erase x) (given.erase x) doing pending := by
  cases agrees with
  | idle same => exact .idle (same.erase x)
  | wants same once => exact .wants (same.erase x) once
  | has same returning =>
      refine .has ((same.erase x).trans ?_) returning
      rw [List.erase_cons]
      split
      · rename_i here
        rw [beq_iff_eq.mp here]
        exact List.perm_cons_erase member
      · exact .refl _
  | freeing same silent => exact .freeing (same.erase x) silent

/-- The client's state and the specification's. -/
structure Related (c : Client) (o : Object) : Prop where
  reachable : Reachable c.sys
  given : o.given = c.given
  call : Agrees c.st.sh.live c.given c.doing o.pending

/-- A step of the client is a step of the system. -/
theorem ClientStep.step {c c' : Client} {shown : Option Event} (step : ClientStep c shown c')
    (live : ∀ x ∈ c.given, x ∈ c.st.sh.live) : Step c.sys c'.sys := by
  cases step with
  | malloc st given fuel size medium => exact .malloc st fuel size medium
  | allocate st given size next rest => exact .own st next _
  | returned st given size ptr => exact .finish st
  | free st given fuel ptr size member =>
      obtain ⟨before, after, _, shape, erased⟩ := List.exists_erase_eq (live _ member)
      have step := Step.free st fuel ptr size before after shape
      rw [State.giveBack, ← erased] at step
      exact step
  | release st given next rest => exact .own st next rest
  | freed st given => exact .finish st
  | threadFree st doing given ptr size member =>
      obtain ⟨before, after, _, shape, erased⟩ := List.exists_erase_eq (live _ member)
      have moved := RemoteStep.begin (l := st.loc) st.sh before after ptr size shape
      rw [← erased] at moved
      exact .remote st _ _ moved
  | thread st doing given sh moved _ => exact .remote st _ sh moved

/-- **The allocator simulates the specification.** -/
theorem simulation : Simulation client object Related := by
  refine ⟨?_, fun c o shown c' related step => ?_⟩
  · rintro c ⟨sys, initial, rfl⟩
    refine ⟨⟨[], .idle⟩, rfl, ⟨sys, initial, ?_⟩, rfl, ?_⟩
    · obtain ⟨_, _, _, _, _, _, _, rfl⟩ := initial
      exact .refl
    · obtain ⟨_, _, _, _, _, _, _, rfl⟩ := initial
      exact .idle (.refl _)
  · obtain ⟨objectGiven, pending⟩ := o
    obtain ⟨reachable, rfl, call⟩ := related
    have next := reachable.step (step.step fun x => call.live)
    cases step with
    | malloc st given fuel size medium =>
        obtain ⟨same⟩ := call
        exact ⟨_, .single (ObjectStep.malloc given size), next, rfl, .wants same (heapMalloc_once fuel size)⟩
    | allocate st given size step rest =>
        cases call with
        | wants same once =>
            rcases once st with ⟨silent, once⟩ | ⟨ptr, takes, returning⟩
            · exact ⟨_, .refl, next, rfl, .wants (silent ▸ same) once⟩
            · have fresh := next.sysInv.inv.fresh_live takes same
              refine ⟨_, .single (ObjectStep.take given ptr size fresh), next, rfl, .has ?_ returning⟩
              exact takes ▸ same.cons _
        | has same returning =>
            obtain ⟨silent, returning⟩ := returning st
            exact ⟨_, .refl, next, rfl, .has (silent ▸ same) returning⟩
    | returned st given size ptr =>
        cases call with
        | wants same once => exact once.elim
        | has same returning =>
            obtain rfl := returning
            exact ⟨_, .single (ObjectStep.returned given ptr size), next, rfl, .idle same⟩
    | free st given fuel ptr size member =>
        obtain ⟨same⟩ := call
        exact ⟨_, .single (ObjectStep.free given ptr size member), next, rfl,
          .freeing (same.erase _) (free_silent fuel ptr)⟩
    | release st given step rest =>
        obtain - | - | - | ⟨same, silent⟩ := call
        exact ⟨_, .refl, next, rfl, .freeing ((silent st).1 ▸ same) (silent st).2⟩
    | freed st given =>
        obtain - | - | - | ⟨same, _⟩ := call
        exact ⟨_, .single (ObjectStep.freed given), next, rfl, .idle same⟩
    | threadFree st doing given ptr size member =>
        exact ⟨_, .single (ObjectStep.threadFree given pending ptr size member), next, rfl,
          call.erase _ member⟩
    | thread st doing given sh moved same =>
        exact ⟨_, .refl, next, rfl, same ▸ call⟩

/-! ### Linearizability -/

/-- The blocks that are not free. -/
def Object.taken (o : Object) : List (Nat × Nat) :=
  match o.pending with
  | .has ptr size => (ptr, size) :: o.given
  | _ => o.given

/-- The blocks that are not free are apart. -/
structure Object.Separate (o : Object) : Prop where
  apart : o.taken.Pairwise fun x y => x.1 ≠ y.1 ∧ Apart x.1 x.2 y.1 y.2
  valid : ∀ x ∈ o.taken, x.1 ≠ 0 ∧ 8 ∣ x.1 ∧ x.1 + x.2 < 2 ^ 64

/-- Fewer blocks are apart, too. -/
theorem Object.Separate.sublist {o o' : Object} (separate : o.Separate)
    (sub : o'.taken.Sublist o.taken) : o'.Separate :=
  ⟨separate.apart.sublist sub, fun x member => separate.valid x (sub.subset member)⟩

/-- **The specification keeps blocks apart.** -/
theorem object_separate : object.Invariant Object.Separate := by
  refine ⟨?_, fun o shown o' separate step => ?_⟩
  · rintro o rfl
    exact ⟨.nil, fun x member => by cases member⟩
  · cases step with
    | malloc given size => exact separate.sublist (.refl _)
    | take given ptr size fresh =>
        refine ⟨.cons fresh.apart separate.apart, fun x member => ?_⟩
        rcases List.mem_cons.mp member with rfl | old
        · exact ⟨fresh.nonzero, fresh.aligned, fresh.bound⟩
        · exact separate.valid x old
    | returned given ptr size => exact separate.sublist (.refl _)
    | free given ptr size member => exact separate.sublist List.erase_sublist
    | freed given => exact separate.sublist (.refl _)
    | threadFree given pending ptr size member =>
        refine separate.sublist ?_
        cases pending with
        | has q n => exact List.erase_sublist.cons_cons _
        | idle | wants | freeing => exact List.erase_sublist

/-- **The allocator is linearizable.** What a client of the allocator sees, with frees of other threads at
any point of the owner's calls, is what it may see of the atomic allocator, and the blocks that it has are
the same; so they are nonzero, aligned and apart. -/
theorem linearizable {c c' : Client} {events : List Event} (start : client.start c)
    (run : client.Run c events c') :
    ∃ o, object.Run ⟨[], .idle⟩ events o ∧ o.given = c'.given ∧
      (c'.given.Pairwise fun x y => x.1 ≠ y.1 ∧ Apart x.1 x.2 y.1 y.2) ∧
      ∀ x ∈ c'.given, x.1 ≠ 0 ∧ 8 ∣ x.1 ∧ x.1 + x.2 < 2 ^ 64 := by
  obtain ⟨_, rfl, related⟩ := simulation.start c start
  obtain ⟨o, atomic, related'⟩ := simulation.run related run
  have separate := object_separate.run (object_separate.start _ rfl) atomic
  have given : c'.given.Sublist o.taken := by
    rw [← related'.given]
    obtain ⟨given, _ | _ | _ | _⟩ := o
    · exact .refl _
    · exact .refl _
    · exact List.sublist_cons_self _ _
    · exact .refl _
  exact ⟨o, atomic, related'.given, separate.apart.sublist given,
    fun x member => separate.valid x (given.subset member)⟩

/-- A call of `malloc` that runs alone. -/
theorem client_run_malloc {rest : P Nat} (result : rest.run s = (.ok p, t)) :
    client.Run ⟨s, .allocating size rest, given⟩ [] ⟨t, .allocating size (.ret p), given⟩ := by
  induction rest generalizing s with
  | ret value =>
      cases result
      exact .refl
  | fail error => cases result
  | step next rest ih => exact (System.Run.single (ClientStep.allocate s given size next rest)).append (ih _ result)

theorem linearizable_served : ∃ c, client.Run ⟨plainStart.st, .idle, []⟩ [.malloc 24, .returned 671154560] c ∧
    ∃ o, object.Run ⟨[], .idle⟩ [.malloc 24, .returned 671154560] o ∧ o.given = c.given ∧
      (c.given.Pairwise fun x y => x.1 ≠ y.1 ∧ Apart x.1 x.2 y.1 y.2) ∧
      ∀ x ∈ c.given, x.1 ≠ 0 ∧ 8 ∣ x.1 ∧ x.1 + x.2 < 2 ^ 64 := by
  have done : ((heapMalloc 9 24).run plainStart.st).1.toOption = some 671154560 := by decide +kernel
  cases result : (heapMalloc 9 24).run plainStart.st with
  | mk outcome u =>
      rw [result] at done
      cases outcome with
      | error e => cases done
      | ok p =>
          obtain rfl : p = 671154560 := Option.some.inj done
          have called : client.step _ _ _ := ClientStep.malloc plainStart.st [] 9 24 (by decide)
          have back : client.step _ _ _ := ClientStep.returned u [] 24 671154560
          have run := ((System.Run.single called).append (client_run_malloc result)).append (.single back)
          exact ⟨_, run, linearizable ⟨plainStart, plainStart_initial, rfl⟩ run⟩

end VerusMimalloc
