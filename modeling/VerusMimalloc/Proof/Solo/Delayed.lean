/-
**The owner alone: the delayed list.**

A call that runs without interference is computed by `Prog.run`.

* `run_localStep`, `run_localRead`, `run_localUpdate`: the owner's own code;
* `takeDelayed_run`: the delayed list is taken;
* `heapDelayedFreePartial_quiet`: afterwards nothing is delayed.
-/

import VerusMimalloc.Proof.Runs

namespace VerusMimalloc

open Library

variable {α β : Type} {s t : State} {l : Local} {a b : Nat}

/-! ### The owner's own code -/

theorem run_localStep (f : Local → Except Abort (α × Local)) (s : State) :
    (localStep f).run s = match f s.loc with
      | .ok (value, l) => (.ok value, { s with loc := l })
      | .error e => (.error e, s) := by
  rw [localStep, Prog.run_act]
  cases f s.loc <;> rfl

theorem run_localRead (f : Local → α) (s : State) :
    (localRead f).run s = (.ok (f s.loc), s) := by
  rw [localRead, run_localStep]

theorem run_localUpdate (f : Local → Local) (s : State) :
    (localUpdate f).run s = (.ok (), { s with loc := f s.loc }) := by
  rw [localUpdate, run_localStep]

theorem run_seq (p : P α) (k : α → P β) (s : State) :
    (p >>= k).run s = match p.run s with
      | (.ok value, t) => (k value).run t
      | (.error e, t) => (.error e, t) := by
  rw [Prog.bind_def, Prog.run_bind]
  rcases p.run s with ⟨_ | _, _⟩ <;> rfl

/-- What a safe program alone ends in. -/
theorem OwnerSafe.runs {solo : Prop} {allowed : Abort → Prop} {p : P α} {post : α → Local → Prop}
    (safe : OwnerSafe solo allowed p post s.loc) (inv : Inv s) (quiet : solo → Quiet s) :
    Inv (p.run s).2 ∧ (solo → Quiet (p.run s).2) ∧
      ∀ value, (p.run s).1 = .ok value → post value (p.run s).2.loc := by
  obtain ⟨⟨inv', quiet', _⟩, post'⟩ :=
    Discipline.Safe.run (D := ownerDiscipline solo allowed) ⟨inv, quiet, False.elim⟩ safe
  exact ⟨inv', quiet', post'⟩

/-! ### Taking the delayed list -/

/-- The delayed list is in the owner's hands. -/
def tookDelayed (s : State) : State :=
  { loc := { s.loc with taken := s.sh.threadDelayedFree s.loc.heap.heapPtr }
    sh := (s.setDelayed s.loc.heap.heapPtr []).sh }

/-- **`take`** of the delayed list, alone. -/
theorem takeDelayed_run (inv : Inv s) :
    (takeDelayed s.loc.heap.heapPtr).run s = (.ok (), tookDelayed s) := by
  unfold takeDelayed
  rw [run_seq, Prog.run_act]
  by_cases none : (s.sh.threadDelayedFree s.loc.heap.heapPtr).headD 0 = 0
  · have empty : s.sh.threadDelayedFree s.loc.heap.heapPtr = [] := by
      cases list : s.sh.threadDelayedFree s.loc.heap.heapPtr with
      | nil => rfl
      | cons p rest =>
          rw [list, List.headD_cons] at none
          have positive : 0 < outside s.loc s.sh p := by
            rw [outside_pos]
            simp [delayedBlocks, list]
          have := (inv.toCore.of_outside positive).2
          omega
    simp only [if_pos none]
    rw [run_localUpdate, tookDelayed, empty]
    have same : (s.setDelayed s.loc.heap.heapPtr []).sh = s.sh := by
      have lists : (fun a => if a = s.loc.heap.heapPtr then [] else s.sh.threadDelayedFree a) =
          s.sh.threadDelayedFree := by
        funext a
        by_cases heap : a = s.loc.heap.heapPtr
        · rw [if_pos heap, heap, empty]
        · rw [if_neg heap]
      simp only [State.setDelayed, lists]
    rw [same]
  · simp only [if_neg none]
    rw [Prog.run_act]
    rfl

/-- The invariant when the delayed list is taken. -/
theorem Inv.tookDelayed (inv : Inv s) (taken : s.loc.taken = []) : Inv (tookDelayed s) := by
  obtain ⟨l, sh⟩ := s
  refine inv.regroup ⟨⟨rfl, rfl, rfl, .of_eq rfl, rfl, rfl, rfl, rfl, rfl, rfl, fun _ => .refl _⟩, rfl,
    .inl rfl, rfl, fun p => ?_, fun _ => rfl, fun _ inside => inside, fun _ => rfl,
    fun _ member => .inl member⟩
  change l.taken = [] at taken
  simp only [delayedBlocks, State.setDelayed, if_true, taken, List.count_append, List.count_nil]
  omega

/-- A state in which nothing is delayed. -/
structure Undelayed (s : State) : Prop where
  inv : Inv s
  idle : Idle s.loc
  quiet : Quiet s

/-- **`heap_delayed_free_partial`**, alone and with no free in its delayed part, leaves nothing
delayed. -/
theorem heapDelayedFreePartial_quiet (inv : Inv s) (idle : Idle s.loc)
    (none : ∀ a, (s.sh.xthreadFree a).delay ≠ .freeing) {fuel : Nat} {allFreed : Bool}
    (result : (heapDelayedFreePartial fuel).run s = (.ok allFreed, t)) : Undelayed t := by
  unfold heapDelayedFreePartial at result
  rw [run_seq, run_localRead] at result
  simp only at result
  rw [run_seq, takeDelayed_run inv] at result
  simp only at result
  have quiet : Quiet (tookDelayed s) := ⟨none, if_pos rfl⟩
  have held : (tookDelayed s).loc.held = .nothing := idle.held
  have safe : OwnerSafe True (fun _ => True) (.loop .timeout
      (delayedRound fuel (tookDelayed s).loc.heap.heapPtr) fuel true)
      (fun _ l' => l'.held = .nothing ∧ l'.taken = []) (tookDelayed s).loc :=
    delayedLoop_safe (fun _ _ => trivial) trivial held fuel fuel true
  obtain ⟨inv', quiet', post⟩ := safe.runs (inv.tookDelayed idle.taken) fun _ => quiet
  change (Prog.loop Abort.timeout (delayedRound fuel (tookDelayed s).loc.heap.heapPtr) fuel true).run _ =
    _ at result
  rw [result] at inv' quiet' post
  obtain ⟨held, taken⟩ := post allFreed rfl
  exact ⟨inv', ⟨held, taken⟩, quiet' trivial⟩

namespace Undelayed

variable (free : Undelayed s)
include free

/-- No thread is in its delayed part. -/
theorem no_mid : blocksAt Pc.mid s.sh.threads = [] := by
  by_contra some
  obtain ⟨p, inside⟩ := List.exists_mem_of_ne_nil _ some
  simp only [blocksAt, List.mem_map, List.mem_filter] at inside
  obtain ⟨u, ⟨member, mid⟩, _⟩ := inside
  have busy : u.pc.busy = true := by
    revert mid
    cases u.pc <;> simp [Pc.mid, Pc.busy, Pc.early]
  exact free.quiet.1 _ (free.inv.delay_of_busy member busy).1

/-- **Every page uses delayed frees**, and nothing waits on its `xthread_free` list. -/
theorem word (a : Nat) : (s.sh.xthreadFree a).delay = .useDelayedFree ∧ (s.sh.xthreadFree a).list = [] := by
  have use : (s.sh.xthreadFree a).delay = .useDelayedFree := by
    have count := free.inv.protocol.delayed a
    rw [delayedBlocks, free.no_mid, free.quiet.2, free.idle.taken, free.idle.held] at count
    by_contra other
    rw [if_neg other] at count
    simp [Held.delayed] at count
  refine ⟨use, (free.inv.protocol.pending a use).resolve_right ?_⟩
  rintro ⟨b, claimed, _⟩
  rw [free.idle.held] at claimed
  cases claimed

/-- **A full page has no free block.** -/
theorem full (page : InUse s.loc a) (inFull : (s.loc.pages a).getInFull = true) :
    (s.loc.pages a).free = [] ∧ (s.loc.pages a).localFree = [] := by
  refine (free.inv.full a page (free.word a).1 inFull (by simp [free.idle.held])).resolve_right ?_
  rintro ⟨b, claim, _⟩
  simp [free.idle.held] at claim

end Undelayed

end VerusMimalloc
