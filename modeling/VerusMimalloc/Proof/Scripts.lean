/-
**Runs of a script.**

A script is a list of calls of the owner, each run alone, and of frees by other threads, each up to some
access.

* `advance`: the next access of the free that began last;
* `performed`: what a script does;
* `performed_steps`: a script leads from one state of a run to another;
* `plainBusy`: a heap with a full page that other threads free blocks of.
-/

import VerusMimalloc.Proof.Calls

namespace VerusMimalloc

open Library

variable {l : Local} {sh sh' : Shared} {s t : State} {fuel : Nat}

/-! ### Frees by other threads -/

/-- The next access of the free that began last, where its compare-exchange does not fail. -/
def advance (l : Local) (sh : Shared) : Option Shared :=
  match sh.threads with
  | [] => none
  | { page, ptr, pc } :: after =>
      match pc with
      | .top =>
          some { sh with threads := { page, ptr, pc := .loaded (sh.xthreadFree page).word } :: after }
      | .loaded mask =>
          if (sh.xthreadFree page).word ≠ mask then none
          else if mask % 4 = 0 then
            some { sh with
              xthreadFree := fun a =>
                if a = page then { sh.xthreadFree page with delay := .freeing } else sh.xthreadFree a
              threads := { page, ptr, pc := .freeing } :: after }
          else
            some { sh with
              xthreadFree := fun a =>
                if a = page then
                  { sh.xthreadFree page with list := ptr :: (sh.xthreadFree page).list }
                else sh.xthreadFree a
              threads := after }
      | .freeing =>
          some { sh with threads := { page, ptr, pc := .gotHeap (l.pages page).xheap } :: after }
      | .gotHeap heap =>
          some { sh with threads :=
            { page, ptr, pc := .inserting heap ((sh.threadDelayedFree heap).headD 0) } :: after }
      | .inserting heap next =>
          if (sh.threadDelayedFree heap).headD 0 ≠ next then none
          else
            some { sh with
              threadDelayedFree := fun a =>
                if a = heap then ptr :: sh.threadDelayedFree heap else sh.threadDelayedFree a
              threads := { page, ptr, pc := .pushed } :: after }
      | .pushed =>
          some { sh with
            xthreadFree := fun a =>
              if a = page then
                { sh.xthreadFree page with delay := (sh.xthreadFree page).delay.xorThree }
              else sh.xthreadFree a
            threads := after }

theorem advance_step (result : advance l sh = some sh') : RemoteStep l sh sh' := by
  obtain ⟨words, delayed, threads, live⟩ := sh
  cases threads with
  | nil => cases result
  | cons thread after =>
      obtain ⟨page, ptr, pc⟩ := thread
      cases pc with
      | top =>
          cases result
          exact .load _ [] after page ptr rfl
      | loaded mask =>
          simp only [advance] at result
          split_ifs at result with changed free
          · cases result
            exact .casFreeing _ [] after page ptr mask rfl (not_not.mp changed) free
          · cases result
            exact .casPush _ [] after page ptr mask rfl (not_not.mp changed) free
      | freeing =>
          cases result
          exact .loadHeap _ [] after page ptr rfl
      | gotHeap heap =>
          cases result
          exact .delayedLoad _ [] after page ptr heap rfl
      | inserting heap next =>
          simp only [advance] at result
          split_ifs at result with changed
          cases result
          exact .delayedCasPush _ [] after page ptr heap next rfl (not_not.mp changed)
      | pushed =>
          cases result
          exact .leave _ [] after page ptr rfl

/-- The first accesses of the free that began last. -/
def advanceTimes (l : Local) : Nat → Shared → Option Shared
  | 0, sh => some sh
  | n + 1, sh => (advance l sh).bind (advanceTimes l n)

theorem advanceTimes_steps {n : Nat} (result : advanceTimes l n sh = some sh') :
    Relation.ReflTransGen Step { st := ⟨l, sh⟩, owner := none } { st := ⟨l, sh'⟩, owner := none } := by
  induction n generalizing sh with
  | zero =>
      cases result
      exact .refl
  | succ n ih =>
      obtain ⟨next, first, rest⟩ := Option.bind_eq_some_iff.mp result
      exact .head (.remote ⟨l, sh⟩ none next (advance_step first)) (ih rest)

/-! ### Scripts -/

inductive ScriptCall where
  | malloc (size : Nat)
  | free (ptr : Nat)
  /-- A free by another thread, up to some access. -/
  | freeMt (ptr accesses : Nat)

/-- The live blocks before and after the block `ptr`, and its size. -/
def splitLive (ptr : Nat) : List (Nat × Nat) → Option (List (Nat × Nat) × Nat × List (Nat × Nat))
  | [] => none
  | x :: rest =>
      if x.1 = ptr then some ([], x.2, rest)
      else (splitLive ptr rest).map fun (before, size, after) => (x :: before, size, after)

theorem splitLive_eq {ptr size : Nat} {live before after : List (Nat × Nat)}
    (found : splitLive ptr live = some (before, size, after)) :
    live = before ++ (ptr, size) :: after := by
  induction live generalizing before with
  | nil => cases found
  | cons x rest ih =>
      unfold splitLive at found
      by_cases here : x.1 = ptr
      · rw [if_pos here] at found
        cases found
        subst here
        rfl
      · rw [if_neg here] at found
        obtain ⟨⟨before', _, _⟩, inRest, same⟩ := Option.map_eq_some_iff.mp found
        cases same
        rw [ih inRest]
        rfl

/-- What one call of a script does, if it returns. -/
def perform (fuel : Nat) (s : State) : ScriptCall → Option State
  | .malloc size =>
      if size ≤ mediumObjSizeMax then
        match (heapMalloc fuel size).run s with
        | (.ok _, t) => some t
        | (.error _, _) => none
      else none
  | .free ptr => do
      let (before, _, after) ← splitLive ptr s.sh.live
      match (free fuel ptr).run (s.giveBack before after ptr) with
      | (.ok (), t) => some t
      | (.error _, _) => none
  | .freeMt ptr accesses => do
      let (before, _, after) ← splitLive ptr s.sh.live
      let sh ← advanceTimes s.loc accesses { s.sh with
        live := before ++ after
        threads := { page := pageOfBlock s.loc ptr, ptr, pc := .top } :: s.sh.threads }
      return { s with sh }

/-- **A call of a script** leads from one state of a run to another. -/
theorem perform_steps {call : ScriptCall} (result : perform fuel s call = some t) :
    Relation.ReflTransGen Step { st := s, owner := none } { st := t, owner := none } := by
  cases call with
  | malloc size =>
      simp only [perform] at result
      by_cases medium : size ≤ mediumObjSizeMax
      · rw [if_pos medium] at result
        rcases run : (heapMalloc fuel size).run s with ⟨_ | p, u⟩
        · rw [run] at result
          cases result
        · rw [run] at result
          cases result
          exact steps_of_malloc medium run
      · rw [if_neg medium] at result
        cases result
  | free ptr =>
      obtain ⟨⟨before, size, after⟩, live, result⟩ := Option.bind_eq_some_iff.mp result
      rcases run : (free fuel ptr).run (s.giveBack before after ptr) with ⟨_ | _, u⟩
      · simp only [run] at result
        cases result
      · simp only [run] at result
        cases result
        exact steps_of_free (splitLive_eq live) run
  | freeMt ptr accesses =>
      obtain ⟨⟨before, size, after⟩, live, result⟩ := Option.bind_eq_some_iff.mp result
      obtain ⟨sh, run, result⟩ := Option.bind_eq_some_iff.mp result
      cases result
      exact .head (.remote s none _ (.begin s.sh before after ptr size (splitLive_eq live)))
        (advanceTimes_steps run)

/-- What the calls of a script do, one after the other, if all of them return. -/
def performed (fuel : Nat) (script : List ScriptCall) (s : State) : Option State :=
  script.foldlM (perform fuel) s

theorem performed_steps {script : List ScriptCall} (result : performed fuel script s = some t) :
    Relation.ReflTransGen Step { st := s, owner := none } { st := t, owner := none } := by
  induction script generalizing s with
  | nil =>
      cases result
      exact .refl
  | cons call rest ih =>
      rw [performed, List.foldlM_cons] at result
      obtain ⟨u, first, later⟩ := Option.bind_eq_some_iff.mp result
      exact (perform_steps first).trans (ih later)

/-- What a script does to the freshly initialised heap. -/
theorem performed_reachable (fuel : Nat) (script : List ScriptCall) (check : State → Bool)
    (result : (performed fuel script plainStart.st).any check = true) :
    ∃ s, (Reachable { st := s, owner := none } ∧ s.loc.os.oracle.Grants) ∧ check s = true := by
  obtain ⟨s, run, holds⟩ := (Option.any_eq_true check _).mp result
  have steps := performed_steps run
  refine ⟨s, ⟨plainStart_reachable.run steps, ?_⟩, holds⟩
  rw [(plainStart_reachable.sysInv.run steps).2, plainStart_oracle]
  exact fun _ => rfl

/-! ### A busy heap -/

/-- Four blocks of 128 KiB fill a page, a fifth one is in a second page. Two other threads free blocks of
the full page: the first one is delayed, up to some access, and the second one goes to the page. -/
def busyScript (accesses : Nat) : List ScriptCall :=
  [.malloc 131072, .malloc 131072, .malloc 131072, .malloc 131072, .malloc 131072, .malloc 24,
    .freeMt 671154176 accesses, .freeMt 671285248 2]

/-- The header address of the first page of blocks. -/
def firstPage : Nat := 671088984

/-- The heap after this script. -/
def plainBusy (accesses : Nat) : Sys where
  st := (performed 20 (busyScript accesses) plainStart.st).getD plainStart.st
  owner := none

theorem plainBusy_steps (accesses : Nat) : Relation.ReflTransGen Step plainStart (plainBusy accesses) := by
  unfold plainBusy
  cases result : performed 20 (busyScript accesses) plainStart.st with
  | none => exact .refl
  | some s => exact performed_steps result

theorem plainBusy_reachable (accesses : Nat) : Reachable (plainBusy accesses) :=
  plainStart_reachable.run (plainBusy_steps accesses)

end VerusMimalloc
