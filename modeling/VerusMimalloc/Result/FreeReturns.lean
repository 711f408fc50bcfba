/-
**When a free returns.**

A free that empties the last page of a segment ends in the branch of `segment_free` that was left open, and
one that gives slices back panics where the operating system refuses to change their protection.

* `FreeEnds`: how a free ends;
* `free_ends`, `freeBlock_ends`: a free by the owner, and a free of a delayed block, return exactly when the
  block is not the last one of its segment, where every protection change is granted;
* `freeDelayedBlock_aborts`: the rest of a delayed free does not fail;
* `free_returns_iff`: together; `free_last_aborts`: a run that gets there.
-/

import VerusMimalloc.Proof.Scripts

namespace VerusMimalloc

open Library

variable {s t : State} {l : Local} {b p fuel : Nat}

/-- A call that cannot return. -/
theorem OwnerSafe.not_frees {program : P Unit} {post : State → Prop}
    (stuck : OwnerSafe False (fun _ => True) program (fun _ _ => False) s.loc) (inv : Inv s) :
    ¬Frees s program post := by
  intro frees
  obtain ⟨t, run⟩ := frees.alone
  exact (stuck.returns inv (returns_of_run run)).2

/-- The failures of a free: `last` is that its block is the last one of its segment. -/
def FreeFails (oracle : Oracle) (last : Prop) (e : Abort) : Prop :=
  (e = .segmentFree ∧ last) ∨ (e = .mprotect ∧ oracle.Refuses)

/-- How a free ends. -/
structure FreeEnds (s : State) (program : P Unit) (last : Prop) (post : State → Prop) : Prop where
  /-- Where every protection change is granted, it returns exactly when the block is not the last one. -/
  frees_iff : s.loc.os.oracle.Grants → (Frees s program post ↔ ¬last)
  aborts : ∀ e t, Aborts s program e t → FreeFails s.loc.os.oracle last e
  returns : ∀ t, Returns s program () t → post t

/-- A free with these failures that cannot return with the last block of a segment. -/
theorem OwnerSafe.freeEnds {program : P Unit} {last : Prop} {post : Unit → Local → Prop}
    {after : State → Prop}
    (safe : OwnerSafe False (FreeFails s.loc.os.oracle last) program post s.loc)
    (stuck : last → OwnerSafe False (fun _ => True) program (fun _ _ => False) s.loc) (inv : Inv s)
    (good : ∀ t, Returns s program () t → Inv t → post () t.loc → after t) :
    FreeEnds s program last after := by
  have aborts : ∀ e t, Aborts s program e t → FreeFails s.loc.os.oracle last e := fun e t aborted =>
    (safe.aborts inv aborted).2
  have returns : ∀ t, Returns s program () t → after t := fun t returned =>
    good t returned (safe.returns inv returned).1 (safe.returns inv returned).2
  refine ⟨fun grants => ⟨fun frees isLast => (stuck isLast).not_frees inv frees, fun notLast => ?_⟩,
    aborts, returns⟩
  have never : ∀ e t, ¬Aborts s program e t := fun e t aborted =>
    (aborts e t aborted).elim (fun both => notLast both.2) fun both => grants.not_refuses both.2
  exact ⟨runs_of_not_aborts never, never, returns⟩

/-! ### By the owner -/

/-- What a free leaves behind: a state that the heap goes on from. -/
def GoesOn (t : State) : Prop := Reachable { st := t, owner := none } ∧ Inv t

/-- **`free` of a live block.** -/
theorem free_ends {size : Nat} {before after : List (Nat × Nat)}
    (reachable : Reachable { st := s, owner := none }) (live : s.sh.live = before ++ (p, size) :: after) :
    FreeEnds (s.giveBack before after p) (free (fuel + 1) p) (LastOfSegment s.loc p) GoesOn := by
  have sys := reachable.sysInv
  obtain ⟨inv, nonzero⟩ := Inv.giveBack sys.inv (sys.idle rfl) live
  have safe : OwnerSafe False (FreeFails s.loc.os.oracle (LastOfSegment s.loc p)) (free (fuel + 1) p) _
      (s.giveBack before after p).loc :=
    free_safe (fun none => absurd none (Nat.succ_ne_zero _)) (fun refuses => .inr ⟨rfl, refuses⟩)
      (fun last => .inl ⟨rfl, last⟩) rfl nonzero
  have stuck : LastOfSegment s.loc p → OwnerSafe False (fun _ => True) (free (fuel + 1) p)
      (fun _ _ => False) (s.giveBack before after p).loc := fun last =>
    free_stuck (l := (s.giveBack before after p).loc) last rfl nonzero _
  exact safe.freeEnds stuck inv fun t returned inv' _ => ⟨reachable.returns_free live returned, inv'⟩

/-! ### Of a delayed block -/

/-- What the free of a delayed block leaves behind: the owner goes on with the taken list. -/
def GoesOnTaken (s t : State) : Prop :=
  Inv t ∧ t.loc.held = .nothing ∧ t.loc.taken = s.loc.taken

/-- **`free_block` of a delayed block** whose page was collected. -/
theorem freeBlock_ends (inv : Inv s) (ready : s.loc.held = .ready b) :
    FreeEnds s (freeBlock (fuel + 1) (pageOfBlock s.loc b) b) (LastOfSegment s.loc b) (GoesOnTaken s) := by
  have safe : OwnerSafe False (FreeFails s.loc.os.oracle (LastOfSegment s.loc b))
      (freeBlock (fuel + 1) (pageOfBlock s.loc b) b) _ s.loc :=
    freeBlock_safe (fun none => absurd none (Nat.succ_ne_zero _)) (fun refuses => .inr ⟨rfl, refuses⟩)
      (fun last => .inl ⟨rfl, last⟩) (.inl ready) rfl
  exact safe.freeEnds (fun last => freeLocal_stuck rfl last (.inl ready) rfl _) inv
    fun t _ inv' post => ⟨inv', post⟩

/-- **`free_delayed_block`** fails only where a loop runs out of fuel, where a protection change is refused,
or where it frees the last block of a segment. -/
theorem freeDelayedBlock_aborts {e : Abort} (inv : Inv s) (popped : s.loc.held = .popped b)
    (aborted : Aborts s (freeDelayedBlock (fuel + 1) b) e t) :
    e = .timeout ∨ (e = .mprotect ∧ s.loc.os.oracle.Refuses) ∨
      (e = .segmentFree ∧ ∃ u, Passes s (freeDelayedBlock (fuel + 1) b) u ∧ u.loc.held = .ready b ∧
        LastOfSegment u.loc b) := by
  have read : OwnerSafe False (fun _ => False) (localRead fun l => pageOfBlock l b)
      (fun page l' => l' = s.loc ∧ page = pageOfBlock s.loc b ∧ InUse s.loc (pageOfBlock s.loc b)) s.loc :=
    safe_localRead fun sh inv => ⟨rfl, rfl, (inv.of_popped popped).2.1⟩
  rcases aborted.parts with failed | ⟨page, u, returned, aborted, passes⟩
  · exact (read.aborts inv failed).2.elim
  obtain ⟨inv₁, same, rfl, page⟩ := read.returns inv returned
  -- the page of the block is asked
  have ask : OwnerSafe False (· = .timeout)
      (pageTryUseDelayedFree (fuel + 1) (pageOfBlock s.loc b) .useDelayedFree false)
      (Claimed False b u.loc) u.loc := by
    have on : pageOfBlock u.loc b = pageOfBlock s.loc b := by rw [same]
    refine tryUseDelayedFree_safe ?_ (same ▸ popped) on (fuel + 1)
    rfl
  rcases aborted.parts with failed | ⟨ok, v, returned, aborted, passes₁⟩
  · exact .inl (ask.aborts inv₁ failed).2
  obtain ⟨inv₂, asked, answer⟩ := ask.returns inv₁ returned
  rcases answer with ⟨rfl, claimed⟩ | ⟨rfl, _⟩
  case inr =>
    have done : OwnerSafe False (fun _ => False) (pure false : P Bool) (fun _ _ => True) v.loc := trivial
    exact (done.aborts inv₂ aborted).2.elim
  -- the page is collected
  rw [if_pos rfl] at aborted passes₁
  have page₂ : InUse v.loc (pageOfBlock s.loc b) := asked.frame.inUse_iff.mpr (same ▸ page)
  have collect : OwnerSafe False (fun _ => False) (pageFreeCollect (pageOfBlock s.loc b) false) _ v.loc :=
    pageFreeCollect_safe page₂ (fun x => by simp [claimed]) false
  rcases aborted.parts with failed | ⟨_, w, returned, aborted, passes₂⟩
  · exact (collect.aborts inv₂ failed).2.elim
  obtain ⟨inv₃, collected, _⟩ := collect.returns inv₂ returned
  have on : pageOfBlock w.loc b = pageOfBlock s.loc b := by
    rw [collected.frame.pageOfBlock_eq, asked.frame.pageOfBlock_eq, same]
  have ready : w.loc.held = .ready b := by
    rw [collected.held, claimed, Held.collect, asked.frame.pageOfBlock_eq, same, if_pos rfl]
  have oracle : w.loc.os.oracle = s.loc.os.oracle := by
    rw [collected.frame.os.oracle, asked.frame.os.oracle, same]
  -- the block goes back
  have back : OwnerSafe False (FreeFails w.loc.os.oracle (LastOfSegment w.loc b))
      (freeBlock (fuel + 1) (pageOfBlock s.loc b) b)
      (fun _ l' => l'.held = .nothing ∧ l'.taken = w.loc.taken) w.loc :=
    freeBlock_safe (fun none => absurd none (Nat.succ_ne_zero _)) (fun refuses => .inr ⟨rfl, refuses⟩)
      (fun last => .inl ⟨rfl, last⟩) (.inl ready) on
  rcases aborted.parts with failed | ⟨_, x, returned, aborted, _⟩
  · rcases (back.aborts inv₃ failed).2 with ⟨rfl, last⟩ | ⟨rfl, refuses⟩
    · exact .inr (.inr ⟨rfl, w, passes w (passes₁ w (passes₂ w (.start _ _))), ready, last⟩)
    · exact .inr (.inl ⟨rfl, oracle ▸ refuses⟩)
  · have done : OwnerSafe False (fun _ => False) (pure true : P Bool) (fun _ _ => True) x.loc := trivial
    exact (done.aborts (back.returns inv₃ returned).1 aborted).2.elim

/-! ### The statement -/

/-- **Frees return exactly when the block is not the last one of its segment**, where the operating system
grants every protection change. In every reachable state: `free` of every live block, and the free of a
delayed block, from the taken list to `free_block`. -/
theorem free_returns_iff {sys : Sys} (reachable : Reachable sys) (fuel : Nat) :
    (sys.owner = none → ∀ p size before after, sys.st.sh.live = before ++ (p, size) :: after →
      FreeEnds (sys.st.giveBack before after p) (free (fuel + 1) p) (LastOfSegment sys.st.loc p) GoesOn) ∧
    (∀ b, sys.st.loc.held = .ready b →
      FreeEnds sys.st (freeBlock (fuel + 1) (pageOfBlock sys.st.loc b) b) (LastOfSegment sys.st.loc b)
        (GoesOnTaken sys.st)) ∧
    ∀ b, sys.st.loc.held = .popped b → ∀ e t, Aborts sys.st (freeDelayedBlock (fuel + 1) b) e t →
      e = .timeout ∨ (e = .mprotect ∧ sys.st.loc.os.oracle.Refuses) ∨
        (e = .segmentFree ∧ ∃ u, Passes sys.st (freeDelayedBlock (fuel + 1) b) u ∧
          u.loc.held = .ready b ∧ LastOfSegment u.loc b) := by
  have inv := reachable.sysInv.inv
  obtain ⟨s, owner⟩ := sys
  refine ⟨?_, fun b ready => freeBlock_ends inv ready, fun b popped e t aborted =>
    freeDelayedBlock_aborts inv popped aborted⟩
  rintro rfl p size before after live
  exact free_ends reachable live

/-- The last block that was handed out satisfies `check`. -/
def newest (check : Local → Nat → Bool) (s : State) : Bool :=
  match s.sh.live with
  | [] => false
  | (p, _) :: _ => check s.loc p

theorem newest_eq {check : Local → Nat → Bool} (holds : newest check s = true) :
    ∃ p size after, s.sh.live = [] ++ (p, size) :: after ∧ check s.loc p = true := by
  unfold newest at holds
  cases live : s.sh.live with
  | nil =>
      rw [live] at holds
      cases holds
  | cons first after =>
      rw [live] at holds
      exact ⟨first.1, first.2, after, rfl, holds⟩

theorem free_returns_iff_one :
    ∃ s p after, Reachable { st := s, owner := none } ∧
      Frees (s.giveBack [] after p) (free 1 p) GoesOn := by
  obtain ⟨s, ⟨reachable, grants⟩, holds⟩ := performed_reachable 9 [.malloc 24]
    (newest fun l p => decide ¬LastOfSegment l p) (by decide +kernel)
  obtain ⟨p, size, after, live, check⟩ := newest_eq holds
  exact ⟨s, p, after, reachable, (((free_returns_iff reachable 0).1 rfl p size [] after live).frees_iff
    grants).mpr (of_decide_eq_true check)⟩

/-- 252 blocks of 128 KiB fill a segment, the next one is in a segment of its own; a block of the first
segment goes back, so that another page is in the queue of the bin. -/
def filledSegment : List ScriptCall := List.replicate 253 (.malloc 131072) ++ [.free 671154176]

set_option maxRecDepth 1000000 in
/-- **The block in the new segment** cannot be freed, although every protection change is granted. -/
theorem free_last_aborts :
    ¬∀ s p size before after fuel, Reachable { st := s, owner := none } → s.loc.os.oracle.Grants →
      s.sh.live = before ++ (p, size) :: after →
        Frees (s.giveBack before after p) (free (fuel + 1) p) GoesOn := by
  intro always
  obtain ⟨s, ⟨reachable, grants⟩, holds⟩ := performed_reachable 100 filledSegment
    (newest fun l p => decide (LastOfSegment l p)) (by decide +kernel)
  obtain ⟨p, size, after, live, check⟩ := newest_eq holds
  exact ((free_ends reachable live).frees_iff grants).mp (always s p size [] after 0 reachable grants live)
    (of_decide_eq_true check)

end VerusMimalloc
