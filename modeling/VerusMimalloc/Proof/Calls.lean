/-
**Calls of the owner, from their start to their end.**

A call runs with the steps of freeing threads in between.

* `Returns`, `Aborts`: how a call ends;
* `OwnerSafe.passes`, `OwnerSafe.returns`, `OwnerSafe.aborts`: what a safe call ends in;
* `Frees`, `FreesUnlessRefused`: a call that does not fail, or only in `mprotect`;
* `Aborts.parts`, `Returns.passes`: the parts of a sequence;
* `Reachable.returns_free`: a call leads from one reachable state to another.
-/

import VerusMimalloc.Proof.Runs

namespace VerusMimalloc

open Library

variable {α : Type} {ordered : Prop} {allowed : Abort → Prop} {s t : State} {p : P α} {post : α → Local → Prop}

/-- A freeing thread moves. -/
def Others (s t : State) : Prop := ∃ sh, RemoteStep s.loc s.sh sh ∧ t = { s with sh }

/-- The call `p`, started in `s`, returns `value` in `t`. -/
def Returns (s : State) (p : P α) (value : α) (t : State) : Prop :=
  Relation.ReflTransGen (Prog.Exec Others) (s, p) (t, .ret value)

/-- The call `p`, started in `s`, ends in the failure `e` in `t`. -/
def Aborts (s : State) (p : P α) (e : Abort) (t : State) : Prop :=
  Relation.ReflTransGen (Prog.Exec Others) (s, p) (t, .fail e)

theorem others_respect : (ownerDiscipline ⟨False, ordered⟩ allowed).Respects Others := by
  rintro s t ⟨sh, moved, rfl⟩ ⟨inv, _, first⟩
  exact ⟨⟨inv.remote moved, False.elim, first⟩, rfl⟩

/-- Where a safe call is, with other threads in between. -/
theorem OwnerSafe.passes {q : P α} (safe : OwnerSafe ⟨False, ordered⟩ allowed p post s.loc)
    (inv : Inv s) (first : ordered → EmptyFirst s.loc)
    (run : Relation.ReflTransGen (Prog.Exec Others) (s, p) (t, q)) :
    Inv t ∧ (ordered → EmptyFirst t.loc) ∧ OwnerSafe ⟨False, ordered⟩ allowed q post t.loc := by
  obtain ⟨⟨inv', _, first'⟩, holds⟩ := Discipline.Safe.execs others_respect (x := (s, p)) (y := (t, q))
    ⟨inv, False.elim, first⟩ safe run
  exact ⟨inv', first', holds⟩

/-- What a safe call returns. -/
theorem OwnerSafe.returns {value : α} (safe : OwnerSafe False allowed p post s.loc) (inv : Inv s)
    (returned : Returns s p value t) : Inv t ∧ post value t.loc :=
  have ⟨inv', _, holds⟩ := OwnerSafe.passes safe inv False.elim returned
  ⟨inv', holds⟩

/-- How a safe call fails. -/
theorem OwnerSafe.aborts {e : Abort} (safe : OwnerSafe False allowed p post s.loc) (inv : Inv s)
    (aborted : Aborts s p e t) : Inv t ∧ allowed e :=
  have ⟨inv', _, holds⟩ := OwnerSafe.passes safe inv False.elim aborted
  ⟨inv', holds⟩

/-! ### Alone -/

theorem returns_of_run {value : α} (result : p.run s = (.ok value, t)) : Returns s p value t := by
  have steps : Relation.ReflTransGen (Prog.Exec Others) (s, p) _ := Prog.execs_run p s
  rw [result] at steps
  exact steps

theorem aborts_of_run {e : Abort} (result : p.run s = (.error e, t)) : Aborts s p e t := by
  have steps : Relation.ReflTransGen (Prog.Exec Others) (s, p) _ := Prog.execs_run p s
  rw [result] at steps
  exact steps

/-! ### Calls that do not fail -/

/-- The call runs alone to its end; with other threads in between it does not fail, and what it returns
in satisfies `post`. -/
structure Frees (s : State) (p : P Unit) (post : State → Prop) : Prop where
  alone : ∃ t, p.run s = (.ok (), t)
  aborts : ∀ e t, ¬Aborts s p e t
  returns : ∀ t, Returns s p () t → post t

/-- A call that does not fail runs alone to its end. -/
theorem runs_of_not_aborts {p : P Unit} (never : ∀ e t, ¬Aborts s p e t) : ∃ t, p.run s = (.ok (), t) := by
  rcases result : p.run s with ⟨outcome, t⟩
  cases outcome with
  | ok value => exact ⟨t, rfl⟩
  | error e => exact absurd (aborts_of_run result) (never e t)

theorem Frees.mono {p : P Unit} {post post' : State → Prop} (frees : Frees s p post)
    (weaker : ∀ t, post t → post' t) : Frees s p post' :=
  ⟨frees.alone, frees.aborts, fun t returned => weaker t (frees.returns t returned)⟩

/-- A call that fails only where the operating system refuses a protection change. -/
structure FreesUnlessRefused (s : State) (p : P Unit) (post : State → Prop) : Prop where
  frees : s.loc.os.oracle.Grants → Frees s p post
  aborts : ∀ e t, Aborts s p e t → e = .mprotect ∧ s.loc.os.oracle.Refuses
  returns : ∀ t, Returns s p () t → post t

/-- What a safe call with no other failures does. -/
theorem OwnerSafe.freesUnlessRefused {p : P Unit} {post : Unit → Local → Prop}
    (safe : OwnerSafe False (fun e => e = .mprotect ∧ s.loc.os.oracle.Refuses) p post s.loc) (inv : Inv s) :
    FreesUnlessRefused s p fun t => Inv t ∧ post () t.loc := by
  have aborts : ∀ e t, Aborts s p e t → e = .mprotect ∧ s.loc.os.oracle.Refuses := fun e t aborted =>
    (safe.aborts inv aborted).2
  refine ⟨fun grants => ?_, aborts, fun t returned => safe.returns inv returned⟩
  have never : ∀ e t, ¬Aborts s p e t := fun e t aborted => grants.not_refuses (aborts e t aborted).2
  exact ⟨runs_of_not_aborts never, never, fun t returned => safe.returns inv returned⟩

theorem FreesUnlessRefused.mono {p : P Unit} {post post' : State → Prop}
    (frees : FreesUnlessRefused s p post) (weaker : ∀ t, post t → post' t) :
    FreesUnlessRefused s p post' :=
  ⟨fun grants => (frees.frees grants).mono weaker, frees.aborts,
    fun t returned => weaker t (frees.returns t returned)⟩

/-! ### In parts -/

/-- The call, started in `s`, comes through the state `u`. -/
def Passes (s : State) (p : P α) (u : State) : Prop :=
  ∃ q, Relation.ReflTransGen (Prog.Exec Others) (s, p) (u, q)

theorem Passes.start (s : State) (p : P α) : Passes s p s := ⟨p, .refl⟩

/-- The second part of a sequence starts where the first one ends. -/
theorem Returns.passes {β : Type} {first : P α} {rest : α → P β} {value : α} {u : State}
    (returned : Returns s first value u) (after : Passes u (rest value) t) :
    Passes s (first >>= rest) t := by
  obtain ⟨q, run⟩ := after
  exact ⟨q, (Relation.ReflTransGen.lift (fun x : State × P α => (x.1, x.2.bind rest))
    (fun _ _ step => step.bind _) _ _ returned).trans run⟩

/-- A failure of a sequence is one of its first or of its second part. -/
theorem Aborts.parts {β : Type} {first : P α} {rest : α → P β} {e : Abort}
    (aborted : Aborts s (first >>= rest) e t) :
    Aborts s first e t ∨ ∃ value u, Returns s first value u ∧ Aborts u (rest value) e t ∧
      ∀ v, Passes u (rest value) v → Passes s (first >>= rest) v := by
  rcases Prog.execs_bind aborted with ⟨p', same, run⟩ | ⟨value, u, run, after⟩
  · cases p' with
    | ret value =>
        have failed : rest value = .fail e := same.symm
        exact .inr ⟨value, t, run, failed ▸ .refl, fun v => Returns.passes run⟩
    | fail e' =>
        cases same
        exact .inl run
    | step => cases same
  · exact .inr ⟨value, u, run, after, fun v => Returns.passes run⟩

/-- A failure after a first part that cannot fail. -/
theorem Aborts.second {β : Type} {rest : α → P β} {e : Abort}
    (aborted : Aborts s (p >>= rest) e t)
    (safe : OwnerSafe ⟨False, ordered⟩ (fun _ => False) p post s.loc) (inv : Inv s)
    (first : ordered → EmptyFirst s.loc) :
    ∃ value u, post value u.loc ∧ Inv u ∧ (ordered → EmptyFirst u.loc) ∧ Aborts u (rest value) e t ∧
      ∀ v, Passes u (rest value) v → Passes s (p >>= rest) v := by
  rcases aborted.parts with early | ⟨value, u, returned, later, passes⟩
  · exact (safe.passes inv first early).2.2.elim
  · obtain ⟨inv', first', holds⟩ := safe.passes inv first returned
    exact ⟨value, u, holds, inv', first', later, passes⟩

/-! ### As a part of a run -/

theorem step_of_exec {x y : State × P Unit} (step : Prog.Exec Others x y) :
    Step { st := x.1, owner := some x.2 } { st := y.1, owner := some y.2 } := by
  cases step with
  | own s next rest => exact .own s next rest
  | other s t p moved =>
      obtain ⟨sh, moved, rfl⟩ := moved
      exact .remote s (some p) sh moved

theorem steps_of_returns {p : P Unit} (returned : Returns s p () t) :
    Relation.ReflTransGen Step { st := s, owner := some p } { st := t, owner := none } :=
  .tail (Relation.ReflTransGen.lift
    (fun x : State × P Unit => ({ st := x.1, owner := some x.2 } : Sys)) (fun _ _ => step_of_exec) _ _
    returned) (.finish t)

/-- The owner frees a live block. -/
theorem Reachable.returns_free {fuel size q : Nat} {before after : List (Nat × Nat)}
    (reachable : Reachable { st := s, owner := none }) (live : s.sh.live = before ++ (q, size) :: after)
    (returned : Returns (s.giveBack before after q) (free fuel q) () t) :
    Reachable { st := t, owner := none } :=
  (reachable.step (.free s fuel q size before after live)).run (steps_of_returns returned)

end VerusMimalloc
