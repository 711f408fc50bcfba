/-
**Programs of one thread inside an environment.**

A program (`Prog`) is a tree of atomic steps: a step updates the state and chooses what is left to
do by looking at the state it started from. Between two steps the environment may change the state;
it keeps an invariant and leaves alone what the thread owns.

* `Prog.run`: the program alone, without an environment;
* `Discipline`: the invariant, the guarantee of each step, what the thread owns and which failures
  are allowed;
* `Discipline.Safe`: every step of a program keeps the discipline from any state that satisfies the
  invariant and agrees on the owned part, and the result satisfies a postcondition on the owned
  part;
* `safe_bind`, `safe_loop`, `safe_act`, `Safe.frame`: the rules of composition;
* `Prog.Always`, `Safe.stable`: what every step keeps; `Prog.Once`: a program with one special step;
* `Safe.exec`, `Safe.execs`: the interleaved execution of a safe program keeps the invariant,
  whatever the environment does;
* `Safe.run`: the solo execution of a safe program.
-/

import Mathlib.Logic.Relation
import Mathlib.Tactic.Basic

namespace Library

/-- A program over states `σ` with failures `ε` and results `α`. -/
inductive Prog (σ ε α : Type) : Type where
  | ret (value : α)
  | fail (error : ε)
  | step (next : σ → σ) (rest : σ → Prog σ ε α)

namespace Prog

variable {σ ε α β γ : Type}

/-- Sequencing. -/
def bind : Prog σ ε α → (α → Prog σ ε β) → Prog σ ε β
  | .ret value, k => k value
  | .fail error, _ => .fail error
  | .step next rest, k => .step next fun s => (rest s).bind k

instance : Monad (Prog σ ε) where
  pure := .ret
  bind := bind

theorem bind_def (p : Prog σ ε α) (k : α → Prog σ ε β) : p >>= k = p.bind k := rfl

/-- One atomic action: it may fail, and a failed action leaves the state as it is. -/
def act (f : σ → Except ε (α × σ)) : Prog σ ε α :=
  .step
    (fun s => match f s with
      | .ok (_, t) => t
      | .error _ => s)
    (fun s => match f s with
      | .ok (value, _) => .ret value
      | .error error => .fail error)

/-- Repeat `body` until it returns a result (`.inr`), at most `fuel` times. -/
def loop (timeout : ε) (body : β → Prog σ ε (β ⊕ α)) : Nat → β → Prog σ ε α
  | 0, _ => .fail timeout
  | fuel + 1, b => (body b).bind fun
      | .inl b' => loop timeout body fuel b'
      | .inr value => .ret value

/-- The program run alone. -/
def run : Prog σ ε α → σ → Except ε α × σ
  | .ret value, s => (.ok value, s)
  | .fail error, s => (.error error, s)
  | .step next rest, s => (rest s).run (next s)

theorem run_bind (p : Prog σ ε α) (k : α → Prog σ ε β) (s : σ) :
    (p.bind k).run s = match p.run s with
      | (.ok value, t) => (k value).run t
      | (.error error, t) => (.error error, t) := by
  induction p generalizing s with
  | ret value => rfl
  | fail error => rfl
  | step next rest ih => exact ih s (next s)

theorem run_act (f : σ → Except ε (α × σ)) (s : σ) :
    (act f : Prog σ ε α).run s = match f s with
      | .ok (value, t) => (.ok value, t)
      | .error error => (.error error, s) := by
  simp only [act, run]
  cases f s <;> rfl

/-- A step of the thread or of the environment. -/
inductive Exec (env : σ → σ → Prop) : σ × Prog σ ε α → σ × Prog σ ε α → Prop where
  | own (s : σ) (next : σ → σ) (rest : σ → Prog σ ε α) :
      Exec env (s, .step next rest) (next s, rest s)
  | other (s t : σ) (p : Prog σ ε α) : env s t → Exec env (s, p) (t, p)

theorem Exec.bind {env : σ → σ → Prop} {x y : σ × Prog σ ε α} (step : Exec env x y)
    (k : α → Prog σ ε β) : Exec env (x.1, x.2.bind k) (y.1, y.2.bind k) := by
  cases step with
  | own s next rest => exact .own s next fun s => (rest s).bind k
  | other s t p moved => exact .other s t _ moved

/-- An execution of a sequence is one of its first part, or gets past it. -/
theorem execs_bind {env : σ → σ → Prop} {p : Prog σ ε α} {k : α → Prog σ ε β} {s t : σ}
    {q : Prog σ ε β} (run : Relation.ReflTransGen (Exec env) (s, p.bind k) (t, q)) :
    (∃ p', q = p'.bind k ∧ Relation.ReflTransGen (Exec env) (s, p) (t, p')) ∨
      ∃ value u, Relation.ReflTransGen (Exec env) (s, p) (u, .ret value) ∧
        Relation.ReflTransGen (Exec env) (u, k value) (t, q) := by
  generalize final : (t, q) = y at run
  induction run generalizing t q with
  | refl =>
      cases final
      exact .inl ⟨p, rfl, .refl⟩
  | tail _ step ih =>
      rename_i x _ _
      obtain ⟨u, r⟩ := x
      subst final
      rcases ih rfl with ⟨p', rfl, first⟩ | ⟨value, v, first, second⟩
      · cases p' with
        | ret value => exact .inr ⟨value, u, first, .single step⟩
        | fail error =>
            cases step with
            | other _ _ _ moved => exact .inl ⟨.fail error, rfl, first.tail (.other _ _ _ moved)⟩
        | step next rest =>
            cases step with
            | own _ _ _ => exact .inl ⟨rest u, rfl, first.tail (.own _ _ _)⟩
            | other _ _ _ moved => exact .inl ⟨.step next rest, rfl, first.tail (.other _ _ _ moved)⟩
      · exact .inr ⟨value, v, first, second.tail step⟩

/-- Every step of the program is one of `R`, from any state. -/
def Always (R : σ → σ → Prop) : Prog σ ε α → Prop
  | .ret _ => True
  | .fail _ => True
  | .step next rest => ∀ s, R s (next s) ∧ (rest s).Always R

section Always

variable {R : σ → σ → Prop}

theorem always_true (p : Prog σ ε α) : p.Always fun _ _ => True := by
  induction p with
  | ret value => trivial
  | fail error => trivial
  | step next rest ih => exact fun s => ⟨trivial, ih s⟩

theorem Always.mono {R' : σ → σ → Prop} {p : Prog σ ε α} (always : p.Always R)
    (weaker : ∀ s t, R s t → R' s t) : p.Always R' := by
  induction p with
  | ret value => trivial
  | fail error => trivial
  | step next rest ih => exact fun s => ⟨weaker _ _ (always s).1, ih s (always s).2⟩

theorem Always.bind {p : Prog σ ε α} {k : α → Prog σ ε β} (first : p.Always R)
    (second : ∀ value, (k value).Always R) : (p.bind k).Always R := by
  induction p with
  | ret value => exact second value
  | fail error => trivial
  | step next rest ih => exact fun s => ⟨(first s).1, ih s (first s).2⟩

theorem always_act {f : σ → Except ε (α × σ)} (refl : ∀ s, R s s)
    (good : ∀ s value t, f s = .ok (value, t) → R s t) : (act f).Always R := by
  intro s
  cases outcome : f s with
  | ok result =>
      obtain ⟨value, t⟩ := result
      simp only [outcome]
      exact ⟨good s value t outcome, trivial⟩
  | error error =>
      simp only [outcome]
      exact ⟨refl s, trivial⟩

theorem always_loop {timeout : ε} {body : β → Prog σ ε (β ⊕ α)}
    (each : ∀ b, (body b).Always R) : ∀ fuel b, (loop timeout body fuel b).Always R := by
  intro fuel
  induction fuel with
  | zero => exact fun _ => trivial
  | succ fuel ih =>
      refine fun b => (each b).bind fun result => ?_
      cases result with
      | inl b' => exact ih b'
      | inr value => trivial

end Always

/-- What is left of the program returns the value; every step is one of `R`. -/
def Returning (R : σ → σ → Prop) (value : α) : Prog σ ε α → Prop
  | .ret result => result = value
  | .fail _ => False
  | .step next rest => ∀ s, R s (next s) ∧ (rest s).Returning R value

/-- If the program returns a value, then one of its steps is one of `T` for this value; every other step
is one of `R`. -/
def Once (R : σ → σ → Prop) (T : α → σ → σ → Prop) : Prog σ ε α → Prop
  | .ret _ => False
  | .fail _ => True
  | .step next rest => ∀ s, (R s (next s) ∧ (rest s).Once R T) ∨
      ∃ value, T value s (next s) ∧ (rest s).Returning R value

/-- The step of `T` is in the second part. -/
theorem Always.once {R : σ → σ → Prop} {T : β → σ → σ → Prop} {p : Prog σ ε α}
    {k : α → Prog σ ε β} (first : p.Always R) (second : ∀ value, (k value).Once R T) :
    (p.bind k).Once R T := by
  induction p with
  | ret value => exact second value
  | fail error => trivial
  | step next rest ih => exact fun s => .inl ⟨(first s).1, ih s (first s).2⟩

/-- The program that ends at once. -/
def ofResult : Except ε α → Prog σ ε α
  | .ok value => .ret value
  | .error error => .fail error

/-- A run alone is an execution. -/
theorem execs_run {env : σ → σ → Prop} (p : Prog σ ε α) (s : σ) :
    Relation.ReflTransGen (Exec env) (s, p) ((p.run s).2, ofResult (p.run s).1) := by
  induction p generalizing s with
  | ret value => exact .refl
  | fail error => exact .refl
  | step next rest ih => exact .head (.own s next rest) (ih s (next s))

end Prog

/-- What a thread and its environment rely on. -/
structure Discipline (σ ε κ : Type) where
  /-- Holds between any two steps. -/
  inv : σ → Prop
  /-- Holds of every step of the thread. -/
  guar : σ → σ → Prop
  /-- The part of the state that only the thread changes. -/
  own : σ → κ
  /-- The failures that may happen. -/
  allowed : ε → Prop

namespace Discipline

variable {σ ε κ α β : Type} (D : Discipline σ ε κ)

/-- One step of the thread keeps the discipline. -/
def Keeps (s t : σ) : Prop := D.inv t ∧ D.guar s t

/-- Every step of the program keeps the discipline, whatever the environment did before it, and the
result and the owned part satisfy `post`. -/
def Safe : Prog σ ε α → (α → κ → Prop) → κ → Prop
  | .ret value, post, l => post value l
  | .fail error, _, _ => D.allowed error
  | .step next rest, post, l => ∀ s, D.inv s → D.own s = l →
      D.Keeps s (next s) ∧ Safe (rest s) post (D.own (next s))

variable {D}

theorem Safe.mono {p : Prog σ ε α} {post post' : α → κ → Prop} {l : κ}
    (safe : D.Safe p post l) (weaker : ∀ value l', post value l' → post' value l') :
    D.Safe p post' l := by
  induction p generalizing l with
  | ret value => exact weaker _ _ safe
  | fail error => exact safe
  | step next rest ih =>
      intro s inv same
      obtain ⟨keeps, after⟩ := safe s inv same
      exact ⟨keeps, ih s after⟩

theorem safe_bind {p : Prog σ ε α} {k : α → Prog σ ε β} {post : β → κ → Prop} {l : κ}
    (safe : D.Safe p (fun value l' => D.Safe (k value) post l') l) :
    D.Safe (p.bind k) post l := by
  induction p generalizing l with
  | ret value => exact safe
  | fail error => exact safe
  | step next rest ih =>
      intro s inv same
      obtain ⟨keeps, after⟩ := safe s inv same
      exact ⟨keeps, ih s after⟩

/-- **Sequencing with a known intermediate condition.** -/
theorem Safe.bind {p : Prog σ ε α} {k : α → Prog σ ε β} {mid : α → κ → Prop}
    {post : β → κ → Prop} {l : κ} (first : D.Safe p mid l)
    (second : ∀ value l', mid value l' → D.Safe (k value) post l') :
    D.Safe (p.bind k) post l :=
  safe_bind (first.mono second)

/-- **One action.** Its successful outcome keeps the discipline and satisfies `post`; a failure is
an allowed one. -/
theorem safe_act {f : σ → Except ε (α × σ)} {post : α → κ → Prop} {l : κ}
    (refl : ∀ s, D.guar s s)
    (good : ∀ s value t, D.inv s → D.own s = l → f s = .ok (value, t) →
      D.Keeps s t ∧ post value (D.own t))
    (bad : ∀ s error, D.inv s → D.own s = l → f s = .error error → D.allowed error) :
    D.Safe (.act f) post l := by
  intro s inv same
  cases outcome : f s with
  | ok result =>
      obtain ⟨value, t⟩ := result
      simp only [outcome]
      exact good s value t inv same outcome
  | error error =>
      simp only [outcome]
      exact ⟨⟨inv, refl s⟩, bad s error inv same outcome⟩

/-- **Loops** keep a loop invariant `J` on the loop variable and the owned part. -/
theorem safe_loop {timeout : ε} {body : β → Prog σ ε (β ⊕ α)} {post : α → κ → Prop}
    (J : β → κ → Prop) (allowed : D.allowed timeout)
    (each : ∀ b l, J b l → D.Safe (body b) (fun
      | .inl b', l' => J b' l'
      | .inr value, l' => post value l') l) :
    ∀ fuel b l, J b l → D.Safe (Prog.loop timeout body fuel b) post l := by
  intro fuel
  induction fuel with
  | zero => exact fun _ _ _ => allowed
  | succ fuel ih =>
      intro b l holds
      refine (each b l holds).bind fun result l' after => ?_
      cases result with
      | inl b' => exact ih b' l' after
      | inr value => exact after

/-- What no step changes is unchanged at the end. -/
theorem Safe.frame {γ : Type} {f : κ → γ} {p : Prog σ ε α} {post : α → κ → Prop} {l : κ}
    (safe : D.Safe p post l) (stable : ∀ s t, D.guar s t → f (D.own t) = f (D.own s)) :
    D.Safe p (fun value l' => post value l' ∧ f l' = f l) l := by
  induction p generalizing l with
  | ret value => exact ⟨safe, rfl⟩
  | fail error => exact safe
  | step next rest ih =>
      intro s inv same
      obtain ⟨keeps, after⟩ := safe s inv same
      refine ⟨keeps, (ih s after).mono fun value l' ⟨holds, unchanged⟩ => ⟨holds, ?_⟩⟩
      rw [unchanged, stable s (next s) keeps.2, same]

/-- What every step keeps holds at the end. -/
theorem Safe.stable {R : σ → σ → Prop} {J : κ → Prop} {p : Prog σ ε α} {post : α → κ → Prop} {l : κ}
    (safe : D.Safe p post l) (always : p.Always R)
    (stable : ∀ s t, D.guar s t → R s t → J (D.own s) → J (D.own t)) (holds : J l) :
    D.Safe p (fun value l' => post value l' ∧ J l') l := by
  induction p generalizing l with
  | ret value => exact ⟨safe, holds⟩
  | fail error => exact safe
  | step next rest ih =>
      intro s inv same
      obtain ⟨keeps, after⟩ := safe s inv same
      obtain ⟨moves, later⟩ := always s
      refine ⟨keeps, ih s after later ?_⟩
      subst same
      exact stable s (next s) keeps.2 moves holds

/-- The environment keeps the invariant and what the thread owns. -/
def Respects (D : Discipline σ ε κ) (env : σ → σ → Prop) : Prop :=
  ∀ s t, env s t → D.inv s → D.inv t ∧ D.own t = D.own s

/-- **Interleaving.** A step of the thread or of the environment keeps the invariant and leaves the
rest of the program safe. -/
theorem Safe.exec {env : σ → σ → Prop} (respects : D.Respects env) {p q : Prog σ ε α}
    {post : α → κ → Prop} {s t : σ} (inv : D.inv s) (safe : D.Safe p post (D.own s))
    (step : Prog.Exec env (s, p) (t, q)) : D.inv t ∧ D.Safe q post (D.own t) := by
  cases step with
  | own next rest =>
      obtain ⟨keeps, after⟩ := safe s inv rfl
      exact ⟨keeps.1, after⟩
  | other _ _ _ moved =>
      obtain ⟨kept, same⟩ := respects s t moved inv
      exact ⟨kept, same ▸ safe⟩

/-- **Runs under interleaving** of a program, to any point of it. -/
theorem Safe.execs {env : σ → σ → Prop} (respects : D.Respects env) {x y : σ × Prog σ ε α}
    {post : α → κ → Prop} (inv : D.inv x.1) (safe : D.Safe x.2 post (D.own x.1))
    (steps : Relation.ReflTransGen (Prog.Exec env) x y) :
    D.inv y.1 ∧ D.Safe y.2 post (D.own y.1) := by
  induction steps with
  | refl => exact ⟨inv, safe⟩
  | tail _ step ih => exact ih.2.exec respects ih.1 step

/-- **The program alone.** -/
theorem Safe.run {p : Prog σ ε α} {post : α → κ → Prop} {s : σ} (inv : D.inv s)
    (safe : D.Safe p post (D.own s)) :
    D.inv (p.run s).2 ∧ ∀ value, (p.run s).1 = .ok value → post value (D.own (p.run s).2) := by
  induction p generalizing s with
  | ret value =>
      refine ⟨inv, fun result same => ?_⟩
      cases same
      exact safe
  | fail error => exact ⟨inv, fun result same => by cases same⟩
  | step next rest ih =>
      obtain ⟨keeps, after⟩ := safe s inv rfl
      exact ih s keeps.1 after

end Discipline

end Library
