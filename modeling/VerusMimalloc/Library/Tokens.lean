/-
**Token machines.**

A token machine keeps its state in shards, most of them finite maps. A transition (`Action`) takes
tokens out of shards, looks at tokens it leaves in place, and puts tokens back. It stops with
`notEnabled` when its caller does not hold what it asks for, and with `violated` when one of its own
safety conditions fails: a token that is already there, a deposit that is missing, an assertion.

* `FMap`: finite maps, with the four ways to change one read through `lookup`;
* `Action` and the operations of a transition on a shard (`Field`);
* `Ensures`: the action is never `violated`, and where it goes through, its end satisfies a
  postcondition; one rule for each operation.
-/

import Mathlib.Data.Finmap
import Mathlib.Control.Lawful

namespace Library

/-! ### Finite maps -/

/-- Finite maps. -/
abbrev FMap (K V : Type) := Finmap fun _ : K => V

namespace FMap

variable {K V : Type} [DecidableEq K] {a k : K} {v : V}

/-- The map that sends the keys in `s` as `f` says. -/
def collect (s : Finset K) (f : K → Option V) : FMap K V :=
  Finmap.keysLookupEquiv.symm
    ⟨(s.filter fun k => (f k).isSome, fun k => if k ∈ s then f k else none), fun k => by
      by_cases inside : k ∈ s
      · simp [inside]
      · simp [inside]⟩

/-- `m` without the keys in `s`. -/
def removeKeys (m : FMap K V) (s : Finset K) : FMap K V :=
  collect m.keys fun k => if k ∈ s then none else m.lookup k

/-- Every entry satisfies `p`. -/
def All (m : FMap K V) (p : K → V → Prop) : Prop := ∀ k ∈ m.keys, ∀ v ∈ m.lookup k, p k v

instance (m : FMap K V) (p : K → V → Prop) [∀ k v, Decidable (p k v)] : Decidable (All m p) :=
  inferInstanceAs (Decidable (∀ k ∈ m.keys, ∀ v ∈ m.lookup k, p k v))

theorem all_iff {m : FMap K V} {p : K → V → Prop} :
    All m p ↔ ∀ k v, m.lookup k = some v → p k v := by
  constructor
  · intro all k v found
    exact all k (Finmap.mem_keys.mpr (Finmap.mem_of_lookup_eq_some found)) v found
  · intro all k _ v found
    exact all k v found

theorem mem_keys_iff {m : FMap K V} : a ∈ m.keys ↔ ∃ v, m.lookup a = some v := by
  rw [Finmap.mem_keys, Finmap.mem_iff]

theorem lookup_collect (s : Finset K) (f : K → Option V) :
    (collect s f).lookup a = if a ∈ s then f a else none := by
  rw [collect, Finmap.keysLookupEquiv_symm_apply_lookup]

theorem lookup_removeKeys (m : FMap K V) (s : Finset K) :
    (removeKeys m s).lookup a = if a ∈ s then none else m.lookup a := by
  rw [removeKeys, lookup_collect]
  by_cases inside : a ∈ m.keys
  · rw [if_pos inside]
  · rw [if_neg inside, Finmap.lookup_eq_none.mpr fun present => inside (Finmap.mem_keys.mpr present),
      ite_self]

theorem lookup_insert (m : FMap K V) :
    (m.insert k v).lookup a = if a = k then some v else m.lookup a := by
  by_cases same : a = k
  · rw [if_pos same, same, Finmap.lookup_insert]
  · rw [if_neg same, Finmap.lookup_insert_of_ne m same]

theorem lookup_erase (m : FMap K V) :
    (m.erase k).lookup a = if a = k then none else m.lookup a := by
  by_cases same : a = k
  · rw [if_pos same, same, Finmap.lookup_erase]
  · rw [if_neg same, Finmap.lookup_erase_ne same]

/-- In a union the left map wins. -/
theorem lookup_union (m n : FMap K V) :
    (m ∪ n).lookup a = (m.lookup a).or (n.lookup a) := by
  by_cases inside : a ∈ m
  · obtain ⟨v, found⟩ := Finmap.mem_iff.mp inside
    rw [Finmap.lookup_union_left inside, found, Option.some_or]
  · rw [Finmap.lookup_union_right inside, Finmap.lookup_eq_none.mpr inside, Option.none_or]

/-- Taking a key out and putting it back with another value changes its value. -/
@[simp] theorem insert_erase (m : FMap K V) : (m.erase k).insert k v = m.insert k v := by
  refine Finmap.ext_lookup fun x => ?_
  rw [lookup_insert, lookup_insert, lookup_erase]
  by_cases same : x = k
  · rw [if_pos same, if_pos same]
  · rw [if_neg same, if_neg same, if_neg same]

end FMap

/-! ### Actions -/

/-- Why a transition does not go through. -/
inductive Stop where
  | notEnabled
  | violated
  deriving DecidableEq

/-- A transition, or a part of one. -/
abbrev Action (σ : Type) := StateT σ (Except Stop)

/-- A shard of the state. -/
structure Field (σ μ : Type) where
  get : σ → μ
  put : μ → σ → σ

namespace Action

variable {σ K V : Type} [DecidableEq K]

/-- `require`: what the caller promises. -/
def require (p : Prop) [Decidable p] : Action σ Unit :=
  if p then pure () else throw .notEnabled

/-- `assert`: a safety condition of the transition. -/
def assert (p : Prop) [Decidable p] : Action σ Unit :=
  if p then pure () else throw .violated

/-- `remove f -= [k => let v]`. -/
def remove (f : Field σ (FMap K V)) (k : K) : Action σ V := fun s =>
  match (f.get s).lookup k with
  | some v => .ok (v, f.put ((f.get s).erase k) s)
  | none => .error .notEnabled

/-- `have f >= [k => let v]`. -/
def holds (f : Field σ (FMap K V)) (k : K) : Action σ V := fun s =>
  match (f.get s).lookup k with
  | some v => .ok (v, s)
  | none => .error .notEnabled

/-- `add f += [k => v]`, and `deposit f += [k => v]`: the key must be new. -/
def add (f : Field σ (FMap K V)) (k : K) (v : V) : Action σ Unit := fun s =>
  if k ∈ f.get s then .error .violated else .ok ((), f.put ((f.get s).insert k v) s)

/-- `add f += (m)`, and `deposit f += (m)`: all keys must be new. -/
def addAll (f : Field σ (FMap K V)) (m : FMap K V) : Action σ Unit := fun s =>
  if Disjoint m.keys (f.get s).keys then .ok ((), f.put (m ∪ f.get s) s) else .error .violated

/-- `remove f -= (m)`. -/
def removeAll [DecidableEq V] (f : Field σ (FMap K V)) (m : FMap K V) : Action σ Unit := fun s =>
  if ∀ k ∈ m.keys, (f.get s).lookup k = m.lookup k
  then .ok ((), f.put (FMap.removeKeys (f.get s) m.keys) s)
  else .error .notEnabled

/-- `withdraw f -= (m)`: the deposits must be there. -/
def withdrawAll [DecidableEq V] (f : Field σ (FMap K V)) (m : FMap K V) : Action σ Unit := fun s =>
  if ∀ k ∈ m.keys, (f.get s).lookup k = m.lookup k
  then .ok ((), f.put (FMap.removeKeys (f.get s) m.keys) s)
  else .error .violated

/-- `guard f >= [k => v]`: the deposit is there. -/
def guarded [DecidableEq V] (f : Field σ (FMap K V)) (k : K) (v : V) : Action σ Unit := fun s =>
  if (f.get s).lookup k = some v then .ok ((), s) else .error .violated

/-- `require m.dom().contains(k); let v = m[k]`, of a map that is part of a token. -/
def entry (m : FMap K V) (k : K) : Action σ V := fun s =>
  match m.lookup k with
  | some v => .ok (v, s)
  | none => .error .notEnabled

/-- `birds_eye let v = f.index(k)`: the key must be there. -/
def index (f : Field σ (FMap K V)) (k : K) : Action σ V := fun s =>
  match (f.get s).lookup k with
  | some v => .ok (v, s)
  | none => .error .violated

/-- The state before the transition. -/
def pre : Action σ σ := fun s => .ok (s, s)

/-- A shard that is no map: replaced. -/
def replace {μ : Type} (f : Field σ μ) (m : μ) : Action σ Unit := fun s => .ok ((), f.put m s)

end Action

/-! ### What an action ensures -/

/-- The action is not violated at `s`, and where it goes through, `Q` holds of its result. -/
def Ensures {σ α : Type} (m : Action σ α) (s : σ) (Q : α → σ → Prop) : Prop :=
  match m s with
  | .ok (a, t) => Q a t
  | .error .notEnabled => True
  | .error .violated => False

namespace Ensures

variable {σ α β K V : Type} [DecidableEq K] {s : σ} {Q : α → σ → Prop} {R : β → σ → Prop}
  {k : K} {v : V} {m : FMap K V} {f : Field σ (FMap K V)} {U : Unit → σ → Prop}

theorem not_violated {c : Action σ α} (ensures : Ensures c s Q) : c s ≠ .error .violated := by
  intro violated
  rw [Ensures, violated] at ensures
  exact ensures

theorem of_ok {c : Action σ α} {a : α} {t : σ} (ensures : Ensures c s Q) (ran : c s = .ok (a, t)) :
    Q a t := by
  rw [Ensures, ran] at ensures
  exact ensures

theorem mono {c : Action σ α} {Q' : α → σ → Prop} (ensures : Ensures c s Q)
    (weaker : ∀ a t, Q a t → Q' a t) : Ensures c s Q' := by
  unfold Ensures at ensures ⊢
  cases ran : c s with
  | ok result =>
      rw [ran] at ensures
      exact weaker _ _ ensures
  | error stop =>
      rw [ran] at ensures
      cases stop with
      | notEnabled => exact trivial
      | violated => exact ensures

/-- What follows an action starts where the action ends. -/
theorem bind {c : Action σ α} {d : α → Action σ β}
    (first : Ensures c s fun a t => Ensures (d a) t R) : Ensures (c >>= d) s R := by
  unfold Ensures at first ⊢
  have run : (c >>= d) s = (c s >>= fun r => d r.1 r.2) := rfl
  rw [run]
  cases ran : c s with
  | ok result =>
      rw [ran] at first
      exact first
  | error stop =>
      rw [ran] at first
      cases stop with
      | notEnabled => exact trivial
      | violated => exact first

theorem require {p : Prop} [Decidable p] (post : p → U () s) : Ensures (Action.require p) s U := by
  unfold Action.require
  by_cases holds : p
  · rw [if_pos holds]
    exact post holds
  · rw [if_neg holds]
    exact trivial

theorem assert {p : Prop} [Decidable p] (holds : p) (post : U () s) :
    Ensures (Action.assert p) s U := by
  rw [Action.assert, if_pos holds]
  exact post

theorem remove {R : V → σ → Prop}
    (post : ∀ v, (f.get s).lookup k = some v → R v (f.put ((f.get s).erase k) s)) :
    Ensures (Action.remove f k) s R := by
  unfold Ensures Action.remove
  cases found : (f.get s).lookup k with
  | none => exact trivial
  | some v => exact post v found

theorem holds {R : V → σ → Prop} (post : ∀ v, (f.get s).lookup k = some v → R v s) :
    Ensures (Action.holds f k) s R := by
  unfold Ensures Action.holds
  cases found : (f.get s).lookup k with
  | none => exact trivial
  | some v => exact post v found

theorem add (fresh : (f.get s).lookup k = none) (post : U () (f.put ((f.get s).insert k v) s)) :
    Ensures (Action.add f k v) s U := by
  unfold Ensures Action.add
  rw [if_neg (Finmap.lookup_eq_none.mp fresh)]
  exact post

theorem addAll (fresh : ∀ k w, m.lookup k = some w → (f.get s).lookup k = none)
    (post : U () (f.put (m ∪ f.get s) s)) : Ensures (Action.addAll f m) s U := by
  unfold Ensures Action.addAll
  have apart : Disjoint m.keys (f.get s).keys := by
    refine Finset.disjoint_left.mpr fun k new old => ?_
    obtain ⟨w, found⟩ := Finmap.mem_iff.mp (Finmap.mem_keys.mp new)
    exact Finmap.lookup_eq_none.mp (fresh k w found) (Finmap.mem_keys.mp old)
  rw [if_pos apart]
  exact post

/-- The maps with these keys agree where the first is defined. -/
theorem covers_iff {m n : FMap K V} :
    (∀ k ∈ m.keys, n.lookup k = m.lookup k) ↔ ∀ k w, m.lookup k = some w → n.lookup k = some w := by
  constructor
  · intro agree k w found
    rw [agree k (Finmap.mem_keys.mpr (Finmap.mem_of_lookup_eq_some found)), found]
  · intro covers k inside
    obtain ⟨w, found⟩ := Finmap.mem_iff.mp (Finmap.mem_keys.mp inside)
    rw [covers k w found, found]

theorem removeAll [DecidableEq V]
    (post : (∀ k w, m.lookup k = some w → (f.get s).lookup k = some w) →
      U () (f.put (FMap.removeKeys (f.get s) m.keys) s)) : Ensures (Action.removeAll f m) s U := by
  unfold Ensures Action.removeAll
  by_cases covers : ∀ k ∈ m.keys, (f.get s).lookup k = m.lookup k
  · rw [if_pos covers]
    exact post (covers_iff.mp covers)
  · rw [if_neg covers]
    exact trivial

theorem withdrawAll [DecidableEq V]
    (deposited : ∀ k w, m.lookup k = some w → (f.get s).lookup k = some w)
    (post : U () (f.put (FMap.removeKeys (f.get s) m.keys) s)) :
    Ensures (Action.withdrawAll f m) s U := by
  unfold Ensures Action.withdrawAll
  rw [if_pos (covers_iff.mpr deposited)]
  exact post

theorem guarded [DecidableEq V] (deposited : (f.get s).lookup k = some v) (post : U () s) :
    Ensures (Action.guarded f k v) s U := by
  unfold Ensures Action.guarded
  rw [if_pos deposited]
  exact post

theorem entry {R : V → σ → Prop} (post : ∀ v, m.lookup k = some v → R v s) :
    Ensures (Action.entry m k) s R := by
  unfold Ensures Action.entry
  cases found : m.lookup k with
  | none => exact trivial
  | some v => exact post v found

theorem index {R : V → σ → Prop} (found : (f.get s).lookup k = some v) (post : R v s) :
    Ensures (Action.index f k) s R := by
  unfold Ensures Action.index
  rw [found]
  exact post

theorem pre {R : σ → σ → Prop} (post : R s s) : Ensures Action.pre s R := post

theorem replace {μ : Type} {g : Field σ μ} {x : μ} (post : U () (g.put x s)) :
    Ensures (Action.replace g x) s U := post

end Ensures

end Library
