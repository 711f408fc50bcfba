/-
**Address hints.**

`os_get_aligned_hint` of `os_alloc.rs`, called by any number of threads. The calls share the word
`ALIGNED_BASE`; each step is one access to it. The state also records what the calls observed and
returned.
-/

import VerusMimalloc.Model.Layout

namespace VerusMimalloc

@[simp] def hintBase : Nat := 2199023255552
@[simp] def hintMax : Nat := 32985348833280

/-- Where a call of `os_get_aligned_hint` stands. -/
inductive HintPc where
  | add
  | cas (hint : Nat)
  | addAgain
  deriving DecidableEq

/-- A call in flight; `size` is the size asked for. -/
structure HintCall where
  tryAlignment : Nat
  size : Nat
  pc : HintPc
  deriving DecidableEq

/-- A call that has returned. -/
structure HintReturn where
  tryAlignment : Nat
  size : Nat
  hint : Nat
  deriving DecidableEq

structure HintState where
  alignedBase : Nat
  calls : List HintCall
  returned : List HintReturn
  observed : List Nat

namespace HintState

def initial : HintState := { alignedBase := 0, calls := [], returned := [], observed := [] }

variable (s : HintState)

/-- `aligned_base_add`: the value before, and the state after. -/
def alignedBaseAdd (size : Nat) : Nat × HintState :=
  (s.alignedBase, { s with
    alignedBase := (s.alignedBase + size) % 2 ^ 64
    observed := s.alignedBase :: s.observed })

/-- `aligned_base_cas`. -/
def alignedBaseCas (expected new : Nat) : HintState :=
  if s.alignedBase = expected then { s with alignedBase := new } else s

/-- The checks before the first access. -/
def enter (tryAlignment size : Nat) : HintState :=
  if tryAlignment ≤ 1 ∨ tryAlignment > segmentSize ∨ alignUp size segmentSize > 1024 * 1024 * 1024 then
    { s with returned := { tryAlignment, size, hint := 0 } :: s.returned }
  else { s with calls := { tryAlignment, size, pc := .add } :: s.calls }

/-- The end of a call that holds `hint`, with the other calls in flight. -/
def finish (others : List HintCall) (c : HintCall) (hint : Nat) : HintState :=
  { s with
    calls := others
    returned :=
      { tryAlignment := c.tryAlignment
        size := c.size
        hint := if hint % c.tryAlignment ≠ 0 then 0 else hint } :: s.returned }

/-- The first `fetch_add`, and the check whether the base is in use. -/
def firstAdd (before after : List HintCall) (c : HintCall) : HintState :=
  let (hint, s) := s.alignedBaseAdd (alignUp c.size segmentSize)
  if hint = 0 ∨ hint > hintMax then
    { s with calls := before ++ { c with pc := .cas hint } :: after }
  else s.finish (before ++ after) c hint

/-- The compare-exchange that starts a new area. -/
def reset (before after : List HintCall) (c : HintCall) (hint : Nat) : HintState :=
  let iinit := hintBase
  let expected := (hint + alignUp c.size segmentSize) % 2 ^ 64
  let s := s.alignedBaseCas expected iinit
  { s with calls := before ++ { c with pc := .addAgain } :: after }

/-- The second `fetch_add`. -/
def secondAdd (before after : List HintCall) (c : HintCall) : HintState :=
  let (hint, s) := s.alignedBaseAdd (alignUp c.size segmentSize)
  s.finish (before ++ after) c hint

end HintState

/-- A step of one call; a call asks for at most the size of a segment. -/
inductive HintStep (s : HintState) : HintState → Prop where
  | enter {tryAlignment size : Nat} (small : size ≤ segmentSize) :
      HintStep s (s.enter tryAlignment size)
  | add {before after : List HintCall} {c : HintCall} (flight : s.calls = before ++ c :: after)
      (pc : c.pc = .add) : HintStep s (s.firstAdd before after c)
  | cas {before after : List HintCall} {c : HintCall} {hint : Nat}
      (flight : s.calls = before ++ c :: after) (pc : c.pc = .cas hint) :
      HintStep s (s.reset before after c hint)
  | addAgain {before after : List HintCall} {c : HintCall} (flight : s.calls = before ++ c :: after)
      (pc : c.pc = .addAgain) : HintStep s (s.secondAdd before after c)

end VerusMimalloc
