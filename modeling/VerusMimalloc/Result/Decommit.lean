/-
**The delay of decommits.**

Span frees and span allocations of one segment, in any order, under a clock that never goes back.

* `Decommits`: a call takes a slice from the operating system;
* `DelayKept`: what is put into an empty mask at reading `t` stays until `t + 25`;
* `Timely`: the calls at which the time kept beside the mask is not a stale one;
* `decommit_delay`: a run of timely calls keeps the delay.
-/

import VerusMimalloc.Proof.Runs

namespace VerusMimalloc

variable {l l' : Local} {s j : Nat}

/-! ### The calls -/

/-- A range of slices of a segment. -/
structure SliceRange where
  first : Nat
  count : Nat
  positive : 0 < count
  inside : first + count ≤ 512

/-- The calls of span frees and span allocations on the masks of a segment. -/
inductive SpanCall where
  | free (range : SliceRange)
  | alloc (range : SliceRange)

/-- One call on segment `s`. -/
def SpanCall.run (s : Nat) (l : Local) : SpanCall → Except Abort Local
  | .free range => segmentPerhapsDecommit l s (s + range.first * 65536) (range.count * 65536)
  | .alloc range =>
      .ok (segmentEnsureCommitted l s (s + range.first * 65536) (range.count * 65536)).2

/-- Calls in their order. -/
def runCalls (s : Nat) (l : Local) (calls : List SpanCall) : Except Abort Local :=
  calls.foldlM (fun l call => call.run s l) l

/-- The next clock reading. -/
def reading (l : Local) : Int := l.os.oracle.clock l.os.calls

/-- The slices that a free puts into the decommit mask. -/
def putMask (s : Nat) (l : Local) (range : SliceRange) : CommitMask :=
  if (l.segs s).allowDecommit then
    (l.segs s).commitMask.createIntersect (CommitMask.empty.create range.first range.count)
  else .empty

/-- A byte of slice `j` was accessible and no longer is. -/
def Decommits (s : Nat) (l l' : Local) (j : Nat) : Prop :=
  ∃ byte, InBytes s j 1 byte ∧ l.os.accessible byte = true ∧ l'.os.accessible byte = false

/-- **The delay**: a slice put into an empty mask is decommitted neither by the same call nor by a
later one that reads the clock less than `optionDecommitDelay` after it. -/
def DelayKept (s : Nat) (l : Local) (calls : List SpanCall) : Prop :=
  ∀ before range later l₀ l₁ j, calls = before ++ .free range :: later →
    runCalls s l before = .ok l₀ → SpanCall.run s l₀ (.free range) = .ok l₁ →
    (l₀.segs s).decommitMask.isEmpty = true → (putMask s l₀ range).bit j = true →
    reading l₀ + optionDecommitDelay < 2 ^ 63 →
    ¬Decommits s l₀ l₁ j ∧
      ∀ between again rest l₂ l₃, later = between ++ .free again :: rest →
        runCalls s l₁ between = .ok l₂ → SpanCall.run s l₂ (.free again) = .ok l₃ →
        reading l₂ < reading l₀ + optionDecommitDelay → ¬Decommits s l₂ l₃ j

/-- A call that finds the time of the next decommit in order: no sum with it wraps, and when the call
is the first to put slices into the mask, no earlier time is left. -/
def SpanCall.Timely (s : Nat) (l : Local) : SpanCall → Prop
  | .free range =>
      reading l + optionDecommitDelay < 2 ^ 63 ∧
        (l.segs s).decommitExpire + optionDecommitExtendDelay < 2 ^ 63 ∧
        ((l.segs s).decommitMask.isEmpty = true → (putMask s l range).isEmpty = false →
          (l.segs s).decommitExpire = 0 ∨ reading l + optionDecommitDelay ≤
            (l.segs s).decommitExpire + optionDecommitExtendDelay + optionDecommitExtendDelay)
  | .alloc _ => reading l + optionDecommitDelay < 2 ^ 63

instance (call : SpanCall) : Decidable (call.Timely s l) := by
  cases call <;> dsimp only [SpanCall.Timely] <;> infer_instance

/-- Every call of a run finds the time in order. -/
def TimelyCalls (s : Nat) : Local → List SpanCall → Prop
  | _, [] => True
  | l, call :: calls =>
      call.Timely s l ∧
        match call.run s l with
        | .ok l' => TimelyCalls s l' calls
        | .error _ => True

instance decidableTimelyCalls (s : Nat) :
    (l : Local) → (calls : List SpanCall) → Decidable (TimelyCalls s l calls)
  | _, [] => isTrue trivial
  | l, call :: calls =>
      match result : call.run s l with
      | .ok l' =>
          have := decidableTimelyCalls s l' calls
          decidable_of_iff (call.Timely s l ∧ TimelyCalls s l' calls) (by rw [TimelyCalls, result])
      | .error _ => decidable_of_iff (call.Timely s l) (by simp only [TimelyCalls, result, and_true])

/-! ### What a call does to the time of the next decommit -/

theorem wrappingAdd64_eq {x y : Int} (lower : -2 ^ 63 ≤ x + y) (upper : x + y < 2 ^ 63) :
    wrappingAdd64 x y = x + y :=
  Int.bmod_eq_of_le (by omega) (by omega)

/-- The protection, the masks of no segment, and nothing else. -/
theorem osCommitx_keeps (l : Local) (addr size : Nat) (commit conservative : Bool) :
    reading (osCommitx l addr size commit conservative).2 = reading l ∧
      (osCommitx l addr size commit conservative).2.segs = l.segs := by
  unfold osCommitx
  dsimp only
  split
  · exact ⟨rfl, rfl⟩
  · exact ⟨rfl, rfl⟩

theorem segmentCommitxProtect_keeps (l : Local) (s start fullSize : Nat) (commit : Bool)
    (mask : CommitMask) :
    reading (segmentCommitxProtect l s commit start fullSize mask).2 = reading l ∧
      ((segmentCommitxProtect l s commit start fullSize mask).2.segs s).decommitExpire =
        (l.segs s).decommitExpire := by
  have committed := osCommitx_keeps l start fullSize true false
  have decommitted := osCommitx_keeps l start fullSize false true
  unfold segmentCommitxProtect
  by_cases adds : (commit && !(l.segs s).commitMask.allSet mask) = true
  · rw [if_pos adds]
    obtain ⟨success, l₁, result⟩ : ∃ success l₁, osCommit l start fullSize = (success, l₁) :=
      ⟨_, _, rfl⟩
    rw [osCommit] at result
    rw [result] at committed
    simp only [osCommit, result]
    cases success with
    | false => exact ⟨committed.1, by rw [← committed.2]; rfl⟩
    | true =>
        simp only [Bool.not_true, Bool.false_eq_true, if_false]
        exact ⟨committed.1, by rw [Local.modifySeg_segs, if_pos rfl, committed.2]⟩
  · rw [if_neg adds]
    by_cases removes : (!commit && (l.segs s).commitMask.anySet mask) = true
    · rw [if_pos removes]
      dsimp only
      rw [Local.modifySeg_segs, if_pos rfl]
      by_cases allowed : (l.segs s).allowDecommit = true
      · rw [if_pos allowed]
        exact ⟨decommitted.1, by rw [osDecommit, decommitted.2]⟩
      · rw [if_neg allowed]
        exact ⟨rfl, rfl⟩
    · rw [if_neg removes]
      exact ⟨rfl, rfl⟩

/-- An allocation leaves the time of the next decommit or sets it anew. -/
theorem segmentCommitx_expire (l : Local) (s p size : Nat) (commit : Bool) :
    ((segmentCommitx l s commit p size).2.segs s).decommitExpire = (l.segs s).decommitExpire ∨
      ((segmentCommitx l s commit p size).2.segs s).decommitExpire =
        wrappingAdd64 (reading l) optionDecommitDelay := by
  obtain ⟨start, fullSize, mask, ranged⟩ : ∃ start fullSize mask,
      segmentCommitMask s (!commit) p size .empty = (start, fullSize, mask) := ⟨_, _, _, rfl⟩
  obtain ⟨success, l₁, result⟩ : ∃ success l₁,
      segmentCommitxProtect l s commit start fullSize mask = (success, l₁) := ⟨_, _, rfl⟩
  have keeps := segmentCommitxProtect_keeps l s start fullSize commit mask
  rw [result] at keeps
  simp only [segmentCommitx, ranged, result]
  by_cases nothing : (mask.isEmpty || fullSize == 0) = true
  · rw [if_pos nothing]
    exact .inl rfl
  · rw [if_neg nothing]
    cases success with
    | false => exact .inl keeps.2
    | true =>
        simp only [Bool.not_true, Bool.false_eq_true, if_false]
        rw [Local.modifySeg_segs, if_pos rfl]
        by_cases armed : (commit && (l₁.segs s).decommitMask.anySet mask) = true
        · rw [if_pos armed]
          right
          show ((Local.modifySeg _ s _).segs s).decommitExpire = _
          rw [Local.modifySeg_segs, if_pos rfl, ← keeps.1]
          rfl
        · rw [if_neg armed]
          exact .inl keeps.2

/-- **The timer**, when no pass is due. -/
theorem segmentPerhapsDecommitTimer_early
    (early : (l.segs s).decommitExpire = 0 ∨ reading l <
      wrappingAdd64 (l.segs s).decommitExpire optionDecommitExtendDelay) :
    (segmentPerhapsDecommitTimer l s).os.accessible = l.os.accessible ∧
      ((segmentPerhapsDecommitTimer l s).segs s).decommitExpire =
        if (l.segs s).decommitExpire = 0 then wrappingAdd64 (reading l) optionDecommitDelay
        else if (l.segs s).decommitExpire ≤ reading l then
          wrappingAdd64 (reading l) optionDecommitExtendDelay
        else wrappingAdd64 (l.segs s).decommitExpire optionDecommitExtendDelay := by
  have segs : l.tick.segs = l.segs := rfl
  have clock : clockNow l = (reading l, l.tick) := rfl
  simp only [segmentPerhapsDecommitTimer, clock, segs]
  by_cases unset : (l.segs s).decommitExpire = 0
  · simp only [if_pos unset]
    exact ⟨rfl, by rw [Local.modifySeg_segs, if_pos rfl]⟩
  · simp only [if_neg unset]
    by_cases due : (l.segs s).decommitExpire ≤ reading l
    · have soon := early.resolve_left unset
      simp only [if_pos due, if_neg (not_le.mpr soon)]
      exact ⟨rfl, by rw [Local.modifySeg_segs, if_pos rfl]⟩
    · simp only [if_neg due]
      exact ⟨rfl, by rw [Local.modifySeg_segs, if_pos rfl]; rfl⟩

/-- The state in which `segment_perhaps_decommit` looks at the clock. -/
def queued (s : Nat) (l : Local) (range : SliceRange) : Local :=
  l.modifySeg s fun m => { m with decommitMask := m.decommitMask.set (putMask s l range) }

/-- **A free**: slices are put into the mask, then comes the timer. -/
theorem free_run (l : Local) (s : Nat) (range : SliceRange) :
    SpanCall.run s l (.free range) = .ok (if (l.segs s).allowDecommit then
      segmentPerhapsDecommitTimer (queued s l range) s else l) := by
  have positive := range.positive
  show segmentPerhapsDecommit l s _ _ = _
  by_cases allowed : (l.segs s).allowDecommit = true
  · rw [CommitOk.segmentPerhapsDecommit_eq allowed
      (segmentCommitMask_slices true range.positive range.inside)
      (create_nonempty range.positive range.inside) (by omega), if_pos allowed, queued, putMask,
      if_pos allowed]
  · rw [segmentPerhapsDecommit, if_pos (by simp [allowed]), if_neg allowed]

/-! ### Runs -/

/-- No slice is in use, as far as the calls go. -/
def NoneBusy (_ _ : Nat) : Prop := False

/-- The clock never goes back, and its readings are 64-bit integers. -/
structure ClockOk (l : Local) : Prop where
  forward : ∀ i j, i ≤ j → l.os.oracle.clock i ≤ l.os.oracle.clock j
  lower : ∀ i, -2 ^ 63 ≤ l.os.oracle.clock i
  upper : ∀ i, l.os.oracle.clock i < 2 ^ 63

theorem ClockOk.congr (clock : ClockOk l) (frame : CommitFrame l l') : ClockOk l' := by
  constructor
  · rw [frame.oracle]
    exact clock.forward
  · rw [frame.oracle]
    exact clock.lower
  · rw [frame.oracle]
    exact clock.upper

theorem ClockOk.reading_le (clock : ClockOk l) (frame : CommitFrame l l') :
    reading l ≤ reading l' := by
  unfold reading
  rw [frame.oracle]
  exact clock.forward _ _ frame.calls

/-- Every call returns. -/
theorem SpanCall.run_ok (call : SpanCall) (ok : CommitOk l NoneBusy) (member : s ∈ l.segments) :
    ∃ l', call.run s l = .ok l' ∧ CommitFrame l l' ∧ CommitOk l' NoneBusy := by
  cases call with
  | free range => exact ok.perhapsDecommit member range.positive range.inside fun _ _ => id
  | alloc range =>
      obtain ⟨l', result, frame, after⟩ := ok.ensureCommitted member range.positive range.inside
      refine ⟨l', ?_, frame, after.mono fun _ _ _ => False.elim⟩
      rw [SpanCall.run, result]

/-- What a run of calls on segment `s` keeps. -/
structure CallsOk (s : Nat) (l : Local) : Prop where
  masks : CommitOk l NoneBusy
  member : s ∈ l.segments
  clock : ClockOk l

theorem CallsOk.run {call : SpanCall} (ok : CallsOk s l) (result : call.run s l = .ok l') :
    CommitFrame l l' ∧ CallsOk s l' := by
  obtain ⟨l₁, result₁, frame, masks⟩ := call.run_ok ok.masks ok.member
  rw [result₁] at result
  cases result
  exact ⟨frame, masks, frame.segments ▸ ok.member, ok.clock.congr frame⟩

theorem runCalls_cons {call : SpanCall} {calls : List SpanCall} :
    runCalls s l (call :: calls) = .ok l' ↔
      ∃ l₁, call.run s l = .ok l₁ ∧ runCalls s l₁ calls = .ok l' := by
  unfold runCalls
  rw [List.foldlM_cons]
  cases call.run s l with
  | error e => simp [bind, Except.bind]
  | ok l₁ => simp [bind, Except.bind]

theorem CallsOk.calls {calls : List SpanCall} (ok : CallsOk s l)
    (result : runCalls s l calls = .ok l') : CommitFrame l l' ∧ CallsOk s l' := by
  induction calls generalizing l with
  | nil =>
      cases result
      exact ⟨.refl l', ok⟩
  | cons call calls ih =>
      obtain ⟨l₁, first, rest⟩ := runCalls_cons.mp result
      obtain ⟨frame₁, ok₁⟩ := ok.run first
      obtain ⟨frame₂, ok₂⟩ := ih ok₁ rest
      exact ⟨frame₁.trans frame₂, ok₂⟩

/-- **The invariant of the delay**: the next pass is due `optionDecommitDelay` after `t`. -/
def Waits (s : Nat) (l : Local) (t : Int) : Prop :=
  t + optionDecommitDelay ≤ (l.segs s).decommitExpire + optionDecommitExtendDelay

/-- A timely free that meets no due pass decommits nothing, and the waiting goes on. -/
theorem free_waits {range : SliceRange} {t : Int} (ok : CallsOk s l)
    (timely : (SpanCall.free range).Timely s l) (past : t ≤ reading l)
    (early : (l.segs s).decommitExpire = 0 ∨
      t + optionDecommitDelay ≤ (l.segs s).decommitExpire + 2 * optionDecommitExtendDelay ∧
        reading l < (l.segs s).decommitExpire + optionDecommitExtendDelay)
    (result : SpanCall.run s l (.free range) = .ok l') :
    l'.os.accessible = l.os.accessible ∧ ((l.segs s).allowDecommit = true → Waits s l' t) := by
  obtain ⟨far, room, _⟩ := timely
  have lower : -2 ^ 63 ≤ reading l := ok.clock.lower _
  rw [free_run] at result
  simp only [optionDecommitDelay, optionDecommitExtendDelay, Waits] at *
  by_cases allowed : (l.segs s).allowDecommit = true
  · rw [if_pos allowed] at result
    cases result
    have expire : ((queued s l range).segs s).decommitExpire = (l.segs s).decommitExpire := by
      rw [queued, Local.modifySeg_segs, if_pos rfl]
    have clock : reading (queued s l range) = reading l := rfl
    have soon : ((queued s l range).segs s).decommitExpire = 0 ∨ reading (queued s l range) <
        wrappingAdd64 ((queued s l range).segs s).decommitExpire optionDecommitExtendDelay := by
      rw [expire, clock]
      refine early.imp_right fun before => ?_
      simp only [optionDecommitExtendDelay]
      rw [wrappingAdd64_eq (by omega) (by omega)]
      exact before.2
    obtain ⟨accessible, after⟩ := segmentPerhapsDecommitTimer_early soon
    refine ⟨accessible, fun _ => ?_⟩
    rw [after, expire, clock]
    simp only [optionDecommitDelay, optionDecommitExtendDelay]
    by_cases unset : (l.segs s).decommitExpire = 0
    · rw [if_pos unset, wrappingAdd64_eq (by omega) (by omega)]
      omega
    · rw [if_neg unset]
      have before := early.resolve_left unset
      by_cases due : (l.segs s).decommitExpire ≤ reading l
      · rw [if_pos due, wrappingAdd64_eq (by omega) (by omega)]
        omega
      · rw [if_neg due, wrappingAdd64_eq (by omega) (by omega)]
        omega
  · rw [if_neg allowed] at result
    cases result
    exact ⟨rfl, fun yes => absurd yes allowed⟩

theorem alloc_waits {range : SliceRange} {t : Int} (ok : CallsOk s l)
    (timely : (SpanCall.alloc range).Timely s l) (past : t ≤ reading l) (waits : Waits s l t)
    (result : SpanCall.run s l (.alloc range) = .ok l') : Waits s l' t := by
  have lower : -2 ^ 63 ≤ reading l := ok.clock.lower _
  have expire := segmentCommitx_expire l s (s + range.first * 65536) (range.count * 65536) true
  cases result
  unfold segmentEnsureCommitted
  split
  · exact waits
  · simp only [SpanCall.Timely, Waits, optionDecommitDelay, optionDecommitExtendDelay] at *
    rcases expire with same | anew
    · rw [same]
      exact waits
    · rw [anew, wrappingAdd64_eq (by omega) (by omega)]
      omega

theorem TimelyCalls.tail {call : SpanCall} {calls : List SpanCall}
    (timely : TimelyCalls s l (call :: calls)) (result : call.run s l = .ok l') :
    TimelyCalls s l' calls := by
  have rest := timely.2
  rw [result] at rest
  exact rest

theorem TimelyCalls.after {before calls : List SpanCall}
    (timely : TimelyCalls s l (before ++ calls)) (reached : runCalls s l before = .ok l') :
    TimelyCalls s l' calls := by
  induction before generalizing l with
  | nil =>
      cases reached
      exact timely
  | cons call before ih =>
      obtain ⟨l₁, first, reached⟩ := runCalls_cons.mp reached
      exact ih (timely.tail first) reached

/-- A later free that reads the clock before the delay is over finds no due pass. -/
theorem later_waits {between rest : List SpanCall} {again : SliceRange} {t : Int}
    {l₂ l₃ : Local} (ok : CallsOk s l) (past : t ≤ reading l)
    (allowed : (l.segs s).allowDecommit = true) (waits : Waits s l t)
    (timely : TimelyCalls s l (between ++ .free again :: rest))
    (reached : runCalls s l between = .ok l₂)
    (result : SpanCall.run s l₂ (.free again) = .ok l₃)
    (soon : reading l₂ < t + optionDecommitDelay) : l₃.os.accessible = l₂.os.accessible := by
  have near : ∀ l : Local, Waits s l t → reading l < t + optionDecommitDelay →
      t + optionDecommitDelay ≤ (l.segs s).decommitExpire + 2 * optionDecommitExtendDelay ∧
        reading l < (l.segs s).decommitExpire + optionDecommitExtendDelay := by
    intro l waits soon
    simp only [Waits, optionDecommitDelay, optionDecommitExtendDelay] at *
    omega
  induction between generalizing l with
  | nil =>
      cases reached
      exact (free_waits ok timely.1 past (.inr (near l₂ waits soon)) result).1
  | cons call between ih =>
      obtain ⟨l₁, first, reached⟩ := runCalls_cons.mp reached
      obtain ⟨frame, ok₁⟩ := ok.run first
      obtain ⟨frame₂, _⟩ := ok₁.calls reached
      have forward := ok.clock.reading_le frame
      have forward₂ := ok₁.clock.reading_le frame₂
      refine ih ok₁ (by omega) ((frame.segs s).allowDecommit ▸ allowed) ?_ (timely.tail first) reached
      cases call with
      | free range =>
          exact (free_waits ok timely.1 past (.inr (near l waits (by omega))) first).2 allowed
      | alloc range => exact alloc_waits ok timely.1 past waits first

/-- **The delay of decommits**: in a run whose calls all find the time in order, what is put into an
empty mask stays for `optionDecommitDelay`, by the same call and by all later ones. -/
theorem decommit_delay {calls : List SpanCall} {busy : Nat → Nat → Prop} (masks : CommitOk l busy)
    (member : s ∈ l.segments) (clock : ClockOk l) (timely : TimelyCalls s l calls) :
    DelayKept s l calls := by
  have start : CallsOk s l := ⟨masks.mono fun _ _ _ => False.elim, member, clock⟩
  rintro before range later l₀ l₁ j rfl reached result empty put _
  have ok := (start.calls reached).2
  have rest := timely.after reached
  have allowed : (l₀.segs s).allowDecommit = true := by
    by_contra never
    rw [putMask, if_neg never, CommitMask.bit_empty] at put
    exact Bool.noConfusion put
  have nonempty : (putMask s l₀ range).isEmpty = false := by
    rw [Bool.eq_false_iff]
    intro nothing
    rw [CommitMask.isEmpty_iff.mp nothing j] at put
    exact Bool.noConfusion put
  have early : (l₀.segs s).decommitExpire = 0 ∨
      reading l₀ + optionDecommitDelay ≤
        (l₀.segs s).decommitExpire + 2 * optionDecommitExtendDelay ∧
      reading l₀ < (l₀.segs s).decommitExpire + optionDecommitExtendDelay := by
    refine (rest.1.2.2 empty nonempty).imp_right fun ahead => ?_
    simp only [optionDecommitDelay, optionDecommitExtendDelay] at ahead ⊢
    omega
  obtain ⟨accessible, waits⟩ := free_waits ok rest.1 le_rfl early result
  obtain ⟨frame, ok₁⟩ := ok.run result
  constructor
  · rintro ⟨byte, _, before, after⟩
    rw [accessible, before] at after
    exact Bool.noConfusion after
  · rintro between again more l₂ l₃ rfl reached₂ result₂ soon ⟨byte, _, before, after⟩
    have same := later_waits ok₁ (ok.clock.reading_le frame)
      ((frame.segs s).allowDecommit ▸ allowed) (waits allowed) (rest.tail result) reached₂ result₂ soon
    rw [same, before] at after
    exact Bool.noConfusion after

/-! ### Two runs -/

/-- An owner under a clock that advances by `pace` at every reading, for a thousand readings. -/
def Local.withPace (l : Local) (pace : Nat) : Local :=
  { l with os := { l.os with
      oracle := { l.os.oracle with clock := fun i => (min pace 1000 * min i 1000 : Nat) } } }

/-- The heap that has served one request, under such a clock. -/
def ticking (pace : Nat) : Local := plainServed.st.loc.withPace pace

theorem ticking_clock (pace : Nat) : ClockOk (ticking pace) := by
  constructor
  · intro i j before
    show ((min pace 1000 * min i 1000 : Nat) : Int) ≤ (min pace 1000 * min j 1000 : Nat)
    exact Int.ofNat_le.mpr (Nat.mul_le_mul_left _ (by omega))
  · intro i
    exact le_trans (by decide) (Int.natCast_nonneg _)
  · intro i
    show ((min pace 1000 * min i 1000 : Nat) : Int) < 2 ^ 63
    have : min pace 1000 * min i 1000 ≤ 1000 * 1000 := Nat.mul_le_mul (by omega) (by omega)
    omega

theorem CommitOk.withPace {busy : Nat → Nat → Prop} (ok : CommitOk l busy) (pace : Nat) :
    CommitOk (l.withPace pace) busy :=
  ok.congr rfl (fun _ => rfl) (fun _ => rfl) rfl

theorem ticking_masks (pace : Nat) : CommitOk (ticking pace) NoneBusy := by
  obtain ⟨spans, _, wf⟩ := plainServed_reachable.sysInv.inv.wf
  have served : CommitOk plainServed.st.loc NoneBusy :=
    wf.segments.span.commit.mono fun _ _ _ => False.elim
  exact served.withPace pace

def oneSlice (k : Nat) (inside : k < 512) : SliceRange := ⟨k, 1, by decide, inside⟩

theorem decommit_delay_ticking : DelayKept (5 * 2 ^ 27) (ticking 1)
    [.free (oneSlice 100 (by decide)), .free (oneSlice 200 (by decide)),
      .alloc (oneSlice 100 (by decide)), .free (oneSlice 100 (by decide))] :=
  decommit_delay (ticking_masks 1) (by decide +kernel) (ticking_clock 1) (by decide +kernel)

/-- Two states of a run on the segment of `ticking 30`, before and after its last call. -/
def lastCall (before : List SpanCall) (call : SpanCall) : Option (Local × Local) :=
  match runCalls (5 * 2 ^ 27) (ticking 30) before with
  | .ok l₀ =>
      match call.run (5 * 2 ^ 27) l₀ with
      | .ok l₁ => some (l₀, l₁)
      | .error _ => none
  | .error _ => none

/-- **A stale time**: the second free decommits what the first has put into the mask, and the third
decommits its own slice at once. -/
theorem stale_timer : CommitOk (ticking 30) NoneBusy ∧ ClockOk (ticking 30) ∧
    ¬DelayKept (5 * 2 ^ 27) (ticking 30) [.free (oneSlice 100 (by decide)),
      .free (oneSlice 200 (by decide)), .free (oneSlice 300 (by decide))] := by
  refine ⟨ticking_masks 30, ticking_clock 30, fun kept => ?_⟩
  have decommitted : (lastCall [.free (oneSlice 100 (by decide)), .free (oneSlice 200 (by decide))]
      (.free (oneSlice 300 (by decide)))).any (fun both =>
        (both.1.segs (5 * 2 ^ 27)).decommitMask.isEmpty &&
        (putMask (5 * 2 ^ 27) both.1 (oneSlice 300 (by decide))).bit 300 &&
        decide (reading both.1 + optionDecommitDelay < 2 ^ 63) &&
        both.1.os.accessible (5 * 2 ^ 27 + 300 * 65536) &&
        !both.2.os.accessible (5 * 2 ^ 27 + 300 * 65536)) = true := by decide +kernel
  unfold lastCall at decommitted
  cases reached : runCalls (5 * 2 ^ 27) (ticking 30)
      [.free (oneSlice 100 (by decide)), .free (oneSlice 200 (by decide))] with
  | error e =>
      rw [reached] at decommitted
      cases decommitted
  | ok l₀ =>
      rw [reached] at decommitted
      simp only at decommitted
      cases result : SpanCall.run (5 * 2 ^ 27) l₀ (.free (oneSlice 300 (by decide))) with
      | error e =>
          rw [result] at decommitted
          cases decommitted
      | ok l₁ =>
          rw [result] at decommitted
          simp only [Option.any_some, Bool.and_eq_true, decide_eq_true_eq, Bool.not_eq_true']
            at decommitted
          obtain ⟨⟨⟨⟨empty, put⟩, far⟩, before⟩, after⟩ := decommitted
          exact (kept _ _ [] l₀ l₁ 300 rfl reached result empty put far).1
            ⟨_, ⟨le_rfl, by decide⟩, before, after⟩

end VerusMimalloc
