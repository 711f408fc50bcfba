/-
**Commit and decommit.**

`CommitOk l busy` is the agreement between the masks of all segments and the operating system: what
is to be decommitted is committed, the slices that `busy` holds of are committed and not to be
decommitted, and committed slices may be read and written.

* `segmentCommitx_spec`: what one change of a range of slices does;
* `CommitOk.ensureCommitted`, `CommitOk.perhapsDecommit`: the two entry points keep the agreement;
* `CommitFrame`: what all of them leave alone.
-/

import VerusMimalloc.Model.Segment

namespace VerusMimalloc

/-! ### What the functions leave alone -/

/-- Two segment headers differ at most in their masks and in the time of the next decommit. -/
structure SameSegment (p q : SegmentHeader) : Prop where
  memIsPinned : q.memIsPinned = p.memIsPinned
  allowDecommit : q.allowDecommit = p.allowDecommit
  abandoned : q.abandoned = p.abandoned
  used : q.used = p.used
  kind : q.kind = p.kind
  threadId : q.threadId = p.threadId

theorem SameSegment.refl (p : SegmentHeader) : SameSegment p p := ⟨rfl, rfl, rfl, rfl, rfl, rfl⟩

theorem SameSegment.trans {p q r : SegmentHeader} (first : SameSegment p q)
    (second : SameSegment q r) : SameSegment p r :=
  ⟨second.1.trans first.1, second.2.trans first.2, second.3.trans first.3, second.4.trans first.4,
    second.5.trans first.5, second.6.trans first.6⟩

/-- The frame of the functions on the operating system: only masks, clock and protection change. -/
structure CommitFrame (l l' : Local) : Prop where
  pages : l'.pages = l.pages
  segments : l'.segments = l.segments
  heap : l'.heap = l.heap
  tld : l'.tld = l.tld
  taken : l'.taken = l.taken
  held : l'.held = l.held
  oracle : l'.os.oracle = l.os.oracle
  calls : l.os.calls ≤ l'.os.calls
  segs : ∀ r, SameSegment (l.segs r) (l'.segs r)

namespace CommitFrame

variable {l l' l'' : Local}

theorem refl (l : Local) : CommitFrame l l :=
  ⟨rfl, rfl, rfl, rfl, rfl, rfl, rfl, Nat.le_refl _, fun _ => .refl _⟩

theorem trans (first : CommitFrame l l') (second : CommitFrame l' l'') : CommitFrame l l'' :=
  ⟨second.pages.trans first.pages, second.segments.trans first.segments,
    second.heap.trans first.heap, second.tld.trans first.tld, second.taken.trans first.taken,
    second.held.trans first.held, second.oracle.trans first.oracle,
    first.calls.trans second.calls, fun r => (first.segs r).trans (second.segs r)⟩

theorem tick (l : Local) : CommitFrame l l.tick :=
  ⟨rfl, rfl, rfl, rfl, rfl, rfl, rfl, Nat.le_succ _, fun _ => .refl _⟩

theorem setAccessible (l : Local) (start len : Nat) (readWrite : Bool) :
    CommitFrame l (l.setAccessible start len readWrite) :=
  ⟨rfl, rfl, rfl, rfl, rfl, rfl, rfl, Nat.le_refl _, fun _ => .refl _⟩

theorem protect (l : Local) (start len : Nat) (readWrite : Bool) :
    CommitFrame l (l.protect start len readWrite) :=
  ⟨rfl, rfl, rfl, rfl, rfl, rfl, rfl, Nat.le_refl _, fun _ => .refl _⟩

theorem modifySeg (l : Local) (s : Nat) {f : SegmentHeader → SegmentHeader}
    (same : ∀ m, SameSegment m (f m)) : CommitFrame l (l.modifySeg s f) := by
  refine ⟨rfl, rfl, rfl, rfl, rfl, rfl, rfl, Nat.le_refl _, fun r => ?_⟩
  rw [Local.modifySeg_segs]
  split
  · exact same _
  · exact .refl _

end CommitFrame

/-! ### One change -/

section Range

variable {l : Local} {s k n : Nat}

/-- Slice `j` is in the range of `n` slices from `k` on. -/
def inRange (k n j : Nat) : Bool := decide (k ≤ j ∧ j < k + n)

/-- A byte of the slices of the range. -/
def InBytes (s k n byte : Nat) : Prop := s + k * 65536 ≤ byte ∧ byte < s + (k + n) * 65536

/-- A range of whole slices is not rounded. -/
theorem segmentCommitMask_whole (conservative : Bool) {a b : Nat} (starts : 65536 ∣ a)
    (whole : 65536 ∣ b) (positive : 0 < b) (inside : a + b ≤ 33554432) :
    segmentCommitMask s conservative (s + a) b .empty =
      (s + a, b, CommitMask.empty.create (a / 65536) (b / 65536)) := by
  have stops : 65536 ∣ a + b := Nat.dvd_add starts whole
  have upStart := alignUp_of_dvd (by decide) (by decide) (by omega) starts
  have downStart := alignDown_of_dvd (by omega) (by decide) (by decide) starts
  have upStop := alignUp_of_dvd (by decide) (by decide) (by omega) stops
  have downStop := alignDown_of_dvd (by omega) (by decide) (by decide) stops
  have first : ¬(a ≥ 65536 ∧ a < 65536) := fun both => absurd both.1 (Nat.not_le.mpr both.2)
  simp only [segmentCommitMask, segmentSize, sliceSize, commitSize, Nat.add_sub_cancel_left, upStart,
    downStart, upStop, downStop, ite_self]
  rw [if_neg (by omega), if_neg (by omega), if_neg first, if_neg (by omega : ¬a + b > 33554432),
    if_pos (by omega : a + b > a), Nat.add_sub_cancel_left, if_neg (by omega : ¬b = 0)]

/-- **The mask of a range of slices**, in both modes. -/
theorem segmentCommitMask_slices (conservative : Bool) (positive : 0 < n) (inside : k + n ≤ 512) :
    segmentCommitMask s conservative (s + k * 65536) (n * 65536) .empty =
      (s + k * 65536, n * 65536, CommitMask.empty.create k n) := by
  rw [segmentCommitMask_whole conservative (Nat.dvd_mul_left _ _) (Nat.dvd_mul_left _ _) (by omega)
    (by omega), Nat.mul_div_cancel k (by decide), Nat.mul_div_cancel n (by decide)]

/-- A range of whole pages of the operating system is not rounded. -/
theorem osCommitx_whole (l : Local) (commit conservative : Bool) {a b : Nat} (starts : 4096 ∣ a)
    (whole : 4096 ∣ b) (nonzero : 0 < a) (positive : 0 < b) (bound : a + b + 4096 ≤ 2 ^ 64) :
    osCommitx l a b commit conservative = (true, l.protect a b commit) := by
  have stops : 4096 ∣ a + b := Nat.dvd_add starts whole
  have upStart := alignUp_of_dvd (by decide) (by decide) (by omega) starts
  have downStart := alignDown_of_dvd (by omega) (by decide) (by decide) starts
  have upStop := alignUp_of_dvd (by decide) (by decide) (by omega) stops
  have downStop := alignDown_of_dvd (by omega) (by decide) (by decide) stops
  have area : osPageAlignAreax conservative a b = (a, b) := by
    simp only [osPageAlignAreax, osPageSize, upStart, downStart, upStop, downStop, ite_self]
    rw [if_neg (by omega), Nat.add_sub_cancel_left, if_neg (by omega)]
  simp only [osCommitx, area]
  rw [if_neg (by omega)]

/-- A range of slices is made of whole pages of the operating system. -/
theorem osCommitx_slices (l : Local) (commit conservative : Bool) (aligned : segmentSize ∣ s)
    (nonzero : 0 < s) (bound : s + segmentSize < 2 ^ 64) (positive : 0 < n) (inside : k + n ≤ 512) :
    osCommitx l (s + k * 65536) (n * 65536) commit conservative =
      (true, l.protect (s + k * 65536) (n * 65536) commit) := by
  rw [segmentSize] at aligned bound
  exact osCommitx_whole l commit conservative (by omega) (by omega) (by omega) (by omega) (by omega)

/-- **One change of a range of slices**: the masks, the other segments, the protection. -/
structure Commitx (l l' : Local) (s k n : Nat) (commit : Bool) : Prop where
  frame : CommitFrame l l'
  others : ∀ r, r ≠ s → l'.segs r = l.segs r
  decommitMask : ∀ j, (l'.segs s).decommitMask.bit j =
    ((l.segs s).decommitMask.bit j && !inRange k n j)
  commitMask : ∀ j, (l'.segs s).commitMask.bit j =
    if commit then (l.segs s).commitMask.bit j || inRange k n j
    else (l.segs s).commitMask.bit j && !inRange k n j
  outside : ∀ byte, ¬InBytes s k n byte → l'.os.accessible byte = l.os.accessible byte
  inside : commit = true → (∀ byte, InBytes s k n byte → l'.os.accessible byte = true) ∨
    ((∀ j, inRange k n j = true → (l.segs s).commitMask.bit j = true) ∧
      l'.os.accessible = l.os.accessible)

theorem create_nonempty (positive : 0 < n) (bound : k + n ≤ 512) :
    (CommitMask.empty.create k n).isEmpty = false := by
  rw [Bool.eq_false_iff]
  intro empty
  have := CommitMask.isEmpty_iff.mp empty k
  rw [CommitMask.bit_create bound] at this
  simp at this
  omega

section Protect

variable {start fullSize : Nat} {mask : CommitMask}

/-- What is committed already is not committed again. -/
theorem segmentCommitxProtect_all (all : (l.segs s).commitMask.allSet mask = true) :
    segmentCommitxProtect l s true start fullSize mask = (true, l) := by
  simp only [segmentCommitxProtect, all, Bool.not_true, Bool.and_false, Bool.false_eq_true, if_false,
    Bool.false_and]

theorem segmentCommitxProtect_commit {l₁ : Local} (missing : (l.segs s).commitMask.allSet mask = false)
    (committed : osCommit l start fullSize = (true, l₁)) :
    segmentCommitxProtect l s true start fullSize mask =
      (true, l₁.modifySeg s fun m => { m with commitMask := m.commitMask.set mask }) := by
  simp only [segmentCommitxProtect, missing, committed, Bool.not_false, Bool.and_true, if_true,
    Bool.not_true, Bool.false_eq_true, if_false]

/-- What is not committed is not decommitted. -/
theorem segmentCommitxProtect_none (none : (l.segs s).commitMask.anySet mask = false) :
    segmentCommitxProtect l s false start fullSize mask = (true, l) := by
  simp only [segmentCommitxProtect, none, Bool.false_and, Bool.and_false, Bool.false_eq_true, if_false]

theorem segmentCommitxProtect_decommit (any : (l.segs s).commitMask.anySet mask = true) :
    segmentCommitxProtect l s false start fullSize mask =
      (true, (if (l.segs s).allowDecommit then (osDecommit l start fullSize).2 else l).modifySeg s
        fun m => { m with commitMask := m.commitMask.clear mask }) := by
  simp only [segmentCommitxProtect, any, Bool.false_and, Bool.not_false, Bool.true_and, if_true,
    Bool.false_eq_true, if_false]

end Protect

/-- The protection and the commit mask after `segment_commitx`. -/
theorem segmentCommitxProtect_spec (commit : Bool) (aligned : segmentSize ∣ s) (nonzero : 0 < s)
    (bound : s + segmentSize < 2 ^ 64) (positive : 0 < n) (inside : k + n ≤ 512) :
    ∃ l', segmentCommitxProtect l s commit (s + k * 65536) (n * 65536)
        (CommitMask.empty.create k n) = (true, l') ∧
      CommitFrame l l' ∧ (∀ r, r ≠ s → l'.segs r = l.segs r) ∧
      (l'.segs s).decommitMask = (l.segs s).decommitMask ∧
      (∀ j, (l'.segs s).commitMask.bit j =
        if commit then (l.segs s).commitMask.bit j || inRange k n j
        else (l.segs s).commitMask.bit j && !inRange k n j) ∧
      (∀ byte, ¬InBytes s k n byte → l'.os.accessible byte = l.os.accessible byte) ∧
      (commit = true → (∀ byte, InBytes s k n byte → l'.os.accessible byte = true) ∨
        ((∀ j, inRange k n j = true → (l.segs s).commitMask.bit j = true) ∧
          l'.os.accessible = l.os.accessible)) := by
  have bits : ∀ j, (CommitMask.empty.create k n).bit j = inRange k n j :=
    CommitMask.bit_create inside
  have bytes : ∀ byte, (s + k * 65536 ≤ byte ∧ byte < s + k * 65536 + n * 65536) ↔
      InBytes s k n byte := by
    intro byte
    simp only [InBytes]
    omega
  cases commit with
  | true =>
      cases all : (l.segs s).commitMask.allSet (CommitMask.empty.create k n) with
      | true =>
          have already := CommitMask.allSet_iff.mp all
          simp only [bits] at already
          refine ⟨l, segmentCommitxProtect_all all, .refl l, fun _ _ => rfl, rfl, fun j => ?_,
            fun _ _ => rfl, fun _ => .inr ⟨already, rfl⟩⟩
          rw [if_pos rfl]
          cases here : inRange k n j with
          | false => rw [Bool.or_false]
          | true => rw [already j here, Bool.or_true]
      | false =>
          have protect : osCommit l (s + k * 65536) (n * 65536) =
              (true, l.protect (s + k * 65536) (n * 65536) true) :=
            osCommitx_slices l true false aligned nonzero bound positive inside
          refine ⟨_, segmentCommitxProtect_commit all protect, (CommitFrame.protect _ _ _ _).trans
            (.modifySeg _ _ fun m => ⟨rfl, rfl, rfl, rfl, rfl, rfl⟩), fun r differs => ?_, ?_,
            fun j => ?_, fun byte away => ?_, fun _ => .inl fun byte here => ?_⟩
          · rw [Local.modifySeg_segs, if_neg differs]
            rfl
          · rw [Local.modifySeg_segs, if_pos rfl]
            rfl
          · rw [Local.modifySeg_segs, if_pos rfl, if_pos rfl, CommitMask.bit_set, bits]
            rfl
          · simp only [Local.modifySeg_os, Local.protect_accessible]
            rw [if_neg fun both => away ((bytes byte).mp both)]
          · simp only [Local.modifySeg_os, Local.protect_accessible]
            rw [if_pos ((bytes byte).mpr here)]
  | false =>
      cases any : (l.segs s).commitMask.anySet (CommitMask.empty.create k n) with
      | false =>
          have none : ∀ j, inRange k n j = true → (l.segs s).commitMask.bit j = false := by
            intro j here
            by_contra set
            have : (l.segs s).commitMask.anySet (CommitMask.empty.create k n) = true :=
              CommitMask.anySet_iff.mpr ⟨j, by simpa using set, by rw [bits]; exact here⟩
            rw [any] at this
            exact Bool.noConfusion this
          refine ⟨l, segmentCommitxProtect_none any, .refl l, fun _ _ => rfl, rfl, fun j => ?_,
            fun _ _ => rfl, fun impossible => absurd impossible (by decide)⟩
          rw [if_neg (by decide)]
          cases here : inRange k n j with
          | false => rw [Bool.not_false, Bool.and_true]
          | true => rw [none j here, Bool.false_and]
      | true =>
          have protection : ∃ l₁, (if (l.segs s).allowDecommit = true
              then (osDecommit l (s + k * 65536) (n * 65536)).2 else l) = l₁ ∧ CommitFrame l l₁ ∧
              l₁.segs = l.segs ∧
              ∀ byte, ¬InBytes s k n byte → l₁.os.accessible byte = l.os.accessible byte := by
            by_cases allowed : (l.segs s).allowDecommit = true
            · have protect : osDecommit l (s + k * 65536) (n * 65536) =
                  (true, l.protect (s + k * 65536) (n * 65536) false) :=
                osCommitx_slices l false true aligned nonzero bound positive inside
              refine ⟨l.protect (s + k * 65536) (n * 65536) false, ?_, .protect _ _ _ _,
                Local.protect_segs, fun byte away => ?_⟩
              · rw [if_pos allowed, protect]
              simp only [Local.protect_accessible]
              rw [if_neg fun both => away ((bytes byte).mp both)]
            · rw [if_neg allowed]
              exact ⟨l, rfl, .refl l, rfl, fun _ _ => rfl⟩
          obtain ⟨l₁, same, frame, segs, away⟩ := protection
          have result : segmentCommitxProtect l s false (s + k * 65536) (n * 65536) _ = _ :=
            segmentCommitxProtect_decommit any
          rw [same] at result
          refine ⟨_, result, frame.trans (.modifySeg _ _ fun m => ⟨rfl, rfl, rfl, rfl, rfl, rfl⟩),
            fun r differs => ?_, ?_, fun j => ?_, away,
            fun impossible => absurd impossible (by decide)⟩
          · rw [Local.modifySeg_segs, if_neg differs, segs]
          · rw [Local.modifySeg_segs, if_pos rfl, segs]
          · rw [Local.modifySeg_segs, if_pos rfl, if_neg (by decide), CommitMask.bit_clear, bits, segs]

/-- The time of the next decommit, set anew when committed slices leave the mask. -/
def commitTimer (l : Local) (s : Nat) (commit : Bool) (mask : CommitMask) : Local :=
  if commit && (l.segs s).decommitMask.anySet mask then
    (clockNow l).2.modifySeg s fun m =>
      { m with decommitExpire := wrappingAdd64 (clockNow l).1 optionDecommitDelay }
  else l

/-- The steps of `segment_commitx` on a range that is not empty. -/
theorem segmentCommitx_eq {l₁ : Local} {commit : Bool} {p size start fullSize : Nat}
    {mask : CommitMask} (range : segmentCommitMask s (!commit) p size .empty = (start, fullSize, mask))
    (some : mask.isEmpty = false) (positive : fullSize ≠ 0)
    (protect : segmentCommitxProtect l s commit start fullSize mask = (true, l₁)) :
    segmentCommitx l s commit p size = (true, (commitTimer l₁ s commit mask).modifySeg s fun m =>
      { m with decommitMask := m.decommitMask.clear mask }) := by
  have full : (mask.isEmpty || fullSize == 0) = false := by
    rw [some, Bool.false_or, beq_eq_false_iff_ne]
    exact positive
  simp only [segmentCommitx, range, full, protect, Bool.not_true, Bool.false_eq_true, if_false]
  rfl

/-- **`segment_commitx`** on a range of slices. -/
theorem segmentCommitx_spec (commit : Bool) (aligned : segmentSize ∣ s) (nonzero : 0 < s)
    (bound : s + segmentSize < 2 ^ 64) (positive : 0 < n) (inside : k + n ≤ 512) :
    ∃ l', segmentCommitx l s commit (s + k * 65536) (n * 65536) = (true, l') ∧
      Commitx l l' s k n commit := by
  have bits : ∀ j, (CommitMask.empty.create k n).bit j = inRange k n j :=
    CommitMask.bit_create inside
  obtain ⟨l₁, outcome, frame, others, decommit, committed, outside, bytes⟩ :=
    segmentCommitxProtect_spec (l := l) commit aligned nonzero bound positive inside
  have timer : ∃ l₂, commitTimer l₁ s commit (CommitMask.empty.create k n) = l₂ ∧
      CommitFrame l₁ l₂ ∧ (∀ r, r ≠ s → l₂.segs r = l₁.segs r) ∧
      (l₂.segs s).decommitMask = (l₁.segs s).decommitMask ∧
      (l₂.segs s).commitMask = (l₁.segs s).commitMask ∧
      l₂.os.accessible = l₁.os.accessible := by
    unfold commitTimer
    split
    · refine ⟨_, rfl, (CommitFrame.tick _).trans (.modifySeg _ _ fun m =>
        ⟨rfl, rfl, rfl, rfl, rfl, rfl⟩), fun r differs => ?_, ?_, ?_, rfl⟩
      · rw [Local.modifySeg_segs, if_neg differs]
        rfl
      · rw [Local.modifySeg_segs, if_pos rfl]
        rfl
      · rw [Local.modifySeg_segs, if_pos rfl]
        rfl
    · exact ⟨l₁, rfl, .refl _, fun _ _ => rfl, rfl, rfl, rfl⟩
  obtain ⟨l₂, same, frame₂, others₂, decommit₂, committed₂, accessible₂⟩ := timer
  refine ⟨l₂.modifySeg s fun m =>
    { m with decommitMask := m.decommitMask.clear (CommitMask.empty.create k n) }, ?_, ?_⟩
  · rw [segmentCommitx_eq (segmentCommitMask_slices _ positive inside)
      (create_nonempty positive inside) (by omega) outcome, same]
  · refine ⟨(frame.trans frame₂).trans (.modifySeg _ _ fun m => ⟨rfl, rfl, rfl, rfl, rfl, rfl⟩),
      fun r differs => ?_, fun j => ?_, fun j => ?_, fun byte away => ?_, fun yes => ?_⟩
    · rw [Local.modifySeg_segs, if_neg differs, others₂ r differs, others r differs]
    · rw [Local.modifySeg_segs, if_pos rfl, CommitMask.bit_clear, bits, decommit₂, decommit]
    · rw [Local.modifySeg_segs, if_pos rfl]
      show (l₂.segs s).commitMask.bit j = _
      rw [committed₂, committed]
    · rw [Local.modifySeg_os, accessible₂]
      exact outside byte away
    · rw [Local.modifySeg_os, accessible₂]
      exact bytes yes

end Range

/-! ### The agreement -/

/-- The masks and the operating system agree; `busy` slices are committed and stay so. -/
structure CommitOk (l : Local) (busy : Nat → Nat → Prop) : Prop where
  base : ∀ s ∈ l.segments, segmentSize ∣ s ∧ 0 < s ∧ s + segmentSize < 2 ^ 64
  subset : ∀ s ∈ l.segments, ∀ j, (l.segs s).decommitMask.bit j = true →
    (l.segs s).commitMask.bit j = true
  busy : ∀ s ∈ l.segments, ∀ j, busy s j →
    (l.segs s).commitMask.bit j = true ∧ (l.segs s).decommitMask.bit j = false
  accessible : ∀ s ∈ l.segments, ∀ j, (l.segs s).commitMask.bit j = true →
    ∀ byte, InBytes s j 1 byte → l.os.accessible byte = true

namespace CommitOk

variable {l l' : Local} {busy busy' : Nat → Nat → Prop} {s k n : Nat}

theorem mono (ok : CommitOk l busy)
    (fewer : ∀ s ∈ l.segments, ∀ j, busy' s j → (l.segs s).commitMask.bit j = true ∧
      (l.segs s).decommitMask.bit j = false) : CommitOk l busy' :=
  ⟨ok.base, ok.subset, fewer, ok.accessible⟩

/-- Only the masks and the protection matter. -/
theorem congr (ok : CommitOk l busy) (segments : l'.segments = l.segments)
    (decommit : ∀ s, (l'.segs s).decommitMask = (l.segs s).decommitMask)
    (commit : ∀ s, (l'.segs s).commitMask = (l.segs s).commitMask)
    (accessible : l'.os.accessible = l.os.accessible) : CommitOk l' busy := by
  constructor
  · rw [segments]
    exact ok.base
  · simp only [segments, decommit, commit]
    exact ok.subset
  · simp only [segments, decommit, commit]
    exact ok.busy
  · simp only [segments, commit, accessible]
    exact ok.accessible

/-- Bytes of a slice lie in the ranges of their own segment only. -/
theorem bytes_apart (ok : CommitOk l busy) {r j byte : Nat} (member : s ∈ l.segments)
    (other : r ∈ l.segments) (inside : k + n ≤ 512) (small : j < 512) (here : InBytes r j 1 byte)
    (there : InBytes s k n byte) : r = s ∧ inRange k n j = true := by
  obtain ⟨⟨a, rfl⟩, _⟩ := ok.base s member
  obtain ⟨⟨b, rfl⟩, _⟩ := ok.base r other
  simp only [InBytes, segmentSize] at *
  simp only [inRange, decide_eq_true_eq]
  omega

/-- **A change of a range** keeps the agreement, when a decommitted range is not busy. -/
theorem commitx {commit : Bool} (ok : CommitOk l busy) (member : s ∈ l.segments)
    (inside : k + n ≤ 512) (step : Commitx l l' s k n commit)
    (free : commit = false → ∀ j, inRange k n j = true → ¬busy s j) : CommitOk l' busy := by
  have segments := step.frame.segments
  constructor
  · rw [segments]
    exact ok.base
  · rw [segments]
    intro r rMember j set
    by_cases same : r = s
    · subst same
      rw [step.decommitMask, Bool.and_eq_true, Bool.not_eq_true'] at set
      have before := ok.subset r rMember j set.1
      rw [step.commitMask, before, set.2]
      cases commit <;> simp
    · rw [step.others r same] at set ⊢
      exact ok.subset r rMember j set
  · rw [segments]
    intro r rMember j isBusy
    obtain ⟨committed, kept⟩ := ok.busy r rMember j isBusy
    by_cases same : r = s
    · subst same
      rw [step.commitMask, step.decommitMask, committed, kept]
      cases commit with
      | true => simp
      | false =>
          have : inRange k n j = false := by
            rw [Bool.eq_false_iff]
            exact fun here => free rfl j here isBusy
          simp [this]
    · rw [step.others r same]
      exact ⟨committed, kept⟩
  · rw [segments]
    intro r rMember j set byte here
    have small : j < 512 := CommitMask.lt_of_bit set
    by_cases there : InBytes s k n byte
    · obtain ⟨rfl, ranged⟩ := ok.bytes_apart member rMember inside small here there
      rw [step.commitMask, ranged] at set
      cases commit with
      | false => simp at set
      | true =>
          rcases step.inside rfl with all | ⟨already, same⟩
          · exact all byte there
          · rw [same]
            exact ok.accessible r rMember j (already j ranged) byte here
    · rw [step.outside byte there]
      refine ok.accessible r rMember j ?_ byte here
      by_cases same : r = s
      · subst same
        have away : inRange k n j = false := by
          rw [Bool.eq_false_iff]
          intro ranged
          simp only [inRange, decide_eq_true_eq] at ranged
          simp only [InBytes] at here there
          omega
        rw [step.commitMask, away] at set
        cases commit <;> simpa using set
      · rw [step.others r same] at set
        exact set

/-- **`segment_ensure_committed`**: the range is committed and will not be decommitted. -/
theorem ensureCommitted (ok : CommitOk l busy) (member : s ∈ l.segments) (positive : 0 < n)
    (inside : k + n ≤ 512) :
    ∃ l', segmentEnsureCommitted l s (s + k * 65536) (n * 65536) = (true, l') ∧ CommitFrame l l' ∧
      CommitOk l' (fun r j => busy r j ∨ (r = s ∧ inRange k n j = true)) := by
  obtain ⟨aligned, nonzero, bound⟩ := ok.base s member
  unfold segmentEnsureCommitted
  by_cases done : ((l.segs s).commitMask.isFull && (l.segs s).decommitMask.isEmpty) = true
  · rw [if_pos done]
    rw [Bool.and_eq_true] at done
    refine ⟨l, rfl, .refl l, ok.mono fun r rMember j isBusy => ?_⟩
    rcases isBusy with isBusy | ⟨rfl, here⟩
    · exact ok.busy r rMember j isBusy
    · simp only [inRange, decide_eq_true_eq] at here
      exact ⟨CommitMask.isFull_iff.mp done.1 j (by omega), CommitMask.isEmpty_iff.mp done.2 j⟩
  · rw [if_neg done]
    obtain ⟨l', outcome, step⟩ := segmentCommitx_spec (l := l) true aligned nonzero bound positive inside
    refine ⟨l', outcome, step.frame, (ok.commitx member inside step (by simp)).mono ?_⟩
    intro r rMember j isBusy
    rcases isBusy with isBusy | ⟨rfl, here⟩
    · exact (ok.commitx member inside step (by simp)).busy r rMember j isBusy
    · rw [step.commitMask, step.decommitMask, here]
      simp

/-- The loop of `segment_delayed_decommit`: every run it clears is outside the busy slices. -/
theorem delayedDecommitLoop (rounds idx : Nat) (ok : CommitOk l busy)
    (member : s ∈ l.segments) :
    CommitFrame l (segmentDelayedDecommitLoop s rounds l idx) ∧
      CommitOk (segmentDelayedDecommitLoop s rounds l idx) busy := by
  induction rounds generalizing l idx with
  | zero => exact ⟨.refl l, ok⟩
  | succ rounds ih =>
      obtain ⟨aligned, nonzero, bound⟩ := ok.base s member
      simp only [segmentDelayedDecommitLoop]
      rcases (l.segs s).decommitMask.nextRun_spec idx with ⟨none, _⟩ | ⟨i, n, found, positive, _,
        inside, _, run, _⟩
      · rw [none]
        exact ⟨.refl l, ok⟩
      · rw [found]
        simp only
        rw [if_neg (by omega)]
        obtain ⟨l', outcome, step⟩ := segmentCommitx_spec (l := l) false aligned nonzero bound positive
          inside
        have kept : CommitOk l' busy := by
          refine ok.commitx member inside step fun _ j here isBusy => ?_
          simp only [inRange, decide_eq_true_eq] at here
          have := run j here.1 here.2
          rw [(ok.busy s member j isBusy).2] at this
          exact Bool.noConfusion this
        have member' : s ∈ l'.segments := by rw [step.frame.segments]; exact member
        simp only [commitSize, sliceSize, outcome]
        obtain ⟨frame, after⟩ := ih i kept member'
        exact ⟨step.frame.trans frame, after⟩

/-- Changes of the clock and of the time of the next decommit. -/
theorem timer {f : SegmentHeader → SegmentHeader} (ok : CommitOk l busy)
    (decommit : ∀ m, (f m).decommitMask = m.decommitMask)
    (commit : ∀ m, (f m).commitMask = m.commitMask) : CommitOk (l.tick.modifySeg s f) busy := by
  refine ok.congr rfl (fun r => ?_) (fun r => ?_) rfl
  · rw [Local.modifySeg_segs]
    split
    · exact decommit _
    · rfl
  · rw [Local.modifySeg_segs]
    split
    · exact commit _
    · rfl

theorem tick (ok : CommitOk l busy) : CommitOk l.tick busy :=
  ok.congr rfl (fun _ => rfl) (fun _ => rfl) rfl

/-- **`segment_delayed_decommit`**. -/
theorem delayedDecommit (force : Bool) (ok : CommitOk l busy) (member : s ∈ l.segments) :
    CommitFrame l (segmentDelayedDecommit l s force) ∧
      CommitOk (segmentDelayedDecommit l s force) busy := by
  obtain ⟨now, clock⟩ : ∃ now, clockNow l = (now, l.tick) := ⟨_, rfl⟩
  simp only [segmentDelayedDecommit, clock]
  by_cases nothing : (!(l.segs s).allowDecommit || (l.segs s).decommitMask.isEmpty) = true
  · simp only [if_pos nothing]
    exact ⟨.refl l, ok⟩
  · simp only [if_neg nothing]
    by_cases early : (!force && decide (now < (l.tick.segs s).decommitExpire)) = true
    · simp only [if_pos early]
      exact ⟨.tick l, ok.tick⟩
    · simp only [if_neg early]
      obtain ⟨frame, after⟩ := ok.tick.delayedDecommitLoop (commitMaskBits + 1) 0 member
      exact ⟨(CommitFrame.tick l).trans frame, after⟩

theorem perhapsDecommitTimer (ok : CommitOk l busy) (member : s ∈ l.segments) :
    CommitFrame l (segmentPerhapsDecommitTimer l s) ∧
      CommitOk (segmentPerhapsDecommitTimer l s) busy := by
  have written : ∀ f : SegmentHeader → SegmentHeader, (∀ m, SameSegment m (f m)) →
      (∀ m, (f m).decommitMask = m.decommitMask) → (∀ m, (f m).commitMask = m.commitMask) →
      CommitFrame l (l.tick.modifySeg s f) ∧ CommitOk (l.tick.modifySeg s f) busy :=
    fun f same decommit commit =>
      ⟨(CommitFrame.tick l).trans (.modifySeg _ _ same), ok.timer decommit commit⟩
  obtain ⟨now, clock⟩ : ∃ now, clockNow l = (now, l.tick) := ⟨_, rfl⟩
  simp only [segmentPerhapsDecommitTimer, clock]
  by_cases unset : (l.tick.segs s).decommitExpire = 0
  · simp only [if_pos unset]
    exact written _ (fun m => ⟨rfl, rfl, rfl, rfl, rfl, rfl⟩) (fun _ => rfl) fun _ => rfl
  · simp only [if_neg unset]
    by_cases due : (l.tick.segs s).decommitExpire ≤ now
    · simp only [if_pos due]
      by_cases overdue :
          wrappingAdd64 (l.tick.segs s).decommitExpire optionDecommitExtendDelay ≤ now
      · simp only [if_pos overdue]
        obtain ⟨frame, after⟩ := ok.tick.delayedDecommit true member
        exact ⟨(CommitFrame.tick l).trans frame, after⟩
      · simp only [if_neg overdue]
        exact written _ (fun m => ⟨rfl, rfl, rfl, rfl, rfl, rfl⟩) (fun _ => rfl) fun _ => rfl
    · simp only [if_neg due]
      exact written _ (fun m => ⟨rfl, rfl, rfl, rfl, rfl, rfl⟩) (fun _ => rfl) fun _ => rfl

/-- The steps of `segment_perhaps_decommit` on a range that is not empty. -/
theorem segmentPerhapsDecommit_eq {p size start fullSize : Nat} {mask : CommitMask}
    (allowed : (l.segs s).allowDecommit = true)
    (range : segmentCommitMask s true p size .empty = (start, fullSize, mask))
    (some : mask.isEmpty = false) (positive : fullSize ≠ 0) :
    segmentPerhapsDecommit l s p size = .ok (segmentPerhapsDecommitTimer (l.modifySeg s fun m =>
      { m with decommitMask := m.decommitMask.set ((l.segs s).commitMask.createIntersect mask) }) s) := by
  have full : (mask.isEmpty || fullSize == 0) = false := by
    rw [some, Bool.false_or, beq_eq_false_iff_ne]
    exact positive
  have delay : ¬optionDecommitDelay = 0 := by decide
  simp only [segmentPerhapsDecommit, allowed, range, full, Bool.not_true, Bool.false_eq_true, if_false,
    if_neg delay]

/-- **`segment_perhaps_decommit`** of slices that are not busy. -/
theorem perhapsDecommit (ok : CommitOk l busy) (member : s ∈ l.segments) (positive : 0 < n)
    (inside : k + n ≤ 512) (free : ∀ j, inRange k n j = true → ¬busy s j) :
    ∃ l', segmentPerhapsDecommit l s (s + k * 65536) (n * 65536) = .ok l' ∧ CommitFrame l l' ∧
      CommitOk l' busy := by
  cases allowed : (l.segs s).allowDecommit with
  | false =>
      refine ⟨l, ?_, .refl l, ok⟩
      rw [segmentPerhapsDecommit, allowed, Bool.not_false, if_pos rfl]
  | true =>
    have run := segmentPerhapsDecommit_eq allowed (segmentCommitMask_slices true positive inside)
      (create_nonempty positive inside) (by omega)
    have bits : ∀ j, (CommitMask.empty.create k n).bit j = inRange k n j :=
      CommitMask.bit_create inside
    have queued : CommitOk (l.modifySeg s fun m => { m with
        decommitMask := m.decommitMask.set
          ((l.segs s).commitMask.createIntersect (CommitMask.empty.create k n)) }) busy := by
      constructor
      · exact ok.base
      · intro r rMember j set
        rw [Local.modifySeg_segs] at set ⊢
        by_cases same : r = s
        · rw [if_pos same] at set ⊢
          simp only [CommitMask.bit_set, CommitMask.bit_createIntersect, Bool.or_eq_true,
            Bool.and_eq_true] at set ⊢
          rcases set with set | ⟨set, _⟩
          · exact ok.subset r rMember j set
          · exact same ▸ set
        · rw [if_neg same] at set ⊢
          exact ok.subset r rMember j set
      · intro r rMember j isBusy
        obtain ⟨committed, kept⟩ := ok.busy r rMember j isBusy
        rw [Local.modifySeg_segs]
        by_cases same : r = s
        · rw [if_pos same]
          subst same
          have away : inRange k n j = false := by
            rw [Bool.eq_false_iff]
            exact fun here => free j here isBusy
          simp [committed, kept, bits, away]
        · rw [if_neg same]
          exact ⟨committed, kept⟩
      · intro r rMember j set
        rw [Local.modifySeg_segs] at set
        refine ok.accessible r rMember j ?_
        by_cases same : r = s
        · rw [if_pos same] at set
          exact set
        · rw [if_neg same] at set
          exact set
    obtain ⟨frame, after⟩ := queued.perhapsDecommitTimer member
    refine ⟨_, run, CommitFrame.trans (.modifySeg l s fun m => ?_) frame, after⟩
    exact ⟨rfl, rfl, rfl, rfl, rfl, rfl⟩

end CommitOk

end VerusMimalloc
