/-
**Committing and decommitting parts of a segment.**

`commit_segment.rs`: the mask of a byte range, the change of a range's protection together with the
two masks of the segment, and the delayed decommit.
-/

import VerusMimalloc.Model.OsMemory

namespace VerusMimalloc

/-- `segment_commit_mask`: the start and length of the rounded range, and its mask. -/
def segmentCommitMask (segment : Nat) (conservative : Bool) (p size : Nat) (cm : CommitMask) :
    Nat × Nat × CommitMask :=
  if size = 0 ∨ size > segmentSize then (0, 0, cm)
  else if p ≥ segment + segmentSize then (0, 0, cm)
  else
    let segstart := sliceSize
    let segsize := segmentSize
    let pstart := p - segment
    let start := if conservative then alignUp pstart commitSize else alignDown pstart commitSize
    let stop :=
      if conservative then alignDown (pstart + size) commitSize
      else alignUp (pstart + size) commitSize
    let start := if pstart ≥ segstart ∧ start < segstart then segstart else start
    let stop := if stop > segsize then segsize else stop
    let startP := segment + start
    let fullSize := if stop > start then stop - start else 0
    if fullSize = 0 then (startP, fullSize, cm)
    else (startP, fullSize, cm.create (start / commitSize) (fullSize / commitSize))

/-- The part of `segment_commitx` that changes the protection and the commit mask. -/
def segmentCommitxProtect (l : Local) (segment : Nat) (commit : Bool) (start fullSize : Nat)
    (mask : CommitMask) : Bool × Local :=
  if commit && !(l.segs segment).commitMask.allSet mask then
    let (success, l) := osCommit l start fullSize
    if !success then (false, l)
    else (true, l.modifySeg segment fun m => { m with commitMask := m.commitMask.set mask })
  else if !commit && (l.segs segment).commitMask.anySet mask then
    let l := if (l.segs segment).allowDecommit then (osDecommit l start fullSize).2 else l
    (true, l.modifySeg segment fun m => { m with commitMask := m.commitMask.clear mask })
  else (true, l)

/-- `segment_commitx`. -/
def segmentCommitx (l : Local) (segment : Nat) (commit : Bool) (p size : Nat) : Bool × Local :=
  let (start, fullSize, mask) := segmentCommitMask segment (!commit) p size .empty
  if mask.isEmpty || fullSize == 0 then (true, l)
  else
    let (success, l) := segmentCommitxProtect l segment commit start fullSize mask
    if !success then (false, l)
    else
      let l :=
        if commit && (l.segs segment).decommitMask.anySet mask then
          let (now, l) := clockNow l
          l.modifySeg segment fun m =>
            { m with decommitExpire := wrappingAdd64 now optionDecommitDelay }
        else l
      (true, l.modifySeg segment fun m => { m with decommitMask := m.decommitMask.clear mask })

/-- `segment_ensure_committed`. -/
def segmentEnsureCommitted (l : Local) (segment p size : Nat) : Bool × Local :=
  if (l.segs segment).commitMask.isFull && (l.segs segment).decommitMask.isEmpty then (true, l)
  else segmentCommitx l segment true p size

/-- The loop of `segment_delayed_decommit`; every round clears a run of the mask. -/
def segmentDelayedDecommitLoop (segment : Nat) : Nat → Local → Nat → Local
  | 0, l, _ => l
  | rounds + 1, l, idx =>
      let (nextIdx, count) := (l.segs segment).decommitMask.nextRun idx
      if count = 0 then l
      else
        let p := segment + nextIdx * commitSize
        let size := count * commitSize
        segmentDelayedDecommitLoop segment rounds (segmentCommitx l segment false p size).2 nextIdx

/-- `segment_delayed_decommit`. -/
def segmentDelayedDecommit (l : Local) (segment : Nat) (force : Bool) : Local :=
  if !(l.segs segment).allowDecommit || (l.segs segment).decommitMask.isEmpty then l
  else
    let (now, l) := clockNow l
    if !force && decide (now < (l.segs segment).decommitExpire) then l
    else segmentDelayedDecommitLoop segment (commitMaskBits + 1) l 0

/-- The part of `segment_perhaps_decommit` that looks at the clock. -/
def segmentPerhapsDecommitTimer (l : Local) (segment : Nat) : Local :=
  let (now, l) := clockNow l
  let expire := (l.segs segment).decommitExpire
  if expire = 0 then
    l.modifySeg segment fun m =>
      { m with decommitExpire := wrappingAdd64 now optionDecommitDelay }
  else if expire ≤ now then
    if wrappingAdd64 expire optionDecommitExtendDelay ≤ now then
      segmentDelayedDecommit l segment true
    else
      l.modifySeg segment fun m =>
        { m with decommitExpire := wrappingAdd64 now optionDecommitExtendDelay }
  else
    l.modifySeg segment fun m =>
      { m with decommitExpire := wrappingAdd64 m.decommitExpire optionDecommitExtendDelay }

/-- `segment_perhaps_decommit`. -/
def segmentPerhapsDecommit (l : Local) (segment p size : Nat) : Except Abort Local :=
  if !(l.segs segment).allowDecommit then .ok l
  else if optionDecommitDelay = 0 then .error .todo
  else
    let (_, fullSize, mask) := segmentCommitMask segment true p size .empty
    if mask.isEmpty || fullSize == 0 then .ok l
    else
      let cmask := (l.segs segment).commitMask.createIntersect mask
      let l := l.modifySeg segment fun m => { m with decommitMask := m.decommitMask.set cmask }
      .ok (segmentPerhapsDecommitTimer l segment)

end VerusMimalloc
