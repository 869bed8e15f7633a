import CudaqQec.Basic
import CudaqQec.Lib.Frames
import CudaqQec.Lib.Reassembly

/-!
# Staged outputs

An output whose contributors report exactly which rounds each delta commits. Their deltas come in the
order in which windows finish; a stager folds them into its frame in the order of the rounds, and keeps
those behind a gap in slots of its own. Deltas of the whole shot are held until the shot ends.

* `OutputStager.stageDelta`, `OutputStager.foldWholeShot`: what one delta and the end of the shot do.
* `refreshStaged`: the progress of one such output, as `refresh_streaming_progress` has it.
-/

namespace CudaqQec

/-! ## The stager -/

/-- A delta and the rounds it commits: `committed_coverage` with the bits. -/
abbrev Delta := Piece (List UInt8)

structure OutputStager where
  frontier : Nat
  begin : Nat
  generation : Nat
  bits : List UInt8
  whole : List UInt8
  hasWhole : Bool
  intervals : List Delta
  pending : List Nat
  spare : List Nat
  capacity : Nat

namespace OutputStager

open Frames

def intervalAt (intervals : List Delta) (slot : Nat) : Delta := intervals.getD slot ⟨0, 0, []⟩

/-- Fold the waiting intervals that follow on the frontier, and say whether there was one. -/
@[grind =] def advance (s : OutputStager) (advanced : Bool) : List Nat → OutputStager × Bool
  | [] => ({ s with pending := [] }, advanced)
  | next :: rest =>
    let interval := intervalAt s.intervals next
    if interval.begin = s.frontier then
      advance { s with
        bits := xorInto s.bits interval.load
        frontier := interval.stop
        spare := s.spare ++ [next] } true rest
    else ({ s with pending := next :: rest }, advanced)

/-- `stage_delta` of the output called `name`. -/
def stageDelta (name : String) (s : OutputStager) (d : Delta) : Except Fault OutputStager :=
  if d.stop = wholeShot then .ok { s with whole := xorInto s.whole d.load, hasWhole := true }
  else if d.stop ≤ d.begin then .ok { s with bits := xorInto s.bits d.load }
  else if d.begin < s.frontier then
    .error (.thrown (.logicError ("decoding_task_graph: output '" ++ name ++
      "' received a commit interval starting at round " ++ toString d.begin ++
      ", behind its frontier " ++ toString s.frontier)))
  else if s.pending.length = s.capacity then
    .error (.thrown (.logicError ("decoding_task_graph: output '" ++ name ++
      "' has more pending commit intervals than its stager was sized for")))
  else
    match s.spare.getLast? with
    | none => .error .outOfBounds
    | some slot =>
      let before := fun entry => decide ((intervalAt s.intervals entry).begin ≤ d.begin)
      let pending := s.pending.takeWhile before ++ slot :: s.pending.dropWhile before
      let r := advance { s with
        intervals := s.intervals.set slot d
        spare := s.spare.dropLast } false pending
      .ok (if r.2 then { r.1 with generation := r.1.generation + 1 } else r.1)

/-- `fold_whole_shot`: the deltas of the whole shot join the frame. -/
def foldWholeShot (s : OutputStager) : Except Fault OutputStager :=
  if !s.hasWhole then .ok s
  else
    match s.pending with
    | next :: _ =>
      .error (.thrown (.logicError ("decoding_task_graph: a staged output still has an uncommitted " ++
        "interval starting at round " ++ toString (intervalAt s.intervals next).begin ++ " at FINAL")))
    | [] =>
      .ok { s with
        bits := xorInto s.bits s.whole
        whole := s.whole.map fun _ => 0
        hasWhole := false
        generation := s.generation + 1 }

def clearPending (s : OutputStager) : OutputStager :=
  { s with pending := [], spare := s.spare ++ s.pending }

end OutputStager

/-! ## What is shown -/

/-- `task_graph_streaming_status`. -/
inductive StreamingStatus where
  | pending
  | available
  | complete
  | failed
  deriving DecidableEq

structure OutputProgress where
  generation : Nat
  coverageBeginRound : Nat
  coverageEndRound : Nat
  status : StreamingStatus

structure LogicalRelease where
  released : Nat
  size : Nat

/-- `refresh_streaming_progress` for a staged output; for the logical one with what `release_logical`
left. -/
def refreshStaged (final : Bool) (logical : Option LogicalRelease) (s : OutputStager)
    (output : OutputProgress) : Except Fault (OutputStager × OutputProgress) := do
  let s ← if final then s.foldWholeShot else .ok s
  let output := if output.generation < s.generation then
      { generation := s.generation
        coverageBeginRound := s.begin
        coverageEndRound := s.frontier
        status := .available }
    else output
  let output := if final ∧ 0 < output.generation then { output with status := .complete } else output
  let output := match logical with
    | none => output
    | some l =>
      { output with
        status := if final ∧ l.released = l.size then .complete
          else if l.released ≠ 0 then .available
          else .pending }
  return (s, output)

end CudaqQec
