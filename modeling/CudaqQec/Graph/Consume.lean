import CudaqQec.Graph.StagedShot

/-!
# Consuming a staged output

`clear_corrections` between the records of a shot hands out what a staged output has so far and goes on
from the frontier; after the end of the shot it begins the next one. What a client has read is recorded as
`Consumed`.

* `consumeStaged`: `consume_streaming_result` for one staged correction output.
* `runShot`: records and clears of a shot, its last record and the clear after it.
* `Partitions`: what was consumed adds up to the shot, and follows on itself.
-/

namespace CudaqQec

open Frames Piece Checked Delta OutputStager

/-- `consume_streaming_result` for a staged output. `shotEnded` is whether the graph as a whole was
complete. -/
def consumeStaged (shotEnded : Bool) (s : OutputStager) (output : OutputProgress) :
    OutputStager × OutputProgress :=
  let s := { s with bits := s.bits.map fun _ => 0, begin := s.frontier }
  let s := if output.status = .complete then { s with frontier := 0, begin := 0 }.clearPending else s
  let output := { output with status := .pending }
  (s, if shotEnded then { output with coverageBeginRound := 0, coverageEndRound := 0 } else output)

/-- What a client reads just before it clears: the value, its coverage and its status. -/
structure Consumed where
  value : List UInt8
  begin : Nat
  stop : Nat
  status : StreamingStatus

structure StagedOutput where
  stager : OutputStager
  progress : OutputProgress
  consumed : List Consumed

inductive ShotStep where
  | record (ds : List Delta)
  | clear

namespace StagedOutput

variable (name : String)

def record (final : Bool) (o : StagedOutput) (ds : List Delta) : Except Fault StagedOutput := do
  let s ← ds.foldlM (stageDelta name) o.stager
  let r ← refreshStaged final none s o.progress
  return { o with stager := r.1, progress := r.2 }

def clear (shotEnded : Bool) (o : StagedOutput) : StagedOutput :=
  let r := consumeStaged shotEnded o.stager o.progress
  { stager := r.1
    progress := r.2
    consumed := o.consumed ++ [⟨o.stager.bits, o.progress.coverageBeginRound,
      o.progress.coverageEndRound, o.progress.status⟩] }

def step (o : StagedOutput) : ShotStep → Except Fault StagedOutput
  | .record ds => o.record name false ds
  | .clear => .ok (o.clear false)

/-- A shot: its steps, the last record, which ends it, and the clear after that. -/
def runShot (o : StagedOutput) (steps : List ShotStep) (last : List Delta) (shotEnded : Bool) :
    Except Fault StagedOutput := do
  let o ← steps.foldlM (step name) o
  let o ← o.record name true last
  return o.clear shotEnded

end StagedOutput

/-! ## The shot and what is consumed of it -/

namespace Delta

def proper (ds : List Delta) : List Delta := ds.filter fun d => !isWhole d && decide (d.begin < d.stop)

def empties (ds : List Delta) : List Delta := ds.filter fun d => !isWhole d && decide (d.stop ≤ d.begin)

theorem proper_append (ds es : List Delta) : proper (ds ++ es) = proper ds ++ proper es :=
  List.filter_append ..

theorem empties_append (ds es : List Delta) : empties (ds ++ es) = empties ds ++ empties es :=
  List.filter_append ..

theorem perm_proper_empties (ds : List Delta) : (proper ds ++ empties ds).Perm (commits ds) := by
  have h := List.filter_append_perm (fun d : Delta => decide (d.begin < d.stop)) (commits ds)
  have hp : (commits ds).filter (fun d => decide (d.begin < d.stop)) = proper ds := by
    rw [commits, List.filter_filter]
    apply List.filter_congr
    intro d _
    exact Bool.and_comm ..
  have he : (commits ds).filter (fun d => !decide (d.begin < d.stop)) = empties ds := by
    rw [commits, List.filter_filter]
    apply List.filter_congr
    intro d _
    rw [Bool.and_comm, ← decide_not]
    simp only [Nat.not_lt]
  rwa [hp, he] at h

theorem perm_kinds (ds : List Delta) : (proper ds ++ empties ds ++ wholes ds).Perm ds :=
  ((perm_proper_empties ds).append_right _).trans (perm_commits_wholes ds)

end Delta

def ShotStep.deltas (steps : List ShotStep) : List Delta :=
  steps.flatMap fun
    | .record ds => ds
    | .clear => []

def ShotStep.sinceClear (steps : List ShotStep) : List Delta :=
  steps.foldl (fun since step => match step with
    | .record ds => since ++ ds
    | .clear => []) []

namespace StagedOutput

open ShotStep

/-- An output as a shot begins. What an earlier shot covered may still be shown. -/
structure AtStart (width : Nat) (o : StagedOutput) : Prop where
  stager : o.stager.AtStart width
  begin : o.stager.begin = 0
  generation : o.stager.generation = o.progress.generation
  status : o.progress.status = .pending

/-- Deltas whose rounds are disjoint, and of which never more wait than there are slots. -/
structure Fits (capacity : Nat) (ds : List Delta) : Prop where
  disjoint : (proper ds).Pairwise Piece.Disjoint
  room : ∀ pre d post, ds = pre ++ d :: post → d ∈ proper [d] →
    ∀ f, IsGreatest {f | GapFree (proper pre) f} f →
      ((proper pre).filter fun p => decide (f < p.stop)).length < capacity

/-- The rounds of the deltas are those of a shot of `rounds` rounds. -/
def Covers (rounds : Nat) (ds : List Delta) : Prop :=
  ∀ r, r < rounds ↔ ∃ d ∈ proper ds, d.begin ≤ r ∧ r < d.stop

/-- Values that are available or complete follow on one another, from round `a` to round `b`. -/
@[grind =] def Chained : Nat → List Consumed → Nat → Prop
  | a, [], b => a = b
  | a, c :: cs, b =>
    if c.status = .pending then Chained a cs b else c.begin = a ∧ Chained c.stop cs b

/-- The values consumed add up to the shot, each covers the rounds that follow on the one before, and
the next shot begins as this one did. -/
def Partitions (name : String) (width : Nat) (o : StagedOutput) (steps : List ShotStep)
    (last : List Delta) (shotEnded : Bool) : Prop :=
  ∃ o', o.runShot name steps last shotEnded = .ok o' ∧
    xorAll (zeros width) (o'.consumed.map Consumed.value) =
      xorAll (zeros width) (loads (deltas steps ++ last)) ∧
    (∃ b, Chained 0 o'.consumed b) ∧ o'.AtStart width

/-- The end of the shot has something new to show: a delta of the whole shot, or rounds that came after
the last clear; or the shot has no rounds, and no earlier coverage is shown for it. -/
def NewAtEnd (o : StagedOutput) (steps : List ShotStep) (last : List Delta) : Prop :=
  wholes (deltas steps ++ last) ≠ [] ∨ proper (sinceClear steps ++ last) ≠ [] ∨
    proper (deltas steps ++ last) = [] ∧
      (o.progress.generation = 0 ∨ o.progress.coverageBeginRound = 0)

end StagedOutput

end CudaqQec
