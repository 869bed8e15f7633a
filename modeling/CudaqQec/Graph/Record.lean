import CudaqQec.Graph.Progress

/-!
# Records and operations

A record is what a graph runs at once: one operation of its caller or, in an asynchronous session, several
that were queued. What its nodes publish is captured in the record's context, each publication under the
operation it follows from, and folded into the graph when the record retires.

* `StreamingState.apply`: `apply_record_context`.
-/

namespace CudaqQec

open Frames Checked OutputStager

structure StagedDelta where
  operation : Nat
  delta : Delta

/-! ## What a node publishes -/

/-- What a record's context holds of one node; `published` counts by operation. -/
structure NodeCapture where
  staged : List StagedDelta
  published : List Nat
  snapshotted : Bool
  corrections : List UInt8
  coverage : Option CommittedCoverage
  closure : Option Closure
  converged : Option Bool

namespace NodeCapture

def start (operations width : Nat) : NodeCapture where
  staged := []
  published := List.replicate operations 0
  snapshotted := false
  corrections := zeros width
  coverage := none
  closure := none
  converged := none

end NodeCapture

abbrev QueuedDelta := Nat × StagedDelta

namespace QueuedDelta

/-- The order in which deltas are folded: by operation, then by round. -/
def le (a b : QueuedDelta) : Prop :=
  a.2.operation < b.2.operation ∨ a.2.operation = b.2.operation ∧ a.2.delta.begin ≤ b.2.delta.begin

end QueuedDelta

def stagedDeltas (captures : List NodeCapture) : List QueuedDelta :=
  captures.zipIdx.flatMap fun c => c.1.staged.map fun d => (c.2, d)

/-! ## The outputs -/

/-- The merge of the nodes' deltas by sorting each node's and keeping their tails in a heap. Deltas that
begin at the same round may come in any order. -/
structure DeltaMerge where
  merge : List QueuedDelta → List QueuedDelta
  perm : ∀ l, (merge l).Perm l
  sorted : ∀ l, (merge l).Pairwise QueuedDelta.le

namespace GraphOutput

/-- Stage what a delta is for the output: the delta, its interval alone, or nothing. -/
def stage (d : QueuedDelta) (o : GraphOutput) : Except Fault GraphOutput := do
  let stager ← if d.1 ∈ o.config.fed then o.stager.stageDelta o.config.name d.2.delta else .ok o.stager
  let stager ← if d.1 ∈ o.config.cancelled then
      stager.stageDelta o.config.name { d.2.delta with load := [] }
    else .ok stager
  return { o with stager := stager }

end GraphOutput

def stageOutputs (outputs : List GraphOutput) (d : QueuedDelta) : Except Fault (List GraphOutput) :=
  outputs.mapM (GraphOutput.stage d)

/-! ## Folding a record -/

namespace StreamingState

/-- Operations being folded: what waits, and how many have advanced the generation, which was `before`
after the last one. -/
structure Folding where
  state : StreamingState
  queue : List QueuedDelta
  advanced : Nat
  before : Nat

def addPublished (captures : List NodeCapture) (operation : Nat) (nodes : List GraphNode) :
    List GraphNode :=
  nodes.mapIdx fun si n =>
    { n with generation := n.generation + ((captures[si]?).map fun c => c.published.getD operation 0).getD 0 }

/-- One operation of a record of `operations`. -/
def foldOperation (operations : Nat) (captures : List NodeCapture) (f : Folding) (operation : Nat) :
    Except Fault Folding := do
  let last := operation + 1 = operations
  let here := fun d : QueuedDelta => decide last || decide (d.2.operation = operation)
  let outputs ← (f.queue.takeWhile here).foldlM stageOutputs f.state.outputs
  let s := { f.state with
    outputs := outputs
    nodes := addPublished captures operation f.state.nodes }
  if last then
    return { f with
      state := s
      queue := f.queue.dropWhile here }
  else
    let now := s.pendingGeneration
    return {
      state := s
      queue := f.queue.dropWhile here
      advanced := f.advanced + if f.before < now then 1 else 0
      before := now }

/-- What a node's capture leaves in the graph's view of it. -/
def applyCapture (c : NodeCapture) (n : GraphNode) : GraphNode :=
  let n := if !n.staged && c.snapshotted then
      { n with
        corrections := if n.folds then xorInto n.corrections c.corrections else c.corrections
        coverage := c.coverage }
    else n
  { n with
    closure := combineClosure n.closure c.closure
    converged := match c.converged with
      | none => n.converged
      | some converged => some (n.converged.getD true && converged) }

variable (m : DeltaMerge)

/-- `apply_record_context`: with how many operations but the last advanced the generation, and where they
left it. -/
def apply (operations : Nat) (captures : List NodeCapture) (s : StreamingState) :
    Except Fault (StreamingState × Nat × Nat) := do
  let f ← (List.range operations).foldlM (foldOperation operations captures)
    ⟨s, m.merge (stagedDeltas captures), 0, s.generation⟩
  return ({ f.state with
    nodes := f.state.nodes.mapIdx fun si n => ((captures[si]?).map fun c => applyCapture c n).getD n },
    f.advanced, f.before)

end StreamingState

end CudaqQec
