import CudaqQec.Graph.Stager
import CudaqQec.Node.Window

/-!
# The streaming state of a graph

What a graph keeps of its streaming nodes and of its outputs, and the values that its caller reads.

* `StreamingState.compose`: the values beside the progress.
* `StreamingState.pendingGeneration`: what `pending_generation` predicts.
-/

namespace CudaqQec

open Frames Checked OutputStager

structure CommittedCoverage where
  begin : Nat
  stop : Nat
  deriving DecidableEq

/-- `task_graph_closure`. -/
inductive Closure where
  | closed
  | opened
  | notChecked
  deriving DecidableEq

def Closure.rank : Closure → Nat
  | closed => 0
  | opened => 1
  | notChecked => 2

/-- `combine_closure`: the worse of two. -/
def combineClosure : Option Closure → Option Closure → Option Closure
  | none, b => b
  | a, none => a
  | some a, some b => if b.rank ≤ a.rank then some a else some b

/-! ## Nodes and outputs -/

/-- A streaming node as of the latest retired record. `folds` is whether each capture of it is a delta, as
of a pooled or an indexed node; `offsets` are the places in the values it is folded into. -/
structure GraphNode where
  staged : Bool
  folds : Bool
  offsets : List Nat
  generation : Nat
  coverage : Option CommittedCoverage
  corrections : List UInt8
  closure : Option Closure
  converged : Option Bool
  deriving DecidableEq

/-- How the logical output releases its observables: the readout among the streaming nodes, and each
observable's completion round. -/
structure ReleaseRule where
  readout : Nat
  completion : List (Option Nat)
  deriving DecidableEq

/-- What `compile_wires` fixed of an output. `contributors` are its streaming nodes, `fed` those whose
deltas it takes, and `cancelled` those whose intervals alone it takes. -/
structure OutputConfig where
  name : String
  logical : Option ReleaseRule
  contributors : List Nat
  fed : List Nat
  cancelled : List Nat
  staged : Bool
  schedule : WindowSpec
  valueOffset : Nat

/-- An output and its progress. -/
structure GraphOutput where
  config : OutputConfig
  progress : OutputProgress
  closure : Closure
  released : List Bool
  publications : Nat
  slowest : Nat
  fireOrdinal : Nat
  consumed : Nat
  stager : OutputStager

def contributorsOf (nodes : List GraphNode) (cs : List Nat) : List GraphNode :=
  cs.filterMap fun si => nodes[si]?

def slowestOf (nodes : List GraphNode) (cs : List Nat) : Nat :=
  if cs = [] then 0
  else ((contributorsOf nodes cs).map GraphNode.generation).foldl min uint64Max

def publicationsOf (nodes : List GraphNode) (cs : List Nat) : Nat :=
  ((contributorsOf nodes cs).map GraphNode.generation).sum

namespace GraphOutput

/-- What `pending_generation` expects of the output. -/
def pendingGeneration (nodes : List GraphNode) (o : GraphOutput) : Nat :=
  if o.config.staged then max o.progress.generation o.stager.generation
  else if o.config.contributors ≠ [] then
    max o.progress.generation (slowestOf nodes o.config.contributors)
  else o.progress.generation

end GraphOutput

/-! ## The graph -/

/-- The streaming state of a graph. -/
structure StreamingState where
  nodes : List GraphNode
  outputs : List GraphOutput
  values : List UInt8
  generation : Nat
  status : StreamingStatus
  closure : Closure
  completedOperations : Nat
  operationCompleted : Bool
  retiringGeneration : Nat
  finalized : Bool

def copyAt (offset : Nat) (value : List UInt8) (values : List UInt8) : List UInt8 :=
  (List.range value.length).foldl (fun values i => values.set (offset + i) (value.getD i 0)) values

def correctionOutputs (outputs : List GraphOutput) : List GraphOutput :=
  outputs.filter fun o => o.config.logical.isNone

def leastGeneration (generation : GraphOutput → Nat) (outputs : List GraphOutput) : Nat :=
  if outputs = [] then 0 else ((correctionOutputs outputs).map generation).foldl min uint64Max

namespace StreamingState

def pendingGeneration (s : StreamingState) : Nat :=
  leastGeneration (GraphOutput.pendingGeneration s.nodes) s.outputs

/-- `compose_streaming_values`. -/
def compose (s : StreamingState) : StreamingState :=
  let frames := s.outputs.foldl (fun values o =>
    if o.config.staged then copyAt o.config.valueOffset o.stager.bits values else values)
    (s.values.map fun _ => 0)
  { s with values := s.nodes.foldl (fun values n =>
      n.offsets.foldl (fun values offset => xorAt values offset n.corrections) values) frames }

end StreamingState

end CudaqQec
