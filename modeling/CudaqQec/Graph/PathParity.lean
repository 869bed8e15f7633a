import CudaqQec.Basic
import CudaqQec.Lib.Frames

/-!
# Which outputs a streaming node corrects

Streaming never runs an `xor_node`. When the wires are compiled, the parity of the paths from every port
to every output of the graph is computed from the outputs backwards, stopping at streaming nodes; a
streaming node's corrections are then XORed onto the segments of the outputs that it reaches along an odd
number of paths.

* `TaskGraph.reachOf`, `streamingConflictFree`, `outputOffsets`: this part of `compile_wires`.
* `TaskGraph.compose`: `compose_streaming_values` for outputs that are not staged.
* `TaskGraph.evaluate`: what the graph's nodes give one after the other.
-/

namespace CudaqQec.PathParity

open Frames

structure Port where
  node : Nat
  slot : Nat
  deriving DecidableEq

/-- A wire into a slot of a node; without a source it carries the raw measurements. -/
structure Wire where
  source : Option Port
  toSlot : Nat

/-- What matters of a node: whether it streams, with how many observables; whether it is an `xor_node`,
and of how many inputs; and which of its output slots carry a logical outcome. -/
inductive TaskNode where
  | streaming (numObservables : Nat) (logical : List Bool)
  | xor (numInputs : Nat)
  | oneShot (logical : List Bool)

@[grind =] def TaskNode.logical : TaskNode → List Bool
  | streaming _ logical => logical
  | xor _ => [true]
  | oneShot logical => logical

structure TaskGraph where
  nodes : List TaskNode
  wiresTo : Nat → List Wire
  sinkWires : List Port

structure PathState where
  parity : Bool
  reachable : Bool

namespace PathState

def none : PathState := ⟨false, false⟩

def join (s t : PathState) : PathState := ⟨s.parity ^^ t.parity, s.reachable || t.reachable⟩

end PathState

/-- `reach` and `output_reach` for one output. -/
structure Reach where
  node : Nat → PathState
  output : Port → PathState

@[grind =] def sweep {α : Type} (step : α → Nat → α) : Nat → α → α
  | 0, a => a
  | n + 1, a => sweep step n (step a n)

namespace TaskGraph

variable (g : TaskGraph)

def size : Nat := g.nodes.length

/-- `carries_corrections`, of a port. -/
def carries (p : Port) : Bool :=
  match g.nodes[p.node]? with
  | some n => n.logical.getD p.slot false
  | none => false

def numSlots (j : Nat) : Nat :=
  match g.nodes[j]? with
  | some n => n.logical.length
  | none => 0

def isXor (j : Nat) : Bool :=
  match g.nodes[j]? with
  | some (.xor _) => true
  | _ => false

def streamingWidth (j : Nat) : Option Nat :=
  match g.nodes[j]? with
  | some (.streaming width _) => some width
  | _ => none

/-! ## Compiling the outputs -/

def nodeReach (r : Reach) (j : Nat) : PathState :=
  (List.range (g.numSlots j)).foldl (fun s slot => s.join (r.output ⟨j, slot⟩)) .none

def propagate (reach : PathState) (r : Reach) (w : Wire) : Reach :=
  match w.source with
  | some p =>
    if g.carries p then
      { r with output := fun q => if q = p then (r.output p).join reach else r.output q }
    else r
  | none => r

def reachStep (r : Reach) (j : Nat) : Reach :=
  let reach := g.nodeReach r j
  let r := { r with node := fun i => if i = j then reach else r.node i }
  if (g.streamingWidth j).isSome then r else (g.wiresTo j).foldl (g.propagate reach) r

def seed (p : Port) : Reach :=
  ⟨fun _ => .none, fun q => if q = p then ⟨true, true⟩ else .none⟩

def reachOf (k : Nat) : Reach :=
  match g.sinkWires[k]? with
  | some p => sweep g.reachStep g.size (seed p)
  | none => ⟨fun _ => .none, fun _ => .none⟩

def hasCorrectionInput (j : Nat) : Bool :=
  (g.wiresTo j).any fun w => w.source.any g.carries

/-- `xor_fold_conflict`: a node on a correction path neither streams nor folds by XOR. -/
def xorFoldConflict : Bool :=
  (List.range g.size).any fun j =>
    g.hasCorrectionInput j &&
      (List.range g.sinkWires.length).any (fun k => ((g.reachOf k).node j).reachable) &&
      (g.streamingWidth j).isNone && !g.isXor j

def feeders (k : Nat) : List Nat :=
  (List.range g.size).filterMap fun j =>
    if ((g.reachOf k).node j).reachable then g.streamingWidth j else none

def outputWidth (k : Nat) : Option Nat :=
  match g.feeders k with
  | [] => none
  | width :: rest => if rest.all (· = width) then some width else none

def streamingConflictFree : Bool :=
  !g.xorFoldConflict && (List.range g.sinkWires.length).all fun k => (g.outputWidth k).isSome

def width (k : Nat) : Nat := (g.outputWidth k).getD 0

def outputOffset (k : Nat) : Nat := ((List.range k).map g.width).sum

/-- `streaming_node_output_offsets` of node `j`. -/
def outputOffsets (j : Nat) : List Nat :=
  ((List.range g.sinkWires.length).filter fun k => ((g.reachOf k).node j).parity).map g.outputOffset

/-! ## Composing and evaluating -/

/-- `compose_streaming_values`, for the corrections of each streaming node. -/
def compose (bits : Nat → List UInt8) : List UInt8 :=
  (List.range g.size).foldl (fun values j =>
    if (g.streamingWidth j).isSome then
      (g.outputOffsets j).foldl (fun values offset => xorAt values offset (bits j)) values
    else values) (zeros (g.outputOffset g.sinkWires.length))

def segment (values : List UInt8) (k : Nat) : List UInt8 :=
  (values.drop (g.outputOffset k)).take (g.width k)

/-- `xor_logical_into`. -/
def xorLogical (acc other : List UInt8) : Except Error (List UInt8) :=
  if acc.length ≠ other.length then
    .error (.invalidArgument ("xor_logical: size mismatch (" ++ toString acc.length ++ " vs " ++
      toString other.length ++ ")"))
  else .ok (xorInto acc other)

/-- The wires into the inputs of an `xor_node`, in the order of the inputs. -/
def xorInputs (j numInputs : Nat) : List Port :=
  (List.range numInputs).filterMap fun slot =>
    ((g.wiresTo j).find? fun w => w.toSlot = slot).bind Wire.source

/-- `xor_node::execute_indexed`. -/
def xorOf (inputs : List (Except Error (List UInt8))) : Except Error (List UInt8) := do
  match ← inputs.mapM id with
  | [] => return []
  | first :: rest => rest.foldlM xorLogical first

/-- The values of the ports of the first `n` nodes, for the corrections of each streaming node and what
the other nodes give. -/
@[grind =] def evaluate (bits : Nat → List UInt8) (other : Port → List UInt8) :
    Nat → Port → Except Error (List UInt8)
  | 0, _ => .ok []
  | n + 1, p =>
    if p.node = n then
      match g.nodes[n]? with
      | some (.streaming ..) => .ok (bits n)
      | some (.xor numInputs) => xorOf ((g.xorInputs n numInputs).map (evaluate bits other n))
      | _ => .ok (other p)
    else evaluate bits other n p

end TaskGraph

end CudaqQec.PathParity
