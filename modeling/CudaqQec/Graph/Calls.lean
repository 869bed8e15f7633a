import CudaqQec.Graph.Consume
import CudaqQec.Graph.Progress

/-!
# The public calls of a graph

What a client of a `decoding_task_graph` calls between records, on a graph that streams synchronously or
asynchronously: the readers, `clear_corrections` and `reset_decoder`, and the checks that a record must pass
before it runs. An asynchronous graph serves its readers a copy of the result. A call that throws keeps what
it has changed up to there.

* `GraphState.fail`, `hide`, `restart`, `consume`: `fail_streaming_progress`, `hide_streaming_result`,
  `reset_streaming_progress` and `consume_streaming_result`.
* `DecodingTaskGraph.resetDecoder`, `DecodingTaskGraph.clearCorrections`, `DecodingTaskGraph.enqueueSyndrome`.
* `DecodingTaskGraph.streamingResult`, `DecodingTaskGraph.getObsCorrections`, `DecodingTaskGraph.getLogicalMeasurements`.
-/

namespace CudaqQec

/-- What a call throws: something derived from `std::exception`, which has a `what()`, or anything else. -/
inductive Thrown where
  | standard (what : String)
  | other
  deriving DecidableEq

/-! ## Nodes -/

/-- A `streaming_task_graph_node`, as far as resets and clears go. -/
structure StreamingCapability (σ : Type) where
  numObservables : Nat
  corrections : σ → List UInt8
  clearCorrections : σ → Option Thrown × σ
  resetStreamingState : σ → Option Thrown × σ
  /-- Clearing sets no correction, and one that throws may clear none. -/
  corrections_clear : ∀ st, (∀ b ∈ corrections (clearCorrections st).2, b = 0) ∨
    corrections (clearCorrections st).2 = corrections st

/-- A `task_graph_node`: whether it is backed by a decoder, and whether it streams. -/
structure TaskGraphNode (σ : Type) where
  resetDecoder : Option (σ → Option Thrown × σ)
  streaming : Option (StreamingCapability σ)

structure NodeCopies (σ : Type) where
  kind : TaskGraphNode σ
  primary : σ
  replicas : List σ

@[grind =] def untilThrown {α : Type} (call : α → Option Thrown × α) : List α → Option Thrown × List α
  | [] => (none, [])
  | a :: as =>
    match call a with
    | (some thrown, a') => (some thrown, a' :: as)
    | (none, a') =>
      let r := untilThrown call as
      (r.1, a' :: r.2)

section

variable {σ : Type}

/-- `reset_node`. -/
def TaskGraphNode.reset (n : TaskGraphNode σ) (st : σ) : Option Thrown × σ :=
  match n.resetDecoder, n.streaming with
  | some resetDecoder, _ => resetDecoder st
  | none, some streaming => streaming.resetStreamingState st
  | none, none => (none, st)

namespace NodeCopies

def shape (c : NodeCopies σ) : Option (Nat × Bool) :=
  c.kind.streaming.map fun streaming => (streaming.numObservables, c.replicas.isEmpty)

def resetPrimary (c : NodeCopies σ) : Option Thrown × NodeCopies σ :=
  let r := c.kind.reset c.primary
  (r.1, { c with primary := r.2 })

def resetReplicas (c : NodeCopies σ) : Option Thrown × NodeCopies σ :=
  let r := untilThrown c.kind.reset c.replicas
  (r.1, { c with replicas := r.2 })

/-- `clear_corrections` of a streaming node and its copies. -/
def clear (c : NodeCopies σ) : Option Thrown × NodeCopies σ :=
  match c.kind.streaming with
  | none => (none, c)
  | some streaming =>
    match streaming.clearCorrections c.primary with
    | (some thrown, st) => (some thrown, { c with primary := st })
    | (none, st) =>
      let r := untilThrown streaming.clearCorrections c.replicas
      (r.1, { c with primary := st, replicas := r.2 })

end NodeCopies

/-- The loops of `reset_decoder`: every node, and then every copy. -/
def resetNodes (copies : List (NodeCopies σ)) : Option Thrown × List (NodeCopies σ) :=
  match untilThrown NodeCopies.resetPrimary copies with
  | (some thrown, copies) => (some thrown, copies)
  | (none, copies) => untilThrown NodeCopies.resetReplicas copies

def firstCorrections (copies : List (NodeCopies σ)) : List UInt8 :=
  (copies.findSome? fun c => c.kind.streaming.map fun streaming => streaming.corrections c.primary).getD []

end

/-! ## Results -/

/-- `task_graph_output_progress`. Only the logical output has flags. -/
structure OutputResult where
  name : String
  valueOffset : Nat
  progress : OutputProgress
  closure : Closure
  released : List Bool

/-- `task_graph_streaming_result`. -/
structure StreamingResult where
  shotEpoch : Nat
  resultRevision : Nat
  completedOperations : Nat
  generation : Nat
  status : StreamingStatus
  operationCompleted : Bool
  error : String
  outputs : List OutputResult
  values : List UInt8
  closure : Closure

def StreamingResult.empty : StreamingResult := ⟨0, 0, 0, 0, .pending, false, "", [], [], .notChecked⟩

def GraphOutput.result (o : GraphOutput) : OutputResult where
  name := o.config.name
  valueOffset := o.config.valueOffset
  progress := o.progress
  closure := o.closure
  released := if o.config.logical.isSome then o.released else []

def StreamingResult.logicalMeasurements (r : StreamingResult) (first count : Nat) : Option (List UInt8) :=
  match r.outputs.getLast? with
  | none => none
  | some output =>
    let flags := output.released
    if count = 0 ∨ flags.length < first ∨ flags.length - first < count ∨
        r.values.length < output.valueOffset ∨ r.values.length - output.valueOffset < first + count then
      none
    else if ((flags.drop first).take count).all id then
      some ((r.values.drop (output.valueOffset + first)).take count)
    else none

/-! ## The graph -/

/-- What an asynchronous session leaves: `async_streaming_state` between records. -/
structure AsyncState where
  active : Bool
  needsReset : Bool
  snapshotValid : Bool
  resultSnapshot : StreamingResult
  readSnapshot : StreamingResult

structure GraphState (σ : Type) extends StreamingState where
  copies : List (NodeCopies σ)
  shotEpoch : Nat
  resultRevision : Nat
  error : String
  shotOpen : Bool
  shotResets : Nat
  async : AsyncState

/-- A `decoding_task_graph`. `record` is what a record does once it is let in. -/
structure DecodingTaskGraph (σ : Type) where
  nObs : Nat
  nLogical : Nat
  streamingConflict : Option String
  asyncStreaming : Bool
  record : List UInt8 → Option RoundType → GraphState σ → GraphState σ

def unreleaseLogical (outputs : List GraphOutput) : List GraphOutput :=
  outputs.map fun o =>
    if o.config.logical.isSome then { o with released := o.released.map fun _ => false } else o

def clearLatestNodeCorrections (nodes : List GraphNode) : List GraphNode :=
  nodes.map fun n => { n with corrections := n.corrections.map fun _ => 0 }

/-- One output's part of `consume_streaming_result`, with the nodes that contribute to it. -/
def consumeOutput (shotEnded : Bool) (nodes : List GraphNode) (o : GraphOutput) :
    List GraphNode × GraphOutput :=
  let r := consumeStaged shotEnded o.stager o.progress
  let nodes := nodes.mapIdx fun si n =>
    if si ∈ o.config.contributors then { n with generation := max n.generation o.progress.generation }
    else n
  (nodes, { o with
    stager := r.1
    progress := r.2
    consumed := if o.progress.status = .complete then 0 else o.progress.coverageEndRound
    publications := publicationsOf nodes o.config.contributors
    slowest := slowestOf nodes o.config.contributors })

@[grind =] def consumeOutputs (shotEnded : Bool) : List GraphNode → List GraphOutput →
    List GraphNode × List GraphOutput
  | nodes, [] => (nodes, [])
  | nodes, o :: outputs =>
    let r := consumeOutput shotEnded nodes o
    let rest := consumeOutputs shotEnded r.1 outputs
    (rest.1, r.2 :: rest.2)

namespace GraphState

variable {σ : Type} (s : GraphState σ)

def hasLogicalOutput : Bool := s.outputs.any fun o => o.config.logical.isSome

/-- The result that a client is handed. -/
def result : StreamingResult where
  shotEpoch := s.shotEpoch
  resultRevision := s.resultRevision
  completedOperations := s.completedOperations
  generation := s.generation
  status := s.status
  operationCompleted := s.operationCompleted
  error := s.error
  outputs := s.outputs.map GraphOutput.result
  values := s.values
  closure := s.closure

/-- `compose_streaming_values`. -/
def composeValues : GraphState σ := { s with values := s.toStreamingState.compose.values }

/-- `fail_streaming_progress`. -/
def fail (message : String) : GraphState σ :=
  { s with
    status := .failed
    operationCompleted := false
    error := message
    outputs := unreleaseLogical (s.outputs.map fun o =>
      { o with progress := { o.progress with status := .failed } })
    resultRevision :=
      if s.status ≠ .failed ∨ s.error ≠ message then s.resultRevision + 1 else s.resultRevision
    shotOpen := false }

/-- `hide_streaming_result`. -/
def hide : GraphState σ :=
  { s with
    nodes := clearLatestNodeCorrections s.nodes
    outputs := unreleaseLogical (s.outputs.map fun o => { o with
      stager := { o.stager with
        bits := o.stager.bits.map fun _ => 0
        whole := o.stager.whole.map fun _ => 0 }
      progress := { o.progress with
        status := .pending
        coverageBeginRound := 0
        coverageEndRound := 0 } })
    values := s.values.map fun _ => 0
    status := .pending
    operationCompleted := false
    error := ""
    resultRevision := s.resultRevision + 1 }

/-- `reset_streaming_progress`. -/
def restart : GraphState σ :=
  { s with
    shotEpoch := s.shotEpoch + 1
    resultRevision := 0
    completedOperations := 0
    generation := 0
    status := .pending
    operationCompleted := false
    error := ""
    nodes := (clearLatestNodeCorrections s.nodes).map fun n => { n with
      generation := 0
      coverage := none
      closure := none
      converged := none }
    values := s.values.map fun _ => 0
    shotOpen := false
    closure := .notChecked
    outputs := unreleaseLogical (s.outputs.map fun o => { o with
      progress := ⟨0, 0, 0, .pending⟩
      closure := .notChecked
      publications := 0
      slowest := 0
      fireOrdinal := 0
      consumed := 0
      stager := { o.stager with
        frontier := 0
        begin := 0
        generation := 0
        bits := o.stager.bits.map fun _ => 0
        whole := o.stager.whole.map fun _ => 0
        hasWhole := false }.clearPending }) }

/-- `consume_streaming_result`. A failed result stays as it is. -/
def consume : GraphState σ :=
  let s := { s with
    operationCompleted := false
    values := s.values.map fun _ => 0
    resultRevision := s.resultRevision + 1 }
  if s.status = .failed then s
  else
    let shotEnded := decide (s.status = .complete)
    let nodes := if shotEnded then
        s.nodes.map fun n => { n with coverage := none, closure := none, converged := none }
      else s.nodes
    let r := consumeOutputs shotEnded nodes s.outputs
    { s with
      nodes := r.1
      outputs := unreleaseLogical r.2
      status := .pending
      shotOpen := if shotEnded then false else s.shotOpen }

/-- `async_streaming_result`, with the copy that it is read from. -/
@[grind =] def readSnapshot : GraphState σ :=
  if s.async.snapshotValid then { s with async := { s.async with readSnapshot := s.async.resultSnapshot } }
  else s

/-- One streaming node that owns the whole buffer is read in place, unless its output is staged: it has no
copies, all the observables, and one output at the beginning. -/
def readsInPlace (nObs : Nat) : Bool :=
  decide (s.copies.filterMap NodeCopies.shape = [(nObs, true)]) &&
    decide (s.nodes.map (fun n => (n.staged, n.offsets)) = [(false, [0])])

end GraphState

namespace DecodingTaskGraph

variable {σ : Type} (g : DecodingTaskGraph σ)

/-- What a session leaves that is settled or cancelled before a reset, which waits until it has released the
graph: its records may still have changed anything else. -/
def Settles (s s' : GraphState σ) : Prop :=
  if g.asyncStreaming = true ∧ s.async.active = true then
    s'.async.active = false ∧ s'.async.needsReset = true ∧ s'.async.snapshotValid = false
  else s' = s

def requireStreamingSupport (who : String) : Except Error Unit :=
  match g.streamingConflict with
  | none => .ok ()
  | some conflict => .error (.logicError ("decoding_task_graph::" ++ who ++ ": " ++ conflict ++
      "; this graph decodes only in batch, via run() or run_all()"))

def publishSnapshot (s : GraphState σ) : GraphState σ :=
  if g.asyncStreaming then { s with async := { s.async with readSnapshot := s.result } } else s

/-! ## Readers -/

def streamingResult (s : GraphState σ) : Except Error StreamingResult × GraphState σ :=
  if g.asyncStreaming then
    let s := s.readSnapshot
    (.ok s.async.readSnapshot, s)
  else
    match g.requireStreamingSupport "streaming_result" with
    | .error e => (.error e, s)
    | .ok () =>
      let s := s.composeValues
      (.ok s.result, s)

def getObsCorrections (s : GraphState σ) : Except Error (List UInt8) × GraphState σ :=
  if g.asyncStreaming then
    let s := s.readSnapshot
    (.ok s.async.readSnapshot.values, s)
  else
    match g.requireStreamingSupport "get_obs_corrections" with
    | .error e => (.error e, s)
    | .ok () =>
      if s.readsInPlace g.nObs then (.ok (firstCorrections s.copies), s)
      else
        let s := s.composeValues
        (.ok s.values, s)

def getLogicalMeasurements (first count : Nat) (s : GraphState σ) :
    Except Error (Option (List UInt8)) × GraphState σ :=
  if !s.hasLogicalOutput then
    (.error (.logicError ("decoding_task_graph::get_logical_measurements: the graph has no logical " ++
      "output; wire a logical_readout node into one")), s)
  else
    match g.requireStreamingSupport "get_logical_measurements" with
    | .error e => (.error e, s)
    | .ok () =>
      if count = 0 ∨ size64 (first + count) < first ∨ g.nLogical < size64 (first + count) then
        (.error (.outOfRange ("decoding_task_graph::get_logical_measurements: logical measurements [" ++
          toString first ++ ", " ++ toString (size64 (first + count)) ++ ") of " ++
          toString g.nLogical)), s)
      else if g.asyncStreaming then
        let s := s.readSnapshot
        (.ok (s.async.readSnapshot.logicalMeasurements first count), s)
      else
        let s := s.composeValues
        (.ok (s.result.logicalMeasurements first count), s)

/-! ## Records, clears and resets -/

/-- `enqueue_syndrome`, and whether it refuses the record: an error that is thrown before the record
runs. -/
def enqueueSyndrome (msyn : List UInt8) (type : Option RoundType) (s : GraphState σ) :
    Option Error × GraphState σ :=
  if type = some .final ∧ msyn = [] then
    (some (.invalidArgument
      "decoding_task_graph: a FINAL round must carry the shot's final measurements"), s)
  else if g.asyncStreaming then
    if s.finalized then (none, { s with shotOpen := true })
    else if s.async.active then (none, g.record msyn type s)
    else
      -- a session begins with the first record of a shot
      match g.requireStreamingSupport "begin_async_streaming" with
      | .error e => (some e, s)
      | .ok () =>
        if s.async.needsReset then
          (some (.logicError "begin_async_streaming: reset the cancelled or failed graph first"), s)
        else (none, g.record msyn type s)
  else
    let s := { s with operationCompleted := false }
    if s.status = .failed then
      (some (.logicError ("decoding_task_graph: streaming failed; reset the graph before enqueueing " ++
        "more measurements")), s)
    else if s.finalized then (none, { s with shotOpen := true })
    else (none, g.record msyn type s)

/-- `clear_corrections`, of a graph without an active session. -/
def clearCorrections (s : GraphState σ) : Option Thrown × GraphState σ :=
  if s.hasLogicalOutput && s.shotOpen && !s.finalized then
    (some (.standard ("decoding_task_graph::clear_corrections: the shot has not ended, and the graph's " ++
      "logical measurements apply every correction it commits; consume the shot once a FINAL round " ++
      "ends it, or reset_decoder()")), s)
  else
    let r := untilThrown NodeCopies.clear s.copies
    let s := { s with
      shotResets := s.shotResets + 1
      async := { s.async with snapshotValid := false }
      finalized := false
      copies := r.2 }
    match r.1 with
    | some thrown => (some thrown, s)
    | none => (none, g.publishSnapshot { s with nodes := clearLatestNodeCorrections s.nodes }.consume)

/-- `reset_decoder` before any node resets: the result is zeroed and pending, and its readers are handed
that. -/
def beginReset (s : GraphState σ) : GraphState σ :=
  g.publishSnapshot (GraphState.hide { s with
    shotResets := s.shotResets + 1
    async := { s.async with snapshotValid := false, needsReset := true }
    finalized := false })

/-- `reset_decoder` once the nodes have reset, or one of them has thrown. -/
def endReset (thrown : Option Thrown) (s : GraphState σ) : Option Thrown × GraphState σ :=
  match thrown with
  | some (.standard what) =>
    (some (.standard what), g.publishSnapshot (s.fail ("reset_decoder: " ++ what)))
  -- only what derives from `std::exception` is caught
  | some .other => (some .other, s)
  | none =>
    (none, g.publishSnapshot (GraphState.restart { s with async := { s.async with needsReset := false } }))

/-- `reset_decoder`, of a graph without an active session. -/
def resetDecoder (s : GraphState σ) : Option Thrown × GraphState σ :=
  let s := g.beginReset s
  let r := resetNodes s.copies
  g.endReset r.1 { s with copies := r.2 }

end DecodingTaskGraph

end CudaqQec
