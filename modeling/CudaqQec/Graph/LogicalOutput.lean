import CudaqQec.Graph.Consume
import CudaqQec.Node.LogicalReadout

/-!
# The logical output

A staged output onto which the `logical_readout` node's value is XORed. Its observables are released one
by one: once the frontier and the readout are past an observable's completion round, and all at the end of
the shot.

* `LogicalState.enqueue`, `refresh`, `flush`: what a record, the refresh after it and the flush that ends
  the shot do.
* `LogicalState.clear`, `LogicalState.reset`: `clear_corrections` and `reset_decoder`.
* `step`: a call, with what a failure leaves.
-/

namespace CudaqQec

open Frames Checked Delta OutputStager

/-- What `compile_wires` fixed: the output's name, the readout node, and whether the node's value reaches
the output along an odd number of paths. -/
structure LogicalOutput where
  name : String
  readout : LogicalReadout
  parity : Bool

/-- What the graph keeps of a logical output. -/
structure LogicalState where
  readout : ReadoutState
  stager : OutputStager
  progress : OutputProgress
  /-- the end of `latest_node_coverage` of the readout -/
  coverage : Option Nat
  /-- `latest_node_corrections` of the readout -/
  corrections : List UInt8
  released : List Bool
  /-- the status of the graph as a whole -/
  status : StreamingStatus
  finalized : Bool
  shotOpen : Bool

/-- The calls that a logical output sees. `deltas` are those that a record's windows commit; `available`
is whether every correction output has something to show. A record of several pieces is several
`enqueue`s before the `refresh`. -/
inductive GraphStep where
  | enqueue (msyn : List UInt8) (type : RoundType) (deltas : List Delta)
  | refresh (available : Bool)
  | flush (deltas : List Delta) (available : Bool)
  | clear
  | reset

namespace LogicalState

variable (o : LogicalOutput)

/-! ## The state of a shot -/

/-- Before the first shot, with so many slots for intervals. -/
def initial (capacity : Nat) : LogicalState where
  readout := .start o.readout
  stager := {
    frontier := 0
    begin := 0
    generation := 0
    bits := zeros o.readout.numObservables
    whole := zeros o.readout.numObservables
    hasWhole := false
    intervals := List.replicate capacity ⟨0, 0, []⟩
    pending := []
    spare := List.range capacity
    capacity := capacity }
  progress := ⟨0, 0, 0, .pending⟩
  coverage := none
  corrections := zeros o.readout.numObservables
  released := List.replicate o.readout.numObservables false
  status := .pending
  finalized := false
  shotOpen := false

/-- `compose_streaming_values`, for the output. -/
def value (s : LogicalState) : List UInt8 :=
  if o.parity then xorInto s.stager.bits s.corrections else s.stager.bits

def releaseLogical (final : Bool) (s : LogicalState) : List Bool :=
  let bound := min s.progress.coverageEndRound (s.coverage.getD 0)
  let whole := final && decide (0 < s.progress.generation) && decide (s.coverage = some wholeShot)
  s.released.mapIdx fun i released =>
    released || whole || (o.readout.completion.getD i none).any fun c => decide (c < bound)

/-- `refresh_streaming_progress`. -/
def refresh (final available : Bool) (s : LogicalState) : Except Fault LogicalState := do
  let r ← refreshStaged final none s.stager s.progress
  let s := { s with stager := r.1, progress := r.2 }
  let released := s.releaseLogical o final
  return { s with
    released := released
    progress := { s.progress with
      status := if final ∧ released.count true = released.length then .complete
        else if released.count true ≠ 0 then .available
        else .pending }
    status := if available then (if final then .complete else .available) else .pending }

/-- `apply_record_context` for a capture of the readout. -/
def capture (s : LogicalState) : LogicalState :=
  { s with coverage := s.readout.coverage, corrections := s.readout.corrections }

/-! ## The calls -/

/-- A record: the readout reads it, and the deltas of the windows it completes are staged. -/
def enqueue (msyn : List UInt8) (type : RoundType) (deltas : List Delta) (s : LogicalState) :
    Except Fault LogicalState := do
  let r ← thrown (s.readout.enqueue o.readout msyn type)
  let stager ← stageAll o.name s.stager deltas
  let s := { s with readout := r.1, stager := stager, shotOpen := true }
  return if r.2 ∨ type = .final then s.capture else s

def flush (deltas : List Delta) (available : Bool) (s : LogicalState) : Except Fault LogicalState := do
  let stager ← stageAll o.name s.stager deltas
  let s := { s with readout := (s.readout.flush o.readout).1, stager := stager }
  ({ s.capture with finalized := true }).refresh o true available

/-- `fail_streaming_progress`. -/
def fail (s : LogicalState) : LogicalState :=
  { s with
    status := .failed
    progress := { s.progress with status := .failed }
    released := s.released.map fun _ => false
    shotOpen := false }

/-- Whether `clear_corrections` refuses: the shot has not ended. -/
def Refuses (s : LogicalState) : Prop := s.shotOpen = true ∧ s.finalized = false

instance (s : LogicalState) : Decidable s.Refuses := inferInstanceAs (Decidable (_ ∧ _))

/-- `clear_corrections` and `consume_streaming_result`. -/
def clear (s : LogicalState) : LogicalState :=
  if s.Refuses then s
  else
    let s := { s with
      finalized := false
      readout := s.readout.clear o.readout
      corrections := s.corrections.map fun _ => 0 }
    if s.status = .failed then s
    else
      let ended := decide (s.status = .complete)
      let r := consumeStaged ended s.stager s.progress
      { s with
        stager := r.1
        progress := r.2
        coverage := if ended then none else s.coverage
        shotOpen := if ended then false else s.shotOpen
        released := s.released.map fun _ => false
        status := .pending }

/-- `reset_decoder`. -/
def reset (s : LogicalState) : LogicalState :=
  { readout := s.readout.reset o.readout
    stager := { s.stager with
      frontier := 0
      begin := 0
      generation := 0
      bits := s.stager.bits.map fun _ => 0
      whole := s.stager.whole.map fun _ => 0
      hasWhole := false }.clearPending
    progress := ⟨0, 0, 0, .pending⟩
    coverage := none
    corrections := s.corrections.map fun _ => 0
    released := s.released.map fun _ => false
    status := .pending
    finalized := false
    shotOpen := false }

/-- A call that can throw; what it throws fails the graph. A failed graph refuses it, and once a shot has
ended it is dropped. -/
def guarded (s : LogicalState) (call : Except Fault LogicalState) : LogicalState :=
  if s.status = .failed ∨ s.finalized then s
  else
    match call with
    | .ok s' => s'
    | .error _ => s.fail

/-! ## Runs -/

def step (s : LogicalState) : GraphStep → LogicalState
  | .enqueue msyn type deltas =>
    -- a record that is dropped has marked the shot open already
    if s.finalized ∧ s.status ≠ .failed then { s with shotOpen := true }
    else s.guarded (s.enqueue o msyn type deltas)
  | .refresh available => s.guarded (s.refresh o false available)
  | .flush deltas available => s.guarded (s.flush o deltas available)
  | .clear => s.clear o
  | .reset => s.reset o

def run (s : LogicalState) (steps : List GraphStep) : LogicalState := steps.foldl (step o) s

end LogicalState

end CudaqQec
