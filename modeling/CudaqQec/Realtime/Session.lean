import CudaqQec.Realtime.Wire
import CudaqQec.Graph.Calls

/-!
# Decoding sessions

One decoder or task graph and the state from which its requests are answered. A call into it may throw
whenever it likes and keeps what it has changed by then; so a call is a function to what came of it and
the new state.

* `Endpoint`: the decoder or the graph.
* `DecodingSession`, with `enqueueCore`, `readResultCore` and `resetCore`.
* `handle`: the handlers around them, which also pin the device and run the capture hook of the host.
-/

namespace CudaqQec.Realtime

abbrev Call (σ α : Type) := σ → Except Thrown α × σ

/-! ## The endpoint -/

/-- A decoder or a task graph with state `τ`, and the rounds that its session serves. Of a decoder
`streamingResult` is never called, of a graph `obsCorrections` is not. -/
structure Endpoint (τ : Type) where
  isGraph : Bool
  numMsynPerDecode : Nat
  numObservables : Nat
  logicalWidth : Nat
  enqueueSyndrome : List UInt8 → RoundType → Call τ Bool
  obsCorrections : Call τ (Option (List UInt8))
  streamingResult : Call τ StreamingResult
  clearCorrections : Call τ Unit
  resetDecoder : Call τ Unit
  mappingTable : Nat → Option RoundType

structure Host (η : Type) where
  pinDeviceCached : Call η Unit
  captureCallback : Option (List UInt8 → Call η Unit)

inductive TargetCall where
  | enqueue (bits : List UInt8) (result : Option Bool)
  | read (bits : Option (List UInt8))
  | clear (ok : Bool)
  | reset (ok : Bool)

inductive ShotState where
  | collecting
  | resultReady
  | failed
  deriving DecidableEq

structure DecodingSession (τ : Type) where
  target : τ
  shotState : ShotState
  acceptedSyndromes : Nat
  graphResult : StreamingResult
  calls : List TargetCall

variable {τ η α : Type}

namespace Endpoint

variable (e : Endpoint τ)

def numLogicalMeasurements : Nat := if e.isGraph then e.logicalWidth else 0

def chunkLimit : Option Nat := if e.isGraph then none else some e.numMsynPerDecode

def mayConsume (live : Option StreamingResult) : Bool :=
  e.numLogicalMeasurements = 0 ∨ ∃ r ∈ live, r.status = .complete

end Endpoint

/-- What a call into the endpoint has found out: whether an operation completed, and the live result. -/
structure ResultUpdate where
  operationCompleted : Bool
  live : Option StreamingResult

/-- What a read answers: a status and the result, empty unless the status is OK. -/
abbrev Answer := RpcStatus × List UInt8

/-- `RPCResponse`. -/
structure Response where
  status : RpcStatus
  requestId : UInt32
  ptpTimestamp : UInt64
  result : List UInt8

namespace DecodingSession

variable (e : Endpoint τ) (s : DecodingSession τ)

def fail : DecodingSession τ := { s with shotState := .failed }

def ready (completed : Bool) : DecodingSession τ :=
  if completed then { s with shotState := .resultReady, acceptedSyndromes := 0 } else s

/-- Catch a `std::exception` and latch the failure. -/
def latch (answer : α) :
    Except Thrown α × DecodingSession τ → Except Thrown α × DecodingSession τ
  | (.error (.standard _), s) => (.ok answer, s.fail)
  | (.error .other, s) => (.error .other, s)
  | (.ok a, s) => (.ok a, s)

def latchAll (answer : α) : Except Thrown α × DecodingSession τ → α × DecodingSession τ
  | (.error _, s) => (answer, s.fail)
  | (.ok a, s) => (a, s)

def streamingResult : Except Thrown StreamingResult × DecodingSession τ :=
  match e.streamingResult s.target with
  | (.error t, target) => (.error t, { s with target := target })
  | (.ok r, target) => (.ok r, { s with target := target })

def captureResultUpdate (enqueueResult : Bool) :
    Except Thrown ResultUpdate × DecodingSession τ :=
  if !e.isGraph then (.ok ⟨enqueueResult, none⟩, s)
  else
    match streamingResult e s with
    | (.error t, s) => (.error t, s)
    | (.ok r, s) =>
      if r.status = .failed then
        (.error (.standard ("task graph streaming failed: " ++ r.error)), s)
      else if (0 < r.generation ∧ (r.status = .available ∨ r.status = .complete)) ∧
          s.graphResult.completedOperations < r.completedOperations then
        if r.values.length ≠ s.graphResult.values.length then
          (.error (.standard "task graph result snapshot does not match its output width"), s)
        else (.ok ⟨true, some r⟩, { s with graphResult := r })
      else (.ok ⟨false, some r⟩, s)

def refreshGraphResult : Except Thrown Unit × DecodingSession τ :=
  if !e.isGraph then (.ok (), { s with graphResult := .empty })
  else
    match streamingResult e s with
    | (.error t, s) => (.error t, s)
    | (.ok r, s) => (.ok (), { s with graphResult := r })

/-! ## Cores -/

/-- What `enqueue_core` tries: `bits` go to the endpoint, unless they are more than the volume takes. -/
def enqueueBits (bits : List UInt8) (type : RoundType) : Except Thrown Unit × DecodingSession τ :=
  let s := { s with shotState := .collecting }
  if ∃ budget ∈ e.chunkLimit, budget < s.acceptedSyndromes ∨
      budget - s.acceptedSyndromes < bits.length then
    (.error (.standard "Syndrome volume exceeds decoder measurement capacity"), s)
  else
    match e.enqueueSyndrome bits type s.target with
    | (.error t, target) =>
      (.error t, { s with
        target := target
        acceptedSyndromes := s.acceptedSyndromes + bits.length
        calls := s.calls ++ [.enqueue bits none] })
    | (.ok didDecode, target) =>
      let s := { s with
        target := target
        acceptedSyndromes := s.acceptedSyndromes + bits.length
        calls := s.calls ++ [.enqueue bits (some didDecode)] }
      if !e.isGraph ∨ didDecode ∨ type = .final then
        match captureResultUpdate e s didDecode with
        | (.error t, s) => (.error t, s)
        | (.ok update, s) => (.ok (), s.ready update.operationCompleted)
      else (.ok (), s)

def enqueueCore (req : EnqueueView) (type : RoundType) : Except Thrown Unit × DecodingSession τ :=
  if s.shotState = .failed then (.ok (), s)
  else latch () (enqueueBits e s (unpackBits req.packedBits req.numSyndromes) type)

def publishedCorrections : Except Thrown (Option (List UInt8)) × DecodingSession τ :=
  if e.isGraph then (.ok (some s.graphResult.values), s)
  else
    match e.obsCorrections s.target with
    | (.error t, target) => (.error t, { s with target := target, calls := s.calls ++ [.read none] })
    | (.ok bits, target) => (.ok bits, { s with target := target, calls := s.calls ++ [.read bits] })

/-- Consume what was read. -/
def clearCorrections : Except Thrown Unit × DecodingSession τ :=
  match e.clearCorrections s.target with
  | (.error t, target) => (.error t, { s with target := target, calls := s.calls ++ [.clear false] })
  | (.ok (), target) =>
    match refreshGraphResult e { s with target := target, calls := s.calls ++ [.clear true] } with
    | (.error t, s) => (.error t, s)
    | (.ok (), s) => (.ok (), { s with shotState := .collecting })

/-- The end of a read that has its bits: pack them, and consume them if it is a reset read. -/
def deliver (live : Option StreamingResult) (returnSize : Nat) (reset : Bool) (capacity : Nat)
    (bits : List UInt8) : Except Thrown Answer × DecodingSession τ :=
  if reset ∧ ¬ e.mayConsume live then (.ok (.notReady, []), s)
  else
    let resultLen := bitPackedBytes returnSize
    if capacity < resultLen then (.ok (.internalError, []), s)
    else
      let out := packBits bits resultLen returnSize
      if reset then
        match clearCorrections e s with
        | (.error t, s) => (.error t, s)
        | (.ok (), s) => (.ok (.ok, out), s)
      else (.ok (.ok, out), s)

/-- What `read_result_core` tries, for a range that was checked. -/
def readResult (logical : Bool) (first returnSize : Nat) (reset : Bool) (capacity : Nat) :
    Except Thrown Answer × DecodingSession τ :=
  let width := if logical then e.numLogicalMeasurements else e.numObservables
  if logical ∧ width = 0 then (.ok (.badRequest, []), s)
  else if (if logical then width < first ∨ width - first < returnSize else returnSize ≠ width) then
    (.ok (.badRequest, []), s)
  else
    match (if e.isGraph then captureResultUpdate e s false else (.ok ⟨false, none⟩, s)) with
    | (.error t, s) => (.error t, s)
    | (.ok update, s) =>
      let s := s.ready update.operationCompleted
      if logical then
        match update.live.bind (·.logicalMeasurements first returnSize) with
        | none => (.ok (.notReady, []), s)
        | some bits => deliver e s update.live returnSize reset capacity bits
      else if s.shotState ≠ .resultReady then (.ok (.notReady, []), s)
      else
        match publishedCorrections e s with
        | (.error t, s) => (.error t, s)
        | (.ok none, s) => (.ok (.internalError, []), s.fail)
        | (.ok (some bits), s) => deliver e s update.live returnSize reset capacity bits

def readResultCore (logical : Bool) (view : ResultView) (capacity : Nat) :
    Except Thrown Answer × DecodingSession τ :=
  if view.returnSize ≤ 0 ∨ view.first < 0 then (.ok (.badRequest, []), s)
  else if s.shotState = .failed then (.ok (.internalError, []), s)
  else latch (.internalError, [])
    (readResult e s logical view.first.toNat view.returnSize.toNat view.reset capacity)

/-- What `reset_core` tries. -/
def resetTarget : Except Thrown RpcStatus × DecodingSession τ :=
  match e.resetDecoder s.target with
  | (.error t, target) => (.error t, { s with target := target, calls := s.calls ++ [.reset false] })
  | (.ok (), target) =>
    match refreshGraphResult e { s with
        target := target
        acceptedSyndromes := 0
        calls := s.calls ++ [.reset true] } with
    | (.error t, s) => (.error t, s)
    | (.ok (), s) => (.ok .ok, { s with shotState := .collecting })

def resetCore : Except Thrown RpcStatus × DecodingSession τ :=
  latch .internalError (resetTarget e s)

/-! ## Handlers -/

variable (host : Host η) (h : η)

/-- `write_response` and `ResultWriter::commit`: the answer to a slot. -/
def respond (slot : Slot) (answer : Answer) : Response :=
  ⟨answer.1, slot.header.requestId, slot.header.ptpTimestamp, answer.2⟩

def pinned (next : η → (Except Thrown α × DecodingSession τ) × η) :
    (Except Thrown α × DecodingSession τ) × η :=
  match host.pinDeviceCached h with
  | (.error t, h) => ((.error t, s), h)
  | (.ok (), h) => next h

/-- The syndromes as they are saved: the highest bit of each byte first. -/
def savedSyndromes (req : EnqueueView) : List UInt8 :=
  (List.range req.numSyndromes).foldl (fun packed i =>
    if (req.packedBits.getD (i / 8) 0 >>> UInt8.ofNat (i % 8)) &&& 1 ≠ 0 then
      packed.modify (i / 8) fun b => b ||| (1 <<< UInt8.ofNat (7 - i % 8))
    else packed) (List.replicate req.byteCount 0)

/-- `capture_syndromes`, and go on. -/
def captured (req : EnqueueView) (next : η → (Except Thrown α × DecodingSession τ) × η) :
    (Except Thrown α × DecodingSession τ) × η :=
  match host.captureCallback with
  | none => next h
  | some callback =>
    match callback (savedSyndromes req) h with
    | (.error t, h) => ((.error t, s), h)
    | (.ok (), h) => next h

def handleEnqueue (slot : Slot) : Response × DecodingSession τ × η :=
  match parseEnqueue slot with
  | none => (respond slot (.badRequest, []), s.fail, h)
  | some req =>
    match e.mappingTable req.syndromeMappingId with
    | none => (respond slot (.badRequest, []), s.fail, h)
    | some type =>
      let r := pinned s host h fun h => captured s host h req fun h => (enqueueCore e s req type, h)
      (respond slot (.ok, []), (latchAll () r.1).2, r.2)

/-- `handle_result_request`: the slot that the answer is written to is as large as that of the
request. -/
def handleResultRequest (logical : Bool) (slot : Slot) : Response × DecodingSession τ × η :=
  match parseResultRequest logical slot with
  | none => (respond slot (.badRequest, []), s, h)
  | some view =>
    let r := pinned s host h fun h => (readResultCore e s logical view slot.payload.length, h)
    let a := latchAll (.internalError, []) r.1
    (respond slot (if a.1.1 = .ok then a.1 else (a.1.1, [])), a.2, r.2)

def handleGetCorrections : Slot → Response × DecodingSession τ × η :=
  handleResultRequest e s host h false

def handleGetLogicalMeasurements : Slot → Response × DecodingSession τ × η :=
  handleResultRequest e s host h true

def handleReset (slot : Slot) : Response × DecodingSession τ × η :=
  match parseReset slot with
  | none => (respond slot (.badRequest, []), s, h)
  | some _ =>
    let r := pinned s host h fun h => (resetCore e s, h)
    let a := latchAll .internalError r.1
    (respond slot (a.1, []), a.2, r.2)

end DecodingSession

inductive Handler where
  | enqueue
  | getCorrections
  | getLogicalMeasurements
  | reset
  deriving DecidableEq

/-- A request: a slot of any content and the handler it was given to. -/
structure Request where
  handler : Handler
  slot : Slot

def DecodingSession.handle (e : Endpoint τ) (s : DecodingSession τ) (host : Host η) (h : η)
    (r : Request) : Response × DecodingSession τ × η :=
  match r.handler with
  | .enqueue => s.handleEnqueue e host h r.slot
  | .getCorrections => s.handleGetCorrections e host h r.slot
  | .getLogicalMeasurements => s.handleGetLogicalMeasurements e host h r.slot
  | .reset => s.handleReset e host h r.slot

end CudaqQec.Realtime
