import CudaqQec.Playback.Plan
import Mathlib.Logic.Function.Basic

/-!
# Playback runs

`run`: one thread dispatches the events in file order and waits for nothing but its deadlines and the
signals, while the sessions report what becomes of the requests: `handle_reply` once for each request, and
`handle_event_done` once for each event, in any order. An event is settled when its replies are as many as
its requests.

The state is split by who writes it: `Timing` belongs to the timing thread, `Workers` to the sessions. A
step is one uninterrupted stretch of one thread, and what comes from outside (a drawn round, a reply, the
clock) is part of the `Action`. Deadlines are left out: a step may come at any time.
-/

namespace CudaqQec.Playback

open Checked Arena
open Realtime (RpcStatus)

/-! ## What the threads share -/

structure Tag where
  event : Nat
  logIndex : Nat
  deriving DecidableEq

structure Sent where
  tag : Tag
  frame : List UInt8

/-- The arguments of an `event_done`. -/
structure Done where
  event : Nat
  issued : Nat
  term : Int
  hasTerm : Bool

inductive StreamTerminate where
  | ok
  | sourceExhausted
  | exhaustedRounds
  | error

def StreamTerminate.code : StreamTerminate → Int
  | .ok => 100
  | .sourceExhausted => 101
  | .exhaustedRounds => 102
  | .error => 103

def statusCode : RpcStatus → Int
  | .ok => 0
  | .invalidDecoder => 1
  | .badRequest => 2
  | .internalError => 3
  | .notReady => 4
  | .busy => 5
  | .syndromesDropped => 6

def kNoStatus : Int := -1

def RunPlan.ev (p : RunPlan) (i : Nat) : Event := p.sched.events.getD i {}

def RunPlan.ep (p : RunPlan) (i : Nat) : EventPlan := p.eventPlans.getD i []

def eventLabel (p : RunPlan) (i : Nat) : String :=
  "event " ++ toString i ++ " (" ++ operationName (p.ev i).op ++ ", decoder_id=" ++
    toString (p.ev i).decoderId ++ ")"

/-! ## The timing thread -/

/-- Where the timing thread is: event `i` and, in a stream, the rounds it has sent. -/
inductive Stage where
  /-- At the head of the loop over the events. -/
  | next (i : Nat)
  /-- In front of the dispatch of an event, which may wait for a signal. -/
  | waiting (i : Nat)
  /-- Behind the one request of an event. -/
  | sent (i : Nat)
  /-- At the head of the loop over the rounds. -/
  | streaming (i rounds : Nat)
  /-- Behind a round that may be the last. -/
  | deciding (i rounds : Nat)
  | finished (i : Nat)
  /-- Where an exception leaves `run`, or what it does is undefined. -/
  | failed (i rounds : Nat)

def Stage.index : Stage → Nat
  | .next i | .waiting i | .sent i | .streaming i _ | .deciding i _ | .finished i | .failed i _ => i

structure SentRecord where
  dispatched : Bool := false
  roundsStreamed : Nat := 0
  syndromeOffset : Nat := 0
  syndromeCount : Nat := 0
  requestIdOffset : Nat := 0
  requestIdCount : Nat := 0

/-- What the timing thread owns; the logs are indexed by request. -/
structure Timing where
  nextRequestId : Nat := 1
  nRequests : Nat := 0
  requestIdLog : Nat → Nat := fun _ => 0
  syndromeLog : List Bool := []
  frameArena : List UInt8
  records : Nat → SentRecord := fun _ => {}
  wire : List Sent := []
  stage : Stage := .next 0

/-- `begin_request`: the request's id and its index in the logs. -/
def beginRequest (t : Timing) (i : Nat) (bits : List Bool) (firstRound : Bool) :
    (Nat × Nat) × Timing :=
  let record := t.records i
  ((t.nextRequestId, t.nRequests), { t with
    nextRequestId := u32 (t.nextRequestId + 1)
    nRequests := u32 (t.nRequests + 1)
    requestIdLog := Function.update t.requestIdLog t.nRequests t.nextRequestId
    syndromeLog := t.syndromeLog ++ bits
    records := Function.update t.records i { record with
      requestIdOffset := if record.requestIdCount = 0 then t.nRequests else record.requestIdOffset
      requestIdCount := record.requestIdCount + 1
      syndromeOffset := if firstRound then u32 t.syndromeLog.length else record.syndromeOffset
      syndromeCount := u32 (record.syndromeCount + u32 bits.length) } })

/-- `set_request_id`, of the frame at an offset. -/
def setRequestId (bytes : List UInt8) (offset rid : Nat) : List UInt8 :=
  overwrite bytes (offset + 12) (Realtime.bytesOf 4 rid)

structure Advance where
  timing : Timing
  sent : List Tag := []
  done : List Done := []
  abort : Option String := none

/-- A request whose frame was built ahead of time. -/
def sendPlanned (t : Timing) (i : Nat) (rp : RoundPlan) (bits : List Bool) (firstRound : Bool)
    (stage : Stage) : Advance :=
  let ((rid, logIndex), t) := beginRequest t i bits firstRound
  let frames := setRequestId t.frameArena rp.frameOffset rid
  let tag : Tag := ⟨i, logIndex⟩
  { timing := { t with
      frameArena := frames
      wire := t.wire ++ [⟨tag, slice frames (rp.frameOffset, rp.frameLen)⟩]
      stage := stage }
    sent := [tag] }

def sendBuilt (t : Timing) (i : Nat) (built : List UInt8) (bits : List Bool) (firstRound : Bool)
    (stage : Stage) : Advance :=
  let ((rid, logIndex), t) := beginRequest t i bits firstRound
  let tag : Tag := ⟨i, logIndex⟩
  { timing := { t with wire := t.wire ++ [⟨tag, setRequestId built 0 rid⟩], stage := stage }
    sent := [tag] }

def endStream (t : Timing) (i rounds : Nat) (term : StreamTerminate) (abort : Option String) :
    Advance :=
  { timing := { t with
      records := Function.update t.records i { t.records i with roundsStreamed := rounds }
      stage := .next (i + 1) }
    done := [⟨i, rounds, term.code, true⟩]
    abort := abort }

/-- Where a stream goes on behind a round: below the floor nothing can stop it. -/
def afterRound (e : Event) (i rounds : Nat) : Stage :=
  if rounds < e.streamMinRounds then .streaming i rounds else .deciding i rounds

/-- Whether the frame of a drawn round is larger than what the session carries. -/
def oversized (p : RunPlan) (i : Nat) (bits : List Bool) : Bool :=
  let limit := ((p.router (p.ev i).decoderId).map (·.maxFrameBytes)).getD 0
  limit ≠ 0 ∧ limit < (requestFrame p.params (p.ev i) 0 bits).length

/-- One round of `run_stream`; `draw` is what the source gives, if it is asked. -/
def streamRound (p : RunPlan) (aborted : Bool) (draw : Except String (List Bool)) (t : Timing)
    (i rounds : Nat) : Advance :=
  let e := p.ev i
  let next := afterRound e i (rounds + 1)
  if aborted then endStream t i rounds .error none
  else if e.streamMaxRounds ≤ rounds then endStream t i rounds .exhaustedRounds none
  else if p.ep i ≠ [] then
    match (p.ep i)[rounds]? with
    | none => endStream t i rounds .sourceExhausted none
    | some rp =>
      sendPlanned t i rp (slice p.sched.syndromeArena (rp.bitsOffset, rp.bitsCount)) (rounds = 0) next
  else
    match draw with
    | .error what =>
      endStream t i rounds .error
        (some (eventLabel p i ++ " threw while drawing from its source: " ++ what ++
          "; aborting the run"))
    | .ok bits =>
      if bits = [] then endStream t i rounds .sourceExhausted none
      else if oversized p i bits then
        endStream t i rounds .error
          (some (eventLabel p i ++ " drew a round exceeding the session's max_frame_bytes; " ++
            "aborting the run"))
      else sendBuilt t i (requestFrame p.params e 0 bits) bits (rounds = 0) next

/-- `dispatch_event`, once nothing holds the event back. -/
def dispatchEvent (p : RunPlan) (t : Timing) (i : Nat) : Advance :=
  let e := p.ev i
  let t := { t with records := Function.update t.records i { t.records i with dispatched := true } }
  match e.op with
  | .reset | .getCorrections | .getLogicalMeasurements =>
    match (p.ep i)[0]? with
    | none => { timing := { t with stage := .failed i 0 } }
    | some rp => sendPlanned t i rp [] false (.sent i)
  | .stream | .enqueueData =>
    -- An event without planned rounds asks for its source first.
    { timing := { t with
        stage := if p.ep i = [] ∧ p.sources e.sourceId = false then .failed i 0 else .streaming i 0 } }

/-- A step of the timing thread: it reads whether the run is aborted, and which signals are raised. -/
def advance (p : RunPlan) (aborted : Bool) (raised : Nat → Bool) (draw : Except String (List Bool))
    (t : Timing) : Option Advance :=
  match t.stage with
  | .next i =>
    some { timing := { t with
      stage := if aborted ∨ p.sched.events.length ≤ i then .finished i else .waiting i } }
  | .waiting i =>
    if (p.ev i).afterSignalId ≠ kNoSignal ∧ raised (p.ev i).afterSignalId = false then
      some { timing := { t with stage := if aborted then .next (i + 1) else .waiting i } }
    else some (dispatchEvent p t i)
  | .sent i => some { timing := { t with stage := .next (i + 1) }, done := [⟨i, 1, 0, false⟩] }
  | .streaming i rounds => some (streamRound p aborted draw t i rounds)
  | .deciding i rounds =>
    let e := p.ev i
    if e.untilSignalId = kNoSignal then some (endStream t i rounds .ok none)
    else if p.sched.signalNames.length ≤ e.untilSignalId then
      some { timing := { t with stage := .failed i rounds } }
    else if raised e.untilSignalId then some (endStream t i rounds .ok none)
    else some { timing := { t with stage := .streaming i rounds } }
  | .finished _ | .failed _ _ => none

/-! ## The sessions -/

structure CollectorEntry where
  collected : Nat := 0
  expected : Nat := 0
  hasTerm : Bool := false
  term : Int := 0
  lastReturnNs : Nat := 0
  lastStatus : RpcStatus := .ok
  anyError : Bool := false
  completed : Bool := false

structure ReplyRecord where
  returnNs : Nat := 0
  status : Int := kNoStatus
  readCompleted : Bool := false
  correctionOffset : Nat := 0
  correctionCount : Nat := 0
  correctionMismatch : Bool := false

/-- What the sessions write. -/
structure Workers where
  collectors : Nat → CollectorEntry := fun _ => {}
  signals : Nat → Bool := fun _ => false
  records : Nat → ReplyRecord := fun _ => {}
  correctionLog : List UInt8 := []
  requestReturnNsLog : Nat → Nat := fun _ => 0
  requestStatusLog : Nat → Int := fun _ => kNoStatus
  /-- The events that were settled, in this order; the run itself does not keep them. -/
  settled : List Nat := []

def rejectTruncatedReply (status : RpcStatus) (replyLen returnSize : Nat) : RpcStatus :=
  if status = .ok ∧ replyLen < Realtime.bitPackedBytes returnSize then .internalError else status

def mismatchesExpected (sched : Schedule) (e : Event) (bits : List UInt8) : Bool :=
  e.expectedCount ≠ 0 ∧
    (bits.length ≠ e.expectedCount ∨ bits ≠ bitBytes (slice sched.expectedArena e.expectedBits))

def finalStatus (e : Event) (status : RpcStatus) (reply : List UInt8) : RpcStatus :=
  if e.op.readsResult then rejectTruncatedReply status reply.length (returnSizeFor e) else status

/-- A result that came back. -/
def noteCorrection (p : RunPlan) (i : Nat) (status : RpcStatus) (reply : List UInt8) (w : Workers) :
    Workers :=
  let e := p.ev i
  if e.op.readsResult ∧ status = .ok then
    let unpacked := Realtime.unpackBits reply (returnSizeFor e)
    { w with
      records := Function.update w.records i { w.records i with
        readCompleted := true
        correctionCount := returnSizeFor e
        correctionMismatch := mismatchesExpected p.sched e unpacked
        correctionOffset := u32 w.correctionLog.length }
      correctionLog := w.correctionLog ++ unpacked }
  else w

def hardError (status : RpcStatus) : Bool := status ≠ .ok ∧ status ≠ .notReady

/-- `abort_on_hard_error`: the warning, for an operation whose replies are looked at. -/
def abortOnHardError (p : RunPlan) (i : Nat) (status : RpcStatus) : Option String :=
  let e := p.ev i
  if hardError status ∧
      ((e.op = .stream ∨ e.op = .enqueueData) → p.params.collectEnqueueAcks = true) then
    some (eventLabel p i ++ " returned status " ++ toString (statusCode status) ++
      "; aborting the run")
  else none

def settle (p : RunPlan) (i now : Nat) (w : Workers) : Workers :=
  let col := w.collectors i
  let signal := (p.ev i).signalId
  if col.completed then w
  else { w with
    collectors := Function.update w.collectors i { col with completed := true }
    records := Function.update w.records i { w.records i with
      returnNs := if col.collected ≠ 0 then col.lastReturnNs else now
      status :=
        if col.hasTerm then (if col.anyError then StreamTerminate.error.code else col.term)
        else statusCode col.lastStatus }
    signals := if signal = kNoSignal then w.signals else Function.update w.signals signal true
    settled := w.settled ++ [i] }

/-- A reply counts for its event. -/
def collect (p : RunPlan) (i : Nat) (status : RpcStatus) (returnNs now : Nat) (w : Workers) :
    Workers :=
  let col := w.collectors i
  let col := { col with
    lastReturnNs := max col.lastReturnNs returnNs
    lastStatus := status
    anyError := col.anyError || hardError status
    collected := col.collected + 1 }
  let w := { w with collectors := Function.update w.collectors i col }
  if col.expected ≠ 0 ∧ col.collected = col.expected then settle p i now w else w

/-- `handle_reply`, but for the abort. -/
def handleReply (p : RunPlan) (tag : Tag) (status : RpcStatus) (reply : List UInt8)
    (returnNs now : Nat) (w : Workers) : Workers :=
  let status := finalStatus (p.ev tag.event) status reply
  let w := noteCorrection p tag.event status reply w
  collect p tag.event status returnNs now { w with
    requestReturnNsLog := Function.update w.requestReturnNsLog tag.logIndex returnNs
    requestStatusLog := Function.update w.requestStatusLog tag.logIndex (statusCode status) }

def handleEventDone (p : RunPlan) (done : Done) (now : Nat) (w : Workers) : Workers :=
  let col := { w.collectors done.event with
    expected := done.issued, hasTerm := done.hasTerm, term := done.term }
  let w := { w with collectors := Function.update w.collectors done.event col }
  if col.collected = col.expected then settle p done.event now w else w

/-! ## Runs -/

/-- A state of a run: what the threads own, and what is between them. -/
structure RunState where
  timing : Timing
  workers : Workers := {}
  aborted : Bool := false
  warnings : List String := []
  /-- The requests that have no reply yet. -/
  replies : List Tag := []
  /-- The events that were declared done, and are not yet reported so. -/
  dones : List Done := []

/-- `try_abort`, with the warning that only the first call leaves. -/
def RunState.abort (st : RunState) (warning : Option String) : RunState :=
  match warning with
  | none => st
  | some warning =>
    if st.aborted then st else { st with aborted := true, warnings := st.warnings ++ [warning] }

inductive Action where
  | timing (draw : Except String (List Bool))
  | reply (k : Nat) (status : RpcStatus) (reply : List UInt8) (returnNs now : Nat)
  | eventDone (k now : Nat)

/-- One step of a run: any thread that can go on may do so. -/
def step (p : RunPlan) (st : RunState) : Action → Option RunState
  | .timing draw =>
    (advance p st.aborted st.workers.signals draw st.timing).map fun out =>
      ({ st with
        timing := out.timing
        replies := st.replies ++ out.sent
        dones := st.dones ++ out.done }).abort out.abort
  | .reply k status reply returnNs now =>
    st.replies[k]?.map fun tag =>
      ({ st with
        workers := handleReply p tag status reply returnNs now st.workers
        replies := st.replies.eraseIdx k }).abort
          (abortOnHardError p tag.event (finalStatus (p.ev tag.event) status reply))
  | .eventDone k now =>
    st.dones[k]?.map fun done =>
      { st with
        workers := handleEventDone p done now st.workers
        dones := st.dones.eraseIdx k }

def start (p : RunPlan) : RunState := { timing := { frameArena := p.frameArena } }

def run (p : RunPlan) (actions : List Action) : Option RunState := actions.foldlM (step p) (start p)

end CudaqQec.Playback
