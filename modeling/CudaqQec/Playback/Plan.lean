import CudaqQec.Playback.Schedule
import CudaqQec.Lib.Arena

/-!
# Playback plans

`plan`: every frame whose bytes are known before the run is built in file order, into one arena, and the
requests that a run can make are counted. A source is drawn from ahead of time until an event on it counts
its rounds at run time. Arenas are indexed with 32 bits.

A source and a session are what the emulator asks of them; a syndrome bit is a byte that is 0 or 1.
-/

namespace CudaqQec.Playback

open Checked Arena

/-- `run_params`, without its times. -/
structure RunParams where
  collectEnqueueAcks : Bool := true
  finalMappingId : Int64 := 0

structure RoundPlan where
  frameOffset : Nat
  frameLen : Nat
  bitsOffset : Nat
  bitsCount : Nat
  deriving DecidableEq

abbrev EventPlan := List RoundPlan

/-- A `session`: which object it is, and the largest frame it carries. -/
structure Session where
  object : Nat
  maxFrameBytes : Nat := 0

/-- The `syndrome_source`s by id, over a state of them all. -/
structure Sources (σ : Type) where
  contains : Nat → Bool
  isStreamed : Nat → Bool
  nextRound : Nat → σ → Except Error (List Bool × σ)
  readData : Nat → σ → Except Error (List Bool × σ)

structure RunPlan where
  sched : Schedule
  frameArena : List UInt8
  eventPlans : List EventPlan
  router : Nat → Option Session
  sources : Nat → Bool
  params : RunParams
  maxRequests : Nat

/-! ## Frames -/

def Event.wire (e : Event) : Realtime.Event :=
  ⟨.ofNat e.decoderId, e.op, .ofNat e.first, e.reset⟩

def bitBytes (bits : List Bool) : List UInt8 := bits.map fun b => if b then 1 else 0

def returnSizeFor (e : Event) : Nat := max e.returnSize e.expectedCount

/-- The frame of an event's request: a round carries bits, and nothing else does. -/
def requestFrame (params : RunParams) (e : Event) (rid : UInt32) (bits : List Bool) : List UInt8 :=
  match e.op with
  | .reset => Realtime.buildResetFrame e.wire.decoderId rid
  | .getCorrections | .getLogicalMeasurements =>
    Realtime.buildReadFrame e.wire (.ofNat (returnSizeFor e)) rid
  | .stream | .enqueueData =>
    Realtime.buildEnqueueFrame e.wire params.finalMappingId rid (bitBytes bits)

/-- `sizeof(RPCResponse)`. -/
def responseSize : Nat := 24

/-- `to_string(operation)`. -/
def operationName : Operation → String
  | .reset => "reset"
  | .stream => "stream"
  | .enqueueData => "enqueue_data"
  | .getCorrections => "get_corrections"
  | .getLogicalMeasurements => "get_logical_measurements"

/-! ## Checks -/

def refuse (what : String) : Fault := .thrown (invalid what)

def flagOf (raised : List Bool) (id : Nat) : Except Fault Bool :=
  match raised[id]? with
  | some flag => .ok flag
  | none => .error .outOfBounds

/-- One event of `check_signal_order`. -/
def checkSignals (names : List (List Char)) (raised : List Bool) (e : Event × Nat) :
    Except Fault (List Bool) := do
  let nameOf id := String.ofList (names.getD id [])
  if e.1.op = .stream ∧ e.1.untilSignalId ≠ kNoSignal then
    let flag ← flagOf raised e.1.untilSignalId
    throwIf (flag = false)
      (refuse ("event " ++ toString e.2 ++ " streams until signal '" ++ nameOf e.1.untilSignalId ++
        "', which no earlier 'signal=' event raises"))
  if e.1.afterSignalId ≠ kNoSignal then
    let flag ← flagOf raised e.1.afterSignalId
    throwIf (flag = false)
      (refuse ("event " ++ toString e.2 ++ " dispatches after signal '" ++ nameOf e.1.afterSignalId ++
        "', which no earlier 'signal=' event raises"))
  if e.1.signalId = kNoSignal then return raised
  else
    let _ ← flagOf raised e.1.signalId
    return raised.set e.1.signalId true

def checkSignalOrder (sched : Schedule) : Except Fault (List Bool) :=
  sched.events.zipIdx.foldlM (checkSignals sched.signalNames)
    (List.replicate sched.signalNames.length false)

def checkRoutes {σ : Type} (router : Nat → Option Session) (sources : Sources σ) (e : Event) :
    Except Fault Unit := do
  throwIf (router e.decoderId = none)
    (refuse ("no session routes decoder_id=" ++ toString e.decoderId))
  throwIf (e.sourceId ≠ kNoSource ∧ (e.op = .stream ∨ e.op = .enqueueData) ∧
      sources.contains e.sourceId = false)
    (refuse ("no syndrome_source registered for source_id=" ++ toString e.sourceId))

/-- One event of the check that no session serves two decoders: the owners of the sessions so far. -/
def checkOwner (router : Nat → Option Session) (owners : List (Nat × Nat)) (e : Event) :
    Except Fault (List (Nat × Nat)) :=
  match router e.decoderId with
  | none => .ok owners
  | some session =>
    match owners.lookup session.object with
    | none => .ok (owners ++ [(session.object, e.decoderId)])
    | some owner => do
      throwIf (owner ≠ e.decoderId)
        (refuse ("decoder_id=" ++ toString e.decoderId ++ " and decoder_id=" ++ toString owner ++
          " share one session instance -- each decoder_id must have its own"))
      return owners

/-! ## Frames ahead of time -/

structure Placing where
  frames : List UInt8
  plan : EventPlan := []

def place (i : Nat) (e : Event) (limit : Nat) (bytes : List UInt8) (bitsOffset bitsCount : Nat)
    (p : Placing) : Except Fault Placing := do
  throwIf (limit ≠ 0 ∧ limit < bytes.length)
    (refuse ("event " ++ toString i ++ " (decoder_id=" ++ toString e.decoderId ++ ") builds a " ++
      toString bytes.length ++ "-byte frame, exceeding the session's max_frame_bytes=" ++
      toString limit))
  return ⟨p.frames ++ bytes,
    p.plan ++ [⟨u32 p.frames.length, u32 bytes.length, bitsOffset, bitsCount⟩]⟩

@[grind =] def placeLiteral (params : RunParams) (i : Nat) (e : Event) (limit : Nat) (syndromes : List Bool) :
    Nat → Placing → Except Fault Placing
  | 0, p => .ok p
  | n + 1, p => do
    throwIf (syndromes.length < e.syndromeOffset + e.syndromeCount) .outOfBounds
    let p ← place i e limit (requestFrame params e 0 (slice syndromes e.syndromes)) e.syndromeOffset
      e.syndromeCount p
    placeLiteral params i e limit syndromes n p

structure Drawing (σ : Type) where
  e : Event
  placing : Placing
  syndromes : List Bool
  sources : σ

/-- Rounds drawn from a source, `n` at most: a dry source ends them. -/
@[grind =] def drawRounds {σ : Type} (params : RunParams) (sources : Sources σ) (i limit : Nat) :
    Nat → Bool → Drawing σ → Except Fault (Drawing σ)
  | 0, _, d => .ok d
  | n + 1, first, d => do
    let (round, state) ← thrown ((if d.e.op = .enqueueData then sources.readData else sources.nextRound)
      d.e.sourceId d.sources)
    if round = [] then return { d with sources := state }
    else
      let offset := u32 d.syndromes.length
      let count := u32 round.length
      let syndromes := d.syndromes ++ round
      let e := if first then { d.e with syndromeOffset := offset, syndromeCount := count } else d.e
      let placing ← place i e limit (requestFrame params e 0 (slice syndromes (offset, count))) offset
        count d.placing
      drawRounds params sources i limit n false ⟨e, placing, syndromes, state⟩

structure PlanState (σ : Type) where
  frames : List UInt8 := []
  syndromes : List Bool
  events : List Event := []
  plans : List EventPlan := []
  /-- The sources that an event draws from at run time. -/
  live : List Nat := []
  sources : σ

def drawsLive {σ : Type} (sources : Sources σ) (live : List Nat) (e : Event) : Bool :=
  ¬ (e.op = .enqueueData ∨ e.untilSignalId = kNoSignal) ∨ sources.isStreamed e.sourceId ∨
    e.sourceId ∈ live

/-- The rounds of an event that are known before the run. -/
def planRounds {σ : Type} (params : RunParams) (sources : Sources σ) (i limit : Nat) (e : Event)
    (st : PlanState σ) : Except Fault (PlanState σ) :=
  if e.sourceId = kNoSource then do
    let p ← placeLiteral params i e limit st.syndromes e.streamMinRounds ⟨st.frames, []⟩
    return { st with frames := p.frames, events := st.events ++ [e], plans := st.plans ++ [p.plan] }
  else if drawsLive sources st.live e then
    return { st with
      events := st.events ++ [e], plans := st.plans ++ [[]], live := st.live ++ [e.sourceId] }
  else do
    let d ← drawRounds params sources i limit (if e.op = .enqueueData then 1 else e.streamMinRounds)
      true ⟨e, ⟨st.frames, []⟩, st.syndromes, st.sources⟩
    return { st with
      frames := d.placing.frames, syndromes := d.syndromes, events := st.events ++ [d.e]
      plans := st.plans ++ [d.placing.plan], sources := d.sources }

def planSingle {σ : Type} (params : RunParams) (i limit : Nat) (e : Event) (st : PlanState σ) :
    Except Fault (PlanState σ) := do
  let p ← place i e limit (requestFrame params e 0 []) 0 0 ⟨st.frames, []⟩
  return { st with frames := p.frames, events := st.events ++ [e], plans := st.plans ++ [p.plan] }

/-- One event of `plan`. -/
def planEvent {σ : Type} (params : RunParams) (router : Nat → Option Session) (sources : Sources σ)
    (st : PlanState σ) (ev : Event × Nat) : Except Fault (PlanState σ) :=
  let (e, i) := ev
  let limit := ((router e.decoderId).map (·.maxFrameBytes)).getD 0
  let replyBytes := responseSize + Realtime.bitPackedBytes (returnSizeFor e)
  match e.op with
  | .reset => planSingle params i limit e st
  | .getCorrections | .getLogicalMeasurements => do
    throwIf (limit ≠ 0 ∧ limit < replyBytes)
      (refuse ("event " ++ toString i ++ ": a " ++ toString replyBytes ++ "-byte " ++
        operationName e.op ++ " reply exceeds the session's max_frame_bytes=" ++ toString limit))
    planSingle params i limit e st
  | .stream | .enqueueData => planRounds params sources i limit e st

def requestBound (e : Event) (plan : EventPlan) : Nat :=
  match e.op with
  | .reset | .getCorrections | .getLogicalMeasurements => 1
  | .stream | .enqueueData => if plan = [] then e.streamMaxRounds else plan.length

def plan {σ : Type} (sched : Schedule) (router : Nat → Option Session) (sources : Sources σ)
    (params : RunParams) (state : σ) : Except Fault (RunPlan × σ) := do
  let _ ← checkSignalOrder sched
  let _ ← sched.events.mapM (checkRoutes router sources)
  let st ← sched.events.zipIdx.foldlM (planEvent params router sources)
    { syndromes := sched.syndromeArena, sources := state }
  let _ ← st.events.foldlM (checkOwner router) []
  let total := (List.zipWith requestBound st.events st.plans).sum
  throwIf (uint32Max < total)
    (refuse ("schedule's worst-case request count (" ++ toString total ++
      ") exceeds what a single run can index (" ++ toString uint32Max ++ ")"))
  return ({
    sched := { sched with events := st.events, syndromeArena := st.syndromes }
    frameArena := st.frames
    eventPlans := st.plans
    router := router
    sources := sources.contains
    params := params
    maxRequests := u32 total }, st.sources)

end CudaqQec.Playback
