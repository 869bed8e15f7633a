import CudaqQec.Node.Window
import CudaqQec.ExtendedDem.Memory

/-!
# Memory windows of arbitrary length

`memory_window_node`: a sliding window over a shot whose length is not known before its last round.
The constructor prepares one model for every place a window can have — at the beginning of the shot,
inside it, at its end — and the stream only looks them up. Rounds stand in a ring together with what
the faults committed so far flip in their detectors (`carry`). While the terminal phases cannot be
told from the repeating one, a regular window waits for as many rounds as they may take.

A call that throws keeps what it has changed up to there, so a call is a function to the state and
what came of it. `Fire` records what a window decoded and committed.
-/

namespace CudaqQec

open Checked SparseBinaryMatrix Toggle

/-! ## What a node is built from -/

structure FaultDecoder (σ : Type) where
  resultType : DecodeResultType
  syndromeSize : Nat
  blockSize : Nat
  cudaDeviceId : Int
  decode : σ → List UInt8 → σ × List SoftValue
  /-- An error pattern has one value for each mechanism. -/
  length_result : resultType = .errors → ∀ s dets, (decode s dets).2.length = blockSize

/-- What a decoder is asked for: `H`, its priors and `D`. -/
structure ModelInit where
  h : SparseBinaryMatrix
  errorRates : List ℚ
  d : SparseBinaryMatrix

/-- What `node_build_context` has for a memory window. `getDecoder` is `get_decoder` with the
context's decoder name and parameters. -/
structure MemoryContext (σ τ : Type) where
  D : SparseBinaryMatrix
  O : SparseBinaryMatrix
  dec : InnerDecoder τ
  cudaDeviceId : Int
  spr : Nat
  spr_lt : spr < 2 ^ 32
  numMeasurements : Nat
  memorySpec : DemChunksSpec
  decoderType : String
  decoderParams : List String
  getDecoder : ModelInit → Except Error (FaultDecoder σ)

/-- `model_key`: the phase a window starts with, whether it ends the shot, and its rounds. -/
structure ModelKey where
  startPhase : Nat
  terminal : Bool
  rounds : Nat
  deriving DecidableEq

/-- `memory_window_node::model`, without the buffers that every window writes anew. -/
structure MemoryModel (σ : Type) where
  d : SparseBinaryMatrix
  h : SparseBinaryMatrix
  o : SparseBinaryMatrix
  dec : FaultDecoder σ
  measurementOffsets : List Nat
  detectorOffsets : List Nat
  faultOffsets : List Nat
  detectorRounds : List Nat

/-- The phases of a shot and how they are windowed. -/
structure MemoryRecipe where
  spec : DemChunksSpec
  schedule : WindowSpec
  prefixPhases : List PhaseId
  bulkPhase : PhaseId
  finalPhases : List PhaseId
  tailLookahead : Nat
  prefixWidths : List Nat
  bulkWidth : Nat
  finalWidth : Nat

/-- A `memory_window_node`. -/
structure MemoryNode (σ : Type) extends MemoryRecipe where
  models : List (ModelKey × MemoryModel σ)
  widest : Nat
  detectorWidth : Nat
  numObservables : Nat

def MemoryRecipe.invalid (what : String) : Error := .invalidArgument ("memory window: " ++ what)

def MemoryRecipe.overflow (what : String) : Error := .overflowError ("memory window: " ++ what)

/-! ## Models -/

/-- `compile_model`, between two rounds. -/
structure ModelBuild where
  chunks : List ExtendedDem
  rows : List (List Nat)
  previousStart : Nat
  previousCount : Nat
  start : Nat
  measurementOffsets : List Nat
  detectorOffsets : List Nat

def ModelBuild.initial (previousWidth : Nat) : ModelBuild where
  chunks := []
  rows := []
  previousStart := 0
  previousCount := previousWidth
  start := previousWidth
  measurementOffsets := [previousWidth]
  detectorOffsets := [0]

/-- One value of a round's `D`: an index counts the previous round's measurements first. -/
def placeDValue (b : ModelBuild) (width : Nat) (acc : DRow) (value : Int) : Except Error DRow :=
  if value = -1 then .ok ⟨acc.rows ++ [acc.row], []⟩
  else do
    let index := value.toNat
    throwIf (value < 0 ∨ b.previousCount + width ≤ index)
      (MemoryRecipe.invalid "D index is outside previous/current measurements")
    let column := if index < b.previousCount then b.previousStart + index
      else b.start + index - b.previousCount
    throwIf (uint32Max < column) (MemoryRecipe.overflow "measurement index exceeds CSR range")
    return ⟨acc.rows, acc.row ++ [column]⟩

namespace MemoryRecipe

variable {σ τ : Type} (r : MemoryRecipe)

def measurementWidth (spec : DemChunksSpec) (bulkWidth : Nat) (phase : DemChunkSpec) : Nat :=
  (spec.measurementCount phase).getD bulkWidth

def phaseAt (key : ModelKey) (i : Nat) : PhaseId :=
  let first := sizeT ((key.rounds : Int) - r.finalPhases.length)
  if key.terminal ∧ first ≤ i then r.finalPhases.getD (i - first) ⟨0⟩
  else if key.startPhase + i < r.prefixPhases.length then
    r.prefixPhases.getD (key.startPhase + i) ⟨0⟩
  else r.bulkPhase

/-- The `D` of a round: its own, or the memory convention. -/
def phaseD (ctx : MemoryContext σ τ) (previousCount expectedRows : Nat) (phase : DemChunkSpec) :
    Except Error (List Int) :=
  if r.spec.hasDSparse then .ok phase.dSparse
  else do
    throwIf (expectedRows ≠ ctx.spr)
      (invalid "default D requires one detector per measurement")
    return phase.dSparse ++ (List.range expectedRows).flatMap fun (k : Nat) =>
      (if previousCount ≠ 0 then [Int.ofNat k] else []) ++ [Int.ofNat (previousCount + k), -1]

/-- One round of `compile_model`. -/
def addRound (ctx : MemoryContext σ τ) (key : ModelKey) (b : ModelBuild) (i : Nat) :
    Except Error ModelBuild := do
  let phase ← r.spec.getPhase (r.phaseAt key i)
  let width := measurementWidth r.spec r.bulkWidth phase
  throwIf (uint32Max - b.start < width) (overflow "window width exceeds CSR range")
  let chunk ← demChunkFromSpec phase [r.spec.seam.toSeam, r.spec.seam.fromSeam] "dem_chunk"
  let expectedRows := u32 (chunk.numInteriorRows + chunk.seamRowsOrZero r.spec.seam.toSeam)
  let phaseD ← r.phaseD ctx b.previousCount expectedRows phase
  let acc ← phaseD.foldlM (placeDValue b width) ⟨[], []⟩
  throwIf (acc.row ≠ [] ∨ acc.rows.length ≠ expectedRows)
    (invalid "D rows do not match the phase's detector rows")
  return {
    chunks := b.chunks ++ [chunk]
    rows := b.rows ++ acc.rows
    previousStart := b.start
    previousCount := width
    start := b.start + width
    measurementOffsets := b.measurementOffsets ++ [b.start + width]
    detectorOffsets := b.detectorOffsets ++ [(b.rows ++ acc.rows).length] }

/-- The measurements of the round before a window. -/
def previousWidth (startPhase : Nat) : Nat :=
  if startPhase = 0 then 0
  else if startPhase ≤ r.prefixWidths.length then r.prefixWidths.getD (startPhase - 1) 0
  else r.bulkWidth

def detectorRoundsOf (detectorOffsets : List Nat) : List Nat :=
  (List.range (detectorOffsets.length - 1)).flatMap fun i =>
    List.replicate (detectorOffsets.getD (i + 1) 0 - detectorOffsets.getD i 0) i

/-- The matrices of the rounds of a window, and their decoder. -/
def finishModel (ctx : MemoryContext σ τ) (key : ModelKey) (b : ModelBuild) :
    Except Error (MemoryModel σ) := do
  throwIf (uint32Max < b.start) (overflow "measurement count exceeds CSR range")
  let d ← fromNestedCsr (u32 b.rows.length) (u32 b.start) b.rows
  let h ← demChunksToPcm b.chunks r.spec.seam.fromSeam r.spec.seam.toSeam
  let observableRows ← demChunksToOSparse b.chunks
  let o ← fromNestedCsr (u32 observableRows.length) h.numCols observableRows
  throwIf (h.numRows ≠ b.rows.length ∨ o.numRows ≠ ctx.O.numRows)
    (invalid "model and measurement/output layouts disagree")
  let faultOffsets := demChunksToFaultOffsets b.chunks
  let dec ← ctx.getDecoder ⟨h, b.chunks.flatMap (·.errorRates), d.canonicalize⟩
  throwIf (dec.resultType = .observables ∨ dec.syndromeSize ≠ h.numRows ∨
      dec.blockSize ≠ faultOffsets.getLastD 0 ∨ dec.cudaDeviceId ≠ ctx.cudaDeviceId)
    (invalid "decoder must return matching fault columns on the configured device")
  return {
    d := d.canonicalize
    h := h
    o := o.canonicalize
    dec := dec
    measurementOffsets := b.measurementOffsets
    detectorOffsets := b.detectorOffsets
    faultOffsets := faultOffsets
    -- A terminal window carries nothing on.
    detectorRounds := if key.terminal then [] else detectorRoundsOf b.detectorOffsets }

def compileModel (ctx : MemoryContext σ τ) (key : ModelKey) : Except Error (MemoryModel σ) := do
  throwIf (uint32Max < r.previousWidth key.startPhase) (overflow "context width exceeds CSR range")
  let b ← (List.range key.rounds).foldlM (r.addRound ctx key)
    (.initial (r.previousWidth key.startPhase))
  r.finishModel ctx key b

/-! ## The constructor -/

/-- The keys of the models that the constructor prepares, in its order. The last start phase stands
for every window that begins after the first repeating round. -/
def preparedKeys : List ModelKey :=
  ((List.range (r.prefixPhases.length + 2)).flatMap fun start =>
    (if start % r.schedule.stride = 0 ∨ start = r.prefixPhases.length + 1
      then [⟨start, false, r.schedule.size⟩] else []) ++ [⟨start, true, r.schedule.size⟩]) ++
  ((List.range (r.schedule.size + r.tailLookahead + 1)).filter fun n =>
    decide (r.spec.minimumRounds ≤ n ∧ n ≠ r.schedule.size)).map fun n => ⟨0, true, n⟩

def lookahead (finalPhases : List PhaseId) : Nat :=
  if 1 < finalPhases.length then finalPhases.length else 0

def checkSchedule (schedule : WindowSpec) : Except Error Unit :=
  throwIf (schedule.size ≤ schedule.stride ∨ schedule.size < 3 ∨
      schedule.size ≤ u32 (schedule.startGuard + schedule.endGuard) ∨ schedule.endGuard = 0 ∨
      schedule.stride ≠ schedule.core)
    (.invalidArgument ("memory window requires a trailing guard and stride equal to the committed " ++
      "core"))

def widthOf (spec : DemChunksSpec) (spr : Nat) (id : PhaseId) : Except Error Nat := do
  let phase ← spec.getPhase id
  return measurementWidth spec spr phase

/-- The constructor up to the models. -/
def create (ctx : MemoryContext σ τ) (schedule : WindowSpec) : Except Error MemoryRecipe := do
  let spec := ctx.memorySpec
  let span ← spec.repeatingRounds
  throwIf (span.before = 0 ∨ span.after = 0 ∨ schedule.size ≤ span.before + span.after)
    (.invalidArgument ("memory window requires an initial prefix and terminal phases " ++
      "fitting in the window"))
  throwIf (ctx.decoderType = "")
    (.invalidArgument ("memory window requires a decoder construction " ++
      "recipe, not a decoder instance"))
  throwIf ("O" ∈ ctx.decoderParams)
    (.invalidArgument ("memory window projects observables at graph level; inner decoder " ++
      "parameters must not supply O"))
  checkSchedule schedule
  let sequence ← spec.phaseSequence
  let prefixPhases := sequence.take span.before
  let bulkPhase ← spec.repeatingPhase
  let finalPhases := sequence.drop (sequence.length - span.after)
  throwIf (schedule.startGuard < lookahead finalPhases)
    (invalid "leading guard must retain terminal phase lookahead")
  throwIf (uint32Max - schedule.size < lookahead finalPhases)
    (overflow "delivery window exceeds range")
  let prefixWidths ← prefixPhases.mapM (widthOf spec ctx.spr)
  let declaredBulkWidth ← widthOf spec ctx.spr bulkPhase
  let finalWidth ← widthOf spec ctx.spr (finalPhases.getLastD ⟨0⟩)
  throwIf (ctx.spr = 0 ∨ finalWidth = 0 ∨ 0 ∈ prefixWidths)
    (.invalidArgument ("memory window requires nonzero initial, bulk " ++
      "and final measurement records"))
  let finalWidths ← finalPhases.mapM (widthOf spec ctx.spr)
  throwIf (declaredBulkWidth ≠ ctx.spr ∨ finalWidth ≠ ctx.spr ∨
      finalWidths.any (· ≠ ctx.spr) ∨ prefixWidths.any (· ≠ ctx.spr))
    (.invalidArgument "arbitrary_length requires equal measurement widths in every phase")
  return {
    spec := spec
    schedule := schedule
    prefixPhases := prefixPhases
    bulkPhase := bulkPhase
    finalPhases := finalPhases
    tailLookahead := lookahead finalPhases
    prefixWidths := prefixWidths
    bulkWidth := ctx.spr
    finalWidth := finalWidth }

end MemoryRecipe

namespace MemoryNode

variable {σ τ : Type}

/-- The window of the inherited finite-shot path: as long as its stride, without guards. -/
def wholeWindow (schedule : WindowSpec) : WindowSpec where
  size := schedule.size
  stride := schedule.size
  startGuard := 0
  endGuard := 0
  size_lt := schedule.size_lt
  stride_lt := schedule.size_lt
  startGuard_lt := zero_lt_uint32
  endGuard_lt := zero_lt_uint32

def mostDetectors (m : MemoryModel σ) : Nat :=
  ((List.range (m.detectorOffsets.length - 1)).map fun i =>
    m.detectorOffsets.getD (i + 1) 0 - m.detectorOffsets.getD i 0).foldl max 0

/-- The constructor. -/
def create (ctx : MemoryContext σ τ) (schedule : WindowSpec) : Except Fault (MemoryNode σ) := do
  let _ ← WindowNode.create ctx.D ctx.O ctx.dec ctx.spr (wholeWindow schedule) []
    ctx.numMeasurements
  let r ← thrown (MemoryRecipe.create ctx schedule)
  let models ← thrown (r.preparedKeys.mapM fun key => do
    let m ← r.compileModel ctx key
    return (key, m))
  return {
    r with
    models := models
    widest := (r.bulkWidth :: r.finalWidth :: r.prefixWidths).foldl max 0
    detectorWidth := (models.map fun p => mostDetectors p.2).foldl max 0
    numObservables := ctx.O.numRows }

end MemoryNode

/-! ## Windows -/

structure RoundBuffer where
  measurements : List UInt8
  carry : List UInt8
  width : Nat

/-- The members that calls change. -/
structure MemoryState (σ : Type) where
  dec : ModelKey → σ
  partialBytes : Nat
  rounds : Nat
  committed : Nat
  nextFire : Nat
  terminalComplete : Bool
  flushed : Bool
  failed : Bool
  ring : Nat → RoundBuffer
  corrections : List Bool
  coverage : Option (Nat × Nat)

structure MemoryWindow (σ : Type) where
  key : ModelKey
  model : MemoryModel σ
  start : Nat
  windowEnd : Nat
  measurements : List UInt8
  residual : List UInt8

/-- What a window did: the rounds it committed, and what of its estimate that is. -/
structure Fire where
  key : ModelKey
  start : Nat
  measurements : List UInt8
  residual : List UInt8
  estimate : List SoftValue
  bits : List Bool
  beginRound : Nat
  endRound : Nat

namespace MemoryNode

variable {σ : Type} (n : MemoryNode σ)

def ringSize : Nat := n.schedule.size + n.tailLookahead + 1

/-- A node as constructed. -/
def initialState (dec : ModelKey → σ) : MemoryState σ where
  dec := dec
  partialBytes := 0
  rounds := 0
  committed := 0
  nextFire := n.schedule.size + n.tailLookahead
  terminalComplete := false
  flushed := false
  failed := false
  ring := fun _ => ⟨List.replicate n.widest 0, List.replicate n.detectorWidth 0, 0⟩
  corrections := List.replicate n.numObservables false
  coverage := none

def nextWidth (st : MemoryState σ) : Nat :=
  if st.rounds < n.prefixWidths.length then n.prefixWidths.getD st.rounds 0 else n.bulkWidth

def rawChunkLimit (st : MemoryState σ) : Nat :=
  if st.terminalComplete then 0 else n.nextWidth st - st.partialBytes

def nextSlot (slot : Nat) : Nat := if slot + 1 = n.ringSize then 0 else slot + 1

def slotAt (start i : Nat) : Nat := n.nextSlot^[i] (start % n.ringSize)

/-- The measurements of the round before a window, as far as its model reads them. -/
def contextOf (st : MemoryState σ) (m : MemoryModel σ) (start : Nat) :
    Except Fault (List UInt8) :=
  let context := m.measurementOffsets.headD 0
  let previous := st.ring ((start - 1) % n.ringSize)
  if context = 0 then .ok []
  else do
    throwIf (previous.width ≠ context)
      (Fault.thrown (.logicError "memory window: context width mismatch"))
    return previous.measurements.take context

def inputOf (st : MemoryState σ) (m : MemoryModel σ) (start i : Nat) :
    Except Fault (List UInt8) := do
  let input := st.ring (n.slotAt start i)
  throwIf (input.width ≠ m.measurementOffsets.getD (i + 1) 0 - m.measurementOffsets.getD i 0)
    (Fault.thrown (.logicError
      "memory window: buffered phase does not match the physical model"))
  return input.measurements.take input.width

def residualOf (st : MemoryState σ) (m : MemoryModel σ) (start rounds : Nat)
    (measurements : List UInt8) : List UInt8 :=
  let dets := detectInto m.d measurements
  (List.range rounds).flatMap fun i =>
    (List.range (m.detectorOffsets.getD (i + 1) 0 - m.detectorOffsets.getD i 0)).map fun j =>
      dets.getD (m.detectorOffsets.getD i 0 + j) 0 ^^^
        (st.ring (n.slotAt start i)).carry.getD j 0

/-- `models_.at`. -/
def modelAt (key : ModelKey) : Except Fault (MemoryModel σ) :=
  match n.models.find? fun p => p.1 = key with
  | some p => .ok p.2
  | none => .error (.thrown (.outOfRange "map::at"))

/-- `decode_window` up to the call of the decoder. -/
def gather (st : MemoryState σ) (terminal : Bool) : Except Fault (MemoryWindow σ) := do
  let windowEnd := if terminal then st.rounds else st.rounds - n.tailLookahead
  -- FINAL may come before the first regular fire; then nothing is committed yet.
  let rounds := if terminal ∧ st.committed = 0 then windowEnd else min windowEnd n.schedule.size
  let start := windowEnd - rounds
  let key : ModelKey := ⟨min start (n.prefixPhases.length + 1), terminal, rounds⟩
  let m ← n.modelAt key
  let context ← n.contextOf st m start
  let inputs ← (List.range rounds).mapM (n.inputOf st m start)
  let measurements := context ++ inputs.flatten
  return {
    key := key
    model := m
    start := start
    windowEnd := windowEnd
    measurements := measurements
    residual := n.residualOf st m start rounds measurements }

def targetSlot (first r : Nat) : Nat :=
  if n.ringSize ≤ first + r then first + r - n.ringSize else first + r

def toggleCarry (m : MemoryModel σ) (first : Nat) (ring : Nat → RoundBuffer) (d : Nat) :
    Nat → RoundBuffer :=
  let r := m.detectorRounds.getD d 0
  let slot := n.targetSlot first r
  Function.update ring slot { ring slot with
    carry := (ring slot).carry.modify (d - m.detectorOffsets.getD r 0) (· ^^^ 1) }

/-- `scatter_fault_syndrome`: the detectors that the faults of columns `lo` up to `hi` flip. -/
def scatterFaultSyndrome (h : SparseBinaryMatrix) (e : List SoftValue) (lo hi : Nat) : List Nat :=
  (List.range' lo (hi - lo)).flatMap fun col =>
    if convertSoftToHard (e.getD col (.finite 0)) then h.groups.getD col [] else []

def commitEnd (st : MemoryState σ) (w : MemoryWindow σ) : Nat :=
  if w.key.terminal then st.rounds else sizeT ((w.windowEnd : Int) - n.schedule.endGuard)

/-- Columns `lo` up to `hi` of a result, committed. A terminal window ends the shot, so nothing reads
what it would carry. -/
def commitColumns (st : MemoryState σ) (w : MemoryWindow σ) (result : List SoftValue) (lo hi : Nat) :
    MemoryState σ × Fire :=
  let committed := maskGuardRange result lo hi
  let bits := projectInto w.model.o committed
  ({ st with
      ring := if w.key.terminal then st.ring
        else (scatterFaultSyndrome w.model.h committed lo hi).foldl
          (n.toggleCarry w.model (w.start % n.ringSize)) st.ring
      corrections := xorBits st.corrections bits
      coverage := some (st.committed, n.commitEnd st w)
      committed := n.commitEnd st w },
    ⟨w.key, w.start, w.measurements, w.residual, result, bits, st.committed, n.commitEnd st w⟩)

/-- `decode_window` after the call of the decoder. -/
@[grind =] def commit (st : MemoryState σ) (w : MemoryWindow σ) (result : List SoftValue) :
    Except Fault (MemoryState σ × Fire) := do
  throwIf (result.length ≠ w.model.faultOffsets.getLastD 0)
    (Fault.thrown (.outOfRange "memory window: decoder returned the wrong fault width"))
  throwIf (st.committed < w.start ∨ n.commitEnd st w ≤ st.committed)
    (Fault.thrown (.logicError "memory window: noncontiguous commit ownership"))
  let lo ← elementAt w.model.faultOffsets (st.committed - w.start)
  let hi ← elementAt w.model.faultOffsets (n.commitEnd st w - w.start)
  return n.commitColumns st w result lo hi

def decodeWindow (st : MemoryState σ) (terminal : Bool) : MemoryState σ × Except Fault Fire :=
  match n.gather st terminal with
  | .error e => (st, .error e)
  | .ok w =>
    let answer := w.model.dec.decode (st.dec w.key) w.residual
    let st := { st with dec := Function.update st.dec w.key answer.1 }
    match n.commit st w answer.2 with
    | .error e => (st, .error e)
    | .ok (st, fire) => (st, .ok fire)

/-! ## Calls -/

/-- A chunk in the slot of the round that is being received. -/
def receive (st : MemoryState σ) (data : List UInt8) : MemoryState σ :=
  let slot := st.rounds % n.ringSize
  let opened : RoundBuffer := if st.partialBytes = 0 then
      { st.ring slot with
        width := n.nextWidth st
        carry := List.replicate (st.ring slot).carry.length 0 }
    else st.ring slot
  { st with
    partialBytes := st.partialBytes + data.length
    ring := Function.update st.ring slot { opened with
      measurements := opened.measurements.take st.partialBytes ++ data ++
        opened.measurements.drop (st.partialBytes + data.length) } }

/-- `enqueue` once the round that is being received is complete. -/
def completeRound (st : MemoryState σ) (type : RoundType) :
    MemoryState σ × Except Fault (Option Fire) :=
  let st := { st with rounds := st.rounds + 1, partialBytes := 0 }
  if type = .final then ({ st with terminalComplete := true }, .ok none)
  else if st.rounds = st.nextFire then
    match n.decodeWindow st false with
    | (st, .error e) => ({ st with failed := true }, .error e)
    | (st, .ok fire) => ({ st with nextFire := st.nextFire + n.schedule.stride }, .ok (some fire))
  else (st, .ok none)

def enqueue (st : MemoryState σ) (data : List UInt8) (type : RoundType) :
    MemoryState σ × Except Fault (Option Fire) :=
  if st.failed then
    (st, .error (.thrown (.logicError "memory window: reset required after failure")))
  else if st.flushed ∨ st.terminalComplete then
    (st, .error (.thrown (.logicError "memory window: input after terminal phase")))
  else if data.length = 0 ∧ type = .final then
    (st, .error (.thrown (.invalidArgument "memory window: empty FINAL round")))
  else if n.rawChunkLimit st < data.length then
    (st, .error (.thrown (.invalidArgument
      "memory window: input exceeds the next phase record")))
  else
    let slot := st.rounds % n.ringSize
    let st := n.receive st data
    if st.partialBytes ≠ (st.ring slot).width then
      if type = .final then
        ({ st with failed := true },
          .error (.thrown (.invalidArgument "memory window: truncated final phase")))
      else (st, .ok none)
    else n.completeRound st type

@[grind =] def flush (st : MemoryState σ) : MemoryState σ × Except Fault (Option Fire) :=
  if st.failed then
    (st, .error (.thrown (.logicError "memory window: reset required after failure")))
  else if st.flushed then (st, .ok none)
  else if st.partialBytes ≠ 0 ∨ st.rounds < n.spec.minimumRounds then
    ({ st with failed := true }, .error (.thrown (.invalidArgument
      "memory window: flush requires a complete init/bulk/final shot")))
  else
    match n.decodeWindow st true with
    | (st, .error e) => ({ st with failed := true }, .error e)
    | (st, .ok fire) => ({ st with flushed := true }, .ok (some fire))

/-- `reset_streaming_state`. Measurements stay in the ring until a round overwrites them. -/
def resetStreamingState (st : MemoryState σ) : MemoryState σ :=
  { st with
    rounds := 0
    committed := 0
    partialBytes := 0
    nextFire := n.schedule.size + n.tailLookahead
    terminalComplete := false
    flushed := false
    failed := false
    coverage := none
    ring := fun slot => { st.ring slot with
      carry := List.replicate (st.ring slot).carry.length 0
      width := 0 }
    corrections := List.replicate st.corrections.length false }

/-- `clear_corrections`, which opens a flushed node for the next shot. -/
def clearCorrections (st : MemoryState σ) : MemoryState σ :=
  if st.flushed then n.resetStreamingState st
  else { st with corrections := List.replicate st.corrections.length false }

/-! ## Shots -/

end MemoryNode

/-- What one call of `enqueue` is given. -/
structure Chunk where
  data : List UInt8
  type : RoundType

namespace MemoryNode

variable {σ : Type} (n : MemoryNode σ)

/-- Chunks one after the other, up to the first that throws, with the windows they fire. -/
@[grind =] def deliver (st : MemoryState σ) : List Chunk → MemoryState σ × Except Fault (List Fire)
  | [] => (st, .ok [])
  | c :: cs =>
    match n.enqueue st c.data c.type with
    | (st, .error e) => (st, .error e)
    | (st, .ok fire) =>
      match deliver st cs with
      | (st, .error e) => (st, .error e)
      | (st, .ok fires) => (st, .ok (fire.toList ++ fires))

def runShot (st : MemoryState σ) (chunks : List Chunk) :
    MemoryState σ × Except Fault (List Fire) :=
  match n.deliver st chunks with
  | (st, .error e) => (st, .error e)
  | (st, .ok fires) =>
    match n.flush st with
    | (st, .error e) => (st, .error e)
    | (st, .ok fire) => (st, .ok (fires ++ fire.toList))

end MemoryNode

end CudaqQec
