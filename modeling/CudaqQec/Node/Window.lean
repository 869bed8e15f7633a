import CudaqQec.Decoder.Enqueue

/-!
# Window nodes

`window_node`: a buffer of rounds that is decoded whenever it is full and then slides by `stride`
rounds. A guarded window commits only the rounds of its core. The leading guard is kept on the first
fire of a shot, and the trailing guard of the last one is committed by `flush`, out of a snapshot of
what that fire decoded.

A call that throws keeps what it has changed up to there, so a call is a function to the state and
what came of it (`Outcome`). `Event` records what a fire or a flush commits. Left out are the value
that streaming edges read, the candidate sink and the path that is handed detection events, which a
window that slides does not have.
-/

namespace CudaqQec

open Checked SparseBinaryMatrix Toggle

/-! ## Nodes -/

structure WindowSpec where
  size : Nat
  stride : Nat
  startGuard : Nat
  endGuard : Nat
  size_lt : size < 2 ^ 32
  stride_lt : stride < 2 ^ 32
  startGuard_lt : startGuard < 2 ^ 32
  endGuard_lt : endGuard < 2 ^ 32

namespace WindowSpec

/-- The counts as `uint32_t`. -/
def ofCounts (size stride startGuard endGuard : Nat) : WindowSpec :=
  ⟨u32 size, u32 stride, u32 startGuard, u32 endGuard, u32_lt _, u32_lt _, u32_lt _, u32_lt _⟩

variable (ws : WindowSpec)

def core : Nat := sub32 (sub32 ws.size ws.startGuard) ws.endGuard

def Guarded : Prop := 0 < ws.startGuard ∨ 0 < ws.endGuard

instance : Decidable ws.Guarded := inferInstanceAs (Decidable (_ ∨ _))

/-- Bytes that stay in the buffer after a fire, as a `uint32_t`. -/
def keep (spr : Nat) : Nat := u32 (sub32 ws.size ws.stride * spr)

end WindowSpec

/-- The decoder of a node, with whatever state it keeps. A decode that is stopped has no result. -/
structure InnerDecoder (σ : Type) where
  resultType : DecodeResultType
  syndromeSize : Nat
  blockSize : Nat
  blockSize_lt : blockSize < 2 ^ 64
  decode : σ → List UInt8 → σ × Option (List SoftValue)
  /-- An error pattern has one value for each mechanism. -/
  length_result : resultType = .errors → ∀ s dets r, (decode s dets).2 = some r →
    r.length = blockSize

/-- What a `window_node` is built with. -/
structure WindowNode (σ : Type) where
  D : SparseBinaryMatrix
  O : SparseBinaryMatrix
  dec : InnerDecoder σ
  spr : Nat
  ws : WindowSpec
  loCol : Nat
  hiCol : Nat
  bufSize : Nat

/-- `numeric_limits<size_t>::max()`. -/
def sizeMax : Nat := 2 ^ 64 - 1

def elementAt (l : List Nat) (i : Nat) : Except Fault Nat :=
  match l[i]? with
  | some x => .ok x
  | none => .error .outOfBounds

theorem elementAt_eq_ok {l : List Nat} {i x : Nat} : elementAt l i = .ok x ↔ l[i]? = some x := by
  unfold elementAt
  split
  · next h => simp [h]
  · next h => simp [h]

namespace WindowNode

variable {σ : Type}

def invalid (what : String) : Fault := .thrown (.invalidArgument ("window_node: " ++ what))

/-- The columns that a guarded window commits. -/
def guardColumns (dec : InnerDecoder σ) (ws : WindowSpec) (faultOffsets : List Nat) :
    Except Fault (Nat × Nat) := do
  throwIf (dec.resultType = .observables)
    (invalid ("guards need a decoder that returns an error pattern; this one projects to " ++
      "observables itself, leaving no fault columns to withhold"))
  throwIf (ws.size ≤ ws.stride)
    (invalid ("guards need a sliding window (stride " ++ toString ws.stride ++
      " must be less than size " ++ toString ws.size ++ ")"))
  throwIf (ws.size ≤ u32 (ws.startGuard + ws.endGuard))
    (invalid ("guards leave no rounds to commit (start_guard " ++ toString ws.startGuard ++
      " + end_guard " ++ toString ws.endGuard ++ " must be less than size " ++ toString ws.size ++
      ")"))
  throwIf (ws.stride ≠ ws.core)
    (invalid ("guarded windows must tile the stream exactly once (stride " ++ toString ws.stride ++
      " must equal size - start_guard - end_guard = " ++ toString ws.core ++ ")"))
  throwIf (faultOffsets.length ≠ ws.size + 1)
    (invalid ("guards need " ++ toString (u32 (ws.size + 1)) ++ " fault-column offsets for a " ++
      toString ws.size ++ "-round window, got " ++ toString faultOffsets.length))
  let lo ← elementAt faultOffsets ws.startGuard
  let hi ← elementAt faultOffsets (sub32 ws.size ws.endGuard)
  return (lo, hi)

def committedColumns (dec : InnerDecoder σ) (ws : WindowSpec) (faultOffsets : List Nat) :
    Except Fault (Nat × Nat) :=
  if ws.Guarded then guardColumns dec ws faultOffsets else .ok (0, sizeMax)

/-- The constructor. -/
def create (D O : SparseBinaryMatrix) (dec : InnerDecoder σ) (spr : Nat) (ws : WindowSpec)
    (faultOffsets : List Nat) (numMeasurements : Nat) : Except Fault (WindowNode σ) := do
  throwIf (ws.stride = 0 ∨ ws.size < ws.stride)
    (invalid ("stride (step_size) must be between 1 and size (window_size), got " ++
      toString ws.stride ++ " for size " ++ toString ws.size))
  let columns ← committedColumns dec ws faultOffsets
  throwIf (dec.syndromeSize ≠ D.numRows)
    (invalid ("the inner decoder reads " ++ toString dec.syndromeSize ++
      " detectors but D produces " ++ toString D.numRows ++
      "; it was built on a different DEM than this node's"))
  throwIf (dec.resultType ≠ .observables ∧ dec.blockSize < O.numCols)
    (invalid ("O references column " ++ toString (O.numCols - 1) ++
      " but the inner decoder predicts only " ++ toString dec.blockSize ++ " mechanisms"))
  throwIf (numMeasurements ≠ 0 ∧ ws.stride ≠ ws.size)
    (invalid "rounds of different widths cannot slide (step_size must equal window_size)")
  return {
    D := D.toCsr
    O := O.toCsr
    dec := dec
    spr := spr
    ws := ws
    loCol := columns.1
    hiCol := columns.2
    bufSize := if numMeasurements ≠ 0 then numMeasurements else ws.size * spr }

end WindowNode

/-! ## Committing a result -/

def maskGuardRange (result : List SoftValue) (lo hi : Nat) : List SoftValue :=
  result.mapIdx fun i v => if i < lo ∨ hi ≤ i then .finite 0 else v

/-- `detect_into`: the XOR of each row's measurements. -/
def detectInto (D : SparseBinaryMatrix) (buffer : List UInt8) : List UInt8 :=
  D.groups.map (xorColumns buffer)

/-- `project_into` a buffer of zeros: the parity of each row of `O` over the errors. -/
def projectInto (O : SparseBinaryMatrix) (errors : List SoftValue) : List Bool :=
  O.groups.map fun row => row.foldl (fun parity column =>
    parity ^^ convertSoftToHard (DecoderData.valueAt errors column)) false

/-- `commit_into` a buffer of zeros, of a result of either type. -/
def commitColumns (resultType : DecodeResultType) (O : SparseBinaryMatrix) (result : List SoftValue)
    (lo hi : Nat) : Except Error (List Bool) :=
  match resultType with
  | .observables => do
    throwIf (result.length ≠ O.numRows)
      (.outOfRange ("window_node: decoder projects to observables and returned " ++
        toString result.length ++ " values, O has " ++ toString O.numRows ++ " rows"))
    return result.map convertSoftToHard
  | .errors => do
    throwIf (result.length < O.numCols)
      (.outOfRange ("window_node: decoder returned " ++ toString result.length ++
        " values, O references column " ++ toString (O.numCols - 1)))
    return projectInto O (maskGuardRange result lo hi)

/-- What a fire or a flush puts into the corrections: columns `lo` up to `hi` of a result. A fire
decoded `dets` for it. -/
inductive WindowEvent where
  | fired (dets : List UInt8) (result : List SoftValue) (lo hi : Nat)
  | flushed (result : List SoftValue) (lo hi : Nat)
  deriving DecidableEq

namespace WindowEvent

def isFired : WindowEvent → Bool
  | .fired .. => true
  | .flushed .. => false

def result : WindowEvent → List SoftValue
  | .fired _ r _ _ => r
  | .flushed r _ _ => r

def Covers : WindowEvent → Nat → Prop
  | .fired _ _ lo hi, column => lo ≤ column ∧ column < hi
  | .flushed _ lo hi, column => lo ≤ column ∧ column < hi

def flips (O : SparseBinaryMatrix) : WindowEvent → List Bool
  | .fired _ r lo hi => projectInto O (maskGuardRange r lo hi)
  | .flushed r lo hi => projectInto O (maskGuardRange r lo hi)

end WindowEvent

/-! ## Streaming -/

/-- The members that calls change. -/
structure WindowState (σ : Type) where
  dec : σ
  firesSinceReset : Nat
  bytesIn : Nat
  buf : List UInt8
  corr : List Bool
  lastResult : List SoftValue
  lastResultValid : Bool
  flushed : Bool

/-- The buffer after a fire: its last rounds moved to the front. -/
def WindowState.slide {σ : Type} (st : WindowState σ) (ws : WindowSpec) (spr : Nat) : WindowState σ :=
  { st with
    buf := (st.buf.drop (u32 (ws.stride * spr))).take (ws.keep spr) ++ st.buf.drop (ws.keep spr)
    bytesIn := ws.keep spr }

/-- What comes of a call: whether it returned true, with what it committed, or an exception. -/
inductive Outcome where
  | returned (value : Bool) (event : Option WindowEvent)
  | threw (e : Error)
  deriving DecidableEq

@[grind =] def Outcome.event : Outcome → Option WindowEvent
  | .returned _ event => event
  | .threw _ => none

inductive WindowCall where
  | enqueue (chunk : List UInt8)
  | flush
  | clearCorrections
  | resetStreamingState

namespace WindowNode

variable {σ : Type} (n : WindowNode σ)

/-- A node as constructed. -/
def initialState (s : σ) : WindowState σ where
  dec := s
  firesSinceReset := 0
  bytesIn := 0
  buf := List.replicate n.bufSize 0
  corr := List.replicate n.O.numRows false
  lastResult := []
  lastResultValid := false
  flushed := false

def commitInto : List SoftValue → Nat → Nat → Except Error (List Bool) :=
  commitColumns n.dec.resultType n.O

/-- `fire`. The snapshot is taken before the commit may throw. -/
def fire (st : WindowState σ) (dets : List UInt8) : WindowState σ × Outcome :=
  match n.dec.decode st.dec dets with
  | (s, none) => ({ st with dec := s }, .returned false none)
  | (s, some result) =>
    let valid := decide (n.hiCol < result.length)
    let st := { st with
      dec := s
      lastResultValid := valid
      lastResult := if valid then result else st.lastResult }
    let lo := if st.firesSinceReset = 0 then 0 else n.loCol
    match n.commitInto result lo n.hiCol with
    | .error e => (st, .threw e)
    | .ok bits =>
      ({ st with corr := xorBits st.corr bits, firesSinceReset := st.firesSinceReset + 1 },
        .returned true (some (.fired dets result lo n.hiCol)))

def slide (st : WindowState σ) : WindowState σ := st.slide n.ws n.spr

def rejectAfterFlush (call : String) : Error :=
  .logicError ("window_node: " ++ call ++ " after flush() with its tail still in the corrections " ++
    "buffer. Those rounds are exactly the ones the next window's core commits, so resuming would " ++
    "XOR them back out and silently zero them. Read the corrections, then clear_corrections() " ++
    "for the next shot, or reset_decoder() to also drop the accumulated rounds.")

def append (st : WindowState σ) (chunk : List UInt8) : WindowState σ :=
  { st with
    buf := st.buf.take st.bytesIn ++ chunk ++ st.buf.drop (st.bytesIn + chunk.length)
    bytesIn := st.bytesIn + chunk.length }

/-- `enqueue`. A chunk that does not fit is ignored. -/
@[grind =] def enqueue (st : WindowState σ) (chunk : List UInt8) : WindowState σ × Outcome :=
  if st.flushed then (st, .threw (rejectAfterFlush "enqueue"))
  else if st.buf.length < st.bytesIn + chunk.length then (st, .returned false none)
  else
    let st := append st chunk
    if st.bytesIn < st.buf.length then (st, .returned false none)
    else
      match n.fire st (detectInto n.D st.buf) with
      | (st, .threw e) => (st, .threw e)
      -- A decode that was stopped slides the window as well.
      | (st, .returned _ event) => (n.slide st, .returned true event)

/-- `clear_corrections`, which opens a flushed node again. -/
def clearCorrections (st : WindowState σ) : WindowState σ :=
  { st with corr := List.replicate st.corr.length false, flushed := false }

def resetStreamingState (st : WindowState σ) : WindowState σ :=
  clearCorrections { st with
    flushed := false
    lastResultValid := false
    bytesIn := 0
    buf := List.replicate st.buf.length 0
    firesSinceReset := 0 }

/-- `flush`: the columns that the last fire withheld. -/
def flush (st : WindowState σ) : WindowState σ × Outcome :=
  if st.flushed ∨ st.firesSinceReset = 0 ∨ st.lastResultValid = false then (st, .returned false none)
  else
    let event := WindowEvent.flushed st.lastResult n.hiCol sizeMax
    ({ st with flushed := true, corr := xorBits st.corr (event.flips n.O) },
      .returned true (some event))

def step (st : WindowState σ) : WindowCall → WindowState σ × Outcome
  | .enqueue chunk => n.enqueue st chunk
  | .flush => n.flush st
  | .clearCorrections => (clearCorrections st, .returned true none)
  | .resetStreamingState => (resetStreamingState st, .returned true none)

@[grind =] def run (st : WindowState σ) : List WindowCall → WindowState σ × List WindowEvent
  | [] => (st, [])
  | call :: calls =>
    let (st, outcome) := n.step st call
    let (st, events) := run st calls
    (st, outcome.event.toList ++ events)

end WindowNode

end CudaqQec
