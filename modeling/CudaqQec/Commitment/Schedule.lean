import CudaqQec.Window.Place

/-!
# Schedules and their checks

`schedule_windows` places every window of a shot, layer by layer, and maps each incoming edge of a
window to the producer instance it reads. A schedule is then checked: sends match receives
(`check_deliveries`), every detectable fault is committed by one window (`check_commits`, F4), every
row some fault touches has one finalizer that learns of every other window's faults on it
(`check_rows`, F1 and F3), and every import is filled by one residual (`check_imports`).
-/

namespace CudaqQec

open Checked WindowRequest

/-! ## Schedules -/

/-- `window_layer`: the windows one `decode_window` node decodes. -/
structure WindowLayer where
  node : String
  request : WindowRequest
  deriving DecidableEq

/-- `task_graph_edge`: a send's way from producer to consumer; the consumer's window `k` reads the
producer's window `k + indexOffset`. -/
structure TaskGraphEdge where
  fromNode : String
  fromOutput : String
  toNode : String
  toInput : String
  indexOffset : Int := 0
  deriving DecidableEq

/-- `window_dependency`: the producer instance an edge maps an input to. `present` is the source's
`exists`. -/
structure WindowDependency where
  fromNode : String
  fromOutput : String
  k : Int
  toInput : String
  present : Bool
  deriving DecidableEq

/-- `scheduled_window`: one window instance of a shot, and what it waits for. -/
structure ScheduledWindow where
  node : String
  k : Int
  variant : VariantKey
  rounds : RoundRange
  commit : RoundRange
  buffers : List RoundRange
  input : WindowPort
  output : WindowPort
  sends : List WindowSend
  inputs : List WindowDependency
  deriving DecidableEq

structure WindowSchedule where
  numRounds : Nat
  windows : List ScheduledWindow
  deriving DecidableEq

/-! ## Texts -/

def RoundRange.describe (r : RoundRange) : String :=
  "[" ++ toString r.begin ++ ", " ++ toString r.stop ++ ")"

def describeRounds (ranges : List RoundRange) : String :=
  ", ".intercalate (ranges.map RoundRange.describe)

def TaskGraphEdge.describe (e : TaskGraphEdge) : String :=
  "edge " ++ e.fromNode ++ "." ++ e.fromOutput ++ " -> " ++ e.toNode ++ "." ++ e.toInput ++
    (if e.indexOffset ≠ 0 then " (index_offset " ++ toString e.indexOffset ++ ")" else "")

def ofShot (numRounds : Nat) : String := " of the " ++ toString numRounds ++ "-round shot"

def ScheduledWindow.name (w : ScheduledWindow) : String := w.node ++ "[" ++ toString w.k ++ "]"

def windowNames (ws : List ScheduledWindow) : String :=
  ", ".intercalate (ws.map ScheduledWindow.name)

def WindowDependency.describe (d : WindowDependency) (c : ScheduledWindow) : String :=
  TaskGraphEdge.describe ⟨d.fromNode, d.fromOutput, c.node, d.toInput, d.k - c.k⟩

def SendMode.describe : SendMode → String
  | .delta => "delta"
  | .residual => "residual"

/-- What `schedule_windows` throws. -/
def rejectSchedule (what : String) : Error := .invalidArgument ("schedule_windows: " ++ what)

/-- What `validate_commitment` throws. -/
def rejectCommitment (what : String) : Error := .invalidArgument ("validate_commitment: " ++ what)

/-! ## Scheduling -/

/-- `check_index_offsets`: no edge reaches further than the limit. -/
def checkIndexOffsets (edges : List TaskGraphEdge) (what : String) : Except Error Unit :=
  forM edges fun e =>
    throwIf (e.indexOffset < -windowRoundLimit ∨ e.indexOffset > windowRoundLimit)
      (.invalidArgument (what ++ ": " ++ e.describe ++ " reaches " ++
        (if e.indexOffset < 0 then "back" else "forward") ++ " beyond " ++
        toString windowRoundLimit ++ " instances, past any shot"))

def findLayer (layers : List WindowLayer) (node : String) : Option WindowLayer :=
  layers.find? fun l => l.node = node

@[grind =] def checkLayers : List WindowLayer → List String → Except Error Unit
  | [], _ => .ok ()
  | layer :: layers, seen => do
    checkRequest layer.request
    throwIf (layer.node ∈ seen) (rejectSchedule ("node '" ++ layer.node ++ "' is repeated"))
    checkLayers layers (layer.node :: seen)

def checkEdge (layers : List WindowLayer) (e : TaskGraphEdge) : Except Error Unit :=
  match findLayer layers e.fromNode, findLayer layers e.toNode with
  | some producer, some _ =>
    throwIf (!producer.request.sends.any fun send => send.id = e.fromOutput)
      (rejectSchedule (e.describe ++ ": " ++ e.fromNode ++ " has no send '" ++ e.fromOutput ++ "'"))
  | _, _ => .error (rejectSchedule (e.describe ++ " names a node that is not a window layer"))

def dependencyOf (layers : List WindowLayer) (R : Nat) (k : Int) (e : TaskGraphEdge) :
    Except Error WindowDependency :=
  match findLayer layers e.fromNode with
  | none => .error (.outOfRange "map::at")
  | some producer => do
    let instances ← shotInstances producer.request R
    return ⟨e.fromNode, e.fromOutput, k + e.indexOffset, e.toInput,
      decide (k + e.indexOffset ∈ instances)⟩

/-- One window of a layer. -/
def scheduleWindow (t : TemplateData) (layers : List WindowLayer) (edges : List TaskGraphEdge)
    (R : Nat) (layer : WindowLayer) (k : Int) : Except Error ScheduledWindow := do
  let w ← placeWindow t layer.request k R
  let variant ← windowVariantOf t layer.request k R
  let inputs ← (edges.filter fun e => e.toNode = layer.node).mapM (dependencyOf layers R k)
  return {
    node := layer.node
    k := k
    variant := variant
    rounds := w.rounds
    commit := w.commit
    buffers := w.buffers
    input := w.input
    output := w.output
    sends := w.sends
    inputs := inputs }

def scheduleLayer (t : TemplateData) (layers : List WindowLayer) (edges : List TaskGraphEdge)
    (R : Nat) (layer : WindowLayer) : Except Error (List ScheduledWindow) := do
  let instances ← shotInstances layer.request R
  instances.toList.mapM (scheduleWindow t layers edges R layer)

/-- `schedule_windows`: every window of a shot, by layer in the order given, then by `k`. -/
def scheduleWindows (t : TemplateData) (layers : List WindowLayer) (edges : List TaskGraphEdge)
    (R : Nat) : Except Error WindowSchedule := do
  checkIndexOffsets edges "schedule_windows"
  checkLayers layers []
  forM edges (checkEdge layers)
  let windows ← layers.mapM (scheduleLayer t layers edges R)
  return ⟨R, windows.flatten⟩

/-! ## Deliveries and imports -/

namespace WindowSchedule

variable (s : WindowSchedule)

/-- `s.windows[positions(s).at({node, k})]`. -/
def windowAt (node : String) (k : Int) : Except Error ScheduledWindow :=
  match s.windows.find? fun w => w.node = node ∧ w.k = k with
  | some w => .ok w
  | none => .error (.outOfRange "map::at")

end WindowSchedule

/-- `send_of`: the send of `p` that an input reads; `schedule_windows` checked that it is there. -/
def sendOf (p : ScheduledWindow) (d : WindowDependency) : WindowSend :=
  (p.sends.find? fun send => send.id = d.fromOutput).getD ⟨"", .delta, [], []⟩

@[grind =] def firstDifference : List Int → List Int → Option Int
  | [], [] => none
  | [], y :: _ => some y
  | x :: _, [] => some x
  | x :: xs, y :: ys => if x < y then some x else if y < x then some y else firstDifference xs ys

def checkDelta (what : String) (c : ScheduledWindow) (send : WindowSend) : Except Error Unit :=
  forM send.rounds fun r =>
    throwIf (¬ (c.rounds.begin ≤ r.begin ∧ r.stop ≤ c.rounds.stop))
      (rejectCommitment (what ++ " reaches round " ++
        toString (if r.begin < c.rounds.begin then r.begin else max r.begin c.rounds.stop) ++
        ", outside " ++ c.name ++ "'s rounds " ++ c.rounds.describe))

/-- A residual covers exactly the consumer's imports. -/
def checkResidual (what : String) (c : ScheduledWindow) (send : WindowSend) : Except Error Unit :=
  let sent := send.rounds.flatMap RoundRange.toList
  let imported := c.output.imports.toList
  throwIf (firstDifference sent imported ≠ none)
    (rejectCommitment (what ++ " covers " ++
      (if sent = [] then "no rounds" else "rounds " ++ describeRounds send.rounds) ++ ", but " ++
      c.name ++ " imports " ++
      (if imported = [] then "no rounds" else c.output.imports.describe) ++ "; round " ++
      toString ((firstDifference sent imported).getD 0) ++ " differs"))

/-- One input of a consumer. `received` lists the inputs already read: a send arriving twice would
cancel itself. -/
def checkDelivery (s : WindowSchedule) (c : ScheduledWindow) (received : List WindowDependency)
    (input : WindowDependency) : Except Error Unit := do
  let p ← s.windowAt input.fromNode input.k
  let send := sendOf p input
  let twice := received.find? fun d => d.fromNode = input.fromNode ∧ d.k = input.k ∧
    d.fromOutput = input.fromOutput
  throwIf (twice ≠ none) (rejectCommitment (c.name ++ ofShot s.numRounds ++ " receives " ++ p.name ++
    "'s " ++ send.mode.describe ++ " '" ++ send.id ++ "' twice, on " ++
    ((twice.map WindowDependency.toInput).getD "") ++ " and " ++ input.toInput))
  let what := input.describe c ++ " in the " ++ toString s.numRounds ++ "-round shot: " ++ p.name ++
    "'s " ++ send.mode.describe ++ " '" ++ send.id ++ "'"
  match send.mode with
  | .delta => checkDelta what c send
  | .residual => checkResidual what c send

/-- The inputs of a consumer, one after another; an absent producer gives an empty input. -/
@[grind =] def checkInputs (s : WindowSchedule) (c : ScheduledWindow) :
    List WindowDependency → List WindowDependency → Except Error Unit
  | [], _ => .ok ()
  | input :: inputs, received =>
    if input.present then do
      checkDelivery s c received input
      checkInputs s c inputs (received ++ [input])
    else checkInputs s c inputs received

/-- `check_deliveries`: every edge's delivery against its consumer. -/
def checkDeliveries (s : WindowSchedule) : Except Error Unit :=
  forM s.windows fun c => checkInputs s c c.inputs []

@[grind =] def countResiduals (s : WindowSchedule) : List WindowDependency → Except Error Nat
  | [] => .ok 0
  | input :: inputs =>
    if input.present then do
      let p ← s.windowAt input.fromNode input.k
      let n ← countResiduals s inputs
      return if (sendOf p input).mode = .residual then n + 1 else n
    else countResiduals s inputs

def checkImportsOf (s : WindowSchedule) (c : ScheduledWindow) : Except Error Unit :=
  if c.output.imports.Empty then .ok ()
  else do
    let residuals ← countResiduals s c.inputs
    throwIf (residuals ≠ 1)
      (rejectCommitment (c.name ++ ofShot s.numRounds ++ " imports rounds " ++
        c.output.imports.describe ++ " but receives " ++
        (if residuals = 0 then "no residual" else toString residuals ++ " residuals")))

/-- `check_imports`, of a schedule. -/
def checkImported (s : WindowSchedule) : Except Error Unit := forM s.windows (checkImportsOf s)

/-! ## Rows and commits -/

/-- `chunk_touch`: the first fault of a chunk on each row of its own round and of the next one. -/
structure ChunkTouch where
  own : List (Option Nat)
  next : List (Option Nat)
  deriving DecidableEq

namespace ChunkTouch

def firstDetectable (touch : ChunkTouch) : Option Nat :=
  ((touch.own ++ touch.next).filterMap id).min?

end ChunkTouch

def bandTouch (chunk : ExtendedDem) (id : SeamId) : List (Option Nat) :=
  match chunk.findSeam id with
  | none => []
  | some seam => (List.range' seam.rowBegin (seam.rowEnd - seam.rowBegin)).map fun r =>
      (chunk.H.toNestedCsr.getD r []).min?

/-- `touch_of`: a round's rows are its chunk's `to_seam` band; the `from_seam` band holds the next
round's rows, in the same order. -/
def touchOf (chunk : ExtendedDem) (seam : SeamConnection) : ChunkTouch :=
  ⟨bandTouch chunk seam.toSeam, bandTouch chunk seam.fromSeam⟩

/-- `touch_rounds`: the touch of round `q`. -/
def touchAt (t : TemplateData) (R q : Nat) : ChunkTouch := touchOf (t.chunk q R) t.spec.seam

def holders (s : WindowSchedule) (q : Int) : List ScheduledWindow :=
  s.windows.flatMap fun w =>
    (if q ∈ w.rounds then [w] else []) ++ if q ∈ w.output.imports then [w] else []

def committers (s : WindowSchedule) (q : Int) : List ScheduledWindow :=
  s.windows.filter fun w => q ∈ w.commit

/-- `finalizes`: the window has a column on a row of round `q`, and every one is a commit column.
`own` and `incoming` say whether faults of round `q` and of round `q - 1` touch the row. -/
def finalizes (w : ScheduledWindow) (q : Int) (own incoming : Bool) : Bool :=
  -- An open input puts a column on every row of its round, or on those the round before touches.
  if (q = w.rounds.begin ∧ w.input.present ∧ w.input.disposition = .opened) ∧
      (w.input.boundary = .columns ∨ incoming) then false
  else if own ∧ q ∈ w.rounds ∧ q ∉ w.commit then false
  else if incoming ∧ q - 1 ∈ w.rounds ∧ q - 1 ∉ w.commit then false
  else decide (own ∧ q ∈ w.rounds ∨ incoming ∧ q - 1 ∈ w.rounds)

/-- `sends_round`: whether `p` sends `c`, through one of its inputs, a send that holds round `q`. -/
def sendsRound (p c : ScheduledWindow) (q : Int) : Bool :=
  c.inputs.any fun input => input.fromNode = p.node ∧ input.k = p.k ∧
    (sendOf p input).rounds.any fun r => q ∈ r

def rowText (t : TemplateData) (R q i : Nat) : String :=
  "row " ++ toString (t.rowOffset q R + i) ++ " (round " ++ toString q ++ ")" ++ ofShot R

/-- F3 for the fault of round `x` on a row of round `q` that `f` finalizes, if there is one: every
other window that commits that round sends `f` round `q`. -/
def checkLearned (t : TemplateData) (s : WindowSchedule) (f : ScheduledWindow) (q i x : Nat) :
    Option Nat → Except Error Unit
  | none => .ok ()
  | some column => forM (committers s x) fun p =>
    throwIf (¬ (p.node = f.node ∧ p.k = f.k) ∧ sendsRound p f q = false)
      (rejectCommitment ("F3: " ++ rowText t s.numRounds q i ++ ", finalized by " ++ f.name ++ ": " ++
        p.name ++ " commits fault " ++ toString (t.columnOffset x s.numRounds + column) ++
        " (round " ++ toString x ++ ") on it, but no send of " ++ p.name ++ " to " ++ f.name ++
        " covers round " ++ toString q))

/-- The fault of round `q - 1` on row `i` of round `q`, if there is one. -/
def incomingAt (t : TemplateData) (R q i : Nat) : Option Nat :=
  if q = 0 then none else (touchAt t R (q - 1)).next.getD i none

/-- F1 and F3 on row `i` of round `q`, touched first by the faults `own` and `incoming`. -/
def checkRow (t : TemplateData) (s : WindowSchedule) (q i : Nat) (own incoming : Option Nat) :
    Except Error Unit :=
  if own = none ∧ incoming = none then .ok ()
  else
    match (holders s q).filter fun w => finalizes w q own.isSome incoming.isSome with
    | [] => .error (rejectCommitment ("F1: " ++ rowText t s.numRounds q i ++
        " has no finalizer; held by " ++
        (if holders s q = [] then "no window" else windowNames (holders s q))))
    | [f] => do
      checkLearned t s f q i q own
      checkLearned t s f q i (q - 1) incoming
    | fs => .error (rejectCommitment ("F1: " ++ rowText t s.numRounds q i ++ " has " ++
        toString fs.length ++ " finalizers: " ++ windowNames fs))

/-- `check_rows`: F1 and F3 on every row that some fault touches. -/
def checkRows (t : TemplateData) (s : WindowSchedule) : Except Error Unit :=
  forM (List.range s.numRounds) fun q =>
    forM (List.range (touchAt t s.numRounds q).own.length) fun i =>
      checkRow t s q i ((touchAt t s.numRounds q).own.getD i none) (incomingAt t s.numRounds q i)

/-- `check_commits`: every round with a detectable fault is committed by exactly one window. -/
def checkCommits (t : TemplateData) (s : WindowSchedule) : Except Error Unit :=
  forM (List.range s.numRounds) fun q =>
    throwIf ((touchAt t s.numRounds q).firstDetectable ≠ none ∧ (committers s q).length ≠ 1)
      (rejectCommitment ("F4: fault " ++
        toString (t.columnOffset q s.numRounds +
          ((touchAt t s.numRounds q).firstDetectable.getD 0 : Nat)) ++
        " (round " ++ toString q ++ ")" ++ ofShot s.numRounds ++ " is committed by " ++
        (if committers s q = [] then "no window" else
          toString (committers s q).length ++ " windows: " ++ windowNames (committers s q))))

/-- A schedule passes the four checks. -/
def Passes (t : TemplateData) (s : WindowSchedule) : Prop :=
  checkDeliveries s = .ok () ∧ checkCommits t s = .ok () ∧ checkRows t s = .ok () ∧
    checkImported s = .ok ()

instance (t : TemplateData) (s : WindowSchedule) : Decidable (Passes t s) :=
  inferInstanceAs (Decidable (_ ∧ _))

end CudaqQec
