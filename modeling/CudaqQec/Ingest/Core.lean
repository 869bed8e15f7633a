import CudaqQec.Lib.Slots
import CudaqQec.Window.Variants

/-!
# Ingest

`ingest_core` cuts a stream of measurement records into rounds, forms each round's detectors once
into a ring, and hands every layer's window `k` over together, as views of the ring. Before the FINAL
record the shot's length is not known: rounds are cut at their widths before the readout round, and
a round is formed only once the measurements received put it before the suffix.

The buffers are flat memories (`Lib.Slots`): raw rounds in `staged`, by round modulo its slots, and
detectors in `ring`, by round modulo its power-of-two size. Counters of measurements are `Nat`: no
stream is long enough to overflow a `size_t`.
-/

namespace CudaqQec

open Checked WindowRequest Slots

/-! ## Construction -/

/-- `ingest_layer`: its windows' request, and how many of its views may be out at once. -/
structure IngestLayer where
  request : WindowRequest
  maxViews : Nat := 1
  deriving DecidableEq

def widthOf (t : TemplateData) (r R : Nat) : Nat :=
  sizeT (t.measurementOffset (r + 1) R - t.measurementOffset r R)

def rowsOfRound (t : TemplateData) (r R : Nat) : Nat :=
  sizeT (t.rowOffset (r + 1) R - t.rowOffset r R)

/-- `D_sparse` of round `r`'s phase. -/
def dOf (t : TemplateData) (r R : Nat) : List Int := (t.phaseSpec (t.phase r R)).dSparse

/-- What an `ingest_core` is constructed from. Everything its constructor measures follows. -/
structure IngestSetup where
  context : ExperimentTemplate
  layers : List IngestLayer
  deriving DecidableEq

namespace IngestSetup

variable (c : IngestSetup)

def t : TemplateData := c.context.toTemplateData

def repeats : Bool := c.t.repeats

def probe : Nat := if c.repeats then c.t.minRounds + 2 else c.t.minRounds

def period : Int := (c.layers.head?.map fun l => l.request.period).getD 0

/-- Rounds read `D_sparse`, not the memory convention. -/
def hasD : Bool := c.t.spec.hasDSparse

def prefixRounds : Nat := c.t.prefixRounds

def suffixRounds : Nat := if c.repeats then c.t.suffixRounds else 0

def prefixWidth (r : Nat) : Nat := widthOf c.t r c.probe

def bulkWidth : Nat := if c.repeats then widthOf c.t c.prefixRounds c.probe else 0

def bulkRows : Nat := if c.repeats then rowsOfRound c.t c.prefixRounds c.probe else 0

def lastWidth : Nat := widthOf c.t (c.probe - 1) c.probe

/-- `forward_width`: measurements in round `r`, cut before the shot's length is known. -/
def forwardWidth (r : Nat) : Nat := if r < c.prefixRounds then c.prefixWidth r else c.bulkWidth

def minWidth : Nat :=
  ((List.range c.prefixRounds).map c.prefixWidth).foldl min
    (min c.lastWidth (if c.repeats then c.bulkWidth else c.lastWidth))

def maxWidth : Nat :=
  ((List.range c.prefixRounds).map c.prefixWidth).foldl max (max c.lastWidth c.bulkWidth)

def maxRows : Nat :=
  ((List.range c.prefixRounds).map (fun r => rowsOfRound c.t r c.probe) ++
    (List.range c.suffixRounds).map
      (fun j => rowsOfRound c.t (c.probe - c.suffixRounds + j) c.probe)).foldl max
    (max c.bulkRows (rowsOfRound c.t (c.probe - 1) c.probe))

def recordLimit : Nat := c.period.toNat * c.maxWidth

/-- The narrowest round cut before FINAL: the last round of a shot that does not repeat is its
readout round. -/
def minForwardWidth : Nat :=
  ((List.range (if c.repeats then c.prefixRounds else c.prefixRounds - 1)).map
    c.prefixWidth).foldl min (if c.repeats then c.bulkWidth else c.lastWidth)

def fixedMeasurements : Nat :=
  if c.repeats then 0 else ((List.range c.prefixRounds).map c.prefixWidth).sum

/-- Raw rounds are kept until they are formed, with the one before them and the one being cut. -/
def stagedSlots : Nat := c.suffixRounds + 4 + c.lastWidth / c.minForwardWidth

/-- The least first round of a layer's windows, relative to `k * period`. -/
def lowest : Int :=
  (c.layers.map fun l => l.request.offset + l.request.zoneSpan.begin).foldl min (2 ^ 63 - 1)

def highest : Int :=
  (c.layers.map fun l => l.request.offset + (modelReach c.t l.request).stop).foldl max (-2 ^ 63)

def maxViews : Nat := (c.layers.map IngestLayer.maxViews).foldl max 0

/-- `ring_rounds`: one index's windows with their reach, a period for each view a pool can have out
and one more, a record, and the suffix. -/
def ringRounds : Nat :=
  powerOfTwoAtLeast ((c.highest - c.lowest).toNat + max c.suffixRounds 1 +
    (c.maxViews + 1) * c.period.toNat + (c.recordLimit + c.maxWidth) / c.minForwardWidth + 1 +
    c.stagedSlots)

def firstK (l : IngestLayer) : Int := (l.request.instances 0).begin

/-- `first_index`: the first index any layer has a window at. -/
def firstIndex : Int := ((c.layers.map firstK).min?).getD 0

/-! ### Checks -/

def reject (what : String) : Error := .invalidArgument ("ingest: " ++ what)

def roundsText (n : Nat) : String := toString n ++ (if n = 1 then " round" else " rounds")

def checkLayer (l : IngestLayer) : Except Error Unit := do
  checkRequest l.request
  throwIf (l.request.period ≠ c.period)
    (reject ("the layers' periods differ: " ++ toString c.period ++ " and " ++
      toString l.request.period))
  throwIf (l.maxViews = 0)
    (reject ("layer " ++ toString (c.layers.idxOf l) ++ "'s view pool is empty"))

/-- The indices of a round's `D_sparse` lie in its round and the one before, and its rows are as many
as the round's detectors. -/
def checkDSparse (at_ : String) (d : List Int) (before width rows : Nat) : Except Error Unit := do
  forM d fun index =>
    throwIf (index ≠ -1 ∧ before + width ≤ sizeT index)
      (reject (at_ ++ ": its phase's D_sparse reads measurement " ++ toString index ++
        ", past the " ++ toString (before + width) ++ " of its round and the one before"))
  throwIf (d.count (-1) ≠ rows)
    (reject (at_ ++ ": its phase's D_sparse has " ++ toString (d.count (-1)) ++ " rows for " ++
      toString rows ++ " detectors"))

/-- Round `r` of an `R`-round shot, as forming detectors will read it. -/
def checkRoundOf (r R : Nat) : Except Error Unit := do
  let width := widthOf c.t r R
  let before := if r = 0 then 0 else widthOf c.t (r - 1) R
  let rows := rowsOfRound c.t r R
  let at_ := "round " ++ toString r ++ " of a " ++ roundsText R ++ " shot"
  throwIf (width ≠ if r + 1 = R then c.lastWidth else c.forwardWidth r)
    (reject (at_ ++ " is " ++ toString width ++ " measurements wide, unlike its phase elsewhere"))
  throwIf (c.hasD = false ∧ (rows ≠ width ∨ 0 < r ∧ before ≠ width))
    (reject (at_ ++ " has " ++ toString rows ++ " detectors from " ++ toString width ++
      " measurements, but without D_sparse every round has one measurement per detector"))
  if c.hasD then checkDSparse at_ (dOf c.t r R) before width rows else .ok ()

def check : Except Error Unit := do
  throwIf (c.layers = []) (reject "no layer")
  forM c.layers c.checkLayer
  throwIf (c.minWidth = 0)
    (reject "a round holds no measurements, so a record has no bound in rounds")
  forM (List.range' c.t.minRounds (c.probe + 1 - c.t.minRounds)) fun R =>
    forM (List.range R) fun r => c.checkRoundOf r R

end IngestSetup

/-- An `ingest_core` as it is constructed: a setup its constructor accepts. -/
structure IngestCore extends IngestSetup where
  checked : toIngestSetup.check = .ok ()
  deriving DecidableEq

/-! ## State -/

/-- `window_view`: a layer's window `k`, as it is handed over. -/
structure WindowView where
  layer : Nat
  k : Int
  rounds : RoundRange
  variant : VariantKey
  firstRow : Nat
  slot : Nat
  deriving DecidableEq

/-- `ingest_publication`: every layer's window `k`, one view for each layer that has one. -/
structure IngestPublication where
  k : Int
  views : List (Option WindowView)
  deriving DecidableEq

/-- `ingest_status`: whether a record was taken. -/
inductive IngestStatus where
  | accepted
  | deferred
  deriving DecidableEq, Repr

/-- One record: the measurements, one byte each, whether there is a pointer to them, and whether the
record is FINAL. -/
structure IngestRecord where
  data : List UInt8
  hasData : Bool := true
  final : Bool := false
  deriving DecidableEq

/-- The fields of an `ingest_core` that change. `partialRound` counts the measurements of the round
being cut. -/
structure IngestState where
  staged : Nat → UInt8
  stagedWidth : Nat → Nat
  ring : Nat → UInt8
  ringRows : Nat → Nat
  ringRound : Nat → Int
  ringFirstRow : Nat → Nat
  pools : Nat → Nat → WindowView
  out : Nat → Nat → Bool
  finalInstances : Nat → IndexRange
  roundsCut : Nat
  cutBytes : Nat
  partialRound : Nat
  formed : Nat
  rowsFormed : Nat
  shotRounds : Option Nat
  nextIndex : Int
  indexEnd : Int
  failed : Bool

namespace IngestCore

variable (c : IngestCore)

/-- Start a new shot. The buffers keep their contents: a round's are written before they are read. -/
def newShot (s : IngestState) : IngestState :=
  { s with
    roundsCut := 0
    cutBytes := 0
    partialRound := 0
    formed := 0
    rowsFormed := 0
    shotRounds := none
    nextIndex := c.firstIndex
    indexEnd := 0
    failed := false }

/-- The state after construction. -/
def initial : IngestState :=
  c.newShot
    { staged := fun _ => 0
      stagedWidth := fun _ => 0
      ring := fun _ => 0
      ringRows := fun _ => 0
      ringRound := fun _ => -1
      ringFirstRow := fun _ => 0
      pools := fun l s => ⟨l, 0, ⟨0, 0⟩, ⟨none, none⟩, 0, s⟩
      out := fun _ _ => false
      finalInstances := fun _ => ⟨0, 0⟩
      roundsCut := 0
      cutBytes := 0
      partialRound := 0
      formed := 0
      rowsFormed := 0
      shotRounds := none
      nextIndex := 0
      indexEnd := 0
      failed := false }

/-! ## Room in the ring -/

/-- `done`: a FINAL record is taken and every index handed over. -/
def done (s : IngestState) : Bool := s.shotRounds.isSome ∧ s.indexEnd ≤ s.nextIndex

def viewsOut (s : IngestState) : List WindowView :=
  (c.layers.zipIdx.flatMap fun (layer, l) =>
    (List.range layer.maxViews).filterMap fun slot =>
      if s.out l slot then some (s.pools l slot) else none)

def nextBegins (s : IngestState) : List Int :=
  if done s then []
  else c.layers.map fun layer =>
    max 0 (layer.request.offset + s.nextIndex * c.period + layer.request.zoneSpan.begin)

/-- `first_held_round`: the first round still held, by the next unpublished index or a view out. -/
def firstHeldRound (s : IngestState) : Int :=
  (c.nextBegins s ++ (c.viewsOut s).map fun v => v.rounds.begin).foldl min s.formed

/-- `has_room`: rounds from the first held one to `stop` fit in the ring. -/
def hasRoom (s : IngestState) (stop : Nat) : Bool :=
  (stop : Int) - c.firstHeldRound s ≤ c.ringRounds

/-! ## Forming detectors -/

/-- The walk of `least_shot_rounds` back over the rounds: `first` rounds start before `earliest`, or
the walk is at round 0; `start` is where the round before `first` starts. -/
@[grind =] def walkBack (earliest : Nat) : Nat → Nat → Nat
  | 0, _ => 0
  | first + 1, start =>
    if earliest ≤ start then
      walkBack earliest first (if 0 < first then start - c.forwardWidth (first - 1) else start)
    else first + 1

/-- `least_shot_rounds`: the fewest rounds the shot can have. -/
def leastShotRounds (s : IngestState) : Nat :=
  match s.shotRounds with
  | some R => R
  | none =>
    if c.repeats then
      max (c.walkBack (s.cutBytes + s.partialRound - c.lastWidth) (s.roundsCut + 1) s.cutBytes + 1)
        c.t.minRounds
    else c.t.minRounds

/-- Detectors and `D_sparse` of round `r`, by the kind of round it is. -/
def kindOf (shot : Option Nat) (r : Nat) : Nat × List Int :=
  if r < c.prefixRounds then (rowsOfRound c.t r c.probe, dOf c.t r c.probe)
  else if shot.any fun R => R ≤ r + c.suffixRounds then
    let j := r + c.suffixRounds - shot.getD 0
    (rowsOfRound c.t (c.probe - c.suffixRounds + j) c.probe,
      dOf c.t (c.probe - c.suffixRounds + j) c.probe)
  else (c.bulkRows, if c.repeats then dOf c.t c.prefixRounds c.probe else [])

end IngestCore

/-- The detectors that a `D_sparse` gives: the XOR of each row's measurements. -/
@[grind =] def detectorRows (read : Nat → UInt8) : List Int → UInt8 → List UInt8
  | [], _ => []
  | index :: d, value =>
    if index = -1 then value :: detectorRows read d 0
    else detectorRows read d (value ^^^ (read (sizeT index) &&& 1))

namespace IngestCore

variable (c : IngestCore)

def stagedAt (s : IngestState) (r i : Nat) : UInt8 :=
  s.staged (r % c.stagedSlots * c.maxWidth + i)

/-- The detectors of round `r` from the rounds staged: over the round before and then this one, or,
without `D_sparse`, of this round's measurement and the one before. -/
def formRows (s : IngestState) (r : Nat) : List UInt8 :=
  let beforeWidth := if r = 0 then 0 else s.stagedWidth ((r - 1) % c.stagedSlots)
  if c.hasD then
    detectorRows (fun i => if i < beforeWidth then c.stagedAt s (r - 1) i
      else c.stagedAt s r (i - beforeWidth)) (c.kindOf s.shotRounds r).2 0
  else (List.range (c.kindOf s.shotRounds r).1).map fun j =>
    (c.stagedAt s r j ^^^ (if r = 0 then 0 else c.stagedAt s (r - 1) j)) &&& 1

/-- `form_detectors`: round `r`'s detectors into the ring. -/
def formDetectors (s : IngestState) (r : Nat) : IngestState :=
  let slot := r &&& (c.ringRounds - 1)
  let rows := (c.kindOf s.shotRounds r).1
  { s with
    ring := write s.ring (slot * c.maxRows) (c.formRows s r)
    ringRows := Function.update s.ringRows slot rows
    ringRound := Function.update s.ringRound slot r
    ringFirstRow := Function.update s.ringFirstRow slot s.rowsFormed
    rowsFormed := s.rowsFormed + rows }

/-- The loop of `form_known_rounds`, over the rounds that are cut. -/
@[grind =] def formLoop (least : Nat) : Nat → IngestState → IngestState
  | 0, s => s
  | n + 1, s =>
    if s.shotRounds.isSome ∨ s.formed < c.prefixRounds ∨ s.formed + c.suffixRounds < least then
      formLoop least n { c.formDetectors s s.formed with formed := s.formed + 1 }
    else s

/-- `form_known_rounds`: the detectors of every round cut whose phase is known. -/
def formKnownRounds (s : IngestState) : IngestState :=
  c.formLoop (c.leastShotRounds s) (s.roundsCut - s.formed) s

/-! ## Cutting rounds -/

/-- `complete_round`: the round being cut, of `width` measurements, is complete. -/
def completeRound (s : IngestState) (width : Nat) : IngestState :=
  c.formKnownRounds
    { s with
      stagedWidth := Function.update s.stagedWidth (s.roundsCut % c.stagedSlots) width
      roundsCut := s.roundsCut + 1
      cutBytes := s.cutBytes + width
      partialRound := 0 }

/-- A shot that does not repeat ends at a known round, its readout round: input before FINAL may fill
it but never completes it. -/
def atReadout (s : IngestState) : Bool :=
  c.repeats = false ∧ s.roundsCut + 1 = c.prefixRounds ∧ s.shotRounds = none

def cutWidth (s : IngestState) : Nat :=
  if c.atReadout s then c.lastWidth else c.forwardWidth s.roundsCut

def stage (s : IngestState) (bytes : List UInt8) : IngestState :=
  { s with
    staged := write s.staged (s.roundsCut % c.stagedSlots * c.maxWidth + s.partialRound) bytes
    partialRound := s.partialRound + bytes.length }

def fail (s : IngestState) (what : String) : IngestState × Except Error IngestStatus :=
  ({ s with failed := true }, .error (.invalidArgument ("ingest: " ++ what)))

/-- The loop of `cut`. Each pass takes at least one measurement, so `fuel` is the record's length. -/
@[grind =] def cutLoop : Nat → IngestState → List UInt8 → IngestState × Except Error IngestStatus
  | 0, s, _ => (c.formKnownRounds s, .ok .accepted)
  | fuel + 1, s, data =>
    if data = [] then (c.formKnownRounds s, .ok .accepted)
    else
      let take := min data.length (c.cutWidth s - s.partialRound)
      let staged := c.stage s (data.take take)
      if staged.partialRound < c.cutWidth s then cutLoop fuel staged (data.drop take)
      else if c.atReadout s then
        if data.drop take = [] then (staged, .ok .accepted)
        else fail staged ("a record runs past the shot's last round, " ++
          IngestSetup.roundsText c.prefixRounds ++ " long")
      else cutLoop fuel (c.completeRound staged (c.cutWidth s)) (data.drop take)

/-- `cut`: append measurements, completing rounds. -/
def cut (s : IngestState) (data : List UInt8) : IngestState × Except Error IngestStatus :=
  c.cutLoop data.length s data

/-! ## Records -/

/-- Forward over whole rounds from round `r`, which starts at `start`, to where the readout round
starts. Each round is at least one measurement wide, so `fuel` is what is left to go. -/
@[grind =] def walkForward (readoutStart : Nat) : Nat → Nat → Nat → Except Error (Nat × Nat)
  | 0, r, start => .ok (r, start)
  | fuel + 1, r, start =>
    if readoutStart ≤ start then .ok (r, start)
    else if c.repeats = false ∧ c.prefixRounds ≤ r + 1 then
      .error (.invalidArgument ("ingest: the FINAL record runs past the shot's last round, " ++
        IngestSetup.roundsText c.prefixRounds ++ " long"))
    else if readoutStart - start < c.forwardWidth r then
      .error (.invalidArgument ("ingest: the FINAL record ends mid-round: round " ++ toString r ++
        " has " ++ toString (readoutStart - start) ++ " of its " ++ toString (c.forwardWidth r) ++
        " measurements before the readout round"))
    else walkForward readoutStart fuel (r + 1) (start + c.forwardWidth r)

/-- Back over rounds already cut. -/
@[grind =] def walkDown (readoutStart : Nat) : Nat → Nat → Nat × Nat
  | 0, start => (0, start)
  | r + 1, start =>
    if readoutStart < start then walkDown readoutStart r (start - c.forwardWidth r)
    else (r + 1, start)

/-- Where the readout round starts: the round it is, and the shot's length checked. -/
def finalRound (s : IngestState) (len : Nat) : Except Error Nat := do
  let total := s.cutBytes + s.partialRound + len
  throwIf (total < c.lastWidth)
    (.invalidArgument ("ingest: the shot holds " ++ toString total ++
      " measurements, fewer than its readout round's " ++ toString c.lastWidth))
  let readoutStart := total - c.lastWidth
  let forward ← c.walkForward readoutStart (readoutStart - s.cutBytes) s.roundsCut s.cutBytes
  let at_ := c.walkDown readoutStart forward.1 forward.2
  throwIf (at_.2 ≠ readoutStart)
    (.invalidArgument ("ingest: the FINAL record ends mid-round: round " ++ toString at_.1 ++
      " has " ++ toString (sizeT (readoutStart - at_.2)) ++ " of its " ++
      toString (c.forwardWidth at_.1) ++ " measurements before the readout round"))
  let R := at_.1 + 1
  throwIf (if c.repeats then R < c.t.minRounds else R ≠ c.t.minRounds)
    (.invalidArgument ("ingest: the FINAL record ends the shot at " ++ IngestSetup.roundsText R ++
      ", but the template's shots have " ++ (if c.repeats then "at least " else "exactly ") ++
      toString c.t.minRounds))
  throwIf (at_.1 < s.formed ∧ 0 < c.suffixRounds)
    (.invalidArgument ("ingest: the FINAL record ends the shot at " ++ IngestSetup.roundsText R ++
      ", but " ++ IngestSetup.roundsText s.formed ++ " are already formed as bulk"))
  return at_.1

/-- The measurements of the rounds `q`, `q + 1`, … already cut, joined to a round's in its slot. -/
@[grind =] def joinRounds (slot : Nat) : Nat → Nat → (Nat → UInt8) × Nat → (Nat → UInt8) × Nat
  | 0, _, acc => acc
  | n + 1, q, (staged, filled) =>
    joinRounds slot n (q + 1)
      (write staged (slot * c.maxWidth + filled)
        (read staged (q % c.stagedSlots * c.maxWidth) (c.forwardWidth q)),
        filled + c.forwardWidth q)

def finishForward (s : IngestState) (r : Nat) (data : List UInt8) : IngestState :=
  let readoutStart := s.cutBytes + s.partialRound + data.length - c.lastWidth
  let head := if s.roundsCut < r then readoutStart - s.cutBytes - s.partialRound else 0
  let s' := if s.roundsCut < r then (c.cut s (data.take head)).1 else s
  c.completeRound
    { s' with
      staged := write s'.staged (r % c.stagedSlots * c.maxWidth + s'.partialRound) (data.drop head) }
    c.lastWidth

/-- Round `r` is the readout round and began in rounds already cut: their measurements, the partial
round's and the record's join round `r`'s in its slot. -/
def finishBack (s : IngestState) (r : Nat) (data : List UInt8) : IngestState :=
  let slot := r % c.stagedSlots
  let joined := c.joinRounds slot (s.roundsCut - (r + 1)) (r + 1) (s.staged, c.forwardWidth r)
  let withPartial := write joined.1 (slot * c.maxWidth + joined.2)
    (read joined.1 (s.roundsCut % c.stagedSlots * c.maxWidth) s.partialRound)
  c.completeRound
    { s with
      staged := write withPartial (slot * c.maxWidth + joined.2 + s.partialRound) data
      roundsCut := r
      cutBytes := s.cutBytes + s.partialRound + data.length - c.lastWidth
      partialRound := 0 }
    c.lastWidth

/-- The rest of the shot, once the FINAL record fixes its length. -/
def finish (s : IngestState) (r : Nat) (data : List UInt8) : IngestState :=
  if s.roundsCut ≤ r then c.finishForward s r data
  else if s.formed ≤ r then c.finishBack s r data
  else s

/-- A FINAL record fixes the shot's length and so every remaining round's phase. -/
def enqueueFinal (s : IngestState) (data : List UInt8) : IngestState × Except Error IngestStatus :=
  match c.finalRound s data.length with
  | .error e => ({ s with failed := true }, .error e)
  | .ok r =>
    if c.hasRoom s (r + 1) then
      let s' := c.finish { s with shotRounds := some (r + 1) } r data
      ({ s' with
        finalInstances := fun l =>
          ((c.layers[l]?).map fun layer => layer.request.instances (r + 1)).getD ⟨0, 0⟩
        indexEnd := (c.layers.map fun layer => (layer.request.instances (r + 1)).stop).foldl max
          s'.nextIndex }, .ok .accepted)
    else (s, .ok .deferred)

/-- A record before FINAL. It is checked before any round is cut, so a rejected one forms none. -/
def enqueueOpen (s : IngestState) (data : List UInt8) : IngestState × Except Error IngestStatus :=
  if c.repeats = false ∧ c.fixedMeasurements < s.cutBytes + s.partialRound + data.length then
    fail s ("a record runs past the shot's last round, " ++
      IngestSetup.roundsText c.prefixRounds ++ " long")
  else if c.hasRoom s (s.roundsCut + (s.partialRound + data.length) / c.minForwardWidth) then
    c.cut s data
  else (s, .ok .deferred)

/-- `enqueue`: take one record. -/
def enqueue (s : IngestState) (rec : IngestRecord) : IngestState × Except Error IngestStatus :=
  if s.failed then (s, .error (.logicError "ingest: reset() is needed after a failure"))
  else if s.shotRounds.isSome then
    (s, .error (.logicError "ingest: input after FINAL; reset() starts the next shot"))
  else if c.recordLimit < rec.data.length then
    fail s ("a record of " ++ toString rec.data.length ++
      " measurements is longer than one period of rounds, " ++ toString c.recordLimit)
  else if 0 < rec.data.length ∧ rec.hasData = false then
    fail s ("a record of " ++ toString rec.data.length ++ " measurements has no data")
  else if rec.final then c.enqueueFinal s rec.data
  else c.enqueueOpen s rec.data

/-! ## Handing windows over -/

/-- `window_exists`: whether layer `l` has a window `k`. -/
def windowExists (s : IngestState) (layer : IngestLayer) (l : Nat) (k : Int) : Bool :=
  if s.shotRounds = none then IngestSetup.firstK layer ≤ k else k ∈ s.finalInstances l

/-- `window_complete`: a window not terminal in the shortest shot the measurements allow is terminal
in no longer one. -/
def windowComplete (s : IngestState) (layer : IngestLayer) (k : Int) (least : Nat) : Bool :=
  s.shotRounds.isSome ∨
    (windowVariant (boundsOf c.t layer.request) layer.request k least).terminal = none ∧
      layer.request.offset + k * c.period + layer.request.zoneSpan.stop ≤ s.formed

def freeSlot (s : IngestState) (layer : IngestLayer) (l : Nat) : Option Nat :=
  (List.range layer.maxViews).find? fun slot => !s.out l slot

def blocked (s : IngestState) (least : Nat) (k : Int) (layer : IngestLayer) (l : Nat) : Bool :=
  windowExists s layer l k ∧ (¬ c.windowComplete s layer k least ∨ freeSlot s layer l = none)

/-- The view of layer `l`'s window `k`. -/
def viewOf (s : IngestState) (least : Nat) (k : Int) (layer : IngestLayer) (l slot : Nat) :
    WindowView :=
  let anchor := layer.request.offset + k * c.period
  let stop : Int := (s.shotRounds.map fun (R : Nat) => (R : Int)).getD (2 ^ 63 - 1)
  let rounds := clipRounds layer.request.zoneSpan anchor stop
  { layer := l
    k := k
    rounds := rounds
    variant := windowVariant (boundsOf c.t layer.request) layer.request k least
    firstRow := s.ringFirstRow (rounds.begin.toNat &&& (c.ringRounds - 1))
    slot := slot }

def publishedView (s : IngestState) (least : Nat) (k : Int) (l : Nat) : Option WindowView :=
  (c.layers[l]?).bind fun layer =>
    if windowExists s layer l k then
      (freeSlot s layer l).map (c.viewOf s least k layer l)
    else none

def publish (s : IngestState) (least : Nat) (k : Int) : IngestState × IngestPublication :=
  ({ s with
    nextIndex := k + 1
    out := fun l slot => s.out l slot ||
      (c.publishedView s least k l).any fun v => v.slot = slot
    pools := fun l slot => ((c.publishedView s least k l).filter fun v => v.slot = slot).getD
      (s.pools l slot) },
    ⟨k, (List.range c.layers.length).map (c.publishedView s least k)⟩)

/-- The loop of `poll`. It passes only indices that no layer has a window at, of which there are none
before FINAL and at most `fuel` after. -/
@[grind =] def pollLoop (least : Nat) : Nat → IngestState → IngestState × Option IngestPublication
  | 0, s => (s, none)
  | fuel + 1, s =>
    let k := s.nextIndex
    if s.shotRounds.isSome ∧ s.indexEnd ≤ k then (s, none)
    else if c.layers.zipIdx.any fun (layer, l) => c.blocked s least k layer l then (s, none)
    else if c.layers.zipIdx.any fun (layer, l) => windowExists s layer l k then
      let p := c.publish s least k
      (p.1, some p.2)
    else pollLoop least fuel { s with nextIndex := k + 1 }

/-- `poll`: the next index whose windows are all complete, with a view of each. A failed shot hands
nothing over. -/
def poll (s : IngestState) : IngestState × Option IngestPublication :=
  if s.failed then (s, none)
  else c.pollLoop (c.leastShotRounds s) ((s.indexEnd - s.nextIndex).toNat + 1) s

/-- `release`: return the view in a place of a layer's pool. -/
@[grind =] def release (s : IngestState) (l slot : Nat) : Except Error IngestState :=
  if (c.layers[l]?).any (fun layer => slot < layer.maxViews) ∧ s.out l slot then
    .ok { s with out := Function.update s.out l (Function.update (s.out l) slot false) }
  else .error (.logicError "ingest: release of a view that is not out")

/-- `detectors`: round `r`'s, while they are in the ring. -/
@[grind =] def detectors (s : IngestState) (r : Int) : Except Error (List UInt8) :=
  let slot := r.toNat &&& (c.ringRounds - 1)
  if r < 0 ∨ (s.formed : Int) ≤ r ∨ s.ringRound slot ≠ r then
    .error (.outOfRange ("ingest: round " ++ toString r ++ "'s detectors are not in the ring"))
  else .ok (read s.ring (slot * c.maxRows) (s.ringRows slot))

/-- `view_detectors`: round `r` of a view that is out. -/
def viewDetectors (s : IngestState) (view : WindowView) (r : Int) : Except Error (List UInt8) :=
  let slot := r.toNat &&& (c.ringRounds - 1)
  if r < view.rounds.begin ∨ view.rounds.stop ≤ r ∨ s.ringRound slot ≠ r then
    .error (.outOfRange ("ingest: window " ++ toString view.k ++ "'s view does not hold round " ++
      toString r ++ " in the ring"))
  else .ok (read s.ring (slot * c.maxRows) (s.ringRows slot))

/-- `reset`: start a new shot. -/
@[grind =] def reset (s : IngestState) : Except Error IngestState :=
  if c.viewsOut s ≠ [] then .error (.logicError "ingest: reset() with views out")
  else .ok (c.newShot s)

end IngestCore

end CudaqQec
