import CudaqQec.SlidingWindow.Construct
import Mathlib.Data.Rat.Floor

/-!
# Decoding in windows

`sliding_window::decode_batch` and what it calls. Detector layers arrive one call at a time, each for a
batch of independent syndromes; `St` is what the decoder keeps between calls. Once a whole window of
layers is buffered it is decoded: what the previous windows committed is backed out of it, the inner
decoder is asked, and the columns up to the next window's first one are committed.

Soft values are rationals. The inner decoders are a parameter: `inner w` is what the decoder of window
`w` returns for one syndrome, and `stops w` whether it honours a stop when it is asked in this call.
-/

namespace CudaqQec

open Checked

/-- `decoder_result`, without its metadata. -/
structure DecoderResult where
  converged : Bool := false
  result : List ℚ := []
  deriving DecidableEq

/-- `static_cast<float_t>` of a bit. -/
def bitValue (b : Bool) : ℚ := if b then 1 else 0

/-- `static_cast<std::uint8_t>` of a soft value. -/
def toUint8 (x : ℚ) : Nat := x.floor.toNat % 256

def convertVecSoftToHard (xs : List ℚ) : List Bool := xs.map fun x => decide (1 / 2 ≤ x)

namespace SlidingWindow

variable (d : SlidingWindow)

def syndromeSize : Nat := d.H.numRows

def blockSize : Nat := d.H.numCols

/-- What the decoder keeps between calls. `windowRounds` holds the buffered layers, oldest first, each
with one entry for every element of the batch. -/
structure St where
  windowRounds : List (List (List ℚ)) := []
  roundsSinceLastReset : Nat := 0
  batchSize : Nat := 1
  numWindowsDecoded : Nat := 0
  syndromeMods : List (List Bool) := []
  rwResults : List DecoderResult := []
  deriving DecidableEq

def initializeWindow (batchSize : Nat) : St where
  windowRounds := []
  roundsSinceLastReset := 0
  batchSize := batchSize
  numWindowsDecoded := 0
  syndromeMods := List.replicate batchSize (List.replicate d.syndromeSize false)
  rwResults := List.replicate batchSize ⟨true, List.replicate d.blockSize 0⟩

/-- `reset_stream`, and all that `reset_decoder` does to the windows. -/
def resetStream (st : St) : St :=
  { st with
    windowRounds := []
    rwResults := []
    syndromeMods := []
    roundsSinceLastReset := 0
    numWindowsDecoded := 0 }

/-! ## One window of one element -/

/-- The syndrome of window `w`: the buffered layers, and from the second window on what the earlier
ones have committed backed out of them. -/
def windowSyndrome (w : Nat) (layers : List (List ℚ)) (mods : List Bool) : List ℚ :=
  let syndromeStart := d.layout.roundStart (w * d.stepSize)
  let numWindowSyndromes := d.layout.roundStart (w * d.stepSize + d.windowSize) - syndromeStart
  if 0 < w then
    layers.flatten.mapIdx fun r x =>
      if r < numWindowSyndromes then
        (toUint8 x ^^^ (mods.getD (syndromeStart + r) false).toNat : Nat)
      else x
  else layers.flatten

def commitBits (first n : Nat) (bits : List Bool) (result : List ℚ) : List ℚ :=
  (List.range n).foldl (fun res c => res.set (c + first) (bitValue (bits.getD c false))) result

def backOut (first n start stop : Nat) (result : List ℚ) (mods : List Bool) : List Bool :=
  (List.range n).foldl (fun mods c =>
    if result.getD (c + first) 0 ≠ 0 then
      (d.column (c + first)).foldl (fun mods r =>
        if start ≤ r ∧ r ≤ stop then mods.modify r (!·) else mods) mods
    else mods) mods

/-- How many columns a window that is not the last one commits: those up to the first column of the
next. -/
def numToCommit (w : Nat) : Nat := sizeT ((d.firstColumn (w + 1) : Int) - d.firstColumn w)

/-- What window `w` makes of an element's result: `last` is how many columns the last window commits. -/
def commitWindow (w last : Nat) (inner : DecoderResult) (r : DecoderResult) : DecoderResult where
  converged := r.converged && inner.converged
  result := commitBits (d.firstColumn w) (if w < d.numWindows - 1 then d.numToCommit w else last)
    (convertVecSoftToHard inner.result) r.result

/-- What window `w` makes of an element's mods, given the result it has committed to. The last window
backs nothing out. -/
def backOutWindow (w : Nat) (result : List ℚ) (mods : List Bool) : List Bool :=
  if w < d.numWindows - 1 then
    d.backOut (d.firstColumn w) (d.numToCommit w) (d.layout.roundStart ((w + 1) * d.stepSize))
      (d.layout.roundStart ((w + 1) * d.stepSize + 1) - 1) result mods
  else mods

/-! ## A call -/

section
variable (inner : Nat → List ℚ → DecoderResult) (stops : Nat → Bool)

def windowSyndromes (st : St) : List (List ℚ) :=
  (List.range st.batchSize).map fun s =>
    d.windowSyndrome st.numWindowsDecoded ((st.windowRounds.take d.windowSize).map (·.getD s []))
      (st.syndromeMods.getD s [])

/-- `decode_window`: nothing when the inner decoder abandoned the window. -/
def decodeWindow (st : St) : Option St :=
  let w := st.numWindowsDecoded
  let elements := List.range st.batchSize
  if stops w then none
  else
    let innerResults := (d.windowSyndromes st).map (inner w)
    -- the last window commits as many columns of every element as element 0 has
    let last := (convertVecSoftToHard (innerResults.getD 0 {}).result).length
    let rwResults := elements.map fun s =>
      d.commitWindow w last (innerResults.getD s {}) (st.rwResults.getD s {})
    some { st with
      rwResults := rwResults
      syndromeMods := elements.map fun s =>
        d.backOutWindow w (rwResults.getD s {}).result (st.syndromeMods.getD s []) }

def projectErrorsToObservables (rows : List (List Nat)) (errors : List ℚ) : List ℚ :=
  rows.map fun indices =>
    bitValue (indices.foldl (fun parity i => parity ^^ decide (1 / 2 ≤ errors.getD i 0)) false)

/-- A composed error frame as the decoder hands it back: as it is, or projected to observables. -/
def handBack (r : DecoderResult) : DecoderResult :=
  match d.observableFlips with
  | none => r
  | some rows =>
    if r.result = [] then r else { r with result := projectErrorsToObservables rows r.result }

def buffer (syndromes : List (List ℚ)) (st : St) : St :=
  { st with
    windowRounds := st.windowRounds ++ [syndromes]
    roundsSinceLastReset := st.roundsSinceLastReset + 1 }

/-- Buffer a layer and, once a window is full, decode it. `none` is an abandoned block, `some []` a
block that is not complete yet. -/
def pushLayer (syndromes : List (List ℚ)) (st : St) : Option (List DecoderResult) × St :=
  let st := buffer syndromes st
  if st.windowRounds.length < d.windowSize then (some [], st)
  else
    match d.decodeWindow inner stops st with
    | none => (none, resetStream st)
    | some st =>
      let st := { st with numWindowsDecoded := st.numWindowsDecoded + 1 }
      if st.numWindowsDecoded = d.numWindows then
        (some (st.rwResults.map d.handBack), resetStream st)
      else (some [], { st with windowRounds := st.windowRounds.drop d.stepSize })

/-- `decode_batch` on one detector layer. -/
def decodeLayer (syndromes : List (List ℚ)) (st : St) :
    Except Error (Option (List DecoderResult) × St) := do
  let st := if st.roundsSinceLastReset = 0 then d.initializeWindow syndromes.length else st
  throwIf (syndromes.length ≠ st.batchSize) (.invalidArgument
    ("sliding_window: batch size changed mid-stream (" ++ toString syndromes.length ++ " vs " ++
      toString st.batchSize ++ ")"))
  let expected := d.layout.roundWidth st.roundsSinceLastReset
  forM syndromes fun r => throwIf (r.length ≠ expected) (.invalidArgument
    ("sliding_window: syndrome has length " ++ toString r.length ++ "; every row in a call must be " ++
      "either the full syndrome (" ++ toString d.syndromeSize ++ ") or the width of round " ++
      toString st.roundsSinceLastReset ++ " (" ++ toString expected ++ ")"))
  return d.pushLayer inner stops syndromes st

def layerOf (syndromes : List (List ℚ)) (r : Nat) : List (List ℚ) :=
  syndromes.map fun s => (s.drop (d.layout.roundStart r)).take (d.layout.roundWidth r)

/-- A whole block, layer by layer; `results` is what the previous layer returned. -/
@[grind =] def decodeRounds (syndromes : List (List ℚ)) :
    List Nat → Option (List DecoderResult) → St → Except Error (Option (List DecoderResult) × St)
  | [], results, st => .ok (results, st)
  | r :: rs, _, st => do
    let (results, st) ← d.decodeLayer inner stops (d.layerOf syndromes r) st
    match results with
    | none => return (none, st)
    | some results => decodeRounds syndromes rs (some results) st

def checkSyndromeSize (size : Nat) : Except Error Unit :=
  throwIf (size ≠ d.syndromeSize) (.invalidArgument ("Syndrome has length " ++ toString size ++
    " but this decoder expects " ++ toString d.syndromeSize ++ " (the number of detectors)"))

theorem forM_checkSyndromeSize {syndromes : List (List ℚ)} {u : Unit} :
    (forM syndromes fun s => d.checkSyndromeSize s.length) = .ok u ↔
      ∀ s ∈ syndromes, s.length = d.syndromeSize := by
  simp only [forM_eq_ok, checkSyndromeSize, throwIf_eq_ok, ne_eq, not_not]

/-- `decode_batch`: nothing, whole blocks or one detector layer, told apart by the length of the first
row. -/
def decodeBatch (syndromes : List (List ℚ)) (st : St) :
    Except Error (Option (List DecoderResult) × St) :=
  match syndromes with
  | [] => .ok (some [], st)
  | first :: _ =>
    if first.length = d.syndromeSize then do
      forM syndromes fun s => d.checkSyndromeSize s.length
      d.decodeRounds inner stops syndromes (List.range d.layout.numRounds) none st
    else d.decodeLayer inner stops syndromes st

def decode (syndrome : List ℚ) (st : St) : Except Error DecoderResult := do
  let (results, _) ← d.decodeBatch inner (fun _ => false) [syndrome] st
  match results with
  | some (r :: _) => return r
  | _ => return {}

end

end SlidingWindow

end CudaqQec
