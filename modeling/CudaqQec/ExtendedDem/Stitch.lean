import CudaqQec.ExtendedDem.Blocks

/-!
# Composing chunks

A chain of chunks becomes one chunk by contracting the outgoing seam of each against the incoming
seam of the next. `demStitch` does it for two chunks; `demStitchAll` plans the rows and columns of
the whole chain and copies every chunk once; `demClose` and `demCloseAll` drop the trailing seam and
write the rest as a dense error model.

The row order of a composed chain is

    chunk 0 incoming | chunk 0 interior | seam | chunk 1 interior | … | last interior | last outgoing
-/

namespace CudaqQec

open Checked SparseBinaryMatrix ExtendedDem

/-! ## Seam checks -/

def tagOffset (d : ExtendedDem) (id : SeamId) : Nat :=
  ((d.seams.takeWhile fun s => s.id ≠ id).map Seam.numRows).sum

def seamTagOffset (d : ExtendedDem) (id : SeamId) : Except Error Nat :=
  if d.hasSeam id then .ok (tagOffset d id)
  else .error (.outOfRange ("seam_tag_offset: seam " ++ id.name ++ " not found"))

/-- The outgoing seam of `a` and the incoming seam of `b` have one width and the same tags; an absent
seam has width 0. -/
def checkSeamBoundary (a b : ExtendedDem) (fromSeam toSeam : SeamId) (context : String) :
    Except Error Unit :=
  let fromW := a.seamRowsOrZero fromSeam
  let toW := b.seamRowsOrZero toSeam
  if fromW = 0 ∧ toW = 0 then .ok ()
  else do
    throwIf (fromW ≠ toW) (.invalidArgument (context ++ ": seam width mismatch (" ++
      toString fromW ++ " vs " ++ toString toW ++ ")"))
    let offA ← seamTagOffset a fromSeam
    let offB ← seamTagOffset b toSeam
    forM (List.range fromW) fun k =>
      throwIf (a.tags.getD (offA + k) 0 ≠ b.tags.getD (offB + k) 0)
        (.invalidArgument (context ++ ": tag mismatch at seam row " ++ toString k))

def rejectExtraSeams (d : ExtendedDem) (fromSeam toSeam : SeamId) (context : String) :
    Except Error Unit :=
  forM d.seams fun s =>
    throwIf (s.id ≠ fromSeam ∧ s.id ≠ toSeam ∧ s.numRows ≠ 0)
      (.invalidArgument (context ++ ": seam " ++ s.id.name ++ " carries " ++ toString s.numRows ++
        " rows but is neither from_seam (" ++ fromSeam.name ++ ") nor to_seam (" ++ toSeam.name ++
        "); composing chunks that carry additional named seams is not supported"))

/-! ## Two chunks -/

def extractSeamRows (d : ExtendedDem) (id : SeamId) : Except Error SparseBinaryMatrix :=
  if d.hasSeam id then extractRowBand d.H (d.seamBand id).1 (d.seamBand id).2
  else zeroMatrix 0 d.numFaults

def extractSeamTags (d : ExtendedDem) (id : SeamId) (rows : Nat) : List Nat :=
  if d.hasSeam id then (d.tags.drop (tagOffset d id)).take rows else []

/-- The checks `dem_stitch` makes before it assembles anything. -/
def checkStitch (a b : ExtendedDem) (fromSeam toSeam : SeamId) : Except Error Unit := do
  a.validate "dem_stitch: left"
  b.validate "dem_stitch: right"
  throwIf (a.numObservables ≠ b.numObservables)
    (.invalidArgument ("dem_stitch: observable count mismatch (" ++ toString a.numObservables ++
      " vs " ++ toString b.numObservables ++ ")"))
  throwIf (a.hasSeam fromSeam = false)
    (.invalidArgument ("dem_stitch: left chunk has no seam with id " ++
      toString fromSeam.value ++ " (from_seam); cannot contract"))
  throwIf (b.hasSeam toSeam = false)
    (.invalidArgument ("dem_stitch: right chunk has no seam with id " ++
      toString toSeam.value ++ " (to_seam); cannot contract"))
  rejectExtraSeams a fromSeam toSeam "dem_stitch: left"
  rejectExtraSeams b fromSeam toSeam "dem_stitch: right"
  checkSeamBoundary a b fromSeam toSeam "dem_stitch"
  throwIf (uint32Max < a.numFaults + b.numFaults)
    (.overflowError "dem_stitch: combined fault count exceeds uint32_t")

/-- `H` of a stitched chunk. -/
def stitchH (a b : ExtendedDem) (fromSeam toSeam : SeamId) : Except Error SparseBinaryMatrix := do
  let nA := a.numFaults
  let nTotal := nA + b.numFaults
  let aTo ← extractSeamRows a toSeam
  let aInt ← extractInteriorRows a.H a.seams
  let aFrom ← extractSeamRows a fromSeam
  let bTo ← extractSeamRows b toSeam
  let bInt ← extractInteriorRows b.H b.seams
  let bFrom ← extractSeamRows b fromSeam
  let contracted ← hcat aFrom bTo
  let top ← padRight aTo nTotal
  let topInt ← padRight aInt nTotal
  let botInt ← padLeft bInt nA nTotal
  let bot ← padLeft bFrom nA nTotal
  let H ← stackBands nTotal [top, topInt, contracted, botInt, bot]
  -- A result without fault columns is replaced by the matrix without rows.
  if H.numCols = 0 then zeroMatrix 0 nTotal else .ok H

def demStitch (a b : ExtendedDem) (fromSeam toSeam : SeamId) : Except Error ExtendedDem := do
  checkStitch a b fromSeam toSeam
  let H ← stitchH a b fromSeam toSeam
  let O ← hcat a.O b.O
  let aToN := a.seamRowsOrZero toSeam
  let bFromN := b.seamRowsOrZero fromSeam
  let bFromStart := aToN + a.numInteriorRows + a.seamRowsOrZero fromSeam + b.numInteriorRows
  let r : ExtendedDem :=
    { H := H
      O := O
      errorRates := a.errorRates ++ b.errorRates
      seams := []
      tags := extractSeamTags a toSeam aToN ++ extractSeamTags b fromSeam bFromN }
  let r ← r.addSeam toSeam 0 aToN
  r.addSeam fromSeam bFromStart (bFromStart + bFromN)

/-! ## A chain of chunks -/

/-- `dem_chunks_to_fault_offsets`: where each chunk's fault columns start, and their total. -/
def demChunksToFaultOffsets (chunks : List ExtendedDem) : List Nat :=
  chunks.foldl (fun offsets c => offsets ++ [offsets.getLastD 0 + c.numFaults]) [0]

/-- `chain_layout`: row and column geometry of a whole chain. -/
structure ChainLayout where
  colOff : List Nat
  interiorRow : List Nat
  seamRow : List Nat
  lead : Nat
  trail : Nat
  trailRow : Nat
  numFaults : Nat
  deriving DecidableEq, Repr

/-- The loop of `plan_chain` from row `rows` on: interior bands, contracted seam bands, and the row
after the last interior band. -/
@[grind =] def planBands (fromSeam : SeamId) : Nat → List ExtendedDem → List Nat × List Nat × Nat
  | rows, [] => ([], [], rows)
  | rows, [c] => ([rows], [], rows + c.numInteriorRows)
  | rows, c :: c' :: cs =>
    let seam := rows + c.numInteriorRows
    let rest := planBands fromSeam (seam + c.seamRowsOrZero fromSeam) (c' :: cs)
    (rows :: rest.1, seam :: rest.2.1, rest.2.2)

def planChain (chunks : List ExtendedDem) (fromSeam toSeam : SeamId) : ChainLayout :=
  let lead := (chunks.headD .empty).seamRowsOrZero toSeam
  let bands := planBands fromSeam lead chunks
  let colOff := demChunksToFaultOffsets chunks
  { colOff := colOff
    interiorRow := bands.1
    seamRow := bands.2.1
    lead := lead
    trail := (chunks.getLastD .empty).seamRowsOrZero fromSeam
    trailRow := bands.2.2
    numFaults := colOff.getLastD 0 }

/-- One row of `chain_row_map`'s loop. The state is the map so far and how many interior rows it has;
`t` and `f` are the incoming and the outgoing band. -/
def placeStep (t f : Nat × Nat) (toBase interiorBase fromBase : Nat) (st : List Nat × Nat)
    (r : Nat) : List Nat × Nat :=
  if t.1 ≤ r ∧ r < t.2 then (st.1 ++ [u32 (toBase + (r - t.1))], st.2)
  else if f.1 ≤ r ∧ r < f.2 then (st.1 ++ [u32 (fromBase + (r - f.1))], st.2)
  else (st.1 ++ [u32 (interiorBase + st.2)], st.2 + 1)

/-- Where each row of `H` lands when its incoming band starts at `toBase`, its outgoing band at
`fromBase` and its interior rows, in order, at `interiorBase`. -/
def placeRows (chunk : ExtendedDem) (fromSeam toSeam : SeamId)
    (toBase interiorBase fromBase : Nat) : List Nat :=
  ((List.range chunk.H.numRows).foldl
    (placeStep (chunk.seamBand toSeam) (chunk.seamBand fromSeam) toBase interiorBase fromBase)
    ([], 0)).1

def chainRowMap (chunk : ExtendedDem) (i T : Nat) (plan : ChainLayout) (fromSeam toSeam : SeamId) :
    List Nat :=
  placeRows chunk fromSeam toSeam (if i = 0 then 0 else plan.seamRow.getD (i - 1) 0)
    (plan.interiorRow.getD i 0)
    (if i + 1 < T then plan.seamRow.getD i 0 else plan.trailRow)

/-- Each chunk's columns in turn, their rows moved to where they land; rows at or past `rowLimit` are
dropped. -/
def chainHColumns (chunks : List ExtendedDem) (plan : ChainLayout) (fromSeam toSeam : SeamId)
    (rowLimit : Nat) : List (List Nat) :=
  chunks.zipIdx.flatMap fun p =>
    let rowMap := chainRowMap p.1 p.2 chunks.length plan fromSeam toSeam
    p.1.H.toCsc.toNestedCsc.map fun col => (col.map (rowMap.getD · 0)).filter (· < rowLimit)

/-- Each chunk's observable columns in turn; a chunk may leave `O` empty. -/
def chainOColumns (chunks : List ExtendedDem) : List (List Nat) :=
  chunks.flatMap fun c =>
    if c.O.numCols = 0 then List.replicate c.numFaults [] else c.O.toCsc.toNestedCsc

def validateChain (chunks : List ExtendedDem) (fromSeam toSeam : SeamId) (fn : String) :
    Except Error Unit := do
  let chunk (i : Nat) : ExtendedDem := chunks.getD i .empty
  forM (List.range chunks.length) fun i => do
    (chunk i).validate (fn ++ ": chunk " ++ toString i)
    rejectExtraSeams (chunk i) fromSeam toSeam (fn ++ ": chunk " ++ toString i)
  forM (List.range chunks.length) fun i =>
    throwIf ((chunk i).numObservables ≠ (chunk 0).numObservables)
      (.invalidArgument (fn ++ ": observable count mismatch at chunk " ++ toString i))
  forM (List.range (chunks.length - 1)) fun i => do
    throwIf ((chunk i).hasSeam fromSeam = false)
      (.invalidArgument (fn ++ ": chunk " ++ toString i ++ " has no seam with id " ++
        fromSeam.name ++ " (from_seam); cannot contract"))
    throwIf ((chunk (i + 1)).hasSeam toSeam = false)
      (.invalidArgument (fn ++ ": chunk " ++ toString (i + 1) ++ " has no seam with id " ++
        toSeam.name ++ " (to_seam); cannot contract"))
    checkSeamBoundary (chunk i) (chunk (i + 1)) fromSeam toSeam
      (fn ++ ": boundary " ++ toString i)

/-- The chain of two or more chunks, from its plan. -/
def assembleChain (chunks : List ExtendedDem) (fromSeam toSeam : SeamId) :
    Except Error ExtendedDem := do
  let plan := planChain chunks fromSeam toSeam
  let nRows := plan.trailRow + plan.trail
  let first := chunks.headD .empty
  let last := chunks.getLastD .empty
  let H ← fromNestedCsc (u32 nRows) (u32 plan.numFaults)
    (chainHColumns chunks plan fromSeam toSeam nRows)
  let O ← fromNestedCsc first.numObservables (u32 plan.numFaults) (chainOColumns chunks)
  let r : ExtendedDem :=
    { H := H.canonicalize
      O := O
      errorRates := chunks.flatMap errorRates
      seams := []
      tags := extractSeamTags first toSeam plan.lead ++ extractSeamTags last fromSeam plan.trail }
  let r ← r.addSeam toSeam 0 (u32 plan.lead)
  r.addSeam fromSeam (u32 plan.trailRow) (u32 (plan.trailRow + plan.trail))

def demStitchAll (chunks : List ExtendedDem) (fromSeam toSeam : SeamId) :
    Except Error ExtendedDem :=
  match chunks with
  | [] => .error (.invalidArgument "dem_stitch_all: dem_chunks must be non-empty")
  | [c] => do
    c.validate "dem_stitch_all: chunk 0"
    return c
  | chunks => do
    validateChain chunks fromSeam toSeam "dem_stitch_all"
    assembleChain chunks fromSeam toSeam

/-! ## Closing -/

/-- `detector_error_model`: a dense error model. -/
structure DetectorErrorModel where
  detectorErrorMatrix : BitMatrix
  observablesFlipsMatrix : BitMatrix
  errorRates : List ℚ
  deriving DecidableEq

def blockPositions (src : SparseBinaryMatrix) (rowOffset colOffset : Nat) : List (Nat × Nat) :=
  src.toNestedCsc.zipIdx.flatMap fun p => p.1.map fun r => (rowOffset + r, colOffset + p.2)

def writeSparseBlock (dst : BitMatrix) (src : SparseBinaryMatrix) (rowOffset colOffset : Nat) :
    Except Error BitMatrix :=
  let positions := blockPositions src rowOffset colOffset
  match positions.find? fun p => ¬ (p.1 < dst.rows ∧ p.2 < dst.cols) with
  | some p =>
    .error (.runtimeError ("Invalid tensor indices: " ++ toString p.1 ++ ", " ++ toString p.2))
  | none => .ok (dst.toggleAll positions)

def writeLead (dst : BitMatrix) (dem : ExtendedDem) (toSeam : SeamId) : Except Error BitMatrix :=
  if 0 < dem.seamRowsOrZero toSeam then do
    let lead ← extractRowBand dem.H (dem.seamBand toSeam).1 (dem.seamBand toSeam).2
    writeSparseBlock dst lead 0 0
  else .ok dst

def demClose (dem : ExtendedDem) (toSeam fromSeam : SeamId) : Except Error DetectorErrorModel := do
  dem.validate "dem_close"
  rejectExtraSeams dem fromSeam toSeam "dem_close"
  let nLead := dem.seamRowsOrZero toSeam
  let D ← writeLead (BitMatrix.zero (nLead + dem.numInteriorRows) dem.numFaults) dem toSeam
  let interior ← extractInteriorRows dem.H dem.seams
  let D ← writeSparseBlock D interior nLead 0
  let O ← writeSparseBlock (BitMatrix.zero dem.numObservables dem.numFaults) dem.O 0 0
  return ⟨D, O, dem.errorRates⟩

/-- The state of `dem_close_all`'s pass: the two matrices and the next detector row. -/
structure CloseState where
  detectors : BitMatrix
  observables : BitMatrix
  rowCursor : Nat

/-- One chunk of the pass: its interior rows, then the seam it shares with the next chunk, then its
observables. -/
def closeChunk (fromSeam toSeam : SeamId) (st : CloseState) (c : ExtendedDem)
    (next : Option ExtendedDem) (col : Nat) : Except Error CloseState := do
  let interior ← extractInteriorRows c.H c.seams
  let D ← writeSparseBlock st.detectors interior st.rowCursor col
  let row := st.rowCursor + interior.numRows
  let seam ← closeSeam D row
  let O ← writeSparseBlock st.observables c.O 0 col
  return ⟨seam.1, O, seam.2⟩
where
  closeSeam (D : BitMatrix) (row : Nat) : Except Error (BitMatrix × Nat) :=
    match next with
    | none => .ok (D, row)
    | some c' =>
      if c.hasSeam fromSeam ∧ c'.hasSeam toSeam then do
        let fromH ← extractRowBand c.H (c.seamBand fromSeam).1 (c.seamBand fromSeam).2
        let toH ← extractRowBand c'.H (c'.seamBand toSeam).1 (c'.seamBand toSeam).2
        let D ← writeSparseBlock D fromH row col
        let D ← writeSparseBlock D toH row (col + c.numFaults)
        return (D, row + c.seamRowsOrZero fromSeam)
      else .ok (D, row)

@[grind =] def closeChunks (fromSeam toSeam : SeamId) : CloseState → Nat → List ExtendedDem →
    Except Error CloseState
  | st, _, [] => .ok st
  | st, col, c :: cs => do
    let st ← closeChunk fromSeam toSeam st c cs.head? col
    closeChunks fromSeam toSeam st (col + c.numFaults) cs

/-- The checks of `dem_close_all`. -/
def validateClose (chunks : List ExtendedDem) (fromSeam toSeam : SeamId) : Except Error Unit := do
  let chunk (i : Nat) : ExtendedDem := chunks.getD i .empty
  throwIf (chunks = []) (.invalidArgument "dem_close_all: dem_chunks must be non-empty")
  forM (List.range chunks.length) fun i => do
    (chunk i).validate ("dem_close_all: chunk " ++ toString i)
    rejectExtraSeams (chunk i) fromSeam toSeam ("dem_close_all: chunk " ++ toString i)
  forM (List.range chunks.length) fun i =>
    throwIf ((chunk i).numObservables ≠ (chunk 0).numObservables)
      (.invalidArgument ("dem_close_all: observable count mismatch at chunk " ++ toString i))
  forM (List.range (chunks.length - 1)) fun i =>
    checkSeamBoundary (chunk i) (chunk (i + 1)) fromSeam toSeam
      ("dem_close_all: boundary " ++ toString i)

def demCloseAll (chunks : List ExtendedDem) (fromSeam toSeam : SeamId) :
    Except Error DetectorErrorModel := do
  validateClose chunks fromSeam toSeam
  let first := chunks.headD .empty
  let nFaults := (demChunksToFaultOffsets chunks).getLastD 0
  let lead := first.seamRowsOrZero toSeam
  let totalInterior := (chunks.map numInteriorRows).sum
  let totalSeam := (chunks.dropLast.map fun c => c.seamRowsOrZero fromSeam).sum
  let D ← writeLead (BitMatrix.zero (lead + totalInterior + totalSeam) nFaults) first toSeam
  let st ← closeChunks fromSeam toSeam
    ⟨D, BitMatrix.zero first.numObservables nFaults, lead⟩ 0 chunks
  return ⟨st.detectors, st.observables, chunks.flatMap errorRates⟩

end CudaqQec
