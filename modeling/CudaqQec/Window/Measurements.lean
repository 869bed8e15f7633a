import CudaqQec.ExtendedDem.Memory
import CudaqQec.Lib.Parity
import CudaqQec.Window.Place

/-!
# Measurements of a window

`m2d` maps a window's measurements to its detectors. Its inputs are the measurements of the round
before the window (`v_in`) and then those of the window's rounds; its first outputs are the window's
own rows, the others the measurements that cross its outgoing wires.

* `buildM2d_own`: the outputs on the window's own rows, round by round.
-/

namespace CudaqQec

open Checked SparseBinaryMatrix Parity

/-! ## Affine maps -/

/-- `affine_map`: inputs and outputs are partitioned into ports, listed by size. -/
structure AffineMap where
  matrix : SparseBinaryMatrix
  offset : List UInt8
  inputSizes : List Nat
  outputSizes : List Nat
  deriving DecidableEq

def AffineMap.apply (m : AffineMap) (input : Nat → UInt8) : List UInt8 :=
  m.matrix.toNestedCsr.zipIdx.map fun p => parity input p.1 ^^^ m.offset.getD p.2 0

/-- `map_matrix`: rows as sorted column lists, repeated columns cancelled in pairs. -/
def mapMatrix (numRows numCols : Nat) (rows : List (List Nat)) : Except Error SparseBinaryMatrix :=
  fromNestedCsr numRows numCols (rows.map cancelPairs)

/-! ## The layout of measurements -/

/-- `round_width`: round `r`'s measurements in the stream. -/
def TemplateData.roundWidth (t : TemplateData) (r R : Nat) : Nat :=
  sizeT (t.measurementOffset (r + 1) R - t.measurementOffset r R)

def TemplateData.roundDetectors (t : TemplateData) (r R : Nat) : Nat :=
  sizeT (t.rowOffset (r + 1) R - t.rowOffset r R)

/-- `measurement_layout`: each round's width, and where its measurements start among the inputs. -/
structure MeasurementLayout where
  vIn : Nat
  width : List Nat
  start : List Nat

def RoundRange.size (r : RoundRange) : Nat := (r.stop - r.begin).toNat

def layoutMeasurements (t : TemplateData) (rounds : RoundRange) (R : Nat) : MeasurementLayout :=
  let vIn := if 0 < rounds.begin then t.roundWidth (rounds.begin - 1).toNat R else 0
  let width := (List.range rounds.size).map fun i => t.roundWidth (rounds.begin.toNat + i) R
  { vIn := vIn
    width := width
    start := width.scanl (· + ·) vIn }

/-! ## `build_m2d` -/

/-- One value of a round's `D_sparse`: an index counts the previous round's measurements first. -/
def pushM2dValue (r prevStart prevWidth start width : Nat) (acc : DRow) (value : Int) :
    Except Error DRow :=
  let index := sizeT value
  if value = -1 then .ok ⟨acc.rows ++ [acc.row], []⟩
  else if index < prevWidth then .ok ⟨acc.rows, acc.row ++ [u32 (prevStart + index)]⟩
  else if index - prevWidth < width then
    .ok ⟨acc.rows, acc.row ++ [u32 (start + index - prevWidth)]⟩
  else .error (.invalidArgument ("window_from_dem_chunks: round " ++ toString r ++
    "'s D_sparse reads measurement " ++ toString index ++ ", past its round"))

/-- The rows of round `r`: its `D` rows over (previous round, this round), or the memory
convention. -/
def m2dRound (t : TemplateData) (r R prevStart prevWidth start width : Nat) :
    Except Error (List (List Nat)) :=
  let detectors := t.roundDetectors r R
  if t.spec.hasDSparse then do
    let acc ← (t.phaseSpec (t.phase r R)).dSparse.foldlM
      (pushM2dValue r prevStart prevWidth start width) ⟨[], []⟩
    throwIf (acc.rows.length ≠ detectors)
      (.invalidArgument ("window_from_dem_chunks: round " ++ toString r ++ "'s D_sparse has " ++
        toString acc.rows.length ++ " rows for " ++ toString detectors ++ " detectors"))
    return acc.rows
  else
    .ok ((List.range detectors).map fun j =>
      u32 (start + j) :: if 0 < r then [u32 (prevStart + j)] else [])

def m2dOwnRound (t : TemplateData) (w : WindowPlacement) (m : MeasurementLayout) (i : Nat) :
    Except Error (List (List Nat)) :=
  m2dRound t (w.rounds.begin.toNat + i) w.shotRounds
    (if i = 0 then 0 else m.start.getD (i - 1) 0)
    (if i = 0 then m.vIn else m.width.getD (i - 1) 0) (m.start.getD i 0) (m.width.getD i 0)

/-- The wires that leave a window: where its commit zone ends, and where its rounds do. -/
def outgoingWires (w : WindowPlacement) : List Int :=
  (if w.commit.stop < w.shotRounds then [w.commit.stop] else []) ++
    (if w.output.present ∧ w.rounds.stop ≠ w.commit.stop then [w.rounds.stop] else [])

def roundBefore (w : WindowPlacement) (wire : Int) : Nat := (wire - 1 - w.rounds.begin).toNat

/-- The virtual outcomes of a wire: the measurements of the round before. -/
def wireRows (w : WindowPlacement) (m : MeasurementLayout) (wire : Int) : List (List Nat) :=
  (List.range (m.width.getD (roundBefore w wire) 0)).map fun j =>
    [u32 (m.start.getD (roundBefore w wire) 0 + j)]

/-- `build_m2d`: each own round's detectors, then the outgoing wires' virtual outcomes. -/
def buildM2d (t : TemplateData) (w : WindowPlacement) (m : MeasurementLayout) :
    Except Error AffineMap := do
  let own ← (List.range w.rounds.size).mapM (m2dOwnRound t w m)
  let wires := outgoingWires w
  let rows := own.flatten ++ wires.flatMap (wireRows w m)
  let matrix ← mapMatrix rows.length (m.start.getLastD 0) rows
  return {
    matrix := matrix
    offset := List.replicate rows.length 0
    inputSizes := [m.vIn, m.start.getLastD 0 - m.vIn]
    outputSizes := own.flatten.length :: wires.map fun wire => m.width.getD (roundBefore w wire) 0 }

def AffineMap.own (m : AffineMap) (input : Nat → UInt8) : List UInt8 :=
  (m.apply input).take (m.outputSizes.headD 0)

/-! ## Outputs on the own rows -/

variable {t : TemplateData} {w : WindowPlacement} {m : MeasurementLayout} {map : AffineMap}

theorem apply_of_mapMatrix {n k : Nat} {rows : List (List Nat)} {matrix : SparseBinaryMatrix}
    (h : mapMatrix n k rows = .ok matrix) (inputs outputs : List Nat) (input : Nat → UInt8) :
    AffineMap.apply ⟨matrix, List.replicate rows.length 0, inputs, outputs⟩ input =
      rows.map (parity input) := by
  obtain ⟨-, hl, -, -, hg⟩ := fromNestedCsr_eq_ok.mp h
  have hnested : matrix.toNestedCsr = rows.map cancelPairs := by
    rw [toNestedCsr, hl]
    exact hg
  have hzero : ∀ p ∈ (rows.map cancelPairs).zipIdx,
      parity input p.1 ^^^ (List.replicate rows.length (0 : UInt8)).getD p.2 0 =
        (parity input ∘ Prod.fst) p := by
    intro p _
    rw [getD_replicate_self, UInt8.xor_zero]
    rfl
  rw [AffineMap.apply, hnested, List.map_congr_left hzero, ← List.map_map, List.zipIdx_map_fst,
    List.map_map]
  exact List.map_congr_left fun row _ => parity_cancelPairs row

/-- The outputs on the window's own rows are the parities of its rounds' rows. -/
theorem buildM2d_own (h : buildM2d t w m = .ok map) (input : Nat → UInt8) :
    ∃ own, List.Forall₂ (fun i rows => m2dOwnRound t w m i = .ok rows) (List.range w.rounds.size) own ∧
      map.own input = own.flatMap fun rows => rows.map (parity input) := by
  simp only [buildM2d, bind_eq_ok] at h
  obtain ⟨own, hown, matrix, hmatrix, hok⟩ := h
  refine ⟨own, mapM_eq_ok.mp hown, ?_⟩
  rw [← Except.ok.inj hok, AffineMap.own, apply_of_mapMatrix hmatrix, List.headD_cons, List.map_append,
    List.take_left' (by rw [List.length_map]), List.map_flatten, List.flatMap_def]

end CudaqQec
