import CudaqQec.ExtendedDem.OChunked
import CudaqQec.ExtendedDem.Pcm

/-!
# Decoder inputs

`decoder_init`: the model a decoder is constructed with. It comes from matrices or from chunks; a
chunked source without its closed model has no matrices, and maps errors to observables through its
chunks instead.

`DecoderInit` carries what its constructors checked, so a decoder does not check a size again.
-/

namespace CudaqQec

open Checked SparseBinaryMatrix ExtendedDem

/-- `decoder_init`, as far as a decoder reads it: sizes, the observable matrix and the measurement
map by row, and the chunks. -/
structure DecoderInit where
  numDetectors : Nat
  numErrorMechanisms : Nat
  numObservables : Nat
  /-- False only for a chunked source built without its closed model. -/
  hasMatrices : Bool
  O : Option SparseBinaryMatrix
  D : Option SparseBinaryMatrix
  chunks : Option DemChunksSpec
  o_shape : ∀ m ∈ O, m.layout = .csr ∧ m.numRows = numObservables ∧ m.numCols = numErrorMechanisms
  d_shape : ∀ m ∈ D, m.layout = .csr ∧ m.numRows = numDetectors
  chunked : hasMatrices = false → O = none ∧ chunks.isSome

namespace DecoderInit

/-- `has_observable_model`: a chunked source maps observables exactly when its chunks carry any. -/
def hasObservableModel (init : DecoderInit) : Bool :=
  if init.hasMatrices then init.O.isSome else 0 < init.numObservables

/-! ## Sources -/

def validateModel (H : SparseBinaryMatrix) (O : Option SparseBinaryMatrix) (rates : List ℚ)
    (ids : Option (List Nat)) (D : Option SparseBinaryMatrix) : Except Error Unit := do
  throwIf (O.any (·.numCols ≠ H.numCols))
    (.invalidArgument "decoder_init: O column count must match H column count")
  throwIf (rates ≠ [] ∧ rates.length ≠ H.numCols)
    (.invalidArgument "decoder_init: error_rates size must match H column count")
  throwIf (ids.any (·.length ≠ H.numCols))
    (.invalidArgument "decoder_init: error_ids size must match H column count")
  throwIf (D.any (·.numRows ≠ H.numRows))
    (.invalidArgument "decoder_init: D row count must match H row count")

theorem validateModel_eq_ok {H : SparseBinaryMatrix} {O : Option SparseBinaryMatrix} {rates : List ℚ}
    {ids : Option (List Nat)} {D : Option SparseBinaryMatrix} {u : Unit}
    (h : validateModel H O rates ids D = .ok u) :
    (∀ m ∈ O, m.numCols = H.numCols) ∧ ∀ m ∈ D, m.numRows = H.numRows := by
  simp only [validateModel, bind_eq_ok, throwIf_eq_ok] at h
  obtain ⟨_, hO, _, -, _, -, hD⟩ := h
  constructor
  · rintro m rfl
    simpa using hO
  · rintro m rfl
    simpa using hD

/-- `make_matrix_state`: a model given by its matrices. -/
def makeMatrixState (H : SparseBinaryMatrix) (O : Option SparseBinaryMatrix) (rates : List ℚ)
    (ids : Option (List Nat)) (D : Option SparseBinaryMatrix) : Except Error DecoderInit :=
  match h : validateModel H.toCsc (O.map toCsr) rates ids (D.map toCsr) with
  | .error e => .error e
  | .ok _ => .ok
    { numDetectors := H.numRows
      numErrorMechanisms := H.numCols
      numObservables := (O.map (·.numRows)).getD 0
      hasMatrices := true
      O := O.map toCsr
      D := D.map toCsr
      chunks := none
      o_shape := by
        intro m hm
        obtain ⟨n, rfl, rfl⟩ := Option.map_eq_some_iff.mp hm
        have hcols := (validateModel_eq_ok h).1 n.toCsr rfl
        rw [toCsc_numCols] at hcols
        exact ⟨toCsr_layout n, toCsr_numRows n, hcols⟩
      d_shape := by
        intro m hm
        obtain ⟨n, rfl, rfl⟩ := Option.map_eq_some_iff.mp hm
        have hrows := (validateModel_eq_ok h).2 n.toCsr rfl
        rw [toCsc_numRows] at hrows
        exact ⟨toCsr_layout n, hrows⟩
      chunked := by simp }

/-- The sizes of a chunked source: those of its compact chain, and for each elided round those of one
more repeating chunk. -/
structure ChunkSizes where
  detectors : Nat
  mechanisms : Nat
  observables : Nat

def chunkSizes (spec : DemChunksSpec) : Except Error ChunkSizes := do
  spec.validate
  let chain ← demChunksToCompactChain spec
  let closed ← demChunksToPcm chain.chunks spec.seam.fromSeam spec.seam.toSeam
  let bulk := chain.chunks.getD chain.repeating .empty
  let extra := chain.elidedRounds
  return {
    detectors := closed.numRows +
      extra * (bulk.numInteriorRows + bulk.seamRowsOrZero spec.seam.fromSeam)
    mechanisms := closed.numCols + extra * bulk.numFaults
    observables := (chain.chunks.headD .empty).numObservables }

/-- `from_dem_chunks`: a chunked source without its closed model. -/
def fromDemChunks (spec : DemChunksSpec) (D : Option SparseBinaryMatrix) :
    Except Error DecoderInit := do
  let sizes ← chunkSizes spec
  if h : ∀ m ∈ D, m.numRows = sizes.detectors then
    return {
      numDetectors := sizes.detectors
      numErrorMechanisms := sizes.mechanisms
      numObservables := sizes.observables
      hasMatrices := false
      O := none
      D := D.map toCsr
      chunks := some spec
      o_shape := by simp
      d_shape := by
        intro m hm
        obtain ⟨n, rfl, rfl⟩ := Option.map_eq_some_iff.mp hm
        exact ⟨toCsr_layout n, (toCsr_numRows n).trans (h n rfl)⟩
      chunked := by simp }
  else .error (.invalidArgument
    "decoder_init: D row count must match the dem_chunks detector count")

end DecoderInit

end CudaqQec
