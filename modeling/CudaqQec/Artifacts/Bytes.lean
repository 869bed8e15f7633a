import CudaqQec.Lib.Reading
import CudaqQec.Window.Request

/-!
# The canonical bytes of an artifact

What the data artifact store hashes to a key: the bytes of a template's spec, of a window request and of
a window variant. Here the inputs are kept to the bit: a name is its bytes, and a rate the double that it
is, for which `==` does not tell the two zeros apart. NaNs are left out, which equal nothing.

`Same` is `operator==` of an input.
-/

namespace CudaqQec

namespace Artifact

/-- A `std::string`. -/
abbrev Bytes := List UInt8

structure Double where
  bits : BitVec 64
  notNaN : ¬ 0x7ff0000000000000#64 < bits &&& 0x7fffffffffffffff#64
  deriving DecidableEq

namespace Double

/-- `value == 0.0`: the sign does not count. -/
def isZero (x : Double) : Bool := decide (x.bits &&& 0x7fffffffffffffff#64 = 0#64)

def Same (x y : Double) : Prop := x.bits = y.bits ∨ x.isZero = true ∧ y.isZero = true

end Double

/-! ## The inputs -/

/-- `dem_chunk_spec`. -/
structure ChunkSpec where
  numFaults : Nat
  hSparse : List Int
  seamSpecs : List SeamSpecEntry
  oSparse : List Int
  errorRates : List Double
  dSparse : List Int
  numMeasurements : Option Nat
  m2oSparse : List Int

def ChunkSpec.Same (a b : ChunkSpec) : Prop :=
  a.numFaults = b.numFaults ∧ a.hSparse = b.hSparse ∧ a.seamSpecs = b.seamSpecs ∧
    a.oSparse = b.oSparse ∧ List.Forall₂ Double.Same a.errorRates b.errorRates ∧
    a.dSparse = b.dSparse ∧ a.numMeasurements = b.numMeasurements ∧ a.m2oSparse = b.m2oSparse

/-- `phase_spec_entry`. -/
structure PhaseEntry where
  id : PhaseId
  spec : ChunkSpec

def PhaseEntry.Same (a b : PhaseEntry) : Prop := a.id = b.id ∧ a.spec.Same b.spec

/-- `dem_chunks_spec`. -/
structure ChunksSpec where
  phases : List PhaseEntry
  connections : List PhaseConnection
  seam : SeamConnection
  numRounds : Option Nat
  measurementsPerRound : Option Nat
  phasesSupplyDSparse : Option Bool
  observableNames : List Bytes

def ChunksSpec.Same (a b : ChunksSpec) : Prop :=
  List.Forall₂ PhaseEntry.Same a.phases b.phases ∧ a.connections = b.connections ∧ a.seam = b.seam ∧
    a.numRounds = b.numRounds ∧ a.measurementsPerRound = b.measurementsPerRound ∧
    a.phasesSupplyDSparse = b.phasesSupplyDSparse ∧ a.observableNames = b.observableNames

/-- `send_request`. -/
structure Send where
  id : Bytes
  mode : Option SendMode
  rounds : List RoundRange

/-- `window_request`, with the fields of its ports and its column options. -/
structure Request where
  period : Int
  offset : Int
  commit : Option RoundRange
  buffers : List RoundRange
  inputDisposition : Option PortDisposition
  inputPrior : Option Double
  inputBoundary : Option InputBoundary
  outputDisposition : Option PortDisposition
  outputImports : Option RoundRange
  sends : List Send
  mergeIdentical : Bool
  conflictingParallel : ParallelResolution

def Request.Same (a b : Request) : Prop :=
  a.period = b.period ∧ a.offset = b.offset ∧ a.commit = b.commit ∧ a.buffers = b.buffers ∧
    a.inputDisposition = b.inputDisposition ∧ Option.Rel Double.Same a.inputPrior b.inputPrior ∧
    a.inputBoundary = b.inputBoundary ∧ a.outputDisposition = b.outputDisposition ∧
    a.outputImports = b.outputImports ∧ a.sends = b.sends ∧ a.mergeIdentical = b.mergeIdentical ∧
    a.conflictingParallel = b.conflictingParallel

structure VariantKey where
  position : Option Int
  terminal : Option Int
  deriving DecidableEq

/-! ## The byte writers -/

def ascii (s : String) : Bytes := s.toList.map fun c => c.toNat.toUInt8

def put (name : String) (value : Bytes) : Bytes := (ascii name ++ [61]) ++ (value ++ [10])

def list (values : List Int) : Bytes := values.flatMap fun v => signedDecimal v ++ [44]

def bits (value : Double) : Bytes := decimal (if value.isZero then 0#64 else value.bits).toNat

def optionalOf {α : Type} (format : α → Bytes) (value : Option α) : Bytes := value.elim [45] format

/-- A round range as `begin:end`. -/
def range (r : RoundRange) : Bytes := signedDecimal r.begin ++ 58 :: signedDecimal r.stop

def text (value : Bytes) : Bytes := counted 58 value

def flag (v : Bool) : Bytes := if v then ascii "1" else ascii "0"

/-! ## `canonical_bytes` -/

def seamBytes (seam : SeamSpecEntry) : Bytes :=
  put "seam_spec" (decimal seam.id.value.toNat) ++
    (put "seam_H_sparse" (list seam.spec.hSparse) ++ put "seam_O_sparse" (list seam.spec.oSparse))

def phaseBytes (entry : PhaseEntry) : Bytes :=
  put "phase" (decimal entry.id.value.toNat) ++
  (put "num_faults" (decimal entry.spec.numFaults) ++
  (put "H_sparse" (list entry.spec.hSparse) ++
  (entry.spec.seamSpecs.flatMap seamBytes ++
  (put "O_sparse" (list entry.spec.oSparse) ++
  (put "error_rates" (entry.spec.errorRates.flatMap fun rate => bits rate ++ [44]) ++
  (put "D_sparse" (list entry.spec.dSparse) ++
  (put "num_measurements" (optionalOf decimal entry.spec.numMeasurements) ++
  put "m2o_sparse" (list entry.spec.m2oSparse))))))))

def connectionBytes (c : PhaseConnection) : Bytes :=
  put "connection" (decimal c.fromPhase.value.toNat ++ 44 :: decimal c.toPhase.value.toNat)

/-- `canonical_bytes` of a spec. -/
def canonicalBytes (spec : ChunksSpec) : Bytes :=
  ascii "dem_chunks\n" ++
  (spec.phases.flatMap phaseBytes ++
  (spec.connections.flatMap connectionBytes ++
  (put "seam" (decimal spec.seam.fromSeam.value.toNat ++ 44 ::
    decimal spec.seam.toSeam.value.toNat) ++
  (put "num_rounds" (optionalOf decimal spec.numRounds) ++
  (put "measurements_per_round" (optionalOf decimal spec.measurementsPerRound) ++
  (put "phases_supply_D_sparse" (optionalOf flag spec.phasesSupplyDSparse) ++
  spec.observableNames.flatMap fun name => put "observable_name" (text name)))))))

def dispositionIndex : PortDisposition → Nat
  | .opened => 0
  | .closed => 1

def sendModeIndex : SendMode → Nat
  | .delta => 0
  | .residual => 1

def boundaryIndex : InputBoundary → Nat
  | .columns => 0
  | .truncate => 1

def resolutionIndex : ParallelResolution → Nat
  | .reject => 0
  | .mostLikely => 1

def sendBytes (send : Send) : Bytes :=
  put "send" (text send.id) ++
  (put "send_mode" (optionalOf (fun v => decimal (sendModeIndex v)) send.mode) ++
  put "send_rounds" (send.rounds.flatMap fun r => range r ++ [44]))

/-- `canonical_bytes` of a window request. -/
def requestBytes (request : Request) : Bytes :=
  ascii "window_request\n" ++
  (put "period" (signedDecimal request.period) ++
  (put "offset" (signedDecimal request.offset) ++
  (put "commit" (optionalOf range request.commit) ++
  (request.buffers.flatMap (fun buffer => put "buffer" (range buffer)) ++
  (put "input_disposition"
    (optionalOf (fun v => decimal (dispositionIndex v)) request.inputDisposition) ++
  (put "input_prior" (optionalOf bits request.inputPrior) ++
  (put "input_boundary" (optionalOf (fun v => decimal (boundaryIndex v)) request.inputBoundary) ++
  (put "output_disposition"
    (optionalOf (fun v => decimal (dispositionIndex v)) request.outputDisposition) ++
  (put "output_imports" (optionalOf range request.outputImports) ++
  (request.sends.flatMap sendBytes ++
  (put "merge_identical" (flag request.mergeIdentical) ++
  put "conflicting_parallel" (decimal (resolutionIndex request.conflictingParallel)))))))))))))

/-- `window_bytes`: a window variant, by the hash of its template. -/
def windowBytes (templateSha256 : Bytes) (request : Request) (key : VariantKey) : Bytes :=
  ascii "window\n" ++
  (put "template" templateSha256 ++
  (requestBytes request ++
  (put "position" (optionalOf signedDecimal key.position) ++
  put "terminal" (optionalOf signedDecimal key.terminal))))

end Artifact

end CudaqQec
