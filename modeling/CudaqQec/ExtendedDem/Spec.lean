import CudaqQec.ExtendedDem.Blocks
import Mathlib.Data.List.TakeWhile

/-!
# Phase specs

A shot is described by phases and the connections between them. `DemChunkSpec` is one phase as flat
`-1`-terminated index lists; `demChunkFromSpec` materialises it as a chunk, stacking one band of rows
for each seam. `DemChunksSpec` connects phases into a chain, in which one self-connected phase may
repeat. `phaseSequence` walks the chain, `layout` splits it at the repeating phase.

* `length_phaseSequence`: a walk that returned has one phase for each round.
* `layout_eq_ok`: how the phases before and after the repeating one relate to the shortest chain.
-/

namespace CudaqQec

open Checked SparseBinaryMatrix

/-- `numeric_limits<uint64_t>::max()`. -/
def uint64Max : Nat := 2 ^ 64 - 1

/-! ## `-1`-terminated rows -/

@[grind =] def terminatedRows : List Int → List (List Int) × List Int
  | [] => ([], [])
  | v :: vs =>
    if v = -1 then ([] :: (terminatedRows vs).1, (terminatedRows vs).2)
    else
      match (terminatedRows vs).1 with
      | [] => ([], v :: (terminatedRows vs).2)
      | r :: rs => ((v :: r) :: rs, (terminatedRows vs).2)

/-- `sparse_from_terminated_rows`: the rows as a matrix of `numFaults` columns. -/
def sparseFromTerminatedRows (rows : List Int) (numFaults : Nat) :
    Except Error SparseBinaryMatrix := do
  throwIf ((terminatedRows rows).2 ≠ [])
    (.invalidArgument "sparse_from_terminated_rows: input did not end with -1 terminator")
  let m ← fromNestedCsr (terminatedRows rows).1.length numFaults
    ((terminatedRows rows).1.map fun r => r.map fun v => (v % 2 ^ 32).toNat)
  return m.toCsc

/-- The loop of `validate_index_list`: every index in range, none twice in a row. `rowCols` holds the
indices of the row so far. -/
@[grind =] def checkIndices (numFaults : Nat) (context field : String) :
    List Int → List Int → Except Error Unit
  | [], _ => .ok ()
  | v :: vs, rowCols =>
    if v = -1 then checkIndices numFaults context field vs []
    else do
      throwIf (v < 0 ∨ (numFaults : Int) ≤ v)
        (.invalidArgument (context ++ "." ++ field ++ " index " ++ toString v ++ " out of range"))
      throwIf (v ∈ rowCols) (.invalidArgument (context ++ "." ++ field ++
        " duplicate column index " ++ toString v ++ " in a row"))
      checkIndices numFaults context field vs (v :: rowCols)

/-- `validate_index_list`: empty, or terminated rows without repeats inside `[0, num_faults)`. -/
def validateIndexList (rows : List Int) (numFaults : Nat) (context field : String) :
    Except Error Unit :=
  if rows = [] then .ok ()
  else do
    throwIf (rows.getLastD 0 ≠ -1)
      (.invalidArgument (context ++ "." ++ field ++ " must end with a -1 row terminator"))
    checkIndices numFaults context field rows []

/-! ## One phase -/

/-- `dem_seam_spec`: the rows one seam carries. -/
structure DemSeamSpec where
  hSparse : List Int
  oSparse : List Int := []
  deriving DecidableEq

structure SeamSpecEntry where
  id : SeamId
  spec : DemSeamSpec
  deriving DecidableEq

/-- `dem_chunk_spec`: one phase. `hSparse` is shorthand for the same rows on every seam; it excludes
`seamSpecs`. -/
structure DemChunkSpec where
  numFaults : Nat := 0
  hSparse : List Int := []
  seamSpecs : List SeamSpecEntry := []
  oSparse : List Int := []
  errorRates : List ℚ := []
  dSparse : List Int := []
  numMeasurements : Option Nat := none
  m2oSparse : List Int := []
  deriving DecidableEq

namespace DemChunkSpec

variable (s : DemChunkSpec)

def expand (ids : List SeamId) : DemChunkSpec :=
  if s.seamSpecs ≠ [] then s
  else if s.hSparse = [] then s
  else { s with seamSpecs := ids.map fun id => ⟨id, ⟨s.hSparse, []⟩⟩, hSparse := [] }

def validate (context : String) : Except Error Unit := do
  throwIf (s.numFaults > uint32Max)
    (.invalidArgument (context ++ ".num_faults exceeds uint32_t max"))
  throwIf (s.hSparse ≠ [] ∧ s.seamSpecs ≠ [])
    (.invalidArgument (context ++ ": H_sparse and seam_specs are mutually exclusive"))
  throwIf (s.errorRates.length ≠ s.numFaults)
    (.invalidArgument (context ++ ".error_rates has " ++ toString s.errorRates.length ++
      " entries but num_faults=" ++ toString s.numFaults))
  forM (List.range s.errorRates.length) fun i =>
    throwIf (¬ (0 ≤ s.errorRates.getD i 0 ∧ s.errorRates.getD i 0 ≤ 1))
      (.invalidArgument (context ++ ".error_rates[" ++ toString i ++ "] out of [0,1]"))
  validateIndexList s.hSparse s.numFaults context "H_sparse"
  validateIndexList s.oSparse s.numFaults context "O_sparse"
  forM s.seamSpecs fun e => do
    validateIndexList e.spec.hSparse s.numFaults context ("seam[" ++ e.id.name ++ "].H_sparse")
    validateIndexList e.spec.oSparse s.numFaults context ("seam[" ++ e.id.name ++ "].O_sparse")
  forM s.dSparse fun v =>
    throwIf (v < -1)
      (.invalidArgument (context ++ ".D_sparse value " ++ toString v ++ " is below -1"))
  throwIf (s.dSparse ≠ [] ∧ s.dSparse.getLastD 0 ≠ -1)
    (.invalidArgument (context ++ ".D_sparse must end with a -1 terminator"))
  -- The round's width bounds these indices; the whole spec's validation knows it.
  validateIndexList s.m2oSparse uint64Max context "m2o_sparse"

end DemChunkSpec

/-! ## From a phase to a chunk -/

def stackSeam (H seamH : SparseBinaryMatrix) (numFaults : Nat) : Except Error SparseBinaryMatrix :=
  if H.numRows = 0 ∧ H.numCols = 0 then
    if 0 < seamH.numRows then .ok seamH else zeroMatrix 0 numFaults
  else if 0 < seamH.numRows then vstack H seamH else .ok H

/-- One round of the seam loop: the chunk so far and its row cursor, with one more seam. -/
def pushSeam (numFaults : Nat) (acc : ExtendedDem × Nat) (e : SeamSpecEntry) :
    Except Error (ExtendedDem × Nat) := do
  let seamH ← sparseFromTerminatedRows e.spec.hSparse numFaults
  let H ← stackSeam acc.1.H seamH numFaults
  let d ← { acc.1 with H := H }.addSeam e.id acc.2 (u32 (acc.2 + seamH.numRows))
  return ({ d with tags := d.tags ++ List.range seamH.numRows }, u32 (acc.2 + seamH.numRows))

def finishRows (acc : ExtendedDem × Nat) (numFaults : Nat) : Except Error SparseBinaryMatrix :=
  if acc.2 = 0 then zeroMatrix 0 numFaults else .ok acc.1.H

/-- The last step: the rows, and `O` from its own list. -/
def finishChunk (acc : ExtendedDem × Nat) (numFaults : Nat) (oSparse : List Int) :
    Except Error ExtendedDem := do
  let H ← finishRows acc numFaults
  let O ← sparseFromTerminatedRows oSparse numFaults
  return { acc.1 with H := H, O := O }

/-- `dem_chunk_from_spec`: the bands of the seams stacked in their order, and `O`. -/
def demChunkFromSpec (spec : DemChunkSpec) (seamNames : List SeamId) (context : String) :
    Except Error ExtendedDem := do
  spec.validate context
  let working := spec.expand seamNames
  forM working.seamSpecs fun e =>
    throwIf (e.spec.oSparse ≠ []) (.invalidArgument (context ++ ": per-seam O_sparse in seam '" ++
      e.id.name ++ "' is not yet supported; use chunk-level O_sparse instead"))
  let acc ← working.seamSpecs.foldlM (pushSeam working.numFaults)
    ({ ExtendedDem.empty with errorRates := working.errorRates }, 0)
  finishChunk acc working.numFaults working.oSparse

/-! ## Phases and their connections -/

/-- `seam_connection`: the seam that leaves a round, and the one it enters the next by. -/
structure SeamConnection where
  fromSeam : SeamId
  toSeam : SeamId
  deriving DecidableEq

structure PhaseConnection where
  fromPhase : PhaseId
  toPhase : PhaseId
  deriving DecidableEq

def PhaseConnection.isSelf (c : PhaseConnection) : Bool := c.fromPhase = c.toPhase

structure PhaseSpecEntry where
  id : PhaseId
  spec : DemChunkSpec
  deriving DecidableEq

structure DemChunksSpec where
  phases : List PhaseSpecEntry
  connections : List PhaseConnection
  seam : SeamConnection
  numRounds : Option Nat := none
  measurementsPerRound : Option Nat := none
  phasesSupplyDSparse : Option Bool := none
  observableNames : List String := []
  deriving DecidableEq

namespace DemChunksSpec

variable (s : DemChunksSpec)

def isEmpty : Bool := s.phases = [] ∧ s.connections = []

def hasReadout : Bool := s.phases.any fun e => e.spec.m2oSparse ≠ []

def hasRepeatingPhase : Bool := s.connections.any PhaseConnection.isSelf

def chain : List PhaseConnection := s.connections.filter fun c => !c.isSelf

/-- One round for each connection that is no self-connection, and the round the last one lands on. -/
def minimumRounds : Nat := 1 + s.chain.length

def selfLoops : List PhaseId := (s.connections.filter PhaseConnection.isSelf).map (·.fromPhase)

def repeatingPhase : Except Error PhaseId :=
  match s.selfLoops with
  | [] => .error (.invalidArgument "dem_chunks_spec: no self-connected (repeating) phase")
  | [id] => .ok id
  | _ => .error (.invalidArgument "dem_chunks_spec: more than one self-connected phase")

/-! ## The phase sequence -/

@[grind =] def checkSuccessors : List PhaseConnection → List PhaseId → Except Error Unit
  | [], _ => .ok ()
  | c :: cs, seen => do
    throwIf (c.fromPhase ∈ seen)
      (.invalidArgument ("dem_chunks_spec::phase_sequence: phase " ++ c.fromPhase.name ++
        " has multiple non-self outgoing edges"))
    checkSuccessors cs (c.fromPhase :: seen)

def entryPhase (chain : List PhaseConnection) : PhaseId :=
  ((chain.find? fun c => !chain.any fun c' => c'.toPhase = c.fromPhase).getD
    (chain.headD ⟨⟨0⟩, ⟨0⟩⟩)).fromPhase

/-- The walk along the connections. `repCount` copies of the repeating phase are added where it is
visited. A phase is visited once and has one successor, so the walk takes at most one step for each
connection and one more; that many are given as `fuel`, and none is ever missing. -/
@[grind =] def walkPhases (chain : List PhaseConnection) (rep : Option PhaseId) (repCount : Nat) :
    Nat → PhaseId → List PhaseId → Except Error (List PhaseId)
  | 0, current, _ => .error (cyclic current)
  | fuel + 1, current, visited => do
    throwIf (current ∈ visited) (cyclic current)
    let rest ← match chain.find? fun c => c.fromPhase = current with
      | none => .ok []
      | some c => walkPhases chain rep repCount fuel c.toPhase (current :: visited)
    return current :: (if rep = some current then List.replicate repCount current else []) ++ rest
where
  cyclic (current : PhaseId) : Error :=
    .invalidArgument ("dem_chunks_spec::phase_sequence: connection graph is cyclic; phase " ++
      current.name ++ " is reachable twice")

/-- The walk of a chain that has connections, and the check of its length. -/
def chainSequence (rep : Option PhaseId) (rounds : Nat) : Except Error (List PhaseId) := do
  let nonRepeating := s.chain.length + 1
  throwIf (rep.isSome ∧ rounds < nonRepeating)
    (.invalidArgument ("dem_chunks_spec::phase_sequence: num_rounds " ++ toString rounds ++
      " too small for " ++ toString nonRepeating ++ " non-repeating phases"))
  let repCount := if rep.isSome then rounds - nonRepeating else 0
  checkSuccessors s.chain []
  let seq ← walkPhases s.chain rep repCount (s.chain.length + 1) (entryPhase s.chain) []
  throwIf (seq.length ≠ rounds)
    (.invalidArgument ("dem_chunks_spec::phase_sequence: computed " ++ toString seq.length ++
      " phases but expected " ++ toString rounds))
  return seq

/-- `phase_sequence`: the phase of every round, in order. -/
def phaseSequence : Except Error (List PhaseId) := do
  throwIf (s.phases = [])
    (.invalidArgument "dem_chunks_spec::phase_sequence: no phases defined")
  throwIf (s.connections = [])
    (.invalidArgument "dem_chunks_spec::phase_sequence: no connections defined")
  throwIf (1 < s.selfLoops.length)
    (.invalidArgument "dem_chunks_spec::phase_sequence: multiple self-loops")
  let rep := s.selfLoops.head?
  throwIf (rep.isSome ∧ s.numRounds = none)
    (.invalidArgument ("dem_chunks_spec::phase_sequence: num_rounds required when a " ++
      "self-loop is present"))
  throwIf (rep.isSome ∧ s.numRounds.getD 0 < 2)
    (.invalidArgument "dem_chunks_spec::phase_sequence: num_rounds must be >= 2")
  if s.chain = [] then
    -- Connections without a chain are self-connections, so there is a phase to repeat.
    return List.replicate (s.numRounds.getD 0) (rep.getD ⟨0⟩)
  else
    s.chainSequence rep (if rep.isSome then s.numRounds.getD 0 else s.chain.length + 1)

def shortest : DemChunksSpec := { s with numRounds := some (max 2 s.minimumRounds) }

/-- `phase_layout`: the phases before, of and after the repeating phase. -/
structure PhaseLayout where
  before : List PhaseId
  repeating : PhaseId
  after : List PhaseId
  deriving DecidableEq

/-- `layout`: the shortest chain, cut at the first and after the last round of the repeating
phase. A chain that never visits it lies both before and after it. -/
def layout : Except Error PhaseLayout := do
  let repeating ← s.repeatingPhase
  let sequence ← s.shortest.phaseSequence
  return ⟨sequence.takeWhile (· ≠ repeating), repeating,
    (sequence.reverse.takeWhile (· ≠ repeating)).reverse⟩

/-! ## Validation -/

def getPhase (id : PhaseId) : Except Error DemChunkSpec :=
  match s.phases.find? fun e => e.id = id with
  | some e => .ok e.spec
  | none => .error (.invalidArgument ("dem_chunks_spec::get_phase: phase " ++ id.name ++ " not found"))

def hasDSparse : Bool :=
  s.phasesSupplyDSparse.getD (s.phases.any fun e => e.spec.dSparse ≠ [])

def measurementCount (phase : DemChunkSpec) : Option Nat :=
  phase.numMeasurements.or s.measurementsPerRound

def measurementsOf (phase : DemChunkSpec) : Except Error Nat :=
  match s.measurementCount phase with
  | some n => .ok n
  | none => .error (.invalidArgument ("dem_chunks_spec: a phase has no measurement count " ++
      "(num_measurements / measurements_per_round)"))

/-- The rows a phase's round contributes when closed: its `to_seam` band and interior rows. -/
def detectorsOf (phase : DemChunkSpec) (context : String) : Except Error Nat := do
  let chunk ← demChunkFromSpec phase [s.seam.toSeam, s.seam.fromSeam] context
  return chunk.seamRowsOrZero s.seam.toSeam + chunk.numInteriorRows

def connectedPhases : List PhaseSpecEntry :=
  s.phases.filter fun e => s.connections.any fun c => c.fromPhase = e.id ∨ c.toPhase = e.id

def observableRows (e : PhaseSpecEntry) : Nat := e.spec.oSparse.count (-1)

def numObservables : Except Error Nat :=
  match s.connectedPhases with
  | [] => .ok 0
  | first :: rest => do
    forM (first :: rest) fun e =>
      throwIf (observableRows e ≠ observableRows first)
        (.invalidArgument ("dem_chunks_spec: phase '" ++ e.id.name ++ "' has " ++
          toString (observableRows e) ++ " observable rows (O_sparse) but phase '" ++
          first.id.name ++ "' has " ++ toString (observableRows first)))
    return observableRows first

/-- `mark_rows`: whether row `k` of a list has an entry. -/
def rowMarked (sparse : List Int) (k : Nat) : Bool :=
  ((terminatedRows sparse).1 ++ [(terminatedRows sparse).2]).getD k [] ≠ []

def flipsObservable (phase : DemChunkSpec) (k : Nat) : Bool :=
  rowMarked phase.oSparse k || phase.seamSpecs.any fun e => rowMarked e.spec.oSparse k

def lastRead (sequence : List DemChunkSpec) (k : Nat) : Option Nat :=
  ((List.range sequence.length).filter fun i =>
    rowMarked ((sequence.map (·.m2oSparse)).getD i []) k).getLast?

/-- `validate_readout_order`: no phase flips an observable after its last readout. -/
def validateReadoutOrder (sequence : List PhaseId) : Except Error Unit := do
  let observables ← s.numObservables
  let phases ← sequence.mapM s.getPhase
  forM (List.range sequence.length) fun i =>
    forM (List.range observables) fun k =>
      throwIf (flipsObservable (phases.getD i {}) k ∧ (lastRead phases k).any (· < i))
        (.invalidArgument ("dem_chunks_spec: phase '" ++ (sequence.getD i ⟨0⟩).name ++
          "' flips observable " ++ toString k ++ " after its last readout, in phase '" ++
          (sequence.getD ((lastRead phases k).getD 0) ⟨0⟩).name ++
          "'; a fault cannot change a record already read"))

/-- The width of a readout round: its count with `D` rows, else one measurement per detector. -/
def readoutWidth (e : PhaseSpecEntry) : Except Error Nat :=
  if s.hasDSparse then do
    throwIf (s.measurementCount e.spec = none)
      (.invalidArgument ("dem_chunks_spec: phase '" ++ e.id.name ++ "' carries m2o_sparse but " ++
        "neither it nor the spec sets a measurement count " ++
        "(num_measurements / measurements_per_round)"))
    s.measurementsOf e.spec
  else s.detectorsOf e.spec ("dem_chunks." ++ e.id.name)

/-- The checks of one phase's readout map. -/
def validateReadout (observables : Nat) (e : PhaseSpecEntry) : Except Error Unit :=
  if e.spec.m2oSparse = [] then .ok ()
  else do
    throwIf (s.connections.any fun c => c.isSelf ∧ c.fromPhase = e.id)
      (.invalidArgument ("dem_chunks_spec: phase '" ++ e.id.name ++ "' carries m2o_sparse, which " ++
        "a repeating phase may not: a readout belongs to a round the shot has once"))
    throwIf (e.spec.m2oSparse.count (-1) ≠ observables)
      (.invalidArgument ("dem_chunks_spec: phase '" ++ e.id.name ++ "' has " ++
        toString (e.spec.m2oSparse.count (-1)) ++ " m2o_sparse rows for " ++
        toString observables ++ " observables"))
    let width ← s.readoutWidth e
    let last := e.spec.m2oSparse.foldl max (-1)
    throwIf (0 ≤ last ∧ (width : Int) ≤ last)
      (.invalidArgument ("dem_chunks_spec: phase '" ++ e.id.name ++
        "' m2o_sparse reads measurement " ++ toString last ++ ", past the " ++ toString width ++
        " measurements its round has" ++ (if s.hasDSparse then "" else
          "; without D_sparse a round measures one bit per " ++
          "detector, so num_measurements cannot widen it")))

@[grind =] def checkNames : List String → List String → Except Error Unit
  | [], _ => .ok ()
  | n :: ns, seen => do
    throwIf (n ∈ seen)
      (.invalidArgument ("dem_chunks_spec: observable_names repeats '" ++ n ++ "'"))
    checkNames ns (n :: seen)

def readoutSequence : Except Error (List PhaseId) :=
  if s.hasReadout then s.shortest.phaseSequence else .ok []

def validateObservables : Except Error Unit := do
  let observables ← s.numObservables
  throwIf (s.observableNames ≠ [] ∧ s.observableNames.length ≠ observables)
    (.invalidArgument ("dem_chunks_spec: " ++ toString s.observableNames.length ++
      " observable_names for " ++ toString observables ++ " observables"))
  checkNames s.observableNames []
  let sequence ← s.readoutSequence
  forM s.phases (s.validateReadout observables)
  s.validateReadoutOrder sequence

def checkNamed (id : PhaseId) : Except Error Unit :=
  throwIf (!s.phases.any fun e => e.id = id)
    (.invalidArgument ("dem_chunks_spec: a connection names phase '" ++ id.name ++
      "', which has no spec"))

def mappedPhases : Nat := s.phases.countP fun e => e.spec.dSparse ≠ []

def validate : Except Error Unit := do
  throwIf (s.isEmpty) (.invalidArgument "dem_chunks_spec: no phases or connections")
  throwIf (s.connections = [])
    (.invalidArgument "dem_chunks_spec: connections must not be empty")
  throwIf (s.phases = []) (.invalidArgument "dem_chunks_spec: phases must not be empty")
  throwIf (s.numRounds.any (· < 2))
    (.invalidArgument "dem_chunks_spec: num_rounds must be >= 2")
  forM s.phases fun e => e.spec.validate ("dem_chunks." ++ e.id.name)
  forM s.connections fun c => do
    s.checkNamed c.fromPhase
    s.checkNamed c.toPhase
  s.validateObservables
  -- A half-written map is only an error where the map is inferred from the rows.
  throwIf (s.phasesSupplyDSparse = none ∧ s.mappedPhases ≠ 0 ∧ s.mappedPhases ≠ s.phases.length)
    (.invalidArgument ("dem_chunks_spec: either every phase carries D_sparse or none does; " ++
      "set phases_supply_D_sparse to declare that they do even where a phase contributes no rows"))
  forM s.phases fun e =>
    throwIf (s.hasDSparse ∧ s.measurementCount e.spec = none)
      (.invalidArgument ("dem_chunks_spec: phase '" ++ e.id.name ++ "' carries D_sparse but " ++
        "neither it nor the spec sets a measurement count " ++
        "(num_measurements / measurements_per_round)"))

/-! ## The shape of a layout -/

variable {s}

theorem repeatingPhase_eq_ok {id : PhaseId} (h : s.repeatingPhase = .ok id) :
    s.selfLoops = [id] := by
  unfold repeatingPhase at h
  split at h
  · cases h
  · next hl => cases h; exact hl
  · cases h

/-- A walk that returned has one phase for each round. -/
theorem length_phaseSequence {seq : List PhaseId} (h : s.phaseSequence = .ok seq) :
    seq.length = if s.selfLoops = [] then s.chain.length + 1 else s.numRounds.getD 0 := by
  simp only [phaseSequence, bind_eq_ok, throwIf_eq_ok] at h
  obtain ⟨_, -, _, hc, _, -, _, -, _, -, h⟩ := h
  split at h
  · next hchain =>
    cases h
    -- Every connection is a self-connection, so there is one.
    have hself : s.selfLoops ≠ [] := by
      intro hs
      apply hc
      rw [List.eq_nil_iff_forall_not_mem]
      intro c hcon
      by_cases hi : c.isSelf = true
      · have : c.fromPhase ∈ s.selfLoops :=
          List.mem_map.mpr ⟨c, List.mem_filter.mpr ⟨hcon, hi⟩, rfl⟩
        rw [hs] at this
        exact List.not_mem_nil this
      · have : c ∈ s.chain := List.mem_filter.mpr ⟨hcon, by simpa using hi⟩
        rw [hchain] at this
        exact List.not_mem_nil this
    rw [List.length_replicate, if_neg hself]
  · simp only [chainSequence, bind_eq_ok, throwIf_eq_ok, ne_eq, not_not] at h
    obtain ⟨_, -, _, -, seq', -, _, hlen, hok⟩ := h
    cases hok
    rw [hlen]
    cases hl : s.selfLoops with
    | nil => simp
    | cons a l => simp

private theorem length_takeWhile_both {α : Type} (p : α → Bool) {l : List α} {a : α} (ha : a ∈ l)
    (hp : p a = false) :
    (l.takeWhile p).length + 1 + (l.reverse.takeWhile p).length ≤ l.length := by
  obtain ⟨xs, ys, rfl⟩ := List.append_of_mem ha
  have hx : ((xs ++ a :: ys).takeWhile p).length ≤ xs.length := by
    rw [List.takeWhile_append]
    split
    · simp [hp]
    · exact (List.takeWhile_sublist _).length_le
  have hy : ((xs ++ a :: ys).reverse.takeWhile p).length ≤ ys.length := by
    rw [List.reverse_append, List.reverse_cons, List.append_assoc, List.takeWhile_append]
    split
    · simp [hp]
    · have := (List.takeWhile_sublist p (l := ys.reverse)).length_le
      simpa using this
  rw [List.length_append, List.length_cons]
  omega

private theorem length_le_takeWhile_both {l : List PhaseId} (hl : l.Nodup) (a : PhaseId) :
    l.length ≤ (l.takeWhile (· ≠ a)).length + 1 + (l.reverse.takeWhile (· ≠ a)).length := by
  by_cases ha : a ∈ l
  · obtain ⟨xs, ys, rfl⟩ := List.append_of_mem ha
    rw [List.nodup_append, List.nodup_cons] at hl
    have hx : ∀ x ∈ xs, decide (x ≠ a) = true := by
      intro x hx
      simpa using hl.2.2 x hx a (by simp)
    have hy : ∀ y ∈ ys.reverse, decide (y ≠ a) = true := by
      intro y hy
      simp only [ne_eq, decide_not, Bool.not_eq_eq_eq_not, Bool.not_true, decide_eq_false_iff_not]
      rintro rfl
      exact hl.2.1.1 (List.mem_reverse.mp hy)
    rw [List.takeWhile_append_of_pos hx, List.reverse_append, List.reverse_cons, List.append_assoc,
      List.takeWhile_append_of_pos hy]
    simp
    omega
  · have hall : ∀ x ∈ l, decide (x ≠ a) = true := by
      intro x hx
      simp only [ne_eq, decide_not, Bool.not_eq_eq_eq_not, Bool.not_true, decide_eq_false_iff_not]
      rintro rfl
      exact ha hx
    rw [List.takeWhile_eq_self_iff.mpr hall]
    omega

/-- A walk that adds no copies visits every phase once, and none of those visited before. -/
theorem nodup_walkPhases {chain : List PhaseConnection} {rep : Option PhaseId} {fuel : Nat}
    {current : PhaseId} {visited seq : List PhaseId}
    (h : walkPhases chain rep 0 fuel current visited = .ok seq) :
    seq.Nodup ∧ ∀ x ∈ seq, x ∉ visited := by
  induction fuel generalizing current visited seq with
  | zero => cases h
  | succ fuel ih =>
    simp only [walkPhases, List.replicate_zero, ite_self, bind_eq_ok, throwIf_eq_ok] at h
    obtain ⟨_, hcur, h⟩ := h
    split at h
    · cases h
      simp [hcur]
    · rw [bind_eq_ok] at h
      obtain ⟨rest, hrest, hok⟩ := h
      cases hok
      rw [List.cons_append, List.nil_append]
      obtain ⟨hnd, hnot⟩ := ih hrest
      have hnotin : current ∉ rest := fun hc => hnot current hc (by simp)
      refine ⟨List.nodup_cons.mpr ⟨hnotin, hnd⟩, ?_⟩
      intro x hx
      rcases List.mem_cons.mp hx with rfl | hx
      · exact hcur
      · exact fun hv => hnot x hx (by simp [hv])

/-- The shortest chain repeats a phase only where it is nothing but the repeating phase. -/
theorem phaseSequence_shortest_cases {rep : PhaseId} {seq : List PhaseId}
    (hself : s.selfLoops = [rep]) (h : s.shortest.phaseSequence = .ok seq) :
    seq = [rep, rep] ∨ seq.Nodup := by
  have hself' : s.shortest.selfLoops = [rep] := hself
  have hchain : s.shortest.chain = s.chain := rfl
  simp only [phaseSequence, bind_eq_ok, throwIf_eq_ok, hself', hchain] at h
  obtain ⟨_, -, _, -, _, -, _, -, _, -, h⟩ := h
  split at h
  · next hnil =>
    left
    cases h
    simp [shortest, minimumRounds, hnil]
  · next hnil =>
    right
    have hpos : 0 < s.chain.length := List.length_pos_iff.mpr hnil
    have hround : max 2 s.minimumRounds = s.chain.length + 1 := by
      unfold minimumRounds
      omega
    simp only [List.head?_cons, Option.isSome_some, ↓reduceIte, shortest, Option.getD_some, hround,
      chainSequence, bind_eq_ok] at h
    obtain ⟨_, -, _, -, seq', hwalk, _, -, hok⟩ := h
    cases hok
    have hcount : s.chain.length + 1 - (s.chain.length + 1) = 0 := Nat.sub_self _
    exact (nodup_walkPhases (hcount ▸ hwalk)).1

/-- Cut at a phase it visits, the shortest chain keeps one or two rounds for it. A chain that does
not visit the repeating phase is kept whole on both sides. -/
theorem layout_eq_ok {l : PhaseLayout} (h : s.layout = .ok l) :
    max 2 s.minimumRounds ≤ l.before.length + l.after.length + 2 ∧
    (l.before.length + 1 + l.after.length ≤ max 2 s.minimumRounds ∨
      l.before.length = max 2 s.minimumRounds ∧ l.after = l.before) := by
  simp only [layout, bind_eq_ok] at h
  obtain ⟨rep, hrep, seq, hseq, hl⟩ := h
  cases hl
  have hself : s.shortest.selfLoops = [rep] := repeatingPhase_eq_ok hrep
  have hlen : seq.length = max 2 s.minimumRounds := by
    rw [length_phaseSequence hseq, hself]
    rfl
  rw [← hlen]
  refine ⟨?_, ?_⟩
  · rcases phaseSequence_shortest_cases hself hseq with rfl | hnd
    · simp
    · have := length_le_takeWhile_both hnd rep
      simp only [List.length_reverse]
      omega
  · by_cases hmem : rep ∈ seq
    · left
      have := length_takeWhile_both (fun x => decide (x ≠ rep)) hmem (by simp)
      simpa using this
    · right
      have hall : ∀ x ∈ seq, decide (x ≠ rep) = true := by
        intro x hx
        simp only [ne_eq, decide_not, Bool.not_eq_eq_eq_not, Bool.not_true, decide_eq_false_iff_not]
        rintro rfl
        exact hmem hx
      have hall' : ∀ x ∈ seq.reverse, decide (x ≠ rep) = true :=
        fun x hx => hall x (List.mem_reverse.mp hx)
      rw [List.takeWhile_eq_self_iff.mpr hall, List.takeWhile_eq_self_iff.mpr hall',
        List.reverse_reverse]
      exact ⟨rfl, rfl⟩

end DemChunksSpec

end CudaqQec
