import CudaqQec.Decoder.Projection
import CudaqQec.Lib.Combinations
import CudaqQec.Lib.Rounding
import CudaqQec.SlidingWindow.Construct
import CudaqQec.Sparse.Product

/-!
# The lookup decoder

`multi_error_lut` holds one error for each syndrome that some error of at most `lut_error_depth` columns
has. Its constructor walks the errors by weight, and a syndrome keeps the first error that has it, so
the table is a table of minimal errors.

* `decode_exact`: a result converges exactly when some error of that weight has the syndrome, and then
  its error has the syndrome and no lighter one does.
-/

namespace CudaqQec.Lut

open Checked SparseBinaryMatrix Toggle Combinations

/-! ## Inputs -/

/-- A `decoder_init` with its error matrix and rates, which only a source with matrices has. -/
structure LutInputs extends DecoderInit where
  H : SparseBinaryMatrix
  rates : List ℚ
  h_shape : hasMatrices = true →
    H.layout = .csc ∧ H.numRows = numDetectors ∧ H.numCols = numErrorMechanisms

namespace LutInputs

variable (inputs : LutInputs)

def closedModel {α : Type} (accessor : String) (a : α) : Except Error α := do
  throwIf (inputs.hasMatrices = false) (.logicError ("decoder_init::" ++ accessor ++
    ": this dem_chunks source was built without its closed model; construct it with " ++
    "decoder_init::from_dem_chunks_closed()"))
  return a

def detectorErrorMatrix : Except Error SparseBinaryMatrix :=
  inputs.closedModel "detector_error_matrix" inputs.H

def errorRates : Except Error (List ℚ) := inputs.closedModel "error_rates" inputs.rates

end LutInputs

/-- `opt_results` in the parameter map. -/
inductive OptResultsParam where
  | absent
  | notAMap
  | requested (entries : List (String × Bool))

structure LutParams where
  lutErrorDepth : Option Int := none
  optResults : OptResultsParam := .absent

def availableResultTypes : List String := ["error_probability", "syndrome_weight", "decoding_time"]

structure OptResultFlags where
  errorProbability : Bool
  syndromeWeight : Bool
  decodingTime : Bool

/-- The flags that `opt_results` asks for. -/
def readOptResults : OptResultsParam → Except Error (Option OptResultFlags)
  | .absent => .ok none
  | .notAMap => .error
    (.runtimeError "heterogeneous_map::get() error - Invalid type or key (opt_results).")
  | .requested entries => do
    let invalid := (entries.map Prod.fst).filter fun key => ¬ key ∈ availableResultTypes
    throwIf (invalid ≠ []) (.runtimeError
      ("Requested result types not available in LUT decoder: " ++ ", ".intercalate invalid))
    return some {
      errorProbability := (entries.lookup "error_probability").getD false
      syndromeWeight := (entries.lookup "syndrome_weight").getD false
      decodingTime := (entries.lookup "decoding_time").getD false }

/-! ## The table -/

structure LutEntry where
  errorList : List Nat
  p : ℚ

/-- What the loop over the columns of one mask builds. A signature is a string of `'0'` and `'1'`. -/
structure Visited where
  errSig : List Bool
  entry : LutEntry

def toggleSynForError (He2d : List (List Nat)) (errSig : List Bool) (qErr : Nat) : List Bool :=
  flipAll errSig (He2d.getD qErr [])

/-- One column of the loop. -/
def visitColumn (He2d : List (List Nat)) (rates : List ℚ) (bitmask : List Bool) (v : Visited)
    (qErr : Nat) : Visited :=
  if bitmask.getD qErr false then
    { errSig := toggleSynForError He2d v.errSig qErr
      entry := {
        errorList := v.entry.errorList ++ [qErr]
        p := if qErr < rates.length then Rounding.double (v.entry.p * rates.getD qErr 0)
          else v.entry.p } }
  else v

def visitMask (He2d : List (List Nat)) (rates : List ℚ) (blockSize syndromeSize : Nat)
    (bitmask : List Bool) : Visited :=
  (List.range blockSize).foldl (visitColumn He2d rates bitmask)
    ⟨List.replicate syndromeSize false, [], 1⟩

abbrev ErrorSignatures := List (List Bool × LutEntry)

/-- The table after all masks of at most `depth` set bits, a set bit less than the next each time round
the outer loop. -/
def errorSignatures (H : SparseBinaryMatrix) (rates : List ℚ) (depth : Nat) : ErrorSignatures :=
  let visit := visitMask H.toNestedCsc rates H.numCols H.numRows
  (List.range' 1 depth).foldl (fun table k =>
    (permutations (first H.numCols k)).foldl
      (insertAbsent (fun bitmask => (visit bitmask).errSig) fun bitmask => (visit bitmask).entry) table) []

/-! ## The decoder -/

structure MultiErrorLut extends DecoderData where
  H : SparseBinaryMatrix
  lutErrorDepth : Nat
  optResults : Option OptResultFlags
  signatures : ErrorSignatures

def readDepth (params : LutParams) (blockSize : Nat) : Except Error Nat :=
  match params.lutErrorDepth with
  | none => .ok 1
  | some depth => do
    throwIf (depth < 1) (.runtimeError "lut_error_depth must be >= 1")
    throwIf ((blockSize : Int) < depth) (.runtimeError "lut_error_depth must be <= block_size")
    return depth.toNat

def checkRates (rates : List ℚ) (blockSize : Nat) : Except Error Unit := do
  throwIf (rates ≠ [] ∧ rates.length ≠ blockSize)
    (.runtimeError "error_rate_vec must be of size block_size")
  throwIf (∃ rate ∈ rates, rate < 0 ∨ 1 < rate)
    (.runtimeError "error_rate_vec value is out of range [0, 1]")

/-- The constructor. `binomTooLarge n k` is whether `binom(n, k) > 1e9`, as `std::beta` computes it in
floating point. -/
def create (binomTooLarge : Nat → Nat → Bool) (inputs : LutInputs) (request : DecoderOutputRequest)
    (params : LutParams) : Except Fault MultiErrorLut := do
  let base ← thrown (buildDecoder inputs.toDecoderInit request.primary)
  thrown (throwIf (request.auxiliaryOutputs = true)
    (.invalidArgument "lut decoder does not produce auxiliary outputs"))
  thrown (throwIf (request.primary = .observables ∧ inputs.hasObservableModel = false)
    (.invalidArgument ("lut decoder was constructed for observable output but its model " ++
      "supplies no observable mapping")))
  let H ← thrown inputs.detectorErrorMatrix
  let rates ← thrown inputs.errorRates
  let depth ← thrown (readDepth params base.blockSize)
  thrown (checkRates rates base.blockSize)
  thrown (throwIf (binomTooLarge base.blockSize depth = true)
    (.runtimeError "lut_error_depth is too large for LUT decoder"))
  let optResults ← thrown (readOptResults params.optResults)
  -- the default depth is not compared with the block size: an empty mask has no bit to set
  throwIf (base.blockSize < depth) .outOfBounds
  return {
    toDecoderData := base
    H := H
    lutErrorDepth := depth
    optResults := optResults
    signatures := errorSignatures H rates depth }

/-! ## Decoding -/

/-- `opt_results` of a result. -/
structure OptResults where
  errorProbability : Option ℚ
  syndromeWeight : Option Nat
  decodingTime : Option ℚ

structure DecoderResult where
  converged : Bool
  result : List SoftValue
  optResults : Option OptResults

/-- `float_t` of a bit. -/
def ofBit (bit : Bool) : SoftValue := .finite (if bit then 1 else 0)

def complement : SoftValue → SoftValue
  | .finite q => .finite (1 - q)
  | .infinite negative => .infinite (!negative)
  | .nan => .nan

namespace MultiErrorLut

variable (d : MultiErrorLut)

def syndromeSize : Nat := d.init.numDetectors

def checkSyndromeSize (size : Nat) : Except Error Unit :=
  throwIf (size ≠ d.syndromeSize) (.invalidArgument ("Syndrome has length " ++ toString size ++
    " but this decoder expects " ++ toString d.syndromeSize ++ " (the number of detectors)"))

def finish (result : List SoftValue) : Except Error (List SoftValue) :=
  match d.output with
  | .errors => .ok result
  | .observables => do
    let observables ← d.projectErrorsToObservables result d.init.numObservables
    return observables.map ofBit

def addOptResults (flags : OptResultFlags) (entry : Option LutEntry) (weight : Nat) (duration : ℚ) :
    OptResults where
  errorProbability := if flags.errorProbability then some ((entry.map (·.p)).getD 0) else none
  syndromeWeight := if flags.syndromeWeight then some weight else none
  decodingTime := if flags.decodingTime then some duration else none

def decode (duration : ℚ) (syndrome : List SoftValue) : Except Error DecoderResult := do
  d.checkSyndromeSize syndrome.length
  let zero := List.replicate d.blockSize (ofBit false)
  let syndromeStr := syndrome.map convertSoftToHard
  if syndromeStr.contains true = false then
    let result ← d.finish zero
    return ⟨true, result, none⟩
  else
    let entry := d.signatures.lookup syndromeStr
    let frame := ((entry.map (·.errorList)).getD []).foldl (·.modify · complement) zero
    let result ← d.finish frame
    return {
      converged := entry.isSome
      result := result
      optResults := d.optResults.map fun flags =>
        addOptResults flags entry (syndromeStr.count true) duration }

end MultiErrorLut

/-! ## What a mask stands for -/

section

variable {H : SparseBinaryMatrix} {rates : List ℚ} {mask : List Bool}

theorem foldl_visitColumn (He2d : List (List Nat)) (cols : List Nat) (v : Visited) :
    (cols.foldl (visitColumn He2d rates mask) v).errSig =
        flipAll v.errSig (cols.flatMap fun c => if mask.getD c false then He2d.getD c [] else []) ∧
      (cols.foldl (visitColumn He2d rates mask) v).entry.errorList =
        v.entry.errorList ++ cols.filter fun c => mask.getD c false := by
  induction cols generalizing v with
  | nil => simp [flipAll]
  | cons c cols ih =>
    rw [List.foldl_cons, List.flatMap_cons, List.filter_cons, flipAll_append]
    obtain ⟨hsig, hlist⟩ := ih (visitColumn He2d rates mask v c)
    rw [hsig, hlist, visitColumn]
    split
    · exact ⟨rfl, by simp⟩
    · exact ⟨rfl, rfl⟩

/-- The signature of a mask is its syndrome. -/
theorem visitMask_errSig (mask : List Bool) :
    (visitMask H.toNestedCsc rates H.numCols H.numRows mask).errSig = H.mulVec mask := by
  rw [visitMask, (foldl_visitColumn _ _ _).1]
  exact H.mulVec_eq_flipAll mask

theorem visitMask_errorList (mask : List Bool) :
    (visitMask H.toNestedCsc rates H.numCols H.numRows mask).entry.errorList =
      (List.range H.numCols).filter fun c => mask.getD c false :=
  (foldl_visitColumn _ _ _).2

theorem foldl_complement (flips : List Nat) (bits : List Bool) :
    flips.foldl (·.modify · complement) (bits.map ofBit) = (flipAll bits flips).map ofBit := by
  induction flips generalizing bits with
  | nil => rfl
  | cons i flips ih =>
    have hmodify : (bits.map ofBit).modify i complement = (flipAt bits i).map ofBit := by
      apply List.ext_getElem?
      intro k
      rw [flipAt, List.getElem?_modify, List.getElem?_map, List.getElem?_map, List.getElem?_modify]
      cases bits[k]? with
      | none => simp
      | some bit => cases bit <;> by_cases hk : i = k <;> simp [hk, ofBit, complement]
    rw [List.foldl_cons, hmodify, ih]
    rfl

theorem frame_eq (mask : List Bool) :
    ((List.range mask.length).filter fun c => mask.getD c false).foldl (·.modify · complement)
      (List.replicate mask.length (ofBit false)) = mask.map ofBit := by
  rw [← List.map_replicate, foldl_complement]
  congr 1
  apply List.ext_getElem?
  intro k
  rw [getElem?_flipAll, List.getElem?_replicate]
  by_cases hk : k < mask.length
  · have hcount : ((List.range mask.length).filter fun c => mask.getD c false).count k =
        if mask.getD k false then 1 else 0 := by
      split
      next hset =>
        rw [List.count_filter (by simpa using hset)]
        exact List.count_eq_one_of_mem List.nodup_range (List.mem_range.mpr hk)
      next hset =>
        rw [List.count_eq_zero, List.mem_filter]
        exact fun hmem => hset hmem.2
    rw [hcount, if_pos hk, List.getElem?_eq_getElem hk, List.getD_eq_getElem _ _ hk]
    cases mask[k] <;> rfl
  · simp [hk]

theorem errorSignatures_eq {depth : Nat} (h : depth ≤ H.numCols) :
    errorSignatures H rates depth =
      (masksUpTo H.numCols depth).foldl (insertAbsent H.mulVec fun mask =>
        (visitMask H.toNestedCsc rates H.numCols H.numRows mask).entry) [] := by
  rw [errorSignatures, masksUpTo, List.foldl_flatMap]
  apply List.foldl_ext
  intro table k hk
  rw [permutations_first (by have := List.mem_range'_1.mp hk; omega)]
  simp only [visitMask_errSig]

/-- What the table holds for a syndrome is the first mask that has it. -/
theorem lookup_errorSignatures {depth : Nat} (h : depth ≤ H.numCols) (syndrome : List Bool) :
    (errorSignatures H rates depth).lookup syndrome =
      ((masksUpTo H.numCols depth).find? fun mask => H.mulVec mask == syndrome).map fun mask =>
        (visitMask H.toNestedCsc rates H.numCols H.numRows mask).entry := by
  rw [errorSignatures_eq h, lookup_insertAll]
  rfl

end

/-! ## Minimal errors -/

/-- Some error of at most `k` columns has the syndrome. -/
def Reaches (H : SparseBinaryMatrix) (k : Nat) (syndrome : List Bool) : Prop :=
  ∃ e : List Bool, e.length = H.numCols ∧ e.count true ≤ k ∧ H.mulVec e = syndrome

/-- An error has the syndrome, and no error of fewer columns has. -/
def IsMinimal (H : SparseBinaryMatrix) (syndrome e : List Bool) : Prop :=
  H.mulVec e = syndrome ∧
    ∀ e' : List Bool, e'.length = H.numCols → H.mulVec e' = syndrome → e.count true ≤ e'.count true

/-- No error flips no detector. -/
theorem mulVec_zero (H : SparseBinaryMatrix) (n : Nat) :
    H.mulVec (List.replicate n false) = List.replicate H.numRows false := by
  apply List.ext_getElem (by simp)
  intro r hr hr'
  simp [mulVec]

theorem eq_zero_of_count {bits : List Bool} (h : bits.count true = 0) :
    bits = List.replicate bits.length false := by
  rw [List.eq_replicate_iff]
  refine ⟨rfl, fun bit hbit => ?_⟩
  cases bit with
  | false => rfl
  | true => exact absurd hbit (List.count_eq_zero.mp h)

section

variable {H : SparseBinaryMatrix} {rates : List ℚ} {depth : Nat} {syndrome : List Bool}

theorem isMinimal_zero (H : SparseBinaryMatrix) :
    IsMinimal H (List.replicate H.numRows false) (List.replicate H.numCols false) := by
  refine ⟨mulVec_zero H _, fun e' _ _ => ?_⟩
  simp [List.count_replicate]

/-- An error with a syndrome that is not zero is a mask of the table, or has more columns. -/
theorem mem_masksUpTo_of_mulVec (hne : syndrome ≠ List.replicate H.numRows false) {e : List Bool}
    (hlen : e.length = H.numCols) (hcount : e.count true ≤ depth) (he : H.mulVec e = syndrome) :
    e ∈ masksUpTo H.numCols depth := by
  refine mem_masksUpTo.mpr ⟨hlen, ?_, hcount⟩
  by_contra hzero
  apply hne
  rw [← he, eq_zero_of_count (show e.count true = 0 by omega), mulVec_zero]

/-- The table holds a minimal error for every syndrome that it can. -/
theorem lookup_exact (h : depth ≤ H.numCols) (hne : syndrome ≠ List.replicate H.numRows false) :
    (((errorSignatures H rates depth).lookup syndrome).isSome = true ↔ Reaches H depth syndrome) ∧
      ∀ entry ∈ (errorSignatures H rates depth).lookup syndrome, ∃ e : List Bool,
        e.length = H.numCols ∧ IsMinimal H syndrome e ∧
          entry.errorList = (List.range H.numCols).filter fun c => e.getD c false := by
  rw [lookup_errorSignatures h, Option.isSome_map, List.find?_isSome]
  constructor
  · constructor
    · rintro ⟨e, hmem, he⟩
      obtain ⟨hlen, -, hcount⟩ := mem_masksUpTo.mp hmem
      exact ⟨e, hlen, hcount, by simpa using he⟩
    · rintro ⟨e, hlen, hcount, he⟩
      exact ⟨e, mem_masksUpTo_of_mulVec hne hlen hcount he, by simpa using he⟩
  · intro entry hentry
    obtain ⟨e, hfind, rfl⟩ := Option.map_eq_some_iff.mp hentry
    obtain ⟨hlen, -, hcount⟩ := mem_masksUpTo.mp (List.mem_of_find?_eq_some hfind)
    refine ⟨e, hlen, ⟨by simpa using List.find?_some hfind, fun e' hlen' he' => ?_⟩,
      visitMask_errorList e⟩
    by_cases hle : e'.count true ≤ depth
    · exact find?_minimal (pairwise_masksUpTo _ _) hfind e'
        (mem_masksUpTo_of_mulVec hne hlen' hle he') (by simpa using he')
    · omega

end

/-! ## The constructor -/

section

variable {binomTooLarge : Nat → Nat → Bool} {inputs : LutInputs} {request : DecoderOutputRequest}
  {params : LutParams} {d : MultiErrorLut}

/-- What a constructed decoder holds. -/
structure Created (inputs : LutInputs) (request : DecoderOutputRequest) (params : LutParams)
    (d : MultiErrorLut) : Prop where
  built : buildDecoder inputs.toDecoderInit request.primary = .ok d.toDecoderData
  init : d.init = inputs.toDecoderInit
  output : d.output = request.primary
  projects : request.primary = .observables → inputs.hasObservableModel = true
  rows : inputs.H.numRows = inputs.numDetectors
  cols : inputs.H.numCols = inputs.numErrorMechanisms
  depth : (d.lutErrorDepth : Int) = params.lutErrorDepth.getD 1
  depth_le : d.lutErrorDepth ≤ inputs.H.numCols
  signatures : d.signatures = errorSignatures inputs.H inputs.rates d.lutErrorDepth

theorem buildDecoder_init {init : DecoderInit} {output : DecodeResultType} {data : DecoderData}
    (h : buildDecoder init output = .ok data) : data.init = init ∧ data.output = output := by
  simp only [buildDecoder, bind_eq_ok] at h
  obtain ⟨_, -, hok⟩ := h
  cases hok
  exact ⟨rfl, rfl⟩

theorem readDepth_eq_ok {blockSize depth : Nat} (h : readDepth params blockSize = .ok depth) :
    (depth : Int) = params.lutErrorDepth.getD 1 := by
  rw [readDepth] at h
  cases hp : params.lutErrorDepth with
  | none =>
    rw [hp] at h
    cases h
    rfl
  | some given =>
    rw [hp] at h
    simp only [bind_eq_ok, throwIf_eq_ok] at h
    obtain ⟨_, hpos, _, -, hok⟩ := h
    cases hok
    rw [Option.getD_some]
    omega

theorem closedModel_eq_ok {α : Type} {accessor : String} {a b : α}
    (h : inputs.closedModel accessor a = .ok b) : inputs.hasMatrices = true ∧ b = a := by
  simp only [LutInputs.closedModel, bind_eq_ok, throwIf_eq_ok] at h
  obtain ⟨_, hm, hok⟩ := h
  cases hok
  exact ⟨by simpa using hm, rfl⟩

theorem create_eq_ok (h : create binomTooLarge inputs request params = .ok d) :
    Created inputs request params d := by
  simp only [create, bind_eq_ok, thrown_eq_ok, throwIf_eq_ok] at h
  obtain ⟨base, hbase, _, -, _, hobs, H, hH, rates, hrates, depth, hdepth, _, -, _, -, flags, -, _,
    hle, hok⟩ := h
  cases hok
  obtain ⟨hinit, hout⟩ := buildDecoder_init hbase
  obtain ⟨hm, rfl⟩ := closedModel_eq_ok hH
  obtain ⟨-, rfl⟩ := closedModel_eq_ok hrates
  obtain ⟨-, hrows, hcols⟩ := inputs.h_shape hm
  exact {
    built := hbase
    init := hinit
    output := hout
    projects := by
      intro hp
      simpa [hp] using hobs
    rows := hrows
    cols := hcols
    depth := readDepth_eq_ok hdepth
    depth_le := by
      have hsize : base.blockSize = inputs.numErrorMechanisms := by rw [DecoderData.blockSize, hinit]
      rw [hcols, ← hsize]
      exact Nat.le_of_not_lt hle
    signatures := rfl }

/-! ## A decode -/

/-- A result reports the error `e`, as a frame or as the observables that it flips. -/
def Reports (d : MultiErrorLut) (e : List Bool) (result : List SoftValue) : Prop :=
  match d.output with
  | .errors => result = e.map ofBit
  | .observables => ∃ observables, result = observables.map ofBit ∧
      d.projectErrorsToObservables (e.map ofBit) d.init.numObservables = .ok observables

theorem Created.finish_eq_ok (hd : Created inputs request params d) (e : List Bool) :
    ∃ result, d.finish (e.map ofBit) = .ok result ∧ Reports d e result := by
  unfold MultiErrorLut.finish Reports
  cases hout : d.output with
  | errors => exact ⟨_, rfl, rfl⟩
  | observables =>
    have hmodel : d.init.hasObservableModel = true := by
      rw [hd.init]
      exact hd.projects (hd.output.symm.trans hout)
    let base : Decoder := ⟨d.toDecoderData, by rw [hd.init, hd.output]; exact hd.built⟩
    have hproj := base.projectErrorsToObservables_eq hmodel (e.map ofBit)
    exact ⟨_, by rw [hproj]; rfl, _, rfl, hproj⟩

theorem Created.frame_eq (hd : Created inputs request params d) {s : List Bool}
    (hne : s ≠ List.replicate inputs.H.numRows false) :
    ∃ e : List Bool, e.length = inputs.H.numCols ∧
      (((d.signatures.lookup s).map (·.errorList)).getD []).foldl (·.modify · complement)
        (List.replicate d.blockSize (ofBit false)) = e.map ofBit ∧
      ((d.signatures.lookup s).isSome = true ↔ Reaches inputs.H d.lutErrorDepth s) ∧
      ((d.signatures.lookup s).isSome = true → IsMinimal inputs.H s e) := by
  have hblock : d.blockSize = inputs.H.numCols := by rw [DecoderData.blockSize, hd.init, hd.cols]
  obtain ⟨hsome, hentry⟩ := @lookup_exact _ inputs.rates _ _ hd.depth_le hne
  rw [← hd.signatures] at hsome hentry
  rw [hsome, hblock]
  cases hl : d.signatures.lookup s with
  | none =>
    rw [hl] at hsome
    refine ⟨List.replicate inputs.H.numCols false, by simp, by simp, Iff.rfl, fun hreach => ?_⟩
    exact absurd (hsome.mpr hreach) Bool.false_ne_true
  | some entry =>
    obtain ⟨e, hlen, hmin, hlist⟩ := hentry entry hl
    have hframe := Lut.frame_eq e
    rw [hlen, ← hlist] at hframe
    exact ⟨e, hlen, hframe, Iff.rfl, fun _ => hmin⟩

/-- What a decode of a syndrome comes to, before the result is finished. -/
theorem Created.decode_eq (hd : Created inputs request params d) (duration : ℚ)
    {syndrome : List SoftValue} (hsize : syndrome.length = inputs.numDetectors) :
    ∃ (e : List Bool) (converged : Bool) (opts : Option OptResults), e.length = inputs.H.numCols ∧
      (d.decode duration syndrome = do
        let result ← d.finish (e.map ofBit)
        return ⟨converged, result, opts⟩) ∧
      (converged = true ↔ Reaches inputs.H d.lutErrorDepth (syndrome.map convertSoftToHard)) ∧
      (converged = true → IsMinimal inputs.H (syndrome.map convertSoftToHard) e) := by
  have hcheck : d.checkSyndromeSize syndrome.length = .ok () := by
    rw [MultiErrorLut.checkSyndromeSize, MultiErrorLut.syndromeSize, hd.init, hsize]
    exact throwIf_of_not (by simp)
  rw [MultiErrorLut.decode, hcheck, ok_bind]
  generalize hs : syndrome.map convertSoftToHard = s
  have hlen : s.length = inputs.H.numRows := by rw [← hs, List.length_map, hsize, hd.rows]
  by_cases hany : s.contains true = false
  · have hzero : s = List.replicate inputs.H.numRows false := by
      rw [← hlen]
      refine eq_zero_of_count (List.count_eq_zero.mpr fun hmem => ?_)
      rw [List.contains_eq_mem, decide_eq_false_iff_not] at hany
      exact hany hmem
    have hblock : d.blockSize = inputs.H.numCols := by rw [DecoderData.blockSize, hd.init, hd.cols]
    have hmin := isMinimal_zero inputs.H
    rw [← hzero] at hmin
    refine ⟨List.replicate inputs.H.numCols false, true, none, by simp, ?_, ?_, fun _ => hmin⟩
    · rw [if_pos hany, hblock, List.map_replicate]
    · exact ⟨fun _ => ⟨_, by simp, by simp [List.count_replicate], hmin.1⟩, fun _ => rfl⟩
  · have hne : s ≠ List.replicate inputs.H.numRows false := by
      rintro rfl
      simp at hany
    obtain ⟨e, helen, hframe, hconv, hmin⟩ := hd.frame_eq hne
    refine ⟨e, (d.signatures.lookup s).isSome, d.optResults.map fun flags =>
      MultiErrorLut.addOptResults flags (d.signatures.lookup s) (s.count true) duration,
      helen, ?_, hconv, hmin⟩
    rw [if_neg hany, ← hframe]

/-- A decode converges exactly when some error of at most `lut_error_depth` columns has the syndrome,
and then it reports such an error, of as few columns as any has. -/
theorem decode_exact (h : create binomTooLarge inputs request params = .ok d) (duration : ℚ)
    (syndrome : List SoftValue) (hsize : syndrome.length = inputs.numDetectors) :
    ∃ r e, d.decode duration syndrome = .ok r ∧ e.length = inputs.H.numCols ∧ Reports d e r.result ∧
      (r.converged = true ↔ ∃ e' : List Bool, e'.length = inputs.H.numCols ∧
        (e'.count true : Int) ≤ params.lutErrorDepth.getD 1 ∧
          inputs.H.mulVec e' = syndrome.map convertSoftToHard) ∧
      (r.converged = true → inputs.H.mulVec e = syndrome.map convertSoftToHard ∧
        ∀ e' : List Bool, e'.length = inputs.H.numCols →
          inputs.H.mulVec e' = syndrome.map convertSoftToHard → e.count true ≤ e'.count true) := by
  have hd := create_eq_ok h
  obtain ⟨e, converged, opts, hlen, hdecode, hconv, hmin⟩ := hd.decode_eq duration hsize
  obtain ⟨result, hfinish, hreports⟩ := hd.finish_eq_ok e
  rw [hfinish] at hdecode
  refine ⟨⟨converged, result, opts⟩, e, hdecode, hlen, hreports, ?_, hmin⟩
  simp only [← hd.depth, Nat.cast_le]
  exact hconv

/-! ## A repetition code -/

/-- Three columns, two detectors between them; the middle column lists a row three times. -/
def repetitionMatrix : SparseBinaryMatrix :=
  .ofGroups .csc 2 3 [[0], [0, 1, 0, 0], [1]]

def repetitionInputs : LutInputs where
  numDetectors := 2
  numErrorMechanisms := 3
  numObservables := 0
  hasMatrices := true
  O := none
  D := none
  chunks := none
  o_shape := by simp
  d_shape := by simp
  chunked := by simp
  H := repetitionMatrix
  rates := [1 / 4, 1 / 4, 1 / 4]
  h_shape := fun _ => ⟨rfl, rfl, rfl⟩

/-- The first detector is what the first column flips. -/
theorem decode_exact_repetition :
    ∃ d r, create (fun _ _ => false) repetitionInputs {} {} = .ok d ∧
      d.decode 0 [.finite 1, .finite 0] = .ok r ∧ r.converged = true := by
  have hok : (create (fun _ _ => false) repetitionInputs {} {}).isOk = true := by decide +kernel
  cases hd : create (fun _ _ => false) repetitionInputs {} {} with
  | error fault =>
    rw [hd] at hok
    cases hok
  | ok d =>
    obtain ⟨r, e, hdecode, -, -, hconv, -⟩ := decode_exact hd 0 [.finite 1, .finite 0] rfl
    refine ⟨d, r, rfl, hdecode, hconv.mpr ⟨[true, false, false], rfl, by decide, ?_⟩⟩
    decide +kernel

end

end CudaqQec.Lut
