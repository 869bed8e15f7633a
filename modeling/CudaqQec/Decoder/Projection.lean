import CudaqQec.Decoder.Init
import CudaqQec.Lib.Toggle
import Mathlib.Algebra.BigOperators.Group.Finset.Basic

/-!
# Projecting an error frame

A decoder that produces errors turns them into observable flips in two places.
`project_errors_to_observables` reads each value of the frame at a threshold of one half;
`enqueue_syndrome` takes every value that is not zero for an error. Both go through the observable
matrix by row or walk the chunks by column, and both come down to how often each observable is
flipped (`flipCount`), so they agree up to the values that are read differently.

* `projections_agree_iff`: when the two flip the same observables.
-/

namespace CudaqQec

open Checked SparseBinaryMatrix ExtendedDem Toggle

/-! ## Values of a frame -/

/-- A `float_t`. -/
inductive SoftValue where
  | finite (q : ℚ)
  | infinite (negative : Bool)
  | nan
  deriving DecidableEq

/-- `value != 0`; NaN is unequal to everything. -/
def SoftValue.nonzero : SoftValue → Bool
  | .finite q => q ≠ 0
  | .infinite _ => true
  | .nan => true

/-- `convert_soft_to_hard`: `value >= 0.5`. -/
def convertSoftToHard : SoftValue → Bool
  | .finite q => 1 / 2 ≤ q
  | .infinite negative => !negative
  | .nan => false

/-- A value that is an error for `enqueue_syndrome` only: not zero, and not at least one half. -/
def SoftValue.misread (v : SoftValue) : Bool := v.nonzero && !convertSoftToHard v

/-- What is read as an error at the threshold is not zero. -/
theorem SoftValue.nonzero_of_hard {v : SoftValue} (h : convertSoftToHard v = true) :
    v.nonzero = true := by
  cases v with
  | finite q =>
    simp only [convertSoftToHard, decide_eq_true_eq] at h
    simp only [SoftValue.nonzero, decide_eq_true_eq]
    rintro rfl
    norm_num at h
  | infinite negative => rfl
  | nan => rfl

/-! ## Decoders -/

/-- What the constructor of `decoder` derives from its inputs. -/
structure DecoderData where
  init : DecoderInit
  output : DecodeResultType
  measurementToDetectors : List (List Nat)
  numMsynPerDecode : Nat
  /-- Columns a detector needs, with the detector, in increasing order. -/
  detectorReadyOrder : List (Nat × Nat)
  /-- Held only when there is no matrix to project through. -/
  chunkObservables : Option ChunkedObservableMap

def columnsNeeded (row : List Nat) : Nat :=
  row.foldl (fun needed column => max needed (column + 1)) 0

/-- Pairs in lexicographic order, as `std::pair` compares them. -/
def pairLe (a b : Nat × Nat) : Prop := a.1 < b.1 ∨ a.1 = b.1 ∧ a.2 ≤ b.2

instance : DecidableRel pairLe := fun _ _ => inferInstanceAs (Decidable (_ ∨ _))

def readyOrder (rows : List (List Nat)) : List (Nat × Nat) :=
  (rows.zipIdx.map fun p => (columnsNeeded p.1, p.2)).insertionSort pairLe

def chunkObservablesOf (init : DecoderInit) : Except Error (Option ChunkedObservableMap) :=
  match init.chunks with
  | some spec =>
    if init.hasMatrices = false ∧ init.hasObservableModel then do
      let map ← demChunksToOChunked spec
      return some map
    else .ok none
  | none => .ok none

/-- The constructor of `decoder`. -/
def buildDecoder (init : DecoderInit) (output : DecodeResultType) : Except Error DecoderData := do
  let map ← chunkObservablesOf init
  let rows := (init.D.map toNestedCsr).getD []
  return {
    init := init
    output := output
    measurementToDetectors := rows
    numMsynPerDecode := (init.D.map (·.numCols)).getD 0
    detectorReadyOrder := readyOrder rows
    chunkObservables := map }

structure Decoder extends DecoderData where
  built : buildDecoder init output = .ok toDecoderData

namespace DecoderData

variable (d : DecoderData)

def blockSize : Nat := d.init.numErrorMechanisms

def observableFlipsMatrix : Except Error SparseBinaryMatrix := do
  throwIf (d.init.hasObservableModel = false)
    (.logicError "decoder_init: no observable mapping was supplied")
  throwIf (d.init.hasMatrices = false)
    (.logicError ("decoder_init::observable_flips_matrix: this dem_chunks source was built " ++
      "without its closed model; construct it with decoder_init::from_dem_chunks_closed()"))
  return d.init.O.getD .empty

/-! ## The two projections -/

def valueAt (values : List SoftValue) (column : Nat) : SoftValue := values.getD column (.finite 0)

/-- `project_errors_to_observables`, into a buffer of `size` observables. -/
def projectErrorsToObservables (errors : List SoftValue) (size : Nat) : Except Error (List Bool) := do
  throwIf (d.init.hasObservableModel = false)
    (.runtimeError ("decoder was asked to project an error frame onto observables but its model " ++
      "supplies no observable mapping"))
  match d.chunkObservables with
  | some map =>
    let flips := map.forEachFlip d.blockSize fun column => convertSoftToHard (valueAt errors column)
    return flips.foldl (fun observables p =>
      if p.2 < size then flipAt observables p.2 else observables) (List.replicate size false)
  | none =>
    let O ← d.observableFlipsMatrix
    return (List.range O.numRows).foldl (fun observables row =>
      observables.set row ((O.groups.getD row []).foldl (fun parity column =>
        parity ^^ convertSoftToHard (valueAt errors column)) false)) (List.replicate size false)

/-- What `enqueue_syndrome` does to the corrections with a decoded result. -/
def accumulate (values : List SoftValue) (corrections : List Bool) : Except Error (List Bool) :=
  match d.output with
  | .observables =>
    .ok ((List.range d.init.numObservables).foldl (fun corrections i =>
      if (valueAt values i).nonzero then flipAt corrections i else corrections) corrections)
  | .errors => do
    throwIf (d.init.hasObservableModel = false)
      (.runtimeError ("Error-frame decoders need an observable model to project through; this one " ++
        "was constructed without one"))
    match d.chunkObservables with
    | some map =>
      let flips := map.forEachFlip values.length fun column => (valueAt values column).nonzero
      return flips.foldl (fun corrections p =>
        if p.2 < d.init.numObservables then flipAt corrections p.2 else corrections) corrections
    | none =>
      let O ← d.observableFlipsMatrix
      return (List.range d.init.numObservables).foldl (fun corrections i =>
        (O.groups.getD i []).foldl (fun corrections column =>
          if (valueAt values column).nonzero then flipAt corrections i else corrections)
          corrections) corrections

/-! ## How often an observable is flipped -/

def observableColumns (k : Nat) : List Nat :=
  match d.chunkObservables with
  | some map => (flipsOf k (flipColumns (fun _ => true) 0 map.walked)).filter (· < d.blockSize)
  | none => ((d.init.O.map (·.groups)).getD []).getD k []

def flipCount (isSet : SoftValue → Bool) (values : List SoftValue) (k : Nat) : Nat :=
  (d.observableColumns k).countP fun column => isSet (valueAt values column)

def flipsBy (isSet : SoftValue → Bool) (values : List SoftValue) : List Bool :=
  (List.range d.init.numObservables).map fun k => decide (d.flipCount isSet values k % 2 = 1)

end DecoderData

/-! ## Walks as lists of flips -/

theorem foldl_flipAt_of_walk (flips : List (Nat × Nat)) (n : Nat) (bits : List Bool) :
    flips.foldl (fun bits p => if p.2 < n then flipAt bits p.2 else bits) bits =
      flipAll bits ((flips.map Prod.snd).filter (· < n)) := by
  induction flips generalizing bits with
  | nil => rfl
  | cons p flips ih =>
    rw [List.foldl_cons, ih, List.map_cons, List.filter_cons]
    by_cases hp : p.2 < n
    · simp only [hp, if_true, decide_true]
      rfl
    · simp only [hp, if_false, decide_false]
      rfl

theorem foldl_flipAt_of_row (set : Nat → Bool) (columns : List Nat) (i : Nat) (bits : List Bool) :
    columns.foldl (fun bits column => if set column then flipAt bits i else bits) bits =
      flipAll bits (List.replicate (columns.countP set) i) := by
  induction columns generalizing bits with
  | nil => rfl
  | cons column columns ih =>
    rw [List.foldl_cons, ih, List.countP_cons]
    by_cases hs : set column = true
    · simp only [hs, if_true, List.replicate_succ]
      rfl
    · simp only [hs]
      rfl

theorem foldl_flipAt_of_rows (set : Nat → Bool) (rows : Nat → List Nat) (is : List Nat)
    (bits : List Bool) :
    is.foldl (fun bits i =>
      (rows i).foldl (fun bits column => if set column then flipAt bits i else bits) bits) bits =
      flipAll bits (is.flatMap fun i => List.replicate ((rows i).countP set) i) := by
  induction is generalizing bits with
  | nil => rfl
  | cons i is ih =>
    rw [List.foldl_cons, foldl_flipAt_of_row, ih, List.flatMap_cons, flipAll_append]

/-- Rows that are visited once each flip their own observable. -/
theorem count_flatMap_replicate (f : Nat → Nat) {n k : Nat} (hk : k < n) :
    ((List.range n).flatMap fun i => List.replicate (f i) i).count k = f k := by
  rw [List.count_flatMap]
  have hcount : (List.count k ∘ fun i => List.replicate (f i) i) =
      fun i => if i = k then f i else 0 := by
    funext i
    simp only [Function.comp, List.count_replicate, beq_iff_eq]
  have hsum : ((List.range n).map fun i => if i = k then f i else 0).sum =
      ∑ i ∈ Finset.range n, if i = k then f i else 0 := rfl
  rw [hcount, hsum, Finset.sum_ite_eq', if_pos (Finset.mem_range.mpr hk)]

theorem foldl_xor_eq (set : Nat → Bool) (columns : List Nat) (parity : Bool) :
    columns.foldl (fun parity column => parity ^^ set column) parity =
      (parity ^^ decide (columns.countP set % 2 = 1)) := by
  induction columns generalizing parity with
  | nil => simp
  | cons column columns ih =>
    rw [List.foldl_cons, ih, List.countP_cons]
    rcases Nat.mod_two_eq_zero_or_one (columns.countP set) with h | h <;>
      cases hs : set column <;> simp [h, Nat.add_mod]

/-- Every entry of a buffer written once, in order. -/
theorem foldl_set_range (f : Nat → Bool) (n : Nat) (bits : List Bool) (h : bits.length = n) :
    (List.range n).foldl (fun bits row => bits.set row (f row)) bits = (List.range n).map f := by
  have key : ∀ m, (List.range m).foldl (fun bits row => bits.set row (f row)) bits =
      (List.range bits.length).map fun k => if k < m then f k else bits.getD k false := by
    intro m
    induction m with
    | zero => simpa using (map_getD_range bits false).symm
    | succ m ih =>
      rw [List.range_succ, List.foldl_append, ih]
      apply List.ext_getElem (by simp)
      intro k hk hk'
      simp only [List.foldl_cons, List.foldl_nil, List.getElem_set, List.getElem_map,
        List.getElem_range]
      by_cases hkm : m = k
      · simp [hkm]
      · rw [if_neg hkm]
        congr 1
        simp only [eq_iff_iff]
        omega
  rw [key n, h]
  apply List.map_congr_left
  intro k hk
  rw [if_pos (List.mem_range.mp hk)]

/-! ## What the constructor holds -/

theorem observableEntry_csc {kObs : Nat} {c : ExtendedDem} {m : SparseBinaryMatrix}
    (h : observableEntry kObs c = .ok m) : m.layout = .csc := by
  unfold observableEntry at h
  split at h
  · exact (fromNestedCsc_eq_ok.mp h).2.1
  · cases h
    exact toCsc_layout c.O

theorem demChunksToOChunked_csc {spec : DemChunksSpec} {map : ChunkedObservableMap}
    (h : demChunksToOChunked spec = .ok map) : ∀ m ∈ map.columns, m.layout = .csc := by
  simp only [demChunksToOChunked, chainToOChunked, bind_eq_ok] at h
  obtain ⟨chain, -, _, -, _, -, _, -, _, -, _, -, _, -, columns, hcols, hok⟩ := h
  cases hok
  intro m hm
  have hall := mapM_eq_ok.mp hcols
  obtain ⟨i, hi, hget⟩ := List.getElem_of_mem hm
  have hentry := hall.get (by rw [hall.length_eq]; exact hi) hi
  rw [List.get_eq_getElem, List.get_eq_getElem, hget] at hentry
  exact observableEntry_csc hentry

namespace Decoder

variable (d : Decoder)

theorem chunkObservables_eq : chunkObservablesOf d.init = .ok d.chunkObservables := by
  have h := d.built
  simp only [buildDecoder, bind_eq_ok] at h
  obtain ⟨map, hmap, hok⟩ := h
  rw [hmap, ← Except.ok.inj hok]

theorem chunkObservables_csc {map : ChunkedObservableMap} (h : d.chunkObservables = some map) :
    ∀ m ∈ map.columns, m.layout = .csc := by
  have heq := d.chunkObservables_eq
  rw [h] at heq
  unfold chunkObservablesOf at heq
  split at heq
  · split at heq
    · obtain ⟨map', hmap, hok⟩ := bind_eq_ok.mp heq
      cases hok
      exact demChunksToOChunked_csc hmap
    · cases heq
  · cases heq

/-- A decoder that has an observable model and no map of its chunks has the matrix. -/
theorem exists_O (hmodel : d.init.hasObservableModel = true) (h : d.chunkObservables = none) :
    d.init.hasMatrices = true ∧ ∃ O, d.init.O = some O := by
  cases hm : d.init.hasMatrices with
  | true =>
    rw [DecoderInit.hasObservableModel, hm, if_pos rfl] at hmodel
    exact ⟨rfl, Option.isSome_iff_exists.mp hmodel⟩
  | false =>
    obtain ⟨-, hchunks⟩ := d.init.chunked hm
    obtain ⟨spec, hspec⟩ := Option.isSome_iff_exists.mp hchunks
    have heq := d.chunkObservables_eq
    rw [h, chunkObservablesOf, hspec] at heq
    simp only [hm, hmodel, and_self, if_true] at heq
    obtain ⟨map, -, hok⟩ := bind_eq_ok.mp heq
    cases hok

/-! ## Both projections, by parity -/

/-- A walk over the chunks names an observable as often as the set columns flip it. -/
theorem count_walk {map : ChunkedObservableMap} (h : d.chunkObservables = some map)
    (isSet : SoftValue → Bool) (values : List SoftValue) {k : Nat}
    (hk : k < d.init.numObservables) :
    (((map.forEachFlip d.blockSize fun column =>
      isSet (DecoderData.valueAt values column)).map Prod.snd).filter
        (· < d.init.numObservables)).count k = d.flipCount isSet values k := by
  rw [List.count_filter (by simpa using hk), ChunkedObservableMap.forEachFlip_eq
    (d.chunkObservables_csc h), DecoderData.flipCount, DecoderData.observableColumns, h]
  simp only
  generalize hset : (fun j => decide (j < d.blockSize) &&
    isSet (DecoderData.valueAt values j)) = set
  have hcount : ∀ flips : List (Nat × Nat), (flips.map Prod.snd).count k = (flipsOf k flips).length := by
    intro flips
    rw [flipsOf, List.length_map, List.count, List.countP_map, List.countP_eq_length_filter]
    congr 2
  rw [hcount, flipsOf_flipColumns, ← List.countP_eq_length_filter, List.countP_filter]
  congr 1
  funext j
  rw [← hset, Bool.and_comm]

/-- `project_errors_to_observables` sets the observables that the errors at the threshold flip an
odd number of times. -/
theorem projectErrorsToObservables_eq (hmodel : d.init.hasObservableModel = true)
    (errors : List SoftValue) :
    d.projectErrorsToObservables errors d.init.numObservables =
      .ok (d.flipsBy convertSoftToHard errors) := by
  unfold DecoderData.projectErrorsToObservables
  rw [throwIf_of_not (by simp [hmodel]), ok_bind]
  cases hc : d.chunkObservables with
  | some map =>
    simp only
    rw [foldl_flipAt_of_walk, flipAll_eq, List.length_replicate, flipped]
    have hzero : ∀ bits : List Bool, bits.length = d.init.numObservables →
        xorBits (List.replicate d.init.numObservables false) bits = bits := by
      rintro bits hlen
      rw [← hlen, xorBits_replicate]
    rw [hzero _ (by simp), DecoderData.flipsBy]
    refine congrArg Except.ok (List.map_congr_left fun k hk => ?_)
    rw [d.count_walk hc _ _ (List.mem_range.mp hk)]
  | none =>
    obtain ⟨hm, O, hO⟩ := d.exists_O hmodel hc
    obtain ⟨-, hrows, -⟩ := d.init.o_shape O hO
    simp only [DecoderData.observableFlipsMatrix, hmodel, hm, hO, throwIf_of_not, ok_bind,
      Bool.true_eq_false, not_false_eq_true, pure, Except.pure, Option.getD_some, hrows]
    rw [foldl_set_range _ _ _ (by simp), DecoderData.flipsBy]
    refine congrArg Except.ok (List.map_congr_left fun k _ => ?_)
    rw [foldl_xor_eq, Bool.false_xor, DecoderData.flipCount, DecoderData.observableColumns, hc]
    simp only [hO, Option.map_some, Option.getD_some]

/-- `enqueue_syndrome` flips the corrections that the values other than zero flip an odd number of
times. -/
theorem accumulate_errors (hout : d.output = .errors) (hmodel : d.init.hasObservableModel = true)
    {values : List SoftValue} (hlen : values.length = d.blockSize) {corrections : List Bool}
    (hc : corrections.length = d.init.numObservables) :
    d.accumulate values corrections =
      .ok (xorBits corrections (d.flipsBy SoftValue.nonzero values)) := by
  unfold DecoderData.accumulate
  rw [hout]
  simp only
  rw [throwIf_of_not (by simp [hmodel]), ok_bind]
  cases hmap : d.chunkObservables with
  | some map =>
    simp only
    rw [foldl_flipAt_of_walk, flipAll_eq, hlen, hc, flipped, DecoderData.flipsBy]
    refine congrArg (fun bits => Except.ok (xorBits corrections bits))
      (List.map_congr_left fun k hk => ?_)
    rw [d.count_walk hmap _ _ (List.mem_range.mp hk)]
  | none =>
    obtain ⟨hm, O, hO⟩ := d.exists_O hmodel hmap
    simp only [DecoderData.observableFlipsMatrix, hmodel, hm, hO, throwIf_of_not, ok_bind,
      Bool.true_eq_false, not_false_eq_true, pure, Except.pure, Option.getD_some]
    rw [foldl_flipAt_of_rows (fun column => (DecoderData.valueAt values column).nonzero)
      (fun i => O.groups.getD i []), flipAll_eq, hc, flipped, DecoderData.flipsBy]
    refine congrArg (fun bits => Except.ok (xorBits corrections bits))
      (List.map_congr_left fun k hk => ?_)
    rw [count_flatMap_replicate _ (List.mem_range.mp hk), DecoderData.flipCount,
      DecoderData.observableColumns, hmap]
    simp only [hO, Option.map_some, Option.getD_some]

/-- The values that are not zero are those at the threshold and the misread ones. -/
theorem flipCount_nonzero (values : List SoftValue) (k : Nat) :
    d.flipCount SoftValue.nonzero values k =
      d.flipCount convertSoftToHard values k + d.flipCount SoftValue.misread values k := by
  unfold DecoderData.flipCount
  induction d.observableColumns k with
  | nil => rfl
  | cons column columns ih =>
    simp only [List.countP_cons, ih, SoftValue.misread]
    generalize DecoderData.valueAt values column = v
    have hv := @SoftValue.nonzero_of_hard v
    cases hh : convertSoftToHard v with
    | true =>
      rw [hv hh]
      simp only [Bool.not_true, Bool.and_false, if_true, Bool.false_eq_true, if_false]
      omega
    | false =>
      cases hn : v.nonzero with
      | true =>
        simp only [Bool.not_false, Bool.and_true, if_true, Bool.false_eq_true, if_false]
        omega
      | false =>
        simp only [Bool.not_false, Bool.and_true, Bool.false_eq_true, if_false]
        omega

end Decoder

/-- The corrections that `enqueue_syndrome` flips for a frame are the observables that
`project_errors_to_observables` computes from it exactly when the columns whose values the two read
differently flip every observable an even number of times. -/
theorem projections_agree_iff (d : Decoder) (hout : d.output = .errors)
    (hmodel : d.init.hasObservableModel = true) (values : List SoftValue)
    (hlen : values.length = d.blockSize) (corrections : List Bool)
    (hc : corrections.length = d.init.numObservables) :
    ∃ observables, d.projectErrorsToObservables values d.init.numObservables = .ok observables ∧
      (d.accumulate values corrections = .ok (xorBits corrections observables) ↔
        ∀ k < d.init.numObservables, Even (d.flipCount SoftValue.misread values k)) := by
  refine ⟨_, d.projectErrorsToObservables_eq hmodel values, ?_⟩
  rw [d.accumulate_errors hout hmodel hlen hc, Except.ok.injEq,
    xorBits_right_inj (by simp [DecoderData.flipsBy, hc]) (by simp [DecoderData.flipsBy, hc]),
    DecoderData.flipsBy, DecoderData.flipsBy, List.map_inj_left]
  simp only [List.mem_range, decide_eq_decide, d.flipCount_nonzero]
  constructor
  · intro h k hk
    have := h k hk
    rw [Nat.even_iff]
    omega
  · intro h k hk
    have := Nat.even_iff.mp (h k hk)
    omega

/-- One detector, one error mechanism that flips it, one observable that the mechanism flips, and one
measurement. -/
def flipMatrix : SparseBinaryMatrix := .ofGroups .csr 1 1 [[0]]

def flipInit : DecoderInit where
  numDetectors := 1
  numErrorMechanisms := 1
  numObservables := 1
  hasMatrices := true
  O := some flipMatrix
  D := some flipMatrix
  chunks := none
  o_shape := by
    intro m hm
    cases hm
    exact ⟨rfl, rfl, rfl⟩
  d_shape := by
    intro m hm
    cases hm
    exact ⟨rfl, rfl⟩
  chunked := by simp

def flipDecoder (output : DecodeResultType) : Decoder where
  init := flipInit
  output := output
  measurementToDetectors := [[0]]
  numMsynPerDecode := 1
  detectorReadyOrder := [(1, 0)]
  chunkObservables := none
  built := rfl

/-- A hard frame. -/
theorem projections_agree_hard :
    (flipDecoder .errors).accumulate [.finite 1] [false] = .ok [true] ∧
      (flipDecoder .errors).projectErrorsToObservables [.finite 1] 1 = .ok [true] := by
  obtain ⟨observables, hproj, hiff⟩ := projections_agree_iff (flipDecoder .errors) rfl rfl
    [.finite 1] rfl [false] rfl
  have hobs : (flipDecoder .errors).projectErrorsToObservables [.finite 1] 1 = .ok [true] := by
    decide +kernel
  obtain rfl := Except.ok.inj (hproj.symm.trans hobs)
  exact ⟨hiff.mpr (by decide +kernel), hobs⟩

/-- A value of one quarter is an error for `enqueue_syndrome` and none for the projection. -/
theorem projections_differ_soft :
    (flipDecoder .errors).accumulate [.finite (1 / 4)] [false] = .ok [true] ∧
      (flipDecoder .errors).projectErrorsToObservables [.finite (1 / 4)] 1 = .ok [false] := by
  constructor <;> decide +kernel

end CudaqQec
