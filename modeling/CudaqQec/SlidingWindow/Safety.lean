import CudaqQec.Lib.Traps
import CudaqQec.SlidingWindow.Construct

/-!
# Constructing safely

The constructor of `sliding_window` with every division, every difference of unsigned numbers and every
slice it performs, in the order in which it performs them. The number of windows is computed before
the step and the window size are checked, and the rates of a window are sliced before anything is
asked of its columns.

* `validateInputsTraced_eq`, `getPcmForRoundsTraced_eq`: the checks themselves never trap.
* `construct_safe_iff`: for which parameters and models the constructor returns or throws.
-/

namespace CudaqQec

open Checked Traps

/-- A `decoder_init` with a materialized matrix: what `validate_model` has accepted. A model that came
in chunks is not canonicalized again. -/
structure MaterializedInit where
  H : SparseBinaryMatrix
  errorRates : List ℚ
  errorIds : Option (List Nat)
  observableModel : Bool
  chunked : Bool
  csc : H.layout = .csc
  rates : errorRates ≠ [] → errorRates.length = H.numCols
  ids : ∀ l, errorIds = some l → l.length = H.numCols

/-- The matrix of `canonicalize_H`. -/
def MaterializedInit.canonicalH (init : MaterializedInit) : SparseBinaryMatrix :=
  if init.chunked then init.H else init.H.canonicalize.toCsc

/-! ## The layout -/

namespace RoundLayout

variable (l : RoundLayout)

/-- `round_layout::num_rounds`, as the constructor of the layout computes it. -/
def layersTraced : Except (Stop Error) Nat :=
  if l.boundary = false then div l.numRows l.S
  else if size64 (2 * l.B) ≤ l.numRows then do
    let interior ← sub l.numRows (size64 (2 * l.B))
    let k ← div interior l.S
    return k + 2
  else .ok 0

/-- `round_layout::round_start`. -/
def roundStartTraced (r : Nat) : Except (Stop Error) Nat :=
  if l.boundary = false then .ok (r * l.S)
  else if r = 0 then .ok 0
  else if l.numRounds ≤ r then .ok l.numRows
  else do
    let i ← sub r 1
    return l.B + i * l.S

/-- `round_layout::row_to_round`. -/
def rowToRoundTraced (row : Nat) : Except (Stop Error) Nat :=
  if l.boundary = false then div row l.S
  else if row < l.B then .ok 0
  else do
    let top ← sub l.numRows l.B
    if top ≤ row then sub l.numRounds 1
    else do
      let i ← sub row l.B
      let k ← div i l.S
      return 1 + k

variable {l}

theorem layersTraced_eq (h : 0 < l.S) : l.layersTraced = .ok l.numRounds := by
  unfold layersTraced numRounds
  split
  · exact div_of_pos h
  · split
    · next hle =>
      rw [sub_of_le hle, ok_bind, div_of_pos h]
      rfl
    · rfl

theorem roundStartTraced_eq (r : Nat) : l.roundStartTraced r = .ok (l.roundStart r) := by
  unfold roundStartTraced roundStart
  split
  · rfl
  · split
    · rfl
    · next h0 =>
      split
      · rfl
      · rw [sub_of_le (by omega)]
        rfl

theorem Fits.rowToRoundTraced_eq (h : l.Fits) (row : Nat) :
    l.rowToRoundTraced row = .ok (l.rowToRound row) := by
  have hpos := h.pos
  have htwo := h.two_le_numRounds
  have hB : l.B ≤ l.numRows := by
    obtain ⟨k, hk⟩ := h.rows
    omega
  unfold rowToRoundTraced rowToRound
  split
  · exact div_of_pos hpos
  · split
    · rfl
    · next hrow =>
      rw [sub_of_le hB, ok_bind]
      split
      · exact sub_of_le (by omega)
      · rw [sub_of_le (by omega), ok_bind, div_of_pos hpos]
        rfl

end RoundLayout

/-! ## The checks -/

/-- The layer that the column order counts for a row. -/
def roundOfTraced (S B r : Nat) : Except (Stop Error) Nat :=
  if r < B then .ok 0
  else do
    let i ← sub r B
    let k ← div i S
    return 1 + k

/-- `pcm_is_sorted`: the layers that its comparison may ask for, of the first and the last row of every
column, and then the order. -/
def pcmIsSortedTraced (rowIndices : List (List Nat)) (S B : Nat) : Except (Stop Error) Bool := do
  throws (throwIf (S = 0) (.invalidArgument ("get_sorted_pcm_column_indices: " ++
    "num_syndromes_per_round must be non-zero when num_boundary_syndromes is specified")))
  throws (throwIf (S < B) (.invalidArgument ("get_sorted_pcm_column_indices: " ++
    "num_boundary_syndromes (" ++ toString B ++ ") must be <= num_syndromes_per_round (" ++
    toString S ++ ")")))
  forM rowIndices fun col => do
    let _ ← roundOfTraced S B (col.headD 0)
    let _ ← roundOfTraced S B (col.getLastD 0)
  throws (pcmIsSorted rowIndices S B)

def checkRowsTraced (e : Error) (numRows boundaries S : Nat) : Except (Stop Error) Unit :=
  if numRows < boundaries then throws (.error e)
  else do
    let interior ← sub numRows boundaries
    let left ← mod interior S
    throws (throwIf (left ≠ 0) e)

/-- `validate_inputs`. -/
def validateInputsTraced (H : SparseBinaryMatrix) (layout : RoundLayout) (windowSize stepSize : Nat)
    (innerDecoderName : String) (errorRates : List ℚ) : Except (Stop Error) Unit := do
  throws (throwIf (layout.S < layout.B) (.invalidArgument ("sliding_window constructor: " ++
    "num_boundary_syndromes must be <= num_syndromes_per_round")))
  throws (throwIf (H.numRows < size64 (2 * layout.S)) (.invalidArgument
    ("sliding_window constructor: " ++
    "num_rows must be >= 2 * num_syndromes_per_round; memory circuits always produce at least a " ++
    "lock-in and a read-out round")))
  checkRowsTraced (.invalidArgument ("sliding_window constructor: number of PCM rows is " ++
    "inconsistent with the " ++ "given num_syndromes_per_round and num_boundary_syndromes"))
    H.numRows (size64 (2 * layout.B)) layout.S
  throws (throwIf (windowSize < 1 ∨ layout.numRounds < windowSize) (.invalidArgument
    ("sliding_window constructor: window_size (" ++ toString windowSize ++ ") must be between 1 " ++
      "and the number of detector layers (" ++ toString layout.numRounds ++ ")")))
  throws (throwIf (stepSize < 1 ∨ windowSize < stepSize) (.invalidArgument
    ("sliding_window constructor: step_size (" ++ toString stepSize ++ ") must be between 1 and " ++
      "window_size (" ++ toString windowSize ++ ")")))
  let rest ← sub layout.numRounds windowSize
  let left ← mod rest stepSize
  throws (throwIf (left ≠ 0) (.invalidArgument
    ("sliding_window constructor: detector layers - window_size (" ++ toString rest ++
      ") must be divisible by step_size (" ++ toString stepSize ++ ")")))
  throws (throwIf (layout.S = 0) (.invalidArgument
    "sliding_window constructor: num_syndromes_per_round must be non-zero"))
  throws (throwIf (innerDecoderName = "") (.invalidArgument
    "sliding_window constructor: inner_decoder_name must be non-empty"))
  throws (throwIf (errorRates = []) (.invalidArgument
    "sliding_window constructor: error_rate_vec must be non-empty"))
  let sorted ← pcmIsSortedTraced H.toNestedCsc (u32 layout.S) (u32 layout.B)
  throws (throwIf (sorted = false) (.invalidArgument
    "sliding_window constructor: PCM must be sorted. See cudaq::qec::simplify_pcm."))

/-- `validate_pcm_for_rounds_params`. -/
def validatePcmForRoundsParamsTraced (S B startRound endRound numRows : Nat) :
    Except (Stop Error) Unit := do
  throws (throwIf (S = 0) (.invalidArgument
    "get_pcm_for_rounds: num_syndromes_per_round must be greater than 0"))
  throws (throwIf (S < B) (.invalidArgument
    "get_pcm_for_rounds: num_boundary_syndromes must be <= num_syndromes_per_round"))
  let layout : RoundLayout := ⟨S, B, numRows⟩
  let layers ← layout.layersTraced
  let inconsistent : Error := .invalidArgument ("get_pcm_for_rounds: number of PCM rows is " ++
    "inconsistent with the given num_syndromes_per_round and num_boundary_syndromes")
  if layout.boundary = false then .ok () else checkRowsTraced inconsistent numRows (u32 (2 * B)) S
  throws (throwIf (layers ≤ endRound) (.invalidArgument
    "get_pcm_for_rounds: end_round is greater than the last round index"))
  let firstRowToKeep ← layout.roundStartTraced startRound
  throws (throwIf (numRows ≤ firstRowToKeep) (.invalidArgument
    "get_pcm_for_rounds: first_row_to_keep is greater than the number of rows in PCM"))

/-- `get_pcm_for_rounds` on a canonical matrix. The rows of a column that are kept are at or after the
first row to keep. -/
def getPcmForRoundsTraced (pcm : SparseBinaryMatrix) (S startRound endRound : Nat)
    (straddleStartRound straddleEndRound : Bool) (B : Nat) :
    Except (Stop Error) (BitMatrix × Nat × Nat) := do
  validatePcmForRoundsParamsTraced S B startRound endRound pcm.numRows
  let layout : RoundLayout := ⟨S, B, pcm.numRows⟩
  let _ ← layout.layersTraced
  let firstRowToKeep ← layout.roundStartTraced startRound
  let stop ← layout.roundStartTraced (u32 (endRound + 1))
  let lastRowToKeep ← sub stop 1
  forM pcm.toNestedCsc fun col => if col = [] then pure () else do
    let _ ← layout.rowToRoundTraced (col.headD 0)
    let _ ← layout.rowToRoundTraced (col.getLastD 0)
  let (columnsInRange, firstColumn, lastColumn) := selectPcmColumnsForRoundRange pcm.toNestedCsc
    layout startRound endRound straddleStartRound straddleEndRound
  let _ ← sub (u32 lastRowToKeep) (u32 firstRowToKeep)
  return (cutColumns pcm.toNestedCsc columnsInRange (u32 firstRowToKeep) (u32 lastRowToKeep),
    firstColumn, lastColumn)

/-! ## The constructor -/

/-- The layout that the parameters describe: a boundary width of 0 is the uniform layout. -/
def SlidingWindowParams.layout (params : SlidingWindowParams) (H : SparseBinaryMatrix) : RoundLayout :=
  let S := size64 params.numSyndromesPerRound
  let B := if size64 params.numBoundarySyndromes = 0 then S else size64 params.numBoundarySyndromes
  ⟨S, B, H.numRows⟩

section Construct

-- What makes the inner decoder of a window, from its matrix, its rates and its error ids.
variable (inner : BitMatrix → List ℚ → Option (List Nat) → Except Error Unit)

/-- One window. -/
def windowTraced (H : SparseBinaryMatrix) (layout : RoundLayout) (windowSize stepSize : Nat)
    (straddleStartRound straddleEndRound : Bool) (errorRates : List ℚ) (errorIds : Option (List Nat))
    (w : Nat) : Except (Stop Error) Unit := do
  let startRound := w * stepSize
  let endRound ← sub (startRound + windowSize) 1
  let (hRound, firstColumn, lastColumn) ← getPcmForRoundsTraced H (u32 layout.S) (u32 startRound)
    (u32 endRound) straddleStartRound straddleEndRound (u32 layout.B)
  let rates ← slice errorRates firstColumn (lastColumn + 1)
  let width ← sub lastColumn firstColumn
  throws (throwIf (u32 (width + 1) ≠ hRound.cols) (.invalidArgument
    ("last_column - first_column + 1 (" ++ toString (u32 (width + 1)) ++
      ") must be equal to the number of columns in H_round (" ++ toString hRound.cols ++ ")")))
  match errorIds with
  | none => throws (inner hRound rates none)
  | some ids => do
    let ids ← slice ids firstColumn (lastColumn + 1)
    throws (inner hRound rates (some ids))

/-- The constructor of `sliding_window`. -/
def constructTraced (init : MaterializedInit) (request : DecoderOutputRequest)
    (params : SlidingWindowParams) : Except (Stop Error) Unit := do
  throws (throwIf (request.auxiliaryOutputs = true) (.invalidArgument
    "sliding_window does not produce auxiliary outputs"))
  throws (throwIf (request.primary = .observables ∧ init.observableModel = false) (.invalidArgument
    ("sliding_window was constructed for observable output but its model supplies no " ++
      "observable mapping")))
  let H := init.canonicalH
  let windowSize := size64 params.windowSize
  let stepSize := size64 params.stepSize
  throws (throwIf (size64 params.numSyndromesPerRound = 0) (.invalidArgument
    "sliding_window constructor: num_syndromes_per_round must be non-zero"))
  let layout := params.layout H
  let numDetectorLayers ← layout.layersTraced
  let steps ← sub numDetectorLayers windowSize
  let steps ← div steps stepSize
  let numWindows := steps + 1
  validateInputsTraced H layout windowSize stepSize params.innerDecoderName init.errorRates
  forM (List.range (numDetectorLayers + 1)) fun r => do
    let _ ← layout.roundStartTraced r
  let syndromeSize ← layout.roundStartTraced numDetectorLayers
  if request.primary = .observables ∨ init.observableModel = true then
    throws (throwIf (syndromeSize ≠ H.numRows) (.invalidArgument ("detector layer offsets end at " ++
      toString syndromeSize ++ " but the model has " ++ toString H.numRows ++ " detectors")))
  else pure ()
  forM (List.range numWindows) (windowTraced inner H layout windowSize stepSize
    params.straddleStartRound params.straddleEndRound init.errorRates init.errorIds)

end Construct

/-! ## The checks do not trap -/

theorem checkRowsTraced_eq {e : Error} {n b S : Nat} (hS : 0 < S) :
    checkRowsTraced e n b S = throws (throwIf (n < b ∨ (n - b) % S ≠ 0) e) := by
  unfold checkRowsTraced
  by_cases hb : n < b
  · rw [if_pos hb, throwIf_of (.inl hb)]
  · rw [if_neg hb, sub_of_le (by omega), ok_bind, mod_of_pos hS, ok_bind]
    simp only [hb, false_or]

theorem roundOfTraced_eq {S B : Nat} (hS : 0 < S) (r : Nat) :
    roundOfTraced S B r = .ok (roundOf S B r) := by
  unfold roundOfTraced roundOf
  split
  · rfl
  · rw [sub_of_le (by omega), ok_bind, div_of_pos hS]
    rfl

theorem pcmIsSortedTraced_eq (rowIndices : List (List Nat)) (S B : Nat) :
    pcmIsSortedTraced rowIndices S B = throws (pcmIsSorted rowIndices S B) := by
  unfold pcmIsSortedTraced
  -- the messages are cut elsewhere
  have hzero : ("get_sorted_pcm_column_indices: num_syndromes_per_round must " ++
      "be non-zero when num_boundary_syndromes is specified" : String) =
        "get_sorted_pcm_column_indices: " ++
          "num_syndromes_per_round must be non-zero when num_boundary_syndromes is specified" := rfl
  have hname : ("get_sorted_pcm_column_indices: num_boundary_syndromes (" : String) =
      "get_sorted_pcm_column_indices: " ++ "num_boundary_syndromes (" := rfl
  by_cases hS : S = 0
  · rw [throwIf_of hS, pcmIsSorted, getSortedPcmColumnIndices, throwIf_of hS, hzero]
    simp only [throws_error, error_bind]
  by_cases hB : S < B
  · rw [throwIf_of_not hS, throwIf_of hB, pcmIsSorted, getSortedPcmColumnIndices, throwIf_of_not hS,
      throwIf_of hB, hname]
    simp only [throws_ok, throws_error, ok_bind, error_bind]
  have hpos : 0 < S := Nat.pos_of_ne_zero hS
  have hrounds : (forM rowIndices fun col => do
      let _ ← roundOfTraced S B (col.headD 0)
      let _ ← roundOfTraced S B (col.getLastD 0)) = (.ok () : Except (Stop Error) Unit) := by
    rw [forM_eq_ok]
    intro col _
    rw [roundOfTraced_eq hpos, roundOfTraced_eq hpos]
    rfl
  rw [throwIf_of_not hS, throwIf_of_not hB, hrounds]
  rfl

/-- The checks of the constructor trap nowhere, whatever they are given. -/
theorem validateInputsTraced_eq {H : SparseBinaryMatrix} {l : RoundLayout} {W step : Nat}
    {name : String} {rates : List ℚ} (hS : 0 < l.S) :
    validateInputsTraced H l W step name rates = throws (validateInputs H l W step name rates) := by
  simp only [validateInputsTraced, validateInputs, throws_bind, checkRowsTraced_eq hS,
    pcmIsSortedTraced_eq]
  congr 1
  funext _
  congr 1
  funext _
  congr 1
  funext _
  by_cases hW : W < 1 ∨ l.numRounds < W
  · rw [throwIf_of hW]
    rfl
  by_cases hstep : step < 1 ∨ W < step
  · rw [throwIf_of_not hW, throwIf_of hstep]
    rfl
  rw [throwIf_of_not hW, throwIf_of_not hstep, sub_of_le (by omega)]
  simp only [throws_ok, ok_bind]
  rw [mod_of_pos (by omega), ok_bind]

/-- On a layout that fits, a range of its layers is cut without a trap. -/
theorem getPcmForRoundsTraced_eq {pcm : SparseBinaryMatrix} {l : RoundLayout} (h : l.Fits)
    (hrows : pcm.numRows = l.numRows) {p q : Nat} (hpq : p ≤ q) (hq : q < l.numRounds)
    (ss se : Bool) :
    getPcmForRoundsTraced pcm l.S p q ss se l.B =
      .ok (cutColumns pcm.toNestedCsc (selectPcmColumnsForRoundRange pcm.toNestedCsc l p q ss se).1
        (l.roundStart p) (l.roundStart (q + 1) - 1),
        (selectPcmColumnsForRoundRange pcm.toNestedCsc l p q ss se).2) := by
  have hpos := h.pos
  have hlt := h.rows_lt
  have hmany := h.numRounds_le_numRows
  have hfirst := h.roundStart_mono hpq (by omega)
  have hnext := h.roundStart_lt_succ hq
  have hstop := h.roundStart_le_numRows (show q + 1 ≤ l.numRounds by omega)
  obtain ⟨k, hk⟩ := h.rows
  -- none of the checks divides by zero or goes below it
  have hvalid : validatePcmForRoundsParamsTraced l.S l.B p q l.numRows = .ok () := by
    have hmod : ¬ (l.numRows < u32 (2 * l.B) ∨ (l.numRows - u32 (2 * l.B)) % l.S ≠ 0) := by
      rw [u32_of_lt (by omega), hk, Nat.add_sub_cancel_left, Nat.mul_mod_left]
      omega
    have hlayers : (⟨l.S, l.B, l.numRows⟩ : RoundLayout).layersTraced = .ok l.numRounds :=
      RoundLayout.layersTraced_eq hpos
    have hstart : (⟨l.S, l.B, l.numRows⟩ : RoundLayout).roundStartTraced p =
        .ok (l.roundStart p) := RoundLayout.roundStartTraced_eq p
    have hbound : ¬ (l.numRows ≤ l.roundStart p) :=
      not_le.mpr (lt_of_le_of_lt hfirst (lt_of_lt_of_le hnext hstop))
    unfold validatePcmForRoundsParamsTraced
    rw [throwIf_of_not hpos.ne', throwIf_of_not (by have := h.boundary_le; omega)]
    dsimp only
    rw [hlayers, hstart, checkRowsTraced_eq hpos, throwIf_of_not hmod]
    simp only [throws_ok, ok_bind, ite_self]
    rw [throwIf_of_not (not_le.mpr hq), throwIf_of_not hbound]
    rfl
  -- the rounds of a column's ends are looked up for every column
  have hlayers : (forM pcm.toNestedCsc fun col => if col = [] then pure () else do
      let _ ← l.rowToRoundTraced (col.headD 0)
      let _ ← l.rowToRoundTraced (col.getLastD 0)) = (.ok () : Except (Stop Error) Unit) := by
    rw [forM_eq_ok]
    intro col _
    split
    · rfl
    · rw [h.rowToRoundTraced_eq, h.rowToRoundTraced_eq]
      rfl
  rw [getPcmForRoundsTraced, hrows, hvalid]
  simp only [ok_bind]
  change (l.layersTraced >>= fun _ => l.roundStartTraced p >>= fun firstRowToKeep =>
    l.roundStartTraced (u32 (q + 1)) >>= _) = _
  rw [RoundLayout.layersTraced_eq hpos, RoundLayout.roundStartTraced_eq,
    RoundLayout.roundStartTraced_eq, u32_of_lt (show q + 1 < 2 ^ 32 by omega)]
  simp only [ok_bind]
  rw [sub_of_le (by omega), ok_bind, hlayers, ok_bind, u32_of_lt (by omega), u32_of_lt (by omega),
    sub_of_le (by omega)]
  rfl

/-! ## One window -/

section Window

variable (inner : BitMatrix → List ℚ → Option (List Nat) → Except Error Unit) (H : SparseBinaryMatrix)
  (layout : RoundLayout) (windowSize stepSize : Nat) (ss se : Bool) (errorRates : List ℚ)
  (errorIds : Option (List Nat)) (w : Nat)

def windowSelection : List Nat × Nat × Nat :=
  selectPcmColumnsForRoundRange H.toNestedCsc ⟨u32 layout.S, u32 layout.B, H.numRows⟩
    (w * stepSize) (w * stepSize + windowSize - 1) ss se

def windowMatrix : BitMatrix :=
  cutColumns H.toNestedCsc (windowSelection H layout windowSize stepSize ss se w).1
    (layout.roundStart (w * stepSize)) (layout.roundStart (w * stepSize + windowSize) - 1)

def windowSlice {α : Type} (l : List α) : List α :=
  (l.take ((windowSelection H layout windowSize stepSize ss se w).2.2 + 1)).drop
    (windowSelection H layout windowSize stepSize ss se w).2.1

/-- Window `w` gets its inner decoder: its columns are next to each other, and one can be made. -/
def WindowBuilt : Prop :=
  u32 ((windowSelection H layout windowSize stepSize ss se w).2.2 -
      (windowSelection H layout windowSize stepSize ss se w).2.1 + 1) =
    (windowSelection H layout windowSize stepSize ss se w).1.length ∧
  inner (windowMatrix H layout windowSize stepSize ss se w)
    (windowSlice H layout windowSize stepSize ss se w errorRates)
    (errorIds.map fun ids => windowSlice H layout windowSize stepSize ss se w ids) = .ok ()

variable {inner H layout windowSize stepSize ss se errorRates errorIds w}

/-- The first and the last of some selected columns are columns, in order. -/
theorem selection_bounds {rowIndices : List (List Nat)} {l : RoundLayout} {p q : Nat}
    (hne : (selectPcmColumnsForRoundRange rowIndices l p q ss se).1 ≠ []) :
    (selectPcmColumnsForRoundRange rowIndices l p q ss se).2.1 ≤
        (selectPcmColumnsForRoundRange rowIndices l p q ss se).2.2 ∧
      (selectPcmColumnsForRoundRange rowIndices l p q ss se).2.2 < rowIndices.length := by
  have hlt : ∀ c ∈ (selectPcmColumnsForRoundRange rowIndices l p q ss se).1, c < rowIndices.length :=
    fun c hc => (mem_selected.mp hc).1
  have hsorted : (selectPcmColumnsForRoundRange rowIndices l p q ss se).1.Pairwise (· < ·) :=
    List.pairwise_lt_range.filter _
  have hfst : (selectPcmColumnsForRoundRange rowIndices l p q ss se).2.1 =
      (selectPcmColumnsForRoundRange rowIndices l p q ss se).1.headD uint32Max := rfl
  have hlast : (selectPcmColumnsForRoundRange rowIndices l p q ss se).2.2 =
      (selectPcmColumnsForRoundRange rowIndices l p q ss se).1.getLastD 0 := rfl
  rw [hfst, hlast]
  generalize (selectPcmColumnsForRoundRange rowIndices l p q ss se).1 = columns at *
  obtain ⟨c, cs, rfl⟩ := List.exists_cons_of_ne_nil hne
  refine ⟨?_, hlt _ (getLastD_mem hne)⟩
  rcases List.mem_cons.mp (getLastD_mem hne) with heq | hmem
  · rw [heq]
    exact le_refl _
  · exact (List.rel_of_pairwise_cons hsorted hmem).le

/-- What a window does, for a layout that passed the checks. -/
theorem windowTraced_eq (hl : layout.Fits) (hrows : H.numRows = layout.numRows)
    (hle : u32 layout.B ≤ u32 layout.S) (hW : 1 ≤ windowSize)
    (hend : w * stepSize + windowSize ≤ layout.numRounds)
    (hrates : errorRates.length = H.numCols)
    (hids : ∀ l, errorIds = some l → l.length = H.numCols) :
    ((windowSelection H layout windowSize stepSize ss se w).1 = [] ∧
      windowTraced inner H layout windowSize stepSize ss se errorRates errorIds w =
        .error (.trapped .badSlice)) ∨
    ((windowSelection H layout windowSize stepSize ss se w).1 ≠ [] ∧
      Safe (windowTraced inner H layout windowSize stepSize ss se errorRates errorIds w) ∧
      (windowTraced inner H layout windowSize stepSize ss se errorRates errorIds w = .ok () ↔
        WindowBuilt inner H layout windowSize stepSize ss se errorRates errorIds w)) := by
  obtain ⟨hfits, hrounds, hstart⟩ := SlidingWindow.fits_u32 hl hle
  have hmany := hl.numRounds_le_numRows
  have hlt := hl.rows_lt
  have hp : u32 (w * stepSize) = w * stepSize := u32_of_lt (by omega)
  have hq : u32 (w * stepSize + windowSize - 1) = w * stepSize + windowSize - 1 :=
    u32_of_lt (by omega)
  have hcut := getPcmForRoundsTraced_eq hfits hrows
    (show w * stepSize ≤ w * stepSize + windowSize - 1 by omega) (by omega) ss se
  have hstop : w * stepSize + windowSize - 1 + 1 = w * stepSize + windowSize := by omega
  rw [hstop, hstart _ (by omega), hstart _ (by omega)] at hcut
  have hsel : windowSelection H layout windowSize stepSize ss se w =
      selectPcmColumnsForRoundRange H.toNestedCsc ⟨u32 layout.S, u32 layout.B, layout.numRows⟩
        (w * stepSize) (w * stepSize + windowSize - 1) ss se := by
    rw [windowSelection, hrows]
  rw [← hsel] at hcut
  have hmatrix : cutColumns H.toNestedCsc (windowSelection H layout windowSize stepSize ss se w).1
      (layout.roundStart (w * stepSize)) (layout.roundStart (w * stepSize + windowSize) - 1) =
        windowMatrix H layout windowSize stepSize ss se w := rfl
  rw [hmatrix] at hcut
  simp only [windowTraced]
  rw [sub_of_le (by omega), ok_bind, hp, hq, hcut, ok_bind]
  by_cases hne : (windowSelection H layout windowSize stepSize ss se w).1 = []
  · -- No column: the first one is `2 ^ 32 - 1`, and the last one is 0.
    refine .inl ⟨hne, ?_⟩
    have hfirst : (windowSelection H layout windowSize stepSize ss se w).2.1 = uint32Max := by
      show (windowSelection H layout windowSize stepSize ss se w).1.headD uint32Max = _
      rw [hne]
      rfl
    have hlast : (windowSelection H layout windowSize stepSize ss se w).2.2 = 0 := by
      show (windowSelection H layout windowSize stepSize ss se w).1.getLastD 0 = _
      rw [hne]
      rfl
    have hbad : (slice errorRates uint32Max (0 + 1) : Except (Stop Error) (List ℚ)) =
        .error (.trapped .badSlice) := by
      apply if_neg
      unfold uint32Max
      omega
    simp only [hfirst, hlast, hbad, error_bind]
  · right
    have hbounds := selection_bounds (hsel ▸ hne)
    rw [← hsel, H.length_toNestedCsc] at hbounds
    have hslice : ∀ {α : Type} (l : List α), l.length = H.numCols →
        (slice l (windowSelection H layout windowSize stepSize ss se w).2.1
          ((windowSelection H layout windowSize stepSize ss se w).2.2 + 1) :
            Except (Stop Error) (List α)) =
          .ok (windowSlice H layout windowSize stepSize ss se w l) :=
      fun l hl => slice_of_le (by omega) (by omega)
    have hcols : (windowMatrix H layout windowSize stepSize ss se w).cols =
        (windowSelection H layout windowSize stepSize ss se w).1.length := rfl
    refine ⟨hne, ?_⟩
    rw [hslice errorRates hrates, ok_bind, sub_of_le hbounds.1, ok_bind, hcols, WindowBuilt]
    -- What is left can only throw.
    have hrest : ∀ (x : Except Error Unit) (c : Prop) [Decidable c] (e : Error),
        Safe (throws (throwIf (¬ c) e) >>= fun _ => throws x) ∧
          ((throws (throwIf (¬ c) e) >>= fun _ => throws x) = .ok () ↔ c ∧ x = .ok ()) := by
      intro x c _ e
      by_cases hc : c
      · rw [throwIf_of_not (not_not.mpr hc)]
        refine ⟨safe_throws x, ?_⟩
        cases x with
        | error e => simp
        | ok u => simp [hc]
      · rw [throwIf_of hc]
        exact ⟨safe_throws (.error e), by simp [hc]⟩
    cases hcase : errorIds with
    | none => exact hrest _ _ _
    | some ids =>
      simp only [hslice ids (hids ids hcase), ok_bind]
      exact hrest _ _ _

end Window

/-! ## The whole constructor -/

/-- Some column has its rows where window `w` takes columns from. -/
def HasColumn (H : SparseBinaryMatrix) (l : RoundLayout) (windowSize stepSize : Nat) (ss se : Bool)
    (w : Nat) : Prop :=
  ∃ c < H.numCols, selectsColumn ⟨u32 l.S, u32 l.B, H.numRows⟩ (w * stepSize)
    (w * stepSize + windowSize - 1) ss se (H.toNestedCsc.getD c [])

theorem windowSelection_ne_nil_iff {H : SparseBinaryMatrix} {l : RoundLayout} {W step w : Nat}
    {ss se : Bool} : (windowSelection H l W step ss se w).1 ≠ [] ↔ HasColumn H l W step ss se w := by
  have hmem : ∀ c, c ∈ (windowSelection H l W step ss se w).1 ↔ c < H.numCols ∧
      selectsColumn ⟨u32 l.S, u32 l.B, H.numRows⟩ (w * step) (w * step + W - 1) ss se
        (H.toNestedCsc.getD c []) := by
    intro c
    rw [windowSelection, mem_selected, H.length_toNestedCsc]
  constructor
  · intro hne
    obtain ⟨c, hc⟩ := List.exists_mem_of_ne_nil _ hne
    exact ⟨c, (hmem c).mp hc⟩
  · rintro ⟨c, hc⟩
    exact List.ne_nil_of_mem ((hmem c).mpr hc)

section Safety

variable (inner : BitMatrix → List ℚ → Option (List Nat) → Except Error Unit)
  (init : MaterializedInit) (request : DecoderOutputRequest) (params : SlidingWindowParams)

/-- The constructor throws before it counts the windows, or there is a step and the layers make up a
window. Then the checks throw, or every window has a column, up to the first that throws. -/
def ConstructsSafely : Prop :=
  request.auxiliaryOutputs = true ∨
  (request.primary = .observables ∧ init.observableModel = false) ∨
  size64 params.numSyndromesPerRound = 0 ∨
  size64 params.windowSize ≤ (params.layout init.canonicalH).numRounds ∧
    size64 params.stepSize ≠ 0 ∧
    ((∃ e, validateInputs init.canonicalH (params.layout init.canonicalH) (size64 params.windowSize)
        (size64 params.stepSize) params.innerDecoderName init.errorRates = .error e) ∨
      ∀ w < ((params.layout init.canonicalH).numRounds - size64 params.windowSize) /
          size64 params.stepSize + 1,
        (∀ v < w, WindowBuilt inner init.canonicalH (params.layout init.canonicalH)
          (size64 params.windowSize) (size64 params.stepSize) params.straddleStartRound
          params.straddleEndRound init.errorRates init.errorIds v) →
        HasColumn init.canonicalH (params.layout init.canonicalH) (size64 params.windowSize)
          (size64 params.stepSize) params.straddleStartRound params.straddleEndRound w)

variable {init params}

theorem canonicalH_numCols : init.canonicalH.numCols = init.H.numCols := by
  unfold MaterializedInit.canonicalH
  split
  · rfl
  · rw [SparseBinaryMatrix.toCsc_numCols]
    rfl

theorem errorRates_ne_nil {H : SparseBinaryMatrix} {l : RoundLayout} {W step : Nat} {name : String}
    {rates : List ℚ} {u : Unit} (h : validateInputs H l W step name rates = .ok u) : rates ≠ [] := by
  simp only [validateInputs, bind_eq_ok, throwIf_eq_ok] at h
  obtain ⟨_, -, _, -, _, -, _, -, _, -, _, -, _, -, _, -, _, hne, -⟩ := h
  exact hne

/-- The loop over the windows, once the checks have passed. -/
theorem safe_windows_iff {l : RoundLayout} {W : Nat} (step : Nat) (ss se : Bool) (hl : l.Fits)
    (hrows : init.canonicalH.numRows = l.numRows) (hle : u32 l.B ≤ u32 l.S) (hW : 1 ≤ W)
    (hWl : W ≤ l.numRounds) (hne : init.errorRates ≠ []) :
    Safe (forM (List.range ((l.numRounds - W) / step + 1)) (windowTraced inner init.canonicalH l W step
        ss se init.errorRates init.errorIds)) ↔
      ∀ w < (l.numRounds - W) / step + 1,
        (∀ v < w, WindowBuilt inner init.canonicalH l W step ss se init.errorRates init.errorIds v) →
        HasColumn init.canonicalH l W step ss se w := by
  have hend : ∀ w < (l.numRounds - W) / step + 1, w * step + W ≤ l.numRounds := by
    intro w hw
    have hmul := Nat.mul_le_mul_right step (Nat.le_of_lt_succ hw)
    have hdiv := Nat.div_mul_le_self (l.numRounds - W) step
    omega
  have hrates : init.errorRates.length = init.canonicalH.numCols := by
    rw [canonicalH_numCols]
    exact init.rates hne
  have hids : ∀ ids, init.errorIds = some ids → ids.length = init.canonicalH.numCols := by
    rw [canonicalH_numCols]
    exact init.ids
  -- a window traps exactly where its selection is empty
  have hsafe : ∀ w < (l.numRounds - W) / step + 1,
      (Safe (windowTraced inner init.canonicalH l W step ss se init.errorRates init.errorIds w) ↔
        HasColumn init.canonicalH l W step ss se w) ∧
      (windowTraced inner init.canonicalH l W step ss se init.errorRates init.errorIds w = .ok () ↔
        HasColumn init.canonicalH l W step ss se w ∧
          WindowBuilt inner init.canonicalH l W step ss se init.errorRates init.errorIds w) := by
    intro w hw
    rw [← windowSelection_ne_nil_iff]
    rcases windowTraced_eq hl hrows hle hW (hend w hw) hrates hids with ⟨hnil, hbad⟩ | ⟨hsome, hsafe, hok⟩
    · rw [hbad]
      exact ⟨iff_of_false (not_safe_trapped _) (not_not.mpr hnil),
        iff_of_false (by simp) fun h => h.1 hnil⟩
    · exact ⟨iff_of_true hsafe hsome, by rw [hok, and_iff_right hsome]⟩
  rw [safe_forM_range_iff]
  constructor
  · -- A window that was built has a column, by induction along the windows before it.
    intro h w hw hbuilt
    have hcol : ∀ v ≤ w, HasColumn init.canonicalH l W step ss se v := by
      intro v hv
      induction v using Nat.strong_induction_on with
      | _ v ih =>
        rw [← (hsafe v (by omega)).1]
        apply h v (by omega)
        intro u hu
        rw [(hsafe u (by omega)).2]
        exact ⟨ih u hu (by omega), hbuilt u (by omega)⟩
    exact hcol w (le_refl w)
  · intro h w hw hok
    rw [(hsafe w hw).1]
    apply h w hw
    intro v hv
    exact ((hsafe v (by omega)).2.mp (hok v hv)).2

variable (init params)

/-- The constructor never traps exactly when it has a step, a window that fits, and a column for each
window, or throws before it needs them. -/
theorem construct_safe_iff :
    Safe (constructTraced inner init request params) ↔ ConstructsSafely inner init request params := by
  unfold constructTraced ConstructsSafely
  rw [safe_throwIf_bind_iff, safe_throwIf_bind_iff, safe_throwIf_bind_iff]
  apply or_congr_right
  apply or_congr_right
  -- without syndromes the constructor throws before it divides
  by_cases hS : size64 params.numSyndromesPerRound = 0
  · exact iff_of_true (.inl hS) (.inl hS)
  rw [or_iff_right hS, or_iff_right hS]
  dsimp only
  have hpos : 0 < (params.layout init.canonicalH).S := Nat.pos_of_ne_zero hS
  rw [RoundLayout.layersTraced_eq hpos, ok_bind]
  -- the number of windows is a difference and a quotient: each can trap
  by_cases hW : size64 params.windowSize ≤ (params.layout init.canonicalH).numRounds
  swap
  · rw [sub, if_neg hW]
    exact iff_of_false (not_safe_trapped _) fun h => hW h.1
  by_cases hstep : size64 params.stepSize = 0
  · rw [sub_of_le hW, ok_bind, div, if_pos hstep]
    exact iff_of_false (not_safe_trapped _) fun h => h.2.1 hstep
  rw [sub_of_le hW, ok_bind, div_of_pos (Nat.pos_of_ne_zero hstep), ok_bind, and_iff_right hW,
    and_iff_right hstep]
  rw [validateInputsTraced_eq hpos]
  -- inputs that are refused need no column; accepted ones need one for each window
  cases hval : validateInputs init.canonicalH (params.layout init.canonicalH)
      (size64 params.windowSize) (size64 params.stepSize) params.innerDecoderName init.errorRates with
  | error e => exact iff_of_true (safe_throws (.error e)) (.inl ⟨e, rfl⟩)
  | ok u =>
    have hSlt : (params.layout init.canonicalH).S < 2 ^ 64 := Nat.mod_lt _ (by decide)
    have hB : 0 < (params.layout init.canonicalH).B := by
      show 0 < if size64 params.numBoundarySyndromes = 0 then size64 params.numSyndromesPerRound
        else size64 params.numBoundarySyndromes
      split
      · exact hpos
      · omega
    obtain ⟨hfits, ⟨hW1, -⟩, -, -, hle, -⟩ := validateInputs_eq_ok hval hSlt hB rfl
    have hne := errorRates_ne_nil hval
    have hwindows := safe_windows_iff inner (size64 params.stepSize) params.straddleStartRound
      params.straddleEndRound hfits rfl hle hW1 hW hne
    have hoffset : (params.layout init.canonicalH).roundStart
        (params.layout init.canonicalH).numRounds = init.canonicalH.numRows :=
      hfits.roundStart_numRounds
    generalize params.layout init.canonicalH = l at *
    have hnot : ¬ ∃ e, (Except.ok u : Except Error Unit) = .error e := by simp
    rw [or_iff_right hnot, ← hwindows, throws_ok, ok_bind]
    have hoffsets : (forM (List.range (l.numRounds + 1)) fun r => do
        let _ ← l.roundStartTraced r) = (.ok () : Except (Stop Error) Unit) := by
      rw [forM_eq_ok]
      intro r _
      rw [RoundLayout.roundStartTraced_eq]
      rfl
    rw [hoffsets, ok_bind, RoundLayout.roundStartTraced_eq, ok_bind, hoffset]
    split
    · rw [throwIf_of_not (not_not.mpr rfl)]
      rfl
    · rfl

end Safety

/-! ## Two rounds -/

/-- A model of two layers, as a decoder gets it. -/
def twoRoundInit : MaterializedInit where
  H := twoRoundH
  errorRates := [1 / 10, 1 / 10, 1 / 10]
  errorIds := none
  observableModel := false
  chunked := false
  csc := rfl
  rates := fun _ => rfl
  ids := nofun

/-- The step is 0: the number of windows is counted before that is refused. -/
theorem not_construct_safe :
    ¬ ∀ (inner : BitMatrix → List ℚ → Option (List Nat) → Except Error Unit) (init : MaterializedInit)
      (request : DecoderOutputRequest) (params : SlidingWindowParams),
      Safe (constructTraced inner init request params) := by
  intro h
  apply h (fun _ _ _ => .ok ()) twoRoundInit {} { oneRoundWindows with stepSize := 0 } .divisionByZero
  unfold constructTraced
  rw [throwIf_of_not (by decide), throwIf_of_not (by decide), throwIf_of_not (by decide)]
  dsimp only
  rw [RoundLayout.layersTraced_eq (by decide)]
  rfl

end CudaqQec
