import CudaqQec.Dem.BitTensor
import CudaqQec.Lib.Rounding
import CudaqQec.Sparse.Product

/-!
# Detector error models from CSS matrices

`dem_from_css_matrices`: the model of `num_rounds` rounds of syndrome measurement on a CSS code, one
column for each fault that has a rate. The columns of a round flip its detectors and those of the next
round.

* `Realizes`: the documented model, by the syndromes that a set of faults causes.
* `realizes_iff`: the result realizes it exactly when its dimensions and its sizes fit into a `size_t`.
-/

namespace CudaqQec.Css

open Checked SparseBinaryMatrix Toggle

/-! ## Inputs -/

structure CssCodeMatrices where
  hz : SparseBinaryMatrix
  hx : SparseBinaryMatrix
  lz : SparseBinaryMatrix
  lx : SparseBinaryMatrix

structure CssNoiseParams where
  px : ℚ := 0
  py : ℚ := 0
  pz : ℚ := 0
  pm : ℚ := 0
  pxPerQubit : List ℚ := []
  pyPerQubit : List ℚ := []
  pzPerQubit : List ℚ := []
  pmPerCheck : List ℚ := []

/-- `std::to_string` of a double, which prints six decimals. -/
def toStringFixed (p : ℚ) : String :=
  let micros := (Rounding.halfEven (|p| * 10 ^ 6)).toNat
  let decimals := toString (micros % 10 ^ 6)
  (if p < 0 then "-" else "") ++ toString (micros / 10 ^ 6) ++ "." ++
    "".pushn '0' (6 - decimals.length) ++ decimals

def resolveNumQubits (code : CssCodeMatrices) : Nat :=
  if 0 < code.hz.numCols then code.hz.numCols
  else if 0 < code.hx.numCols then code.hx.numCols
  else if 0 < code.lz.numCols then code.lz.numCols
  else if 0 < code.lx.numCols then code.lx.numCols
  else 0

def checkNumCols (m : SparseBinaryMatrix) (n : Nat) (label : String) : Except Error Unit :=
  throwIf (m.numRows ≠ 0 ∧ m.numCols ≠ n) (.invalidArgument (label ++ " num_cols (" ++
    toString m.numCols ++ ") does not match n_qubits (" ++ toString n ++ ")"))

def checkRateVectorSize (rates : List ℚ) (n : Nat) (label sizeLabel : String) : Except Error Unit :=
  throwIf (rates ≠ [] ∧ rates.length ≠ n) (.invalidArgument (label ++ " has " ++
    toString rates.length ++ " entries but " ++ sizeLabel ++ "=" ++ toString n))

def checkPerQubitSize (perQubit : List ℚ) (n : Nat) (label : String) : Except Error Unit :=
  checkRateVectorSize perQubit n label "n_qubits"

def checkProbability (p : ℚ) (label : String) : Except Error Unit :=
  throwIf (¬ (0 ≤ p ∧ p ≤ 1)) (.invalidArgument (label ++ " must be a probability in [0, 1]," ++
    " got " ++ toStringFixed p))

def checkEach (rates : List ℚ) (label : String) : Except Error Unit :=
  forM rates.zipIdx fun p => checkProbability p.1 (label ++ "[" ++ toString p.2 ++ "]")

def validateNoiseRates (noise : CssNoiseParams) : Except Error Unit := do
  checkProbability noise.px "px"
  checkProbability noise.py "py"
  checkProbability noise.pz "pz"
  checkProbability noise.pm "pm"
  checkEach noise.pxPerQubit "px_per_qubit"
  checkEach noise.pyPerQubit "py_per_qubit"
  checkEach noise.pzPerQubit "pz_per_qubit"
  checkEach noise.pmPerCheck "pm_per_check"

def checkZeroRows (m : SparseBinaryMatrix) (name : String) : Except Error Unit :=
  throwIf (0 < m.numRows) (.invalidArgument (name ++ " has " ++ toString m.numRows ++
    " rows but zero columns; all matrices must be empty when num_qubits cannot be determined"))

/-- `cols.resize(n)` on the columns of a matrix. -/
def paddedNestedCsc (m : SparseBinaryMatrix) (n : Nat) : List (List Nat) :=
  m.toNestedCsc.take n ++ List.replicate (n - m.toNestedCsc.length) []

/-- The rate of an element: its own where the elements have their own. -/
def effectiveRate (uniform : ℚ) (rates : List ℚ) (i : Nat) : ℚ :=
  if rates = [] then uniform else rates.getD i 0

def qubitRate (uniform : ℚ) (perQubit : List ℚ) (q : Nat) : ℚ := effectiveRate uniform perQubit q

def checkRate (uniformPm : ℚ) (pmPerCheck : List ℚ) (k : Nat) : ℚ := effectiveRate uniformPm pmPerCheck k

def activeQubits (uniform : ℚ) (perQubit : List ℚ) (n : Nat) : List Nat :=
  (List.range n).filter fun q => 0 < qubitRate uniform perQubit q

def activeChecks (uniformPm : ℚ) (pmPerCheck : List ℚ) (nChecks : Nat) : List Nat :=
  (List.range nChecks).filter fun k => 0 < checkRate uniformPm pmPerCheck k

/-! ## Faults -/

inductive Mechanism where
  | x (q : Nat)
  | z (q : Nat)
  | y (q : Nat)
  | measurement (k : Nat)

section

variable (code : CssCodeMatrices) (noise : CssNoiseParams) (numRounds : Nat)

/-- `d`: the detectors of a round. -/
def numChecks : Nat := code.hz.numRows + code.hx.numRows

def numObservables : Nat := code.lz.numRows + code.lx.numRows

def hzCsc : List (List Nat) := paddedNestedCsc code.hz (resolveNumQubits code)
def hxCsc : List (List Nat) := paddedNestedCsc code.hx (resolveNumQubits code)
def lzCsc : List (List Nat) := paddedNestedCsc code.lz (resolveNumQubits code)
def lxCsc : List (List Nat) := paddedNestedCsc code.lx (resolveNumQubits code)

def xQubits : List Nat := activeQubits noise.px noise.pxPerQubit (resolveNumQubits code)
def zQubits : List Nat := activeQubits noise.pz noise.pzPerQubit (resolveNumQubits code)
def yQubits : List Nat := activeQubits noise.py noise.pyPerQubit (resolveNumQubits code)
def mChecks : List Nat := activeChecks noise.pm noise.pmPerCheck (numChecks code)

/-- The detector rows that a list of check rows flips, from round `r`: those of the round, and those of
the next if there is one. -/
def bandRows (r offset : Nat) (rows : List Nat) : List Nat :=
  rows.flatMap fun row =>
    size64 (size64 (r * numChecks code) + offset + row) ::
      if r + 1 < numRounds then [size64 (size64 ((r + 1) * numChecks code) + offset + row)] else []

def detectorRows (r : Nat) : Mechanism → List Nat
  | .x q => bandRows code numRounds r 0 ((hzCsc code).getD q [])
  | .z q => bandRows code numRounds r code.hz.numRows ((hxCsc code).getD q [])
  | .y q => bandRows code numRounds r 0 ((hzCsc code).getD q []) ++
      bandRows code numRounds r code.hz.numRows ((hxCsc code).getD q [])
  | .measurement k => bandRows code numRounds r 0 [k]

def observableRows : Mechanism → List Nat
  | .x q => (lzCsc code).getD q []
  | .z q => ((lxCsc code).getD q []).map (code.lz.numRows + ·)
  | .y q => (lzCsc code).getD q [] ++ ((lxCsc code).getD q []).map (code.lz.numRows + ·)
  | .measurement _ => []

def mechanismRate : Mechanism → ℚ
  | .x q => qubitRate noise.px noise.pxPerQubit q
  | .z q => qubitRate noise.pz noise.pzPerQubit q
  | .y q => qubitRate noise.py noise.pyPerQubit q
  | .measurement k => checkRate noise.pm noise.pmPerCheck k

end

/-! ## The construction -/

/-- The `detector_error_model` that is filled. -/
structure Dem where
  detectorErrorMatrix : BitTensor
  observablesFlipsMatrix : BitTensor
  errorRates : List ℚ
  deriving DecidableEq

/-- The model and the next column. -/
structure Filling where
  dem : Dem
  col : Nat

section

variable (code : CssCodeMatrices) (noise : CssNoiseParams) (numRounds : Nat)

def addFault (r : Nat) (s : Filling) (m : Mechanism) : Except Fault Filling := do
  let detectors ← s.dem.detectorErrorMatrix.flipColumn (detectorRows code numRounds r m) s.col
  let observables ← s.dem.observablesFlipsMatrix.flipColumn (observableRows code m) s.col
  return ⟨⟨detectors, observables, s.dem.errorRates ++ [mechanismRate noise m]⟩, size64 (s.col + 1)⟩

def addRound (s : Filling) (r : Nat) : Except Fault Filling := do
  let s ← (xQubits code noise).foldlM (fun s q => addFault code noise numRounds r s (.x q)) s
  let s ← (zQubits code noise).foldlM (fun s q => addFault code noise numRounds r s (.z q)) s
  let s ← (yQubits code noise).foldlM (fun s q => addFault code noise numRounds r s (.y q)) s
  (mChecks code noise).foldlM (fun s k => addFault code noise numRounds r s (.measurement k)) s

def perRound : Nat :=
  (xQubits code noise).length + (zQubits code noise).length + (yQubits code noise).length +
    (mChecks code noise).length

/-- The tensors before the first column. -/
def Dem.start : Dem where
  detectorErrorMatrix := .alloc
    [size64 (numRounds * numChecks code), size64 (numRounds * perRound code noise)]
  observablesFlipsMatrix := .alloc [numObservables code, size64 (numRounds * perRound code noise)]
  errorRates := []

def demWithoutQubits : Except Error Dem := do
  checkZeroRows code.hz "hz"
  checkZeroRows code.hx "hx"
  checkZeroRows code.lz "lz"
  checkZeroRows code.lx "lx"
  throwIf (noise.pxPerQubit ≠ [] ∨ noise.pyPerQubit ≠ [] ∨ noise.pzPerQubit ≠ []) (.invalidArgument
    "per-qubit noise vectors are non-empty but all code matrices have zero columns")
  return ⟨.empty, .empty, []⟩

/-- The checks on the sizes of the inputs, for a code of `n` qubits. -/
def checkSizes (n : Nat) : Except Error Unit := do
  checkNumCols code.hz n "hz"
  checkNumCols code.hx n "hx"
  checkNumCols code.lz n "lz"
  checkNumCols code.lx n "lx"
  checkPerQubitSize noise.pxPerQubit n "px_per_qubit"
  checkPerQubitSize noise.pyPerQubit n "py_per_qubit"
  checkPerQubitSize noise.pzPerQubit n "pz_per_qubit"
  checkRateVectorSize noise.pmPerCheck (numChecks code) "pm_per_check" "n_checks"

/-- `dem_from_css_matrices`, with memory for everything that a `size_t` can measure. -/
def demFromCssMatrices : Except Fault Dem := do
  thrown (throwIf (numRounds = 0) (.invalidArgument "num_rounds must be >= 1"))
  thrown (validateNoiseRates noise)
  if resolveNumQubits code = 0 then thrown (demWithoutQubits code noise)
  else do
    thrown (checkSizes code noise (resolveNumQubits code))
    let nErrors := size64 (numRounds * perRound code noise)
    thrown (throwIf (2 ^ 60 ≤ nErrors) (.lengthError "vector::reserve"))
    if nErrors ≠ 0 then do
      let s ← (List.range numRounds).foldlM (addRound code noise numRounds) ⟨.start code noise numRounds, 0⟩
      return s.dem
    else return .start code noise numRounds

end

/-! ## The documented model -/

section

variable (code : CssCodeMatrices) (noise : CssNoiseParams) (numRounds : Nat)

def activeMechanisms : List Mechanism :=
  (xQubits code noise).map .x ++ (zQubits code noise).map .z ++ (yQubits code noise).map .y ++
    (mChecks code noise).map .measurement

def faultColumns : List (Nat × Mechanism) :=
  (List.range numRounds).flatMap fun r => (activeMechanisms code noise).map fun m => (r, m)

def flipsCheck (i : Nat) : Mechanism → Bool
  | .x q => code.hz.entry i q
  | .z q => code.hz.numRows ≤ i && code.hx.entry (i - code.hz.numRows) q
  | .y q => code.hz.entry i q ^^ (code.hz.numRows ≤ i && code.hx.entry (i - code.hz.numRows) q)
  | .measurement k => i = k

def flipsObservable (o : Nat) : Mechanism → Bool
  | .x q => code.lz.entry o q
  | .z q => code.lz.numRows ≤ o && code.lx.entry (o - code.lz.numRows) q
  | .y q => code.lz.entry o q ^^ (code.lz.numRows ≤ o && code.lx.entry (o - code.lz.numRows) q)
  | .measurement _ => false

def happened (faults : List Bool) : List (Nat × Mechanism) :=
  BitTensor.selected (faultColumns code noise numRounds) faults

def syndrome (faults : List Bool) (r i : Nat) : Bool :=
  decide (((happened code noise numRounds faults).countP fun c => c.1 = r && flipsCheck code i c.2) % 2 = 1)

def syndromeBefore (faults : List Bool) (r i : Nat) : Bool :=
  if r = 0 then false else syndrome code noise numRounds faults (r - 1) i

def syndromeDifferences (faults : List Bool) : List Bool :=
  (List.range numRounds).flatMap fun r => (List.range (numChecks code)).map fun i =>
    syndrome code noise numRounds faults r i ^^ syndromeBefore code noise numRounds faults r i

def observableFlips (faults : List Bool) : List Bool :=
  (List.range (numObservables code)).map fun o =>
    decide (((happened code noise numRounds faults).countP fun c => flipsObservable code o c.2) % 2 = 1)

/-- The documented model. -/
structure Realizes (dem : Dem) : Prop where
  detectors : ∀ faults : List Bool, faults.length = (faultColumns code noise numRounds).length →
    dem.detectorErrorMatrix.times faults = .ok (syndromeDifferences code noise numRounds faults)
  observables : ∀ faults : List Bool, faults.length = (faultColumns code noise numRounds).length →
    dem.observablesFlipsMatrix.times faults = .ok (observableFlips code noise numRounds faults)
  rates : dem.errorRates = (faultColumns code noise numRounds).map fun c => mechanismRate noise c.2

/-- The dimensions and the sizes of both matrices fit into a `size_t`. -/
structure Fits : Prop where
  rows : numRounds * numChecks code < 2 ^ 64
  columns : numRounds * perRound code noise < 2 ^ 64
  detectors : numRounds * numChecks code * (numRounds * perRound code noise) < 2 ^ 64
  observables : numObservables code * (numRounds * perRound code noise) < 2 ^ 64

end

/-! ## The columns, one after the other -/

section

variable {code : CssCodeMatrices} {noise : CssNoiseParams} {numRounds : Nat}

def addFaults (code : CssCodeMatrices) (noise : CssNoiseParams) (numRounds : Nat) (s : Filling)
    (columns : List (Nat × Mechanism)) : Except Fault Filling :=
  columns.foldlM (fun s c => addFault code noise numRounds c.1 s c.2) s

theorem addRound_eq (s : Filling) (r : Nat) : addRound code noise numRounds s r =
    addFaults code noise numRounds s ((activeMechanisms code noise).map fun m => (r, m)) := by
  simp only [addRound, addFaults, activeMechanisms, List.map_append, List.foldlM_append, List.map_map,
    List.foldlM_map, bind_assoc, Function.comp_apply]

theorem rounds_eq (s : Filling) : (List.range numRounds).foldlM (addRound code noise numRounds) s =
    addFaults code noise numRounds s (faultColumns code noise numRounds) := by
  rw [faultColumns]
  induction List.range numRounds generalizing s with
  | nil => rfl
  | cons r rounds ih =>
    rw [List.foldlM_cons, List.flatMap_cons, addFaults, List.foldlM_append, addRound_eq]
    exact bind_congr fun s => ih s

theorem length_faultColumns :
    (faultColumns code noise numRounds).length = numRounds * perRound code noise := by
  simp [faultColumns, activeMechanisms, perRound, Nat.add_assoc]

theorem addFault_eq_ok {r : Nat} {s s' : Filling} {m : Mechanism}
    (h : addFault code noise numRounds r s m = .ok s') :
    s'.dem.detectorErrorMatrix = { s.dem.detectorErrorMatrix with
      data := flipAll s.dem.detectorErrorMatrix.data ((detectorRows code numRounds r m).map fun i =>
        i * s.dem.detectorErrorMatrix.cols + s.col) } ∧
    s'.dem.observablesFlipsMatrix = { s.dem.observablesFlipsMatrix with
      data := flipAll s.dem.observablesFlipsMatrix.data ((observableRows code m).map fun i =>
        i * s.dem.observablesFlipsMatrix.cols + s.col) } ∧
    s'.dem.errorRates = s.dem.errorRates ++ [mechanismRate noise m] ∧ s'.col = size64 (s.col + 1) := by
  simp only [addFault, bind_eq_ok] at h
  obtain ⟨detectors, hdet, observables, hobs, hok⟩ := h
  cases hok
  exact ⟨BitTensor.flipColumn_eq_ok hdet, BitTensor.flipColumn_eq_ok hobs, rfl, rfl⟩

/-- Columns change neither a shape nor what is allocated. -/
theorem addFaults_shape {columns : List (Nat × Mechanism)} {s s' : Filling}
    (h : addFaults code noise numRounds s columns = .ok s') :
    (s'.dem.detectorErrorMatrix.shape = s.dem.detectorErrorMatrix.shape ∧
      s'.dem.detectorErrorMatrix.data.length = s.dem.detectorErrorMatrix.data.length) ∧
    s'.dem.observablesFlipsMatrix.shape = s.dem.observablesFlipsMatrix.shape ∧
      s'.dem.observablesFlipsMatrix.data.length = s.dem.observablesFlipsMatrix.data.length := by
  induction columns generalizing s with
  | nil =>
    cases h
    exact ⟨⟨rfl, rfl⟩, rfl, rfl⟩
  | cons c columns ih =>
    rw [addFaults, List.foldlM_cons, bind_eq_ok] at h
    obtain ⟨s₁, hfault, hrest⟩ := h
    obtain ⟨hdet, hobs, -, -⟩ := addFault_eq_ok hfault
    have hall := ih hrest
    simpa [hdet, hobs] using hall

/-- What the columns leave, as long as their number does not wrap around. -/
theorem addFaults_eq_ok {columns : List (Nat × Mechanism)} {s s' : Filling}
    (h : addFaults code noise numRounds s columns = .ok s') (hcol : s.col + columns.length < 2 ^ 64) :
    s'.dem.detectorErrorMatrix = { s.dem.detectorErrorMatrix with
      data := flipAll s.dem.detectorErrorMatrix.data
        (BitTensor.positions (fun c => detectorRows code numRounds c.1 c.2)
          s.dem.detectorErrorMatrix.cols s.col columns) } ∧
    s'.dem.observablesFlipsMatrix = { s.dem.observablesFlipsMatrix with
      data := flipAll s.dem.observablesFlipsMatrix.data
        (BitTensor.positions (fun c => observableRows code c.2)
          s.dem.observablesFlipsMatrix.cols s.col columns) } ∧
    s'.dem.errorRates = s.dem.errorRates ++ columns.map fun c => mechanismRate noise c.2 := by
  induction columns generalizing s with
  | nil =>
    cases h
    simp [BitTensor.positions, flipAll]
  | cons c columns ih =>
    rw [addFaults, List.foldlM_cons, bind_eq_ok] at h
    obtain ⟨s₁, hfault, hrest⟩ := h
    obtain ⟨hdet, hobs, hrates, hnext⟩ := addFault_eq_ok hfault
    rw [List.length_cons] at hcol
    rw [size64_of_lt (by omega)] at hnext
    have hall := ih hrest (by omega)
    simp only [hdet, hobs, hrates, hnext, ← flipAll_append] at hall
    simpa [BitTensor.positions, List.zipIdx_cons, BitTensor.cols] using hall

/-! ## The rows of a fault -/

def checkRows (code : CssCodeMatrices) : Mechanism → List Nat
  | .x q => (hzCsc code).getD q []
  | .z q => ((hxCsc code).getD q []).map (code.hz.numRows + ·)
  | .y q => (hzCsc code).getD q [] ++ ((hxCsc code).getD q []).map (code.hz.numRows + ·)
  | .measurement k => [k]

/-- A fault that has a column. -/
def Mechanism.Named (code : CssCodeMatrices) : Mechanism → Prop
  | .x q | .z q | .y q => q < resolveNumQubits code
  | .measurement k => k < numChecks code

theorem named_of_mem {m : Mechanism} (h : m ∈ activeMechanisms code noise) : m.Named code := by
  simp only [activeMechanisms, List.mem_append, List.mem_map, xQubits, zQubits, yQubits, mChecks,
    activeQubits, activeChecks, List.mem_filter, List.mem_range] at h
  rcases h with ((⟨q, hq, rfl⟩ | ⟨q, hq, rfl⟩) | ⟨q, hq, rfl⟩) | ⟨k, hk, rfl⟩
  · exact hq.1
  · exact hq.1
  · exact hq.1
  · exact hk.1

theorem getD_paddedNestedCsc (m : SparseBinaryMatrix) {n q : Nat} (hq : q < n) :
    (paddedNestedCsc m n).getD q [] = m.toNestedCsc.getD q [] := by
  rw [paddedNestedCsc, getD_append_ite, List.length_take, getD_replicate_self]
  split
  next h => rw [List.getD_eq_getElem?_getD, List.getElem?_take_of_lt hq, ← List.getD_eq_getElem?_getD]
  next h => rw [getD_of_length_le (by omega)]

theorem mem_padded_lt {m : SparseBinaryMatrix} {n q row : Nat} (hq : q < n)
    (h : row ∈ (paddedNestedCsc m n).getD q []) : row < m.numRows := by
  rw [getD_paddedNestedCsc m hq] at h
  exact m.mem_toNestedCsc_lt (getD_mem h) h

/-- The parity of how often a padded column lists a row is the entry. -/
theorem odd_count_padded (m : SparseBinaryMatrix) {n q : Nat} (hq : q < n) (row : Nat) :
    decide (((paddedNestedCsc m n).getD q []).count row % 2 = 1) = m.entry row q := by
  rw [getD_paddedNestedCsc m hq, count_toNestedCsc]
  rfl

theorem count_map_add (offset i : Nat) (rows : List Nat) :
    (rows.map (offset + ·)).count i = if offset ≤ i then rows.count (i - offset) else 0 := by
  split
  next h =>
    obtain ⟨k, rfl⟩ := Nat.exists_eq_add_of_le h
    rw [Nat.add_sub_cancel_left, List.count_map_of_injective _ _ (add_right_injective offset)]
  next h =>
    rw [List.count_eq_zero, List.mem_map]
    rintro ⟨row, -, rfl⟩
    omega

theorem odd_count_shifted (m : SparseBinaryMatrix) {n q : Nat} (hq : q < n) (offset i : Nat) :
    decide ((((paddedNestedCsc m n).getD q []).map (offset + ·)).count i % 2 = 1) =
      (offset ≤ i && m.entry (i - offset) q) := by
  rw [count_map_add]
  by_cases h : offset ≤ i
  · rw [if_pos h, odd_count_padded m hq]
    simp [h]
  · simp [h]

theorem odd_add (a b : Nat) :
    decide ((a + b) % 2 = 1) = (decide (a % 2 = 1) ^^ decide (b % 2 = 1)) := by
  rcases Nat.mod_two_eq_zero_or_one a with ha | ha <;>
    rcases Nat.mod_two_eq_zero_or_one b with hb | hb <;> simp [Nat.add_mod, ha, hb]

/-- A fault names a check an odd number of times when it flips it. -/
theorem odd_count_checkRows {m : Mechanism} (h : m.Named code) (i : Nat) :
    decide ((checkRows code m).count i % 2 = 1) = flipsCheck code i m := by
  cases m with
  | x q => exact odd_count_padded _ h i
  | z q => exact odd_count_shifted _ h _ i
  | y q =>
    rw [checkRows, List.count_append, odd_add]
    exact congrArg₂ xor (odd_count_padded _ h i) (odd_count_shifted _ h _ i)
  | measurement k =>
    rw [checkRows, flipsCheck, List.count_singleton]
    by_cases hk : k = i
    · simp [hk]
    · simp [hk, Ne.symm hk]

theorem odd_count_observableRows {m : Mechanism} (h : m.Named code) (o : Nat) :
    decide ((observableRows code m).count o % 2 = 1) = flipsObservable code o m := by
  cases m with
  | x q => exact odd_count_padded _ h o
  | z q => exact odd_count_shifted _ h _ o
  | y q =>
    rw [observableRows, List.count_append, odd_add]
    exact congrArg₂ xor (odd_count_padded _ h o) (odd_count_shifted _ h _ o)
  | measurement k => rfl

/-- A list of check rows flips the detectors of its round and of the next. -/
theorem count_bandRows (hfits : numRounds * numChecks code < 2 ^ 64) {r r' i offset : Nat}
    {rows : List Nat} (hr : r < numRounds) (hr' : r' < numRounds) (hi : i < numChecks code)
    (hrows : ∀ row ∈ rows, offset + row < numChecks code) :
    (bandRows code numRounds r offset rows).count (r' * numChecks code + i) =
      if r = r' ∨ r + 1 = r' then (rows.map (offset + ·)).count i else 0 := by
  -- no row number of the construction wraps around
  have hsize : ∀ k row, k < numRounds → offset + row < numChecks code →
      size64 (size64 (k * numChecks code) + offset + row) = k * numChecks code + (offset + row) := by
    intro k row hk hrow
    have hle := Nat.mul_le_mul_right (numChecks code) (show k + 1 ≤ numRounds from hk)
    rw [Nat.succ_mul] at hle
    rw [size64_of_lt (show k * numChecks code < 2 ^ 64 by omega), size64_of_lt (by omega)]
    omega
  induction rows with
  | nil => simp [bandRows]
  | cons row rows ih =>
    obtain ⟨hrow, hrest⟩ := List.forall_mem_cons.mp hrows
    have hhead : ∀ k, k < numRounds →
        (size64 (size64 (k * numChecks code) + offset + row) == r' * numChecks code + i) =
          decide (k = r' ∧ offset + row = i) := by
      intro k hk
      rw [hsize k row hk hrow, beq_eq_decide]
      exact decide_eq_decide.mpr (Tensor.position_inj hrow hi)
    have hih := ih hrest
    rw [bandRows] at hih
    rw [bandRows, List.flatMap_cons, List.count_append, hih, List.count_cons, hhead r hr,
      List.map_cons, List.count_cons]
    -- the last round has no next one to flip
    by_cases hnext : r + 1 < numRounds
    · rw [if_pos hnext, List.count_singleton, hhead (r + 1) hnext]
      by_cases hrow : offset + row = i
      · rcases Nat.lt_trichotomy r r' with hlt | heq | hgt
        · by_cases hadj : r + 1 = r'
          · simp [hrow, hadj, show r ≠ r' by omega, Nat.add_comm]
          · simp [hrow, hadj, show r ≠ r' by omega]
        · simp [hrow, heq, Nat.add_comm]
        · simp [show r ≠ r' by omega, show r + 1 ≠ r' by omega]
      · simp [hrow]
    · rw [if_neg hnext, List.count_nil]
      have hlast : r + 1 ≠ r' := by omega
      by_cases hrow : offset + row = i
      · by_cases heq : r = r'
        · simp [hrow, heq, Nat.add_comm]
        · simp [heq, hlast]
      · simp [hrow]

theorem count_detectorRows (hfits : numRounds * numChecks code < 2 ^ 64) {r r' i : Nat} {m : Mechanism}
    (hm : m.Named code) (hr : r < numRounds) (hr' : r' < numRounds) (hi : i < numChecks code) :
    (detectorRows code numRounds r m).count (r' * numChecks code + i) =
      if r = r' ∨ r + 1 = r' then (checkRows code m).count i else 0 := by
  have hz : ∀ q < resolveNumQubits code, ∀ row ∈ (hzCsc code).getD q [], 0 + row < numChecks code := by
    intro q hq row hrow
    have := mem_padded_lt hq hrow
    rw [numChecks]
    omega
  have hx : ∀ q < resolveNumQubits code, ∀ row ∈ (hxCsc code).getD q [],
      code.hz.numRows + row < numChecks code := by
    intro q hq row hrow
    have := mem_padded_lt hq hrow
    rw [numChecks]
    omega
  cases m with
  | x q =>
    rw [detectorRows, count_bandRows hfits hr hr' hi (hz q hm)]
    simp [checkRows]
  | z q => exact count_bandRows hfits hr hr' hi (hx q hm)
  | y q =>
    rw [detectorRows, checkRows, List.count_append, List.count_append,
      count_bandRows hfits hr hr' hi (hz q hm), count_bandRows hfits hr hr' hi (hx q hm)]
    split <;> simp
  | measurement k =>
    have hk : ∀ row ∈ [k], 0 + row < numChecks code := by
      intro row hrow
      rw [List.mem_singleton.mp hrow, Nat.zero_add]
      exact hm
    rw [detectorRows, count_bandRows hfits hr hr' hi hk]
    simp [checkRows]

/-- A fault flips the detectors of its checks in its round and in the next. -/
theorem odd_count_detectorRows (hfits : numRounds * numChecks code < 2 ^ 64) {c : Nat × Mechanism}
    (hc : c ∈ faultColumns code noise numRounds) {r i : Nat} (hr : r < numRounds)
    (hi : i < numChecks code) :
    decide ((detectorRows code numRounds c.1 c.2).count (r * numChecks code + i) % 2 = 1) =
      ((c.1 = r && flipsCheck code i c.2) ^^ (c.1 + 1 = r && flipsCheck code i c.2)) := by
  simp only [faultColumns, List.mem_flatMap, List.mem_map, List.mem_range] at hc
  obtain ⟨k, hk, m, hm, rfl⟩ := hc
  have hnamed := named_of_mem hm
  rw [count_detectorRows hfits hnamed hk hr hi, ← odd_count_checkRows hnamed]
  by_cases heq : k = r
  · simp [heq]
  · by_cases hnext : k + 1 = r
    · simp [hnext, heq]
    · simp [hnext, heq]

/-! ## The products -/

/-- Rows in bands. -/
theorem map_range_mul {α : Type} (f : Nat → α) (m n : Nat) :
    (List.range (m * n)).map f =
      (List.range m).flatMap fun r => (List.range n).map fun i => f (r * n + i) := by
  induction m with
  | zero => simp
  | succ m ih =>
    rw [Nat.succ_mul, List.range_add, List.map_append, ih, List.range_succ, List.flatMap_append,
      List.flatMap_singleton, List.map_map]
    rfl

/-- What the selected faults do to a detector is the difference of two syndromes. -/
theorem detector_eq (hfits : numRounds * numChecks code < 2 ^ 64) (faults : List Bool) {r i : Nat}
    (hr : r < numRounds) (hi : i < numChecks code) :
    decide ((happened code noise numRounds faults).countP (fun c =>
      decide ((detectorRows code numRounds c.1 c.2).count (r * numChecks code + i) % 2 = 1)) % 2 = 1) =
      (syndrome code noise numRounds faults r i ^^ syndromeBefore code noise numRounds faults r i) := by
  have hxor : (happened code noise numRounds faults).countP (fun c =>
        decide ((detectorRows code numRounds c.1 c.2).count (r * numChecks code + i) % 2 = 1)) =
      (happened code noise numRounds faults).countP fun c =>
        (c.1 = r && flipsCheck code i c.2) ^^ (c.1 + 1 = r && flipsCheck code i c.2) := by
    apply List.countP_congr
    intro c hc
    rw [odd_count_detectorRows hfits (BitTensor.mem_of_mem_selected hc) hr hi]
  have hbefore : decide ((happened code noise numRounds faults).countP (fun c =>
        c.1 + 1 = r && flipsCheck code i c.2) % 2 = 1) =
      syndromeBefore code noise numRounds faults r i := by
    rw [syndromeBefore]
    cases r with
    | zero => simp
    | succ r => simp [syndrome]
  rw [hxor, odd_countP_xor, hbefore]
  rfl

theorem observable_eq (faults : List Bool) (o : Nat) :
    decide ((happened code noise numRounds faults).countP (fun c =>
      decide ((observableRows code c.2).count o % 2 = 1)) % 2 = 1) =
      decide ((happened code noise numRounds faults).countP (fun c => flipsObservable code o c.2) % 2 = 1) := by
  have hcount : (happened code noise numRounds faults).countP (fun c =>
        decide ((observableRows code c.2).count o % 2 = 1)) =
      (happened code noise numRounds faults).countP fun c => flipsObservable code o c.2 := by
    apply List.countP_congr
    intro c hc
    have hmem := BitTensor.mem_of_mem_selected hc
    simp only [faultColumns, List.mem_flatMap, List.mem_map] at hmem
    obtain ⟨r, -, m, hm, rfl⟩ := hmem
    rw [odd_count_observableRows (named_of_mem hm)]
  rw [hcount]

theorem length_syndromeDifferences (faults : List Bool) :
    (syndromeDifferences code noise numRounds faults).length = numRounds * numChecks code := by
  simp [syndromeDifferences]

variable {dem : Dem}

/-- The tensors of a code without columns yet, where nothing wraps around. -/
theorem Fits.start_eq (hfits : Fits code noise numRounds) :
    Dem.start code noise numRounds =
      ⟨⟨[numRounds * numChecks code, (faultColumns code noise numRounds).length], List.replicate
          (numRounds * numChecks code * (faultColumns code noise numRounds).length) false⟩,
        ⟨[numObservables code, (faultColumns code noise numRounds).length], List.replicate
          (numObservables code * (faultColumns code noise numRounds).length) false⟩, []⟩ := by
  rw [length_faultColumns, Dem.start, size64_of_lt hfits.rows, size64_of_lt hfits.columns]
  simp [BitTensor.alloc, size64_of_lt hfits.detectors, size64_of_lt hfits.observables]

/-- Filled columns realize the model. -/
theorem realizes_of_addFaults (hfits : Fits code noise numRounds) {s : Filling}
    (h : addFaults code noise numRounds ⟨.start code noise numRounds, 0⟩
      (faultColumns code noise numRounds) = .ok s) : Realizes code noise numRounds s.dem := by
  have hlen := @length_faultColumns code noise numRounds
  obtain ⟨hdet, hobs, hrates⟩ := addFaults_eq_ok h (by rw [Nat.zero_add, hlen]; exact hfits.columns)
  rw [hfits.start_eq] at hdet hobs hrates
  constructor
  · intro faults hfaults
    have hshape := congrArg BitTensor.shape hdet
    have hdata := congrArg BitTensor.data hdet
    rw [BitTensor.times_of_positions _ hshape hdata
      (Nat.le_refl _) hfaults, map_range_mul, syndromeDifferences]
    congr 1
    apply List.flatMap_congr
    intro r hr
    apply List.map_congr_left
    intro i hi
    exact detector_eq hfits.rows faults (List.mem_range.mp hr) (List.mem_range.mp hi)
  · intro faults hfaults
    have hshape := congrArg BitTensor.shape hobs
    have hdata := congrArg BitTensor.data hobs
    rw [BitTensor.times_of_positions _ hshape hdata
      (Nat.le_refl _) hfaults, observableFlips]
    congr 1
    apply List.map_congr_left
    intro o _
    exact observable_eq faults o
  · rw [hrates]
    rfl

/-- What a filled model shows of the sizes. -/
theorem fits_of_realizes (hdet : dem.detectorErrorMatrix.shape =
      [size64 (numRounds * numChecks code), size64 (numRounds * perRound code noise)])
    (hdetData : dem.detectorErrorMatrix.data.length =
      size64 (size64 (numRounds * numChecks code) * size64 (numRounds * perRound code noise)))
    (hobs : dem.observablesFlipsMatrix.shape =
      [numObservables code, size64 (numRounds * perRound code noise)])
    (hobsData : dem.observablesFlipsMatrix.data.length =
      size64 (numObservables code * size64 (numRounds * perRound code noise)))
    (h : Realizes code noise numRounds dem) : Fits code noise numRounds := by
  have hlt : ∀ n, size64 n < 2 ^ 64 := fun n => Nat.mod_lt _ (by decide)
  have hlen := @length_faultColumns code noise numRounds
  obtain ⟨hcols, hdetSize, hproduct⟩ := (BitTensor.times_eq_ok_iff hdet).mp
    (h.detectors (List.replicate _ false) List.length_replicate)
  obtain ⟨-, hobsSize, -⟩ := (BitTensor.times_eq_ok_iff hobs).mp
    (h.observables (List.replicate _ false) List.length_replicate)
  rw [List.length_replicate, hlen] at hcols
  have hrows := congrArg List.length hproduct
  rw [List.length_map, List.length_range, length_syndromeDifferences] at hrows
  rw [hrows, hcols] at hdetSize hdetData
  rw [hcols] at hobsSize hobsData
  exact {
    rows := hrows ▸ hlt _
    columns := hcols ▸ hlt _
    detectors := lt_of_le_of_lt (hdetSize.trans_eq hdetData) (hlt _)
    observables := lt_of_le_of_lt (hobsSize.trans_eq hobsData) (hlt _) }

theorem start_shape : (Dem.start code noise numRounds).detectorErrorMatrix.shape =
      [size64 (numRounds * numChecks code), size64 (numRounds * perRound code noise)] ∧
    (Dem.start code noise numRounds).detectorErrorMatrix.data.length =
      size64 (size64 (numRounds * numChecks code) * size64 (numRounds * perRound code noise)) ∧
    (Dem.start code noise numRounds).observablesFlipsMatrix.shape =
      [numObservables code, size64 (numRounds * perRound code noise)] ∧
    (Dem.start code noise numRounds).observablesFlipsMatrix.data.length =
      size64 (numObservables code * size64 (numRounds * perRound code noise)) := by
  simp [Dem.start, BitTensor.alloc]

/-- The result on a code with qubits is the empty model, when there are no columns, or the filled one. -/
theorem demFromCssMatrices_eq_ok (hn : resolveNumQubits code ≠ 0)
    (h : demFromCssMatrices code noise numRounds = .ok dem) :
    (size64 (numRounds * perRound code noise) = 0 ∧ dem = .start code noise numRounds) ∨
      ∃ s, addFaults code noise numRounds ⟨.start code noise numRounds, 0⟩
        (faultColumns code noise numRounds) = .ok s ∧ dem = s.dem := by
  simp only [demFromCssMatrices, if_neg hn, bind_eq_ok] at h
  obtain ⟨_, -, _, -, _, -, _, -, hresult⟩ := h
  split at hresult
  · obtain ⟨s, hs, hok⟩ := bind_eq_ok.mp hresult
    cases hok
    rw [rounds_eq] at hs
    exact .inr ⟨s, hs, rfl⟩
  next hzero =>
    cases hresult
    exact .inl ⟨by simpa using hzero, rfl⟩

/-- The result realizes the documented model exactly when the dimensions and the sizes of both matrices
fit into a `size_t`. -/
theorem realizes_iff (hn : resolveNumQubits code ≠ 0)
    (h : demFromCssMatrices code noise numRounds = .ok dem) :
    Realizes code noise numRounds dem ↔ Fits code noise numRounds := by
  obtain ⟨hdet, hdetData, hobs, hobsData⟩ := @start_shape code noise numRounds
  rcases demFromCssMatrices_eq_ok hn h with ⟨hzero, rfl⟩ | ⟨s, hs, rfl⟩
  · refine ⟨fits_of_realizes hdet hdetData hobs hobsData, fun hfits => ?_⟩
    rw [size64_of_lt hfits.columns, ← length_faultColumns, List.length_eq_zero_iff] at hzero
    apply realizes_of_addFaults hfits (s := ⟨.start code noise numRounds, 0⟩)
    rw [hzero]
    rfl
  · obtain ⟨⟨hdet', hdetData'⟩, hobs', hobsData'⟩ := addFaults_shape hs
    refine ⟨fits_of_realizes (hdet'.trans hdet) (hdetData'.trans hdetData) (hobs'.trans hobs)
      (hobsData'.trans hobsData), fun hfits => realizes_of_addFaults hfits hs⟩

/-! ## A code of two qubits -/

/-- One Z check over two qubits, which are also the logical operator; a column lists a row three times. -/
def pairCode : CssCodeMatrices where
  hz := .ofGroups .csc 1 2 [[0], [0, 0, 0]]
  hx := .empty
  lz := .ofGroups .csr 1 2 [[0, 1]]
  lx := .empty

def pairNoise : CssNoiseParams where
  px := 1 / 8
  pm := 1 / 4

/-- Two rounds of it. -/
theorem realizes_iff_pair : ∃ dem, demFromCssMatrices pairCode pairNoise 2 = .ok dem ∧
    Realizes pairCode pairNoise 2 dem := by
  have hok : (demFromCssMatrices pairCode pairNoise 2).isOk = true := by decide +kernel
  obtain ⟨dem, hdem⟩ := exists_eq_ok hok
  have hfits : Fits pairCode pairNoise 2 :=
    ⟨by decide +kernel, by decide +kernel, by decide +kernel, by decide +kernel⟩
  exact ⟨dem, hdem, (realizes_iff (by decide +kernel) hdem).mpr hfits⟩

/-- With `2 ^ 63` rounds of two columns each the number of columns wraps around to zero. -/
theorem not_realizes : ∃ dem, resolveNumQubits pairCode ≠ 0 ∧
    demFromCssMatrices pairCode { px := 1 / 8 } (2 ^ 63) = .ok dem ∧
      ¬ Realizes pairCode { px := 1 / 8 } (2 ^ 63) dem := by
  refine ⟨.start pairCode { px := 1 / 8 } (2 ^ 63), by decide +kernel, by decide +kernel, fun h => ?_⟩
  obtain ⟨hdet, hdetData, hobs, hobsData⟩ := @start_shape pairCode { px := 1 / 8 } (2 ^ 63)
  have hfits := (fits_of_realizes hdet hdetData hobs hobsData h).columns
  revert hfits
  decide +kernel

end

end CudaqQec.Css
