import CudaqQec.SlidingWindow.Select
import Mathlib.Data.Rat.Defs

/-!
# Constructing a sliding window decoder

The constructor of `sliding_window`: the checks on its parameters, and for each window the first
column and the sub-matrix its inner decoder is made from. `Accepted` is what a decoder that was
constructed can rely on, in the terms the windows are described in.

* `SlidingWindow.create_accepted`: a constructed decoder is `Accepted`.
-/

namespace CudaqQec

open Checked

/-! ## What it is built from -/

structure DecoderOutputRequest where
  primary : DecodeResultType := .errors
  auxiliaryOutputs : Bool := false
  deriving DecidableEq, Repr

/-- What the decoder reads of its `decoder_init`: the rows of the observable map are the error columns
that flip each observable. -/
structure SlidingWindowInputs where
  H : SparseBinaryMatrix
  errorRates : List ℚ
  observableFlips : Option (List (List Nat))

/-- The parameter map, with the defaults of the class. -/
structure SlidingWindowParams where
  windowSize : Nat := 1
  stepSize : Nat := 1
  numSyndromesPerRound : Nat := 0
  numBoundarySyndromes : Nat := 0
  straddleStartRound : Bool := false
  straddleEndRound : Bool := true
  innerDecoderName : String := ""
  deriving DecidableEq, Repr

/-- A constructed decoder. For each window: the first column of `H` it reads, and the matrix its inner
decoder has. -/
structure SlidingWindow where
  H : SparseBinaryMatrix
  layout : RoundLayout
  windowSize : Nat
  stepSize : Nat
  straddleStartRound : Bool
  straddleEndRound : Bool
  numWindows : Nat
  firstColumns : List Nat
  innerMatrices : List BitMatrix
  observableFlips : Option (List (List Nat))

/-! ## The checks, and the windows -/

def validateInputs (H : SparseBinaryMatrix) (layout : RoundLayout) (windowSize stepSize : Nat)
    (innerDecoderName : String) (errorRates : List ℚ) : Except Error Unit := do
  throwIf (layout.S < layout.B) (.invalidArgument ("sliding_window constructor: " ++
    "num_boundary_syndromes must be <= num_syndromes_per_round"))
  throwIf (H.numRows < size64 (2 * layout.S)) (.invalidArgument ("sliding_window constructor: " ++
    "num_rows must be >= 2 * num_syndromes_per_round; memory circuits always produce at least a " ++
    "lock-in and a read-out round"))
  throwIf (H.numRows < size64 (2 * layout.B) ∨ (H.numRows - size64 (2 * layout.B)) % layout.S ≠ 0)
    (.invalidArgument ("sliding_window constructor: number of PCM rows is inconsistent with the " ++
      "given num_syndromes_per_round and num_boundary_syndromes"))
  throwIf (windowSize < 1 ∨ layout.numRounds < windowSize) (.invalidArgument
    ("sliding_window constructor: window_size (" ++ toString windowSize ++ ") must be between 1 " ++
      "and the number of detector layers (" ++ toString layout.numRounds ++ ")"))
  throwIf (stepSize < 1 ∨ windowSize < stepSize) (.invalidArgument
    ("sliding_window constructor: step_size (" ++ toString stepSize ++ ") must be between 1 and " ++
      "window_size (" ++ toString windowSize ++ ")"))
  throwIf ((layout.numRounds - windowSize) % stepSize ≠ 0) (.invalidArgument
    ("sliding_window constructor: detector layers - window_size (" ++
      toString (layout.numRounds - windowSize) ++ ") must be divisible by step_size (" ++
      toString stepSize ++ ")"))
  throwIf (layout.S = 0) (.invalidArgument
    "sliding_window constructor: num_syndromes_per_round must be non-zero")
  throwIf (innerDecoderName = "") (.invalidArgument
    "sliding_window constructor: inner_decoder_name must be non-empty")
  throwIf (errorRates = []) (.invalidArgument
    "sliding_window constructor: error_rate_vec must be non-empty")
  let sorted ← pcmIsSorted H.toNestedCsc (u32 layout.S) (u32 layout.B)
  throwIf (sorted = false) (.invalidArgument
    "sliding_window constructor: PCM must be sorted. See cudaq::qec::simplify_pcm.")

/-- The first column and the matrix of window `w`. -/
def windowPcm (H : SparseBinaryMatrix) (layout : RoundLayout) (windowSize stepSize : Nat)
    (straddleStartRound straddleEndRound : Bool) (w : Nat) : Except Error (Nat × BitMatrix) := do
  let startRound := w * stepSize
  let endRound := startRound + windowSize - 1
  let (hRound, firstColumn, lastColumn) ← getPcmForRounds H (u32 layout.S) (u32 startRound)
    (u32 endRound) straddleStartRound straddleEndRound (u32 layout.B)
  let numColumns := u32 (lastColumn + 2 ^ 32 - firstColumn + 1)
  throwIf (numColumns ≠ hRound.cols) (.invalidArgument
    ("last_column - first_column + 1 (" ++ toString numColumns ++
      ") must be equal to the number of columns in H_round (" ++ toString hRound.cols ++ ")"))
  return (firstColumn, hRound)

/-- The constructor. -/
def SlidingWindow.create (inputs : SlidingWindowInputs) (request : DecoderOutputRequest)
    (params : SlidingWindowParams) : Except Error SlidingWindow := do
  throwIf (request.auxiliaryOutputs = true) (.invalidArgument
    "sliding_window does not produce auxiliary outputs")
  throwIf (request.primary = .observables ∧ inputs.observableFlips = none) (.invalidArgument
    ("sliding_window was constructed for observable output but its model supplies no " ++
      "observable mapping"))
  let H := inputs.H.canonicalize.toCsc
  let windowSize := size64 params.windowSize
  let stepSize := size64 params.stepSize
  let S := size64 params.numSyndromesPerRound
  throwIf (S = 0) (.invalidArgument
    "sliding_window constructor: num_syndromes_per_round must be non-zero")
  -- a boundary width of 0 is the uniform layout
  let B := if size64 params.numBoundarySyndromes = 0 then S else size64 params.numBoundarySyndromes
  let layout : RoundLayout := ⟨S, B, H.numRows⟩
  let numWindows := (layout.numRounds - windowSize) / stepSize + 1
  validateInputs H layout windowSize stepSize params.innerDecoderName inputs.errorRates
  let windows ← (List.range numWindows).mapM
    (windowPcm H layout windowSize stepSize params.straddleStartRound params.straddleEndRound)
  return {
    H := H
    layout := layout
    windowSize := windowSize
    stepSize := stepSize
    straddleStartRound := params.straddleStartRound
    straddleEndRound := params.straddleEndRound
    numWindows := numWindows
    firstColumns := windows.map Prod.fst
    innerMatrices := windows.map Prod.snd
    observableFlips := if request.primary = .observables then inputs.observableFlips else none }

namespace SlidingWindow

variable (d : SlidingWindow)

/-! ## The window of a column -/

def column (c : Nat) : List Nat := d.H.toNestedCsc.getD c []

def firstRound (c : Nat) : Nat := d.layout.rowToRound ((d.column c).headD 0)

def lastRound (c : Nat) : Nat := d.layout.rowToRound ((d.column c).getLastD 0)

def firstColumn (w : Nat) : Nat := d.firstColumns.getD w 0

def innerMatrix (w : Nat) : BitMatrix := d.innerMatrices.getD w (.zero 0 0)

def numColumns (w : Nat) : Nat := (d.innerMatrix w).cols

def startRound (w : Nat) : Nat := w * d.stepSize

def endRound (w : Nat) : Nat := w * d.stepSize + d.windowSize - 1

/-- Whether window `w` takes in column `c`. -/
def Selects (w c : Nat) : Prop :=
  selectsColumn d.layout (d.startRound w) (d.endRound w) d.straddleStartRound d.straddleEndRound
    (d.column c)

instance (w c : Nat) : Decidable (d.Selects w c) := by
  unfold Selects
  infer_instance

theorem selects_iff {w c : Nat} : d.Selects w c ↔ d.column c ≠ [] ∧
    selectsSpan (d.startRound w) (d.endRound w) d.straddleStartRound d.straddleEndRound
      (d.firstRound c) (d.lastRound c) := Iff.rfl

/-- What the inner decoder of window `w` was made from: the columns the window selects, which are
those from `firstColumn w` on, cut to the rows of its layers. -/
structure WindowAccepted (w : Nat) : Prop where
  columns_pos : 0 < d.numColumns w
  columns_le : d.firstColumn w + d.numColumns w ≤ d.H.numCols
  selects : ∀ c < d.H.numCols,
    (d.Selects w c ↔ d.firstColumn w ≤ c ∧ c < d.firstColumn w + d.numColumns w)
  rows : (d.innerMatrix w).rows =
    d.layout.roundStart (d.startRound w + d.windowSize) - d.layout.roundStart (d.startRound w)
  bits : ∀ r < (d.innerMatrix w).rows, ∀ c < d.numColumns w, (d.innerMatrix w).get r c =
    decide (d.layout.roundStart (d.startRound w) + r ∈ d.column (d.firstColumn w + c))

/-- What the constructor has checked. -/
structure Accepted : Prop where
  fits : d.layout.Fits
  numRows : d.H.numRows = d.layout.numRows
  csc : d.H.layout = .csc
  increasing : ∀ c, (d.column c).Pairwise (· < ·)
  spanLe : ∀ a b, a ≤ b → b < d.H.numCols → SpanLe d.H.toNestedCsc d.layout.rowToRound a b
  windowSize_pos : 1 ≤ d.windowSize
  stepSize_pos : 1 ≤ d.stepSize
  stepSize_le : d.stepSize ≤ d.windowSize
  windows_pos : 0 < d.numWindows
  /-- The last window ends with the last layer. -/
  rounds : d.layout.numRounds = d.windowSize + (d.numWindows - 1) * d.stepSize
  window : ∀ w < d.numWindows, d.WindowAccepted w

/-! ## A constructed decoder is accepted -/

/-- The checks on the widths leave no room for a product that wraps around: a boundary that wide
would have to be narrower than the interior and not narrower at once. -/
theorem fits_of_checks {S B n : Nat} (hS : S < 2 ^ 64) (hB : 0 < B) (hn : n < 2 ^ 32) (hle : B ≤ S)
    (htwo : size64 (2 * S) ≤ n) (hrows : size64 (2 * B) ≤ n) (hmod : (n - size64 (2 * B)) % S = 0)
    (hpos : 0 < (RoundLayout.mk S B n).numRounds) : (RoundLayout.mk S B n).Fits := by
  refine ⟨hB, hle, ?_, hn⟩
  have hwide : B < 2 ^ 63 := by
    by_contra hwide
    have hdiv : n / S = 0 := Nat.div_eq_of_lt (by omega)
    by_cases heq : B = S
    · simp [RoundLayout.numRounds, RoundLayout.boundary, heq, hdiv] at hpos
    · have hlt : n - size64 (2 * B) < S := by omega
      rw [Nat.mod_eq_of_lt hlt] at hmod
      simp only [size64] at htwo hrows hmod
      omega
  rw [size64_of_lt (by omega)] at hrows hmod
  refine ⟨(n - 2 * B) / S, ?_⟩
  have := Nat.div_add_mod (n - 2 * B) S
  rw [Nat.mul_comm] at this
  show n = 2 * B + (n - 2 * B) / S * S
  omega

/-- Cutting the widths to 32 bits changes no layer. An interior width that does not fit is one that
no layer has. -/
theorem fits_u32 {l : RoundLayout} (h : l.Fits) (hle : u32 l.B ≤ u32 l.S) :
    (RoundLayout.mk (u32 l.S) (u32 l.B) l.numRows).Fits ∧
      (RoundLayout.mk (u32 l.S) (u32 l.B) l.numRows).numRounds = l.numRounds ∧
      ∀ r ≤ l.numRounds,
        (RoundLayout.mk (u32 l.S) (u32 l.B) l.numRows).roundStart r = l.roundStart r := by
  obtain ⟨k, hk⟩ := h.rows
  have hlt := h.rows_lt
  have hB : u32 l.B = l.B := u32_of_lt (by omega)
  by_cases hS : l.S < 2 ^ 32
  · rw [u32_of_lt hS, hB]
    exact ⟨h, rfl, fun _ _ => rfl⟩
  · have hk0 : k = 0 := by
      by_contra hk0
      have := Nat.le_mul_of_pos_left l.S (Nat.pos_of_ne_zero hk0)
      omega
    subst hk0
    have h' : (RoundLayout.mk (u32 l.S) (u32 l.B) l.numRows).Fits :=
      ⟨by simpa [hB] using h.boundary_pos, hle, ⟨0, by simp [hB, hk]⟩, hlt⟩
    exact ⟨h', h.eq_of_two_boundaries h' hB rfl (by omega)⟩

variable {d} in
theorem mem_column_lt {c r : Nat} (hr : r ∈ d.column c) : r < d.H.numRows :=
  d.H.mem_toNestedCsc_lt (getD_mem hr) hr

end SlidingWindow

/-! ## One window -/

theorem selectsColumn_congr {l l' : RoundLayout} {p q : Nat} {ss se : Bool} {col : List Nat}
    (h : ∀ r ∈ col, l'.rowToRound r = l.rowToRound r) :
    selectsColumn l' p q ss se col ↔ selectsColumn l p q ss se col := by
  unfold selectsColumn
  by_cases hne : col = []
  · simp [hne]
  · rw [h _ (headD_mem hne), h _ (getLastD_mem hne)]

/-- The first column and the matrix of a window, whichever widths the selection counted with. -/
theorem windowPcm_eq_ok {H : SparseBinaryMatrix} {l : RoundLayout} {W step w f : Nat} {ss se : Bool}
    {m : BitMatrix} (h : windowPcm H l W step ss se w = .ok (f, m)) (hl : l.Fits)
    (hrows : H.numRows = l.numRows) (hle : u32 l.B ≤ u32 l.S) (hW : 1 ≤ W)
    (hend : w * step + W ≤ l.numRounds) :
    0 < m.cols ∧ f + m.cols ≤ H.numCols ∧
      (∀ c < H.numCols, selectsColumn l (w * step) (w * step + W - 1) ss se (H.toNestedCsc.getD c []) ↔
        f ≤ c ∧ c < f + m.cols) ∧
      m.rows = l.roundStart (w * step + W) - l.roundStart (w * step) ∧
      ∀ r < m.rows, ∀ c < m.cols, m.get r c =
        decide (l.roundStart (w * step) + r ∈ H.toNestedCsc.getD (f + c) []) := by
  obtain ⟨hfits, hrounds, hstart⟩ := SlidingWindow.fits_u32 hl hle
  have hrowslt := hl.rows_lt
  have hroundslt := hl.numRounds_le_numRows
  simp only [windowPcm, getPcmForRounds, bind_eq_ok, throwIf_eq_ok, pure, Except.pure,
    Except.ok.injEq] at h
  obtain ⟨⟨m', f', last⟩, ⟨_, -, hsel⟩, _, hlen, hret⟩ := h
  simp only [Prod.mk.injEq] at hret hsel
  obtain ⟨rfl, rfl⟩ := hret
  generalize hs : selectPcmColumnsForRoundRange H.toNestedCsc _ _ _ _ _ = sel at hsel
  obtain ⟨columns, first, last'⟩ := sel
  obtain ⟨rfl, rfl, rfl⟩ := hsel
  have hcols : ∀ x y, (cutColumns H.toNestedCsc columns x y).cols = columns.length := fun _ _ => rfl
  simp only [hcols, ne_eq, not_not] at hlen ⊢
  have hncols : H.toNestedCsc.length < 2 ^ 32 := by
    rw [H.length_toNestedCsc]
    exact H.cols_lt
  -- the check of the first and last column leaves only selections without gaps
  obtain ⟨hne, hrange, hfit⟩ := selected_eq_range' hncols hs hlen
  rw [H.length_toNestedCsc] at hfit
  -- no number of the window wraps around, so the narrow layout agrees with the wide one
  have hu : u32 (w * step) = w * step := u32_of_lt (by omega)
  have hv : u32 (w * step + W - 1) = w * step + W - 1 := u32_of_lt (by omega)
  rw [hu, hv, hrows] at hs ⊢
  rw [hstart _ (by omega), hstart _ (by omega), show w * step + W - 1 + 1 = w * step + W by omega]
  have hlt := hl.roundStart_lt_succ (r := w * step) (by omega)
  have hmono := hl.roundStart_mono (show w * step + 1 ≤ w * step + W by omega) hend
  have hlast := hl.roundStart_le_numRows hend
  rw [u32_of_lt (show l.roundStart (w * step) < 2 ^ 32 by omega),
    u32_of_lt (show l.roundStart (w * step + W) - 1 < 2 ^ 32 by omega)]
  refine ⟨List.length_pos_of_ne_nil hne, hfit, fun c hc => ?_, ?_, fun r hr c hc => ?_⟩
  · have hround : ∀ r ∈ H.toNestedCsc.getD c [],
        (RoundLayout.mk (u32 l.S) (u32 l.B) l.numRows).rowToRound r = l.rowToRound r := by
      intro r hr
      exact hl.rowToRound_congr hfits rfl hrounds hstart (hrows ▸ H.mem_toNestedCsc_lt (getD_mem hr) hr)
    rw [← selectsColumn_congr hround]
    have hmem : c ∈ columns ↔ c < H.toNestedCsc.length ∧
        selectsColumn ⟨u32 l.S, u32 l.B, l.numRows⟩ (w * step) (w * step + W - 1) ss se
          (H.toNestedCsc.getD c []) := by
      rw [← mem_selected, hs]
    rw [hrange, List.mem_range'_1, H.length_toNestedCsc] at hmem
    tauto
  · exact u32_of_lt (by omega) |>.trans (by clear * - hlt hmono; omega)
  · have hrows' : r < l.roundStart (w * step + W) - l.roundStart (w * step) :=
      lt_of_lt_of_eq hr (u32_of_lt (by omega) |>.trans (by clear * - hlt hmono; omega))
    have hget : columns.getD c 0 = first + c := by
      rw [hrange]
      simp [List.getD_eq_getElem?_getD, hc]
    rw [cutColumns, BitMatrix.get_ofFn _ (show r < u32 _ from hr) hc, hget]
    apply decide_eq_decide.mpr
    constructor
    · exact fun h => h.2
    · exact fun h => ⟨by clear * - hrows'; omega, h⟩

/-- What passing the checks says of the layout and of the columns. -/
theorem validateInputs_eq_ok {H : SparseBinaryMatrix} {l : RoundLayout} {W step : Nat} {name : String}
    {rates : List ℚ} {u : Unit} (h : validateInputs H l W step name rates = .ok u) (hS : l.S < 2 ^ 64)
    (hB : 0 < l.B) (hrows : H.numRows = l.numRows) :
    l.Fits ∧ (1 ≤ W ∧ W ≤ l.numRounds) ∧ (1 ≤ step ∧ step ≤ W) ∧ (l.numRounds - W) % step = 0 ∧
      u32 l.B ≤ u32 l.S ∧
      ∀ a b, a ≤ b → b < H.numCols → SpanLe H.toNestedCsc l.rowToRound a b := by
  simp only [validateInputs, bind_eq_ok, throwIf_eq_ok] at h
  obtain ⟨_, hle, _, htwo, _, hmod, _, hW, _, hstep, _, hdiv, _, -, _, -, _, -, sorted, hsorted, hs⟩ := h
  have hlt := H.rows_lt
  rw [hrows] at hmod htwo hlt
  push Not at hmod htwo
  have hpos : 0 < l.numRounds := by omega
  have hfits : l.Fits :=
    SlidingWindow.fits_of_checks hS hB hlt (by omega) htwo hmod.1 hmod.2 hpos
  obtain rfl : sorted = true := by simpa using hs
  obtain ⟨-, hle', hspan⟩ := spanLe_of_pcmIsSorted hsorted
  obtain ⟨hfits', hrounds, hstart⟩ := SlidingWindow.fits_u32 hfits hle'
  refine ⟨hfits, by omega, by omega, by omega, hle', fun a b hab hb => ?_⟩
  have hround : ∀ c, ∀ r ∈ H.toNestedCsc.getD c [], roundOf (u32 l.S) (u32 l.B) r = l.rowToRound r := by
    intro c r hr
    have hr' : r < l.numRows := hrows ▸ H.mem_toNestedCsc_lt (getD_mem hr) hr
    rw [← hfits.rowToRound_congr hfits' rfl hrounds hstart hr']
    exact hfits'.roundOf_eq hr'
  rcases hspan a b hab (by rwa [H.length_toNestedCsc]) with ha | ⟨hb, hle⟩
  · exact .inl ha
  · by_cases ha : H.toNestedCsc.getD a [] = []
    · exact .inl ha
    · refine .inr ⟨hb, ?_⟩
      rw [← hround a _ (headD_mem ha), ← hround a _ (getLastD_mem ha), ← hround b _ (headD_mem hb),
        ← hround b _ (getLastD_mem hb)]
      exact hle

namespace SlidingWindow

/-- A constructed decoder is accepted, and keeps the matrix and the flags it was given. -/
theorem create_accepted {inputs : SlidingWindowInputs} {request : DecoderOutputRequest}
    {params : SlidingWindowParams} {d : SlidingWindow}
    (h : SlidingWindow.create inputs request params = .ok d) :
    d.Accepted ∧ d.H = inputs.H.canonicalize.toCsc ∧
      d.straddleStartRound = params.straddleStartRound ∧
      d.straddleEndRound = params.straddleEndRound := by
  simp only [create, bind_eq_ok, throwIf_eq_ok, pure, Except.pure, Except.ok.injEq] at h
  obtain ⟨_, -, _, -, _, hS, _, hval, windows, hwin, rfl⟩ := h
  have hSlt : size64 params.numSyndromesPerRound < 2 ^ 64 := Nat.mod_lt _ (by decide)
  have hB : 0 < if size64 params.numBoundarySyndromes = 0 then size64 params.numSyndromesPerRound
      else size64 params.numBoundarySyndromes := by
    split <;> omega
  obtain ⟨hfits, hW, hstep, hdiv, hle, hspan⟩ := validateInputs_eq_ok hval hSlt hB rfl
  set l : RoundLayout := ⟨size64 params.numSyndromesPerRound, _, _⟩
  set H := inputs.H.canonicalize.toCsc
  set W := size64 params.windowSize
  set step := size64 params.stepSize
  refine ⟨?_, rfl, rfl, rfl⟩
  -- the check of the step leaves no rest, so the last window ends with the last layer
  have hrounds : l.numRounds = W + (l.numRounds - W) / step * step := by
    have := Nat.div_add_mod (l.numRounds - W) step
    rw [Nat.mul_comm] at this
    omega
  refine ⟨hfits, rfl, SparseBinaryMatrix.toCsc_layout _, fun c => ?_, hspan, hW.1, hstep.1, hstep.2,
    Nat.succ_pos _, hrounds, fun w hw => ?_⟩
  · show (H.toNestedCsc.getD c []).Pairwise (· < ·)
    rw [SparseBinaryMatrix.toNestedCsc_toCsc]
    exact inputs.H.pairwise_lt_canonicalize c
  · have hw' : w < (l.numRounds - W) / step + 1 := hw
    -- window `w` is what `windowPcm` returned for it
    have hall := mapM_eq_ok.mp hwin
    have hlen : windows.length = (l.numRounds - W) / step + 1 := by
      rw [← hall.length_eq, List.length_range]
    have hpcm := hall.get (i := w) (by simpa using hw') (by omega)
    simp only [List.get_eq_getElem, List.getElem_range] at hpcm
    have hend : w * step + W ≤ l.numRounds := by
      have := Nat.mul_le_mul_right step (show w ≤ (l.numRounds - W) / step by omega)
      omega
    obtain ⟨h1, h2, h3, h4, h5⟩ := windowPcm_eq_ok hpcm hfits rfl hle hW.1 hend
    have hf : (windows.map Prod.fst).getD w 0 = windows[w].1 := by
      simp [List.getD_eq_getElem?_getD, hlen, hw']
    have hm : (windows.map Prod.snd).getD w (.zero 0 0) = windows[w].2 := by
      simp [List.getD_eq_getElem?_getD, hlen, hw']
    constructor <;> simp only [numColumns, innerMatrix, firstColumn, Selects, column, startRound,
      endRound, hf, hm]
    · exact h1
    · exact h2
    · exact h3
    · exact h4
    · exact h5

end SlidingWindow

/-! ## Two layers of one detector -/

def twoRoundH : SparseBinaryMatrix := .ofGroups .csc 2 3 [[0], [0, 1], [1]]

def twoRoundInputs : SlidingWindowInputs := ⟨twoRoundH, [1 / 10, 1 / 10, 1 / 10], none⟩

def oneRoundWindows : SlidingWindowParams :=
  { numSyndromesPerRound := 1, innerDecoderName := "pymatching" }

/-- What the constructor makes of them: both windows take in the fault that spans the two layers. -/
def twoRoundDecoder : SlidingWindow where
  H := twoRoundH
  layout := ⟨1, 1, 2⟩
  windowSize := 1
  stepSize := 1
  straddleStartRound := false
  straddleEndRound := true
  numWindows := 2
  firstColumns := [0, 1]
  innerMatrices := [.ofRows 2 [[true, true]], .ofRows 2 [[true, true]]]
  observableFlips := none

theorem create_twoRound :
    SlidingWindow.create twoRoundInputs {} oneRoundWindows = .ok twoRoundDecoder := rfl

end CudaqQec
