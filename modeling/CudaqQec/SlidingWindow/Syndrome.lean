import CudaqQec.SlidingWindow.Commit
import CudaqQec.SlidingWindow.Element
import CudaqQec.Sparse.Product

/-!
# The windows solve the whole syndrome

With the default flags and faults of at most two neighbouring layers: when every inner decoder solves
the syndrome its window is given, the assembled result solves the whole one, as long as a window has two
layers or no fault has.

A window commits the faults that begin before the next window. Of these only the ones that begin in the
layer before it reach into the next window, and only into its first layer: what is backed out there is
all there is to back out.
-/

namespace CudaqQec

namespace SlidingWindow

variable (d : SlidingWindow) (inner : Nat → List ℚ → DecoderResult)

/-! ## One shot -/

section
variable (syn : List ℚ)

def windowInput (w : Nat) : List ℚ :=
  d.windowSyndrome w (((d.layersOf syn).drop (w * d.stepSize)).take d.windowSize)
    (d.elementState inner (d.layersOf syn) w).1

def hardResult (w : Nat) : List Bool := convertVecSoftToHard (inner w (d.windowInput inner syn w)).result

def assembled : DecoderResult := (d.elementState inner (d.layersOf syn) d.numWindows).2

/-- The inner decoder of window `w` solves the syndrome it is given. -/
def SolvesWindow (w : Nat) : Prop :=
  ((d.innerMatrix w).mulVec (d.hardResult inner syn w)).map bitValue = d.windowInput inner syn w

end

def softSyndrome (s : List Bool) : List ℚ := s.map bitValue

example : softSyndrome [true, false] = [1, 0] := by decide +kernel

/-- Windows that are solved solve the whole syndrome. `H` is the matrix the decoder was made from. -/
def SolvesSyndrome (H : SparseBinaryMatrix) : Prop :=
  ∀ inner, d.Sized inner → ∀ s : List Bool, s.length = d.syndromeSize →
    (∀ w < d.numWindows, d.SolvesWindow inner (softSyndrome s) w) →
    d.decode inner (softSyndrome s) {} = .ok (d.handBack (d.assembled inner (softSyndrome s))) ∧
      H.mulVec (convertVecSoftToHard (d.assembled inner (softSyndrome s)).result) = s

/-- The rows of every column lie in at most two neighbouring layers. -/
def SpansTwo : Prop := ∀ c < d.H.numCols, ∀ r ∈ d.column c, ∀ r' ∈ d.column c,
  d.layout.rowToRound r' ≤ d.layout.rowToRound r + 1

def SpansOne : Prop := ∀ c < d.H.numCols, ∀ r ∈ d.column c, ∀ r' ∈ d.column c,
  d.layout.rowToRound r' = d.layout.rowToRound r

variable {d inner}

/-! ## The equations of a window -/

theorem bitValue_inj {a b : Bool} : bitValue a = bitValue b ↔ a = b := by
  cases a <;> cases b <;> simp [bitValue]

theorem bitValue_ne_zero {b : Bool} : bitValue b ≠ 0 ↔ b = true := by
  cases b <;> simp [bitValue]

theorem hard_bitValue (b : Bool) : decide (1 / 2 ≤ bitValue b) = b := by
  cases b <;> norm_num [bitValue]

theorem Accepted.window_end (hd : d.Accepted) {w : Nat} (hw : w < d.numWindows) :
    w * d.stepSize + d.windowSize ≤ d.layout.numRounds := by
  have := Nat.mul_le_mul_right d.stepSize (show w ≤ d.numWindows - 1 by omega)
  have := hd.rounds
  omega

section
variable (hd : d.Accepted) {s : List Bool} (hs : s.length = d.syndromeSize)

include hd hs

/-- The rows a window is given: the syndrome, with what was backed out. -/
theorem getD_windowInput {w i : Nat} (hw : w < d.numWindows) (hi : i < (d.innerMatrix w).rows) :
    (d.windowInput inner (softSyndrome s) w).getD i 0 =
      bitValue (s.getD (d.layout.roundStart (d.startRound w) + i) false ^^
        (d.elementState inner (d.layersOf (softSyndrome s)) w).1.getD
          (d.layout.roundStart (d.startRound w) + i) false) := by
  have hend := hd.window_end hw
  have hsyn : (softSyndrome s).length = d.syndromeSize := by simpa [softSyndrome] using hs
  rw [(hd.window w hw).rows] at hi
  have hget := getD_flatten_window hd hsyn hend hi
  have hsoft : (softSyndrome s).getD (d.layout.roundStart (w * d.stepSize) + i) 0 =
      bitValue (s.getD (d.layout.roundStart (w * d.stepSize) + i) false) := by
    simp only [softSyndrome, List.getD_eq_getElem?_getD, List.getElem?_map]
    cases s[d.layout.roundStart (w * d.stepSize) + i]? <;> rfl
  rw [hsoft] at hget
  unfold windowInput windowSyndrome
  simp only [startRound] at hi ⊢
  split
  · have hlt : i < (((d.layersOf (softSyndrome s)).drop (w * d.stepSize)).take d.windowSize).flatten.length := by
      rwa [length_flatten_window hd hsyn hend]
    rw [List.getD_eq_getElem _ _ (by simpa using hlt), List.getElem_mapIdx, if_pos hi,
      ← List.getD_eq_getElem _ 0 hlt, hget, toUint8_xor]
  · obtain rfl : w = 0 := by omega
    rw [hget]
    simp [elementState]

theorem length_windowInput {w : Nat} (hw : w < d.numWindows) :
    (d.windowInput inner (softSyndrome s) w).length = (d.innerMatrix w).rows := by
  have hsyn : (softSyndrome s).length = d.syndromeSize := by simpa [softSyndrome] using hs
  have hlen := length_flatten_window hd hsyn (hd.window_end hw)
  rw [(hd.window w hw).rows, startRound, ← hlen]
  unfold windowInput windowSyndrome
  simp only
  split
  · exact List.length_mapIdx
  · rfl

/-- A window is solved when each of its rows is. -/
theorem solvesWindow_iff {w : Nat} (hw : w < d.numWindows) :
    d.SolvesWindow inner (softSyndrome s) w ↔ ∀ i < (d.innerMatrix w).rows,
      decide (((List.range (d.numColumns w)).countP fun c => (d.innerMatrix w).get i c &&
        (d.hardResult inner (softSyndrome s) w).getD c false) % 2 = 1) =
      (s.getD (d.layout.roundStart (d.startRound w) + i) false ^^
        (d.elementState inner (d.layersOf (softSyndrome s)) w).1.getD
          (d.layout.roundStart (d.startRound w) + i) false) := by
  have hlen : (d.windowInput inner (softSyndrome s) w).length = (d.innerMatrix w).rows :=
    length_windowInput hd hs hw
  have hleft : ∀ i < (d.innerMatrix w).rows,
      (((d.innerMatrix w).mulVec (d.hardResult inner (softSyndrome s) w)).map bitValue).getD i 0 =
      bitValue (decide (((List.range (d.numColumns w)).countP fun c => (d.innerMatrix w).get i c &&
        (d.hardResult inner (softSyndrome s) w).getD c false) % 2 = 1)) := by
    intro i hi
    rw [BitMatrix.mulVec, List.map_map, getD_map_range, if_pos hi]
    rfl
  constructor
  · intro h i hi
    have := congrArg (fun l => l.getD i 0) h
    simp only [hleft i hi, getD_windowInput hd hs hw hi] at this
    exact bitValue_inj.mp this
  · intro h
    apply List.ext_getElem
    · simp [BitMatrix.mulVec, hlen]
    · intro i hi hi'
      rw [← List.getD_eq_getElem _ 0 hi, ← List.getD_eq_getElem _ 0 hi', hleft i (by omega),
        getD_windowInput hd hs hw (by omega), h i (by omega)]

end

/-! ## Columns by the layer they begin in -/

section
variable (hd : d.Accepted)

include hd

/-- A column's rows lie in the layers from its first to its last. -/
theorem round_between {c r : Nat} (hr : r ∈ d.column c) :
    d.firstRound c ≤ d.layout.rowToRound r ∧ d.layout.rowToRound r ≤ d.lastRound c := by
  have hne : d.column c ≠ [] := List.ne_nil_of_mem hr
  have hle := headD_le_getLastD (hd.increasing c) hr
  have hlt : ∀ r ∈ d.column c, r < d.layout.numRows := fun r hr => hd.numRows ▸ mem_column_lt hr
  exact ⟨hd.fits.rowToRound_mono hle.1 (hlt r hr),
    hd.fits.rowToRound_mono hle.2 (hlt _ (getLastD_mem hne))⟩

theorem firstRound_mono {a b : Nat} (hab : a ≤ b) (hb : b < d.H.numCols) (ha : d.column a ≠ []) :
    d.firstRound a ≤ d.firstRound b := by
  rcases hd.spanLe a b hab hb with h | ⟨-, h⟩
  · exact absurd h ha
  · show d.layout.rowToRound ((d.H.toNestedCsc.getD a []).headD 0) ≤
      d.layout.rowToRound ((d.H.toNestedCsc.getD b []).headD 0)
    omega

theorem lastRound_lt {c : Nat} (hne : d.column c ≠ []) : d.lastRound c < d.layout.numRounds :=
  (hd.fits.rowToRound_spec (hd.numRows ▸ mem_column_lt (getLastD_mem hne))).1

theorem firstRound_le_lastRound {c : Nat} (hne : d.column c ≠ []) : d.firstRound c ≤ d.lastRound c :=
  (round_between hd (headD_mem hne)).2

end

variable (d) in
def TakesBeginning : Prop := ∀ w < d.numWindows, ∀ c < d.H.numCols,
  d.Selects w c ↔ d.column c ≠ [] ∧ d.startRound w ≤ d.firstRound c ∧ d.firstRound c ≤ d.endRound w

/-- So it is with the default flags, when no column reaches both out of a window and into it. -/
theorem takesBeginning (hd : d.Accepted) (hss : d.straddleStartRound = false)
    (hse : d.straddleEndRound = true) (htwo : d.SpansTwo) (hcond : 2 ≤ d.windowSize ∨ d.SpansOne) :
    d.TakesBeginning := by
  intro w _ c hc
  rw [selects_iff]
  refine and_congr_right fun hne => ?_
  have hle := firstRound_le_lastRound hd hne
  have hspan : d.lastRound c ≤ d.firstRound c + 1 :=
    htwo c hc _ (headD_mem hne) _ (getLastD_mem hne)
  have hW := hd.windowSize_pos
  have hend : d.endRound w + 1 = d.startRound w + d.windowSize := by
    unfold endRound startRound
    omega
  rw [hss, hse, selectsSpan]
  rcases hcond with h2 | hone
  · simp only [Bool.false_eq_true, false_and, false_or, true_and]
    omega
  · have heq : d.lastRound c = d.firstRound c := hone c hc _ (headD_mem hne) _ (getLastD_mem hne)
    simp only [Bool.false_eq_true, false_and, false_or, true_and]
    omega

section
variable (hd : d.Accepted) (ht : d.TakesBeginning)

include hd ht

/-- The columns from a window's first one on are those that begin in its first layer or later. -/
theorem firstColumn_le_iff {w c : Nat} (hw : w < d.numWindows) (hc : c < d.H.numCols)
    (hne : d.column c ≠ []) : d.firstColumn w ≤ c ↔ d.startRound w ≤ d.firstRound c := by
  have hfirst := (ht w hw _ (firstColumn_lt hd hw)).mp (selects_firstColumn hd hw)
  constructor
  · intro hle
    exact hfirst.2.1.trans (firstRound_mono hd hle hc hfirst.1)
  · intro hle
    by_cases hend : d.firstRound c ≤ d.endRound w
    · exact firstColumn_le_of_selects hd hw hc ((ht w hw c hc).mpr ⟨hne, hle, hend⟩)
    · by_contra hlt
      have := firstRound_mono hd (show c ≤ d.firstColumn w by omega) (firstColumn_lt hd hw) hne
      omega

theorem meets_of_takesBeginning : d.Meets := by
  have hpos := hd.windows_pos
  have hW := hd.windowSize_pos
  have hrounds := hd.rounds
  -- the first window takes the first column, the last one the last, and no column lies between two
  -- the first window takes the first column, the last one the last, and no column lies between two
  constructor
  · intro c hc hne hmin
    have hfirst := (ht 0 hpos _ (firstColumn_lt hd hpos)).mp (selects_firstColumn hd hpos)
    have hle : c ≤ d.firstColumn 0 := by
      by_contra hlt
      exact hfirst.1 (hmin _ (by omega))
    have := firstRound_mono hd hle (firstColumn_lt hd hpos) hne
    exact (ht 0 hpos c hc).mpr ⟨hne, by simp [startRound], by omega⟩
  · have hw : d.numWindows - 1 < d.numWindows := by omega
    have hlt := firstColumn_lt hd hw
    have hne := column_ne_of_le hd (show d.firstColumn (d.numWindows - 1) ≤ d.H.numCols - 1 by omega)
      (by omega) (column_firstColumn_ne hd hw)
    have hle := (firstColumn_le_iff hd ht hw (by omega) hne).mp (by omega)
    have := lastRound_lt hd hne
    have := firstRound_le_lastRound hd hne
    refine (ht _ hw _ (by omega)).mpr ⟨hne, hle, ?_⟩
    unfold endRound
    omega
  · intro w hw c hc hs hmin
    obtain ⟨hne, hstart, hend⟩ := (ht _ hw c hc).mp hs
    have hw' : w < d.numWindows := by omega
    have hstep := hd.stepSize_le
    have hsucc : d.startRound (w + 1) = d.startRound w + d.stepSize := Nat.succ_mul _ _
    have hendw : d.endRound w + 1 = d.startRound w + d.windowSize := by
      unfold endRound startRound
      omega
    by_cases hin : d.firstRound c ≤ d.endRound w
    · exact .inl ((ht w hw' c hc).mpr ⟨hne, by omega, hin⟩)
    · -- a column that begins after window `w` has one before it that begins in the window
      have hfirst := (ht w hw' _ (firstColumn_lt hd hw')).mp (selects_firstColumn hd hw')
      have hlt : d.firstColumn w < c := by
        by_contra hge
        have := firstRound_mono hd (show c ≤ d.firstColumn w by omega) (firstColumn_lt hd hw') hne
        omega
      have hne' := column_ne_of_le hd (show d.firstColumn w ≤ c - 1 by omega) (by omega) hfirst.1
      have hge := firstRound_mono hd (show d.firstColumn w ≤ c - 1 by omega) (by omega) hfirst.1
      have hle := firstRound_mono hd (show c - 1 ≤ c by omega) hc hne'
      have hbefore : d.firstRound (c - 1) < d.startRound (w + 1) := by
        by_contra hnot
        exact hmin (c - 1) (by omega) ((ht _ hw _ (by omega)).mpr ⟨hne', by omega, by omega⟩)
      exact .inr ⟨by omega, (ht w hw' _ (by omega)).mpr ⟨hne', by omega, by omega⟩⟩

end

end SlidingWindow

end CudaqQec
