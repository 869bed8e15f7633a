import CudaqQec.SlidingWindow.Decoder

/-!
# What the windows commit

A window commits the columns from its own first one up to the next window's, the last window all it has.
How many these are is computed from two windows, while the inner matrix has the columns one window
selects; nothing compares the two.

* `SlidingWindow.CommitsOnce`: the committed ranges partition the columns and stay inside the inner
  matrices.
* `SlidingWindow.Meets`: neighbouring windows leave no column between them.
-/

namespace CudaqQec.SlidingWindow

variable (d : SlidingWindow)

def numCommitted (w : Nat) : Nat :=
  if w < d.numWindows - 1 then d.numToCommit w else d.numColumns w

/-- Every fault is committed once, from the inner column it has. -/
structure CommitsOnce : Prop where
  mono : ∀ w, w + 1 < d.numWindows → d.firstColumn w ≤ d.firstColumn (w + 1)
  disjoint : ∀ w w', w < w' → w' < d.numWindows →
    d.firstColumn w + d.numCommitted w ≤ d.firstColumn w'
  once : ∀ c < d.H.numCols, d.column c ≠ [] →
    ∃! w, w < d.numWindows ∧ d.firstColumn w ≤ c ∧ c < d.firstColumn w + d.numCommitted w
  inner : ∀ w < d.numWindows, ∀ c < d.numCommitted w, c < d.numColumns w ∧
    ∀ r < (d.innerMatrix w).rows, (d.innerMatrix w).get r c =
      decide (d.layout.roundStart (d.startRound w) + r ∈ d.column (d.firstColumn w + c))

/-- The first window selects the first column that is not empty, the last window the last one, and a
window selects the first column of the next window or the column before it. -/
structure Meets : Prop where
  first : ∀ c < d.H.numCols, d.column c ≠ [] → (∀ c' < c, d.column c' = []) → d.Selects 0 c
  last : d.Selects (d.numWindows - 1) (d.H.numCols - 1)
  next : ∀ w, w + 1 < d.numWindows → ∀ c < d.H.numCols, d.Selects (w + 1) c →
    (∀ c' < c, ¬ d.Selects (w + 1) c') → d.Selects w c ∨ 0 < c ∧ d.Selects w (c - 1)

variable {d}

/-! ## First columns -/

section
variable (hd : d.Accepted)

include hd

theorem firstColumn_lt {w : Nat} (hw : w < d.numWindows) : d.firstColumn w < d.H.numCols := by
  have h := hd.window w hw
  have := h.columns_pos
  have := h.columns_le
  omega

theorem selects_firstColumn {w : Nat} (hw : w < d.numWindows) : d.Selects w (d.firstColumn w) := by
  have h := hd.window w hw
  have := h.columns_pos
  exact (h.selects _ (firstColumn_lt hd hw)).mpr ⟨le_refl _, by omega⟩

theorem firstColumn_le_of_selects {w c : Nat} (hw : w < d.numWindows) (hc : c < d.H.numCols)
    (h : d.Selects w c) : d.firstColumn w ≤ c := ((hd.window w hw).selects c hc |>.mp h).1

theorem column_firstColumn_ne {w : Nat} (hw : w < d.numWindows) : d.column (d.firstColumn w) ≠ [] :=
  (d.selects_iff.mp (selects_firstColumn hd hw)).1

/-- Once a column is not empty, none after it is. -/
theorem column_ne_of_le {a b : Nat} (hab : a ≤ b) (hb : b < d.H.numCols) (ha : d.column a ≠ []) :
    d.column b ≠ [] := by
  rcases hd.spanLe a b hab hb with h | h
  · exact absurd h ha
  · exact h.1

omit hd in
theorem numToCommit_eq {w : Nat} (h : d.firstColumn w ≤ d.firstColumn (w + 1)) :
    d.numToCommit w = d.firstColumn (w + 1) - d.firstColumn w := by
  unfold numToCommit
  rw [show (d.firstColumn (w + 1) : Int) - d.firstColumn w =
    ((d.firstColumn (w + 1) - d.firstColumn w : Nat) : Int) by omega, sizeT_natCast]

end

/-! ## Windows that meet -/

/-- Of a sequence that starts at or below `c`, the last member up to `N` that does not pass `c`. -/
theorem exists_last_le (f : Nat → Nat) (N : Nat) {c : Nat} (h0 : f 0 ≤ c) :
    ∃ w ≤ N, f w ≤ c ∧ (w = N ∨ c < f (w + 1)) := by
  induction N with
  | zero => exact ⟨0, le_refl _, h0, .inl rfl⟩
  | succ N ih =>
    obtain ⟨w, hw, hle, hnext⟩ := ih
    rcases hnext with rfl | hlt
    · by_cases hs : f (w + 1) ≤ c
      · exact ⟨w + 1, le_refl _, hs, .inl rfl⟩
      · exact ⟨w, by omega, hle, .inr (by omega)⟩
    · exact ⟨w, by omega, hle, .inr hlt⟩

section
variable (hd : d.Accepted) (h : d.Meets)

include hd h

/-- The next window starts inside this one's columns or right after them. -/
theorem Meets.firstColumn_next {w : Nat} (hw : w + 1 < d.numWindows) :
    d.firstColumn w ≤ d.firstColumn (w + 1) ∧
      d.firstColumn (w + 1) ≤ d.firstColumn w + d.numColumns w := by
  have hlt := firstColumn_lt hd hw
  have hwin := hd.window w (by omega)
  rcases h.next w hw _ hlt (selects_firstColumn hd hw) (fun c' hc' hs =>
      absurd (firstColumn_le_of_selects hd hw (by omega) hs) (by omega)) with hs | ⟨hpos, hs⟩
  · have := (hwin.selects _ hlt).mp hs
    omega
  · have := (hwin.selects _ (by omega)).mp hs
    omega

theorem Meets.numCommitted_eq {w : Nat} (hw : w + 1 < d.numWindows) :
    d.firstColumn w + d.numCommitted w = d.firstColumn (w + 1) := by
  have hnext := h.firstColumn_next hd hw
  rw [numCommitted, if_pos (by omega), numToCommit_eq hnext.1]
  omega

omit hd h in
theorem numCommitted_last : d.numCommitted (d.numWindows - 1) = d.numColumns (d.numWindows - 1) := by
  rw [numCommitted, if_neg (by omega)]

theorem Meets.firstColumn_mono {w w' : Nat} (hle : w ≤ w') (hw' : w' < d.numWindows) :
    d.firstColumn w ≤ d.firstColumn w' := by
  induction w', hle using Nat.le_induction with
  | base => exact le_refl _
  | succ w' hle ih => exact (ih (by omega)).trans (h.firstColumn_next hd hw').1

theorem Meets.firstColumn_zero_le {c : Nat} (hc : c < d.H.numCols) (hne : d.column c ≠ []) :
    d.firstColumn 0 ≤ c := by
  -- the first column that is not empty, at or before `c`
  classical
  have hex : ∃ c, d.column c ≠ [] := ⟨c, hne⟩
  have hle : Nat.find hex ≤ c := Nat.find_min' hex hne
  have hs := h.first (Nat.find hex) (by omega) (Nat.find_spec hex) fun c' hc' =>
    not_not.mp (Nat.find_min hex hc')
  exact (firstColumn_le_of_selects hd hd.windows_pos (by omega) hs).trans hle

theorem Meets.commitsOnce : d.CommitsOnce := by
  have hpos := hd.windows_pos
  have hdisjoint : ∀ w w', w < w' → w' < d.numWindows →
      d.firstColumn w + d.numCommitted w ≤ d.firstColumn w' := by
    intro w w' hlt hw'
    rw [h.numCommitted_eq hd (by omega)]
    exact h.firstColumn_mono hd hlt hw'
  refine ⟨fun w hw => (h.firstColumn_next hd hw).1, hdisjoint, fun c hc hne => ?_, fun w hw c hc => ?_⟩
  · obtain ⟨w, hw, hle, hnext⟩ :=
      exists_last_le d.firstColumn (d.numWindows - 1) (h.firstColumn_zero_le hd hc hne)
    refine ⟨w, ⟨by omega, hle, ?_⟩, ?_⟩
    · rcases Nat.lt_or_ge w (d.numWindows - 1) with hlt | hge
      · rw [h.numCommitted_eq hd (by omega)]
        omega
      · obtain rfl : w = d.numWindows - 1 := by omega
        have hlast := ((hd.window _ (by omega)).selects _ (by omega)).mp h.last
        rw [numCommitted_last]
        omega
    · rintro w' ⟨hw', hle', hlt'⟩
      rcases Nat.lt_trichotomy w w' with hlt | heq | hgt
      · have := h.firstColumn_mono hd (show w + 1 ≤ w' from hlt) hw'
        omega
      · exact heq.symm
      · have := hdisjoint w' w hgt (by omega)
        omega
  · have hwin := hd.window w hw
    have hlt : c < d.numColumns w := by
      rcases Nat.lt_or_ge w (d.numWindows - 1) with hlt | hge
      · have := h.firstColumn_next hd (show w + 1 < d.numWindows by omega)
        have := h.numCommitted_eq hd (show w + 1 < d.numWindows by omega)
        omega
      · rwa [numCommitted, if_neg (by omega)] at hc
    exact ⟨hlt, fun r hr => hwin.bits r hr c hlt⟩

end

/-- Windows that commit every column once meet. -/
theorem CommitsOnce.meets (hd : d.Accepted) (h : d.CommitsOnce) : d.Meets := by
  have hpos := hd.windows_pos
  have hmono : ∀ w < d.numWindows, d.firstColumn 0 ≤ d.firstColumn w := by
    intro w hw
    induction w with
    | zero => exact le_refl _
    | succ w ih => exact (ih (by omega)).trans (h.mono w hw)
  -- the first column is committed by some window, and the first window begins no later
  constructor
  · intro c hc hne hmin
    obtain ⟨w, ⟨hw, hle, -⟩, -⟩ := h.once c hc hne
    have h0 := hmono w hw
    have hge : c ≤ d.firstColumn 0 := by
      by_contra hlt
      exact column_firstColumn_ne hd hpos (hmin _ (by omega))
    obtain rfl : c = d.firstColumn 0 := by omega
    exact selects_firstColumn hd hpos
  · have hlt := firstColumn_lt hd hpos
    have hne : d.column (d.H.numCols - 1) ≠ [] :=
      column_ne_of_le hd (by omega) (by omega) (column_firstColumn_ne hd hpos)
    obtain ⟨w, ⟨hw, hle, hlt'⟩, -⟩ := h.once _ (by omega) hne
    rcases Nat.lt_or_ge w (d.numWindows - 1) with hlt | hge
    · rw [numCommitted, if_pos hlt, numToCommit_eq (h.mono w (by omega))] at hlt'
      have := firstColumn_lt hd (show w + 1 < d.numWindows by omega)
      omega
    -- past the last column of a window the next one has begun
    · obtain rfl : w = d.numWindows - 1 := by omega
      rw [numCommitted, if_neg (by omega)] at hlt'
      exact ((hd.window _ hw).selects _ (by omega)).mpr ⟨hle, hlt'⟩
  · intro w hw c hc hs hmin
    obtain rfl : c = d.firstColumn (w + 1) := by
      have hle := firstColumn_le_of_selects hd hw hc hs
      by_contra hne
      exact hmin _ (by omega) (selects_firstColumn hd hw)
    have hwin := hd.window w (by omega)
    have hcols := hwin.columns_pos
    have hle := h.mono w hw
    have hcount : d.numCommitted w = d.firstColumn (w + 1) - d.firstColumn w := by
      rw [numCommitted, if_pos (by omega), numToCommit_eq hle]
    have hin : d.firstColumn (w + 1) ≤ d.firstColumn w + d.numColumns w := by
      by_contra hgap
      have := (h.inner w (by omega) (d.numColumns w) (by omega)).1
      omega
    rcases Nat.lt_or_ge (d.firstColumn (w + 1)) (d.firstColumn w + d.numColumns w) with hlt | hge
    · exact .inl ((hwin.selects _ hc).mpr ⟨hle, hlt⟩)
    · exact .inr ⟨by omega, (hwin.selects _ (by omega)).mpr ⟨by omega, by omega⟩⟩

/-- A constructed decoder commits every fault once, and from the inner column it has, exactly when its
windows meet. -/
theorem commitsOnce_iff_meets {inputs : SlidingWindowInputs} {request : DecoderOutputRequest}
    {params : SlidingWindowParams} (hcreate : SlidingWindow.create inputs request params = .ok d) :
    d.CommitsOnce ↔ d.Meets :=
  ⟨fun h => h.meets (create_accepted hcreate).1, fun h => h.commitsOnce (create_accepted hcreate).1⟩

/-- The windows of `twoRoundDecoder` share a column, so they meet. -/
theorem commitsOnce_twoRound : twoRoundDecoder.CommitsOnce := by
  refine (commitsOnce_iff_meets create_twoRound).mpr ⟨by decide, by decide, fun w hw => ?_⟩
  obtain rfl : w = 0 := by
    have : w + 1 < 2 := hw
    omega
  decide

/-! ## Windows that do not meet -/

/-- Four layers of one detector: a fault in each layer and one between each two. -/
def fourRoundH : SparseBinaryMatrix :=
  .ofGroups .csc 4 7 [[0], [0, 1], [1], [1, 2], [2], [2, 3], [3]]

def fourRoundInputs : SlidingWindowInputs := ⟨fourRoundH, List.replicate 7 (1 / 10), none⟩

def sideBySide : SlidingWindowParams :=
  { windowSize := 2, stepSize := 2, numSyndromesPerRound := 1, straddleEndRound := false,
    innerDecoderName := "pymatching" }

def fourRoundDecoder : SlidingWindow where
  H := fourRoundH
  layout := ⟨1, 1, 4⟩
  windowSize := 2
  stepSize := 2
  straddleStartRound := false
  straddleEndRound := false
  numWindows := 2
  firstColumns := [0, 4]
  innerMatrices := [.ofRows 3 [[true, true, false], [false, true, true]],
    .ofRows 3 [[true, true, false], [false, true, true]]]
  observableFlips := none

theorem create_fourRound :
    SlidingWindow.create fourRoundInputs {} sideBySide = .ok fourRoundDecoder := rfl

/-- The first window commits four columns and has three: the fault between the windows is in neither. -/
theorem not_commitsOnce_fourRound :
    SlidingWindow.create fourRoundInputs {} sideBySide = .ok fourRoundDecoder ∧
      ¬ fourRoundDecoder.CommitsOnce :=
  ⟨create_fourRound, fun h => absurd (h.inner 0 (by decide) 3 (by decide)).1 (by decide)⟩

end CudaqQec.SlidingWindow
