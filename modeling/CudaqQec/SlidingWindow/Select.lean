import CudaqQec.Dem.ColumnOrder
import CudaqQec.SlidingWindow.Layout
import Mathlib.Data.List.GetD

/-!
# The columns of a range of layers

`pcm_utils.cpp`, as far as a window's sub-matrix needs it: the topological column order and
`get_pcm_for_rounds`. Columns are lists of row numbers.

* `PcmSorted.spanLe`: in a sorted matrix the layers of the columns do not go back.
* `getPcmForRounds_eq_ok`: what a range of layers selects, and the sub-matrix it is cut to.
* `RoundLayout.bijection`: rows and layers, and the round the column order gives a row.
-/

namespace CudaqQec

open Checked

/-! ## Sorted columns -/

/-- The layers of column `a` do not come after those of column `b`. Empty columns come first. -/
def SpanLe (rowIndices : List (List Nat)) (roundOf : Nat → Nat) (a b : Nat) : Prop :=
  rowIndices.getD a [] = [] ∨ rowIndices.getD b [] ≠ [] ∧
    (roundOf ((rowIndices.getD a []).headD 0) < roundOf ((rowIndices.getD b []).headD 0) ∨
      roundOf ((rowIndices.getD a []).headD 0) = roundOf ((rowIndices.getD b []).headD 0) ∧
        roundOf ((rowIndices.getD a []).getLastD 0) ≤ roundOf ((rowIndices.getD b []).getLastD 0))

section
variable {rowIndices : List (List Nat)} {round : Nat → Nat} {a b c : Nat}

theorem SpanLe.refl (a : Nat) : SpanLe rowIndices round a a := by
  unfold SpanLe
  tauto

theorem SpanLe.trans (hab : SpanLe rowIndices round a b) (hbc : SpanLe rowIndices round b c) :
    SpanLe rowIndices round a c := by
  rcases hab with ha | ⟨hb, hab⟩
  · exact .inl ha
  · rcases hbc with hb' | ⟨hc, hbc⟩
    · exact absurd hb' hb
    · exact .inr ⟨hc, by omega⟩

/-- What the rows decide below the layers plays no part. -/
theorem spanLe_of_columnLess (h : columnLess rowIndices round b a = false) :
    SpanLe rowIndices round a b := by
  by_cases ha : rowIndices.getD a [] = []
  · exact .inl ha
  · simp only [columnLess, ha, and_false, if_false, not_false_eq_true, and_true, ne_eq] at h
    split at h
    · simp at h
    · next hb =>
      refine .inr ⟨hb, ?_⟩
      split at h
      · next h1 =>
        have := of_decide_eq_false h
        omega
      · split at h
        · next h1 h2 =>
          have := of_decide_eq_false h
          omega
        · omega

end

/-- The columns of a sorted matrix lie in the order of their layers. -/
theorem spanLe_of_pcmIsSorted {rowIndices : List (List Nat)} {S B : Nat}
    (h : pcmIsSorted rowIndices S B = .ok true) :
    0 < S ∧ B ≤ S ∧ ∀ a b, a ≤ b → b < rowIndices.length → SpanLe rowIndices (roundOf S B) a b := by
  unfold pcmIsSorted getSortedPcmColumnIndices at h
  simp only [bind_eq_ok, throwIf_eq_ok, pure, Except.pure, Except.ok.injEq] at h
  obtain ⟨_, ⟨_, h0, _, hB, rfl⟩, h⟩ := h
  have h := of_decide_eq_true h
  -- a column number that is listed fits a `uint32_t`
  have hfits : rowIndices.length ≤ 2 ^ 32 := by
    apply sortedPcmColumnIndicesImpl_perm_iff.mp
    rw [h]
  rw [sortedPcmColumnIndicesImpl_eq hfits] at h
  have hchain := isChain_of_insertionSort_eq_self List.nodup_range h
  rw [List.isChain_range] at hchain
  refine ⟨by omega, by omega, fun a b hab hb => ?_⟩
  induction b, hab using Nat.le_induction with
  | base => exact .refl a
  | succ b hab ih =>
    exact (ih (by omega)).trans (spanLe_of_columnLess (hchain b (by omega)))

/-! ## The columns of a range of layers -/

def validatePcmForRoundsParams (S B startRound endRound numRows : Nat) : Except Error Unit := do
  throwIf (S = 0) (.invalidArgument
    "get_pcm_for_rounds: num_syndromes_per_round must be greater than 0")
  throwIf (S < B) (.invalidArgument
    "get_pcm_for_rounds: num_boundary_syndromes must be <= num_syndromes_per_round")
  let layout : RoundLayout := ⟨S, B, numRows⟩
  throwIf (layout.boundary = true ∧ (numRows < u32 (2 * B) ∨ (numRows - u32 (2 * B)) % S ≠ 0))
    (.invalidArgument ("get_pcm_for_rounds: number of PCM rows is inconsistent with the given " ++
      "num_syndromes_per_round and num_boundary_syndromes"))
  throwIf (layout.numRounds ≤ endRound) (.invalidArgument
    "get_pcm_for_rounds: end_round is greater than the last round index")
  throwIf (numRows ≤ layout.roundStart startRound) (.invalidArgument
    "get_pcm_for_rounds: first_row_to_keep is greater than the number of rows in PCM")

/-- Whether a range of layers takes a column in, by the layers of its first and its last row. -/
def selectsSpan (startRound endRound : Nat) (straddleStartRound straddleEndRound : Bool)
    (firstRound lastRound : Nat) : Prop :=
  ¬ (lastRound < startRound ∨ endRound < firstRound) ∧
    ((startRound ≤ firstRound ∧ lastRound ≤ endRound) ∨
      (straddleStartRound = true ∧ firstRound ≤ startRound ∧ startRound ≤ lastRound) ∨
      (straddleEndRound = true ∧ firstRound ≤ endRound ∧ endRound ≤ lastRound))

instance (p q : Nat) (ss se : Bool) (f l : Nat) : Decidable (selectsSpan p q ss se f l) := by
  unfold selectsSpan
  infer_instance

/-- Whether `select_pcm_columns_for_round_range` keeps a column. -/
def selectsColumn (layout : RoundLayout) (startRound endRound : Nat)
    (straddleStartRound straddleEndRound : Bool) (col : List Nat) : Prop :=
  col ≠ [] ∧ selectsSpan startRound endRound straddleStartRound straddleEndRound
    (layout.rowToRound (col.headD 0)) (layout.rowToRound (col.getLastD 0))

instance (l : RoundLayout) (p q : Nat) (ss se : Bool) (col : List Nat) :
    Decidable (selectsColumn l p q ss se col) := by
  unfold selectsColumn
  infer_instance

/-- `select_pcm_columns_for_round_range`: the columns, the first of them and the last. -/
def selectPcmColumnsForRoundRange (rowIndices : List (List Nat)) (layout : RoundLayout)
    (startRound endRound : Nat) (straddleStartRound straddleEndRound : Bool) :
    List Nat × Nat × Nat :=
  let columnsInRange := (List.range rowIndices.length).filter fun c =>
    selectsColumn layout startRound endRound straddleStartRound straddleEndRound
      (rowIndices.getD c [])
  (columnsInRange, columnsInRange.headD uint32Max, columnsInRange.getLastD 0)

def cutColumns (rowIndices : List (List Nat)) (columns : List Nat) (firstRow lastRow : Nat) :
    BitMatrix :=
  .ofFn (u32 (lastRow - firstRow + 1)) columns.length fun r c =>
    decide (firstRow + r ≤ lastRow ∧ firstRow + r ∈ rowIndices.getD (columns.getD c 0) [])

/-- `get_pcm_for_rounds` on a canonical matrix: the sub-matrix, its first column and its last. -/
def getPcmForRounds (pcm : SparseBinaryMatrix) (S startRound endRound : Nat)
    (straddleStartRound straddleEndRound : Bool) (B : Nat) :
    Except Error (BitMatrix × Nat × Nat) := do
  validatePcmForRoundsParams S B startRound endRound pcm.numRows
  let layout : RoundLayout := ⟨S, B, pcm.numRows⟩
  let firstRowToKeep := u32 (layout.roundStart startRound)
  let lastRowToKeep := u32 (layout.roundStart (endRound + 1) - 1)
  let (columnsInRange, firstColumn, lastColumn) := selectPcmColumnsForRoundRange pcm.toNestedCsc
    layout startRound endRound straddleStartRound straddleEndRound
  return (cutColumns pcm.toNestedCsc columnsInRange firstRowToKeep lastRowToKeep, firstColumn,
    lastColumn)

section
variable {rowIndices : List (List Nat)} {l : RoundLayout} {p q : Nat} {ss se : Bool}

theorem mem_selected {c : Nat} :
    c ∈ (selectPcmColumnsForRoundRange rowIndices l p q ss se).1 ↔
      c < rowIndices.length ∧ selectsColumn l p q ss se (rowIndices.getD c []) := by
  simp [selectPcmColumnsForRoundRange]

/-- A selection with as many columns as there are numbers from its first to its last is not empty and
has no gaps. With no column selected the two are `2 ^ 32 - 1` and `0`, two numbers apart. -/
theorem selected_eq_range' (hn : rowIndices.length < 2 ^ 32) {columns : List Nat} {first last : Nat}
    (h : selectPcmColumnsForRoundRange rowIndices l p q ss se = (columns, first, last))
    (hlen : u32 (last + 2 ^ 32 - first + 1) = columns.length) :
    columns ≠ [] ∧ columns = List.range' first columns.length ∧
      first + columns.length ≤ rowIndices.length := by
  simp only [selectPcmColumnsForRoundRange, Prod.mk.injEq] at h
  obtain ⟨hcols, hfirst, hlast⟩ := h
  rw [hcols] at hfirst hlast
  by_cases hne : columns = []
  · subst hne
    simp only [List.headD_nil, List.getLastD_nil, List.length_nil] at hfirst hlast hlen
    subst hfirst hlast
    exact absurd hlen (by decide)
  · have hpair : columns.Pairwise (· < ·) := hcols ▸ List.pairwise_lt_range.filter _
    have hhead : first = columns.headD 0 := by
      obtain ⟨a, m, rfl⟩ := List.exists_cons_of_ne_nil hne
      exact hfirst.symm
    have hmem : last ∈ columns := by
      rw [← hlast, List.getLastD_eq_getLast?, List.getLast?_eq_getLast_of_ne_nil hne]
      exact List.getLast_mem hne
    rw [← hcols, List.mem_filter, List.mem_range] at hmem
    have hle := head_add_length_le hpair hne
    have hpos := List.length_pos_of_ne_nil hne
    have hlt := hmem.1
    rw [← hhead, hlast] at hle
    have hcount : last + 1 = first + columns.length := by
      unfold u32 at hlen
      omega
    refine ⟨hne, ?_, by omega⟩
    rw [hhead]
    exact eq_range'_of_pairwise_lt hpair hne (by rw [hlast, ← hhead, hcount])

end

/-! ## One layer, counted three times -/

namespace RoundLayout.Whole

variable {l : RoundLayout} (h : l.Whole) {row : Nat}

include h

/-- The order of the columns counts layers as the layout does, past a boundary of its own. -/
theorem roundOf_eq (hB : 0 < l.B) (hrow : row < l.numRows) : roundOf l.S l.B row = l.rowToRound row := by
  have hpos := h.pos
  unfold roundOf rowToRound
  rcases h.layers with ⟨hb, m, hrows, -⟩ | ⟨hb, -, hBS, k, hrows, hk⟩
  · rw [if_pos hb]
    have hBS : l.B = l.S := by
      simp only [boundary, Bool.and_eq_false_iff, decide_eq_false_iff_not] at hb
      omega
    rw [hBS]
    split
    · next hlt => rw [Nat.div_eq_of_lt hlt]
    · next hge =>
      rw [@Nat.div_eq_sub_div l.S row hpos (by omega), Nat.add_comm]
  · have hb' : ¬ l.boundary = false := by simp [hb]
    rw [if_neg hb']
    split
    · rfl
    · split
      · next hge hback =>
        -- The last boundary is narrower than a layer, so it is one more quotient.
        have hback' : l.B + k * l.S ≤ row := by omega
        have hquot : (row - l.B) / l.S = k :=
          Nat.div_eq_of_lt_le (by omega) (by rw [Nat.succ_mul]; omega)
        rw [hquot]
        omega
      · rfl

theorem rowToRound_le (hrow : row < l.numRows) : l.rowToRound row ≤ row := by
  obtain ⟨-, hstart, -⟩ := h.rowToRound_spec hrow
  have hgrow : ∀ r ≤ l.numRounds, r ≤ l.roundStart r := fun r => by
    induction r with
    | zero => omega
    | succ r ih =>
      intro hr
      have := h.roundStart_lt_succ (show r < l.numRounds by omega)
      have := ih (by omega)
      omega
  have := hgrow _ (h.rowToRound_spec hrow).1.le
  omega

end RoundLayout.Whole

/-- The order of the columns counts layers as the layout does. -/
theorem RoundLayout.Fits.roundOf_eq {l : RoundLayout} (h : l.Fits) {row : Nat}
    (hrow : row < l.numRows) : roundOf l.S l.B row = l.rowToRound row :=
  h.whole.roundOf_eq h.boundary_pos hrow

/-- The round of a row to `get_sorted_pcm_column_indices` without a boundary width. -/
def scalarRound (S row : Nat) : Nat := row / S

/-- The round of a row to `get_sorted_pcm_column_indices` with a boundary width, a `uint32_t`. -/
def boundaryRound (S B row : Nat) : Nat :=
  if row < B then 0 else u32 (1 + (row - B) / S)

theorem boundaryRound_eq (S B row : Nat) : boundaryRound S B row = u32 (roundOf S B row) := by
  unfold boundaryRound roundOf
  split <;> rfl

namespace RoundLayout

/-- What `round_layout` promises: every row lies in one layer, the layers lie behind one another and
fill the rows, and the column order counts them alike. -/
structure Bijection (l : RoundLayout) : Prop where
  rowToRound_lt : ∀ row < l.numRows, l.rowToRound row < l.numRounds
  rowToRound_iff : ∀ row < l.numRows, ∀ r < l.numRounds,
    l.rowToRound row = r ↔ l.roundStart r ≤ row ∧ row < l.roundStart (r + 1)
  strict : ∀ r < l.numRounds, l.roundStart r < l.roundStart (r + 1)
  first : l.roundStart 0 = 0
  last : l.roundStart l.numRounds = l.numRows
  boundarySort : l.S < 2 ^ 32 → 0 < l.B → ∀ row < l.numRows, row < 2 ^ 32 →
    boundaryRound l.S l.B row = l.rowToRound row
  scalarSort : l.S < 2 ^ 32 → l.B = 0 → ∀ row < l.numRows, row < 2 ^ 32 →
    scalarRound l.S row = l.rowToRound row ∧
      boundaryRound l.S 0 row = u32 (l.rowToRound row + 1)

theorem bijection (l : RoundLayout) (h : l.Whole) : l.Bijection where
  rowToRound_lt row hrow := (h.rowToRound_spec hrow).1
  rowToRound_iff row hrow r hr := h.rowToRound_eq_iff hrow hr
  strict r hr := h.roundStart_lt_succ hr
  first := Whole.roundStart_zero
  last := h.roundStart_numRounds
  boundarySort _ hB row hrow hlt := by
    have hle := h.rowToRound_le hrow
    rw [boundaryRound_eq, h.roundOf_eq hB hrow, u32_of_lt (by omega)]
  scalarSort _ hB row hrow _ := by
    have hround : l.rowToRound row = row / l.S := by simp [rowToRound, boundary, hB]
    rw [hround, boundaryRound_eq, roundOf, if_neg (by omega), Nat.sub_zero, Nat.add_comm]
    exact ⟨rfl, rfl⟩

/-- Two boundaries of six rows around one layer of eight. -/
theorem bijection_sixEightSix : (⟨8, 6, 20⟩ : RoundLayout).Bijection :=
  bijection _ ⟨by decide, by decide, .inl ⟨1, rfl⟩, by decide⟩

/-- Without a boundary the layout counts from zero, and the sort with a boundary width from one. -/
theorem rowToRound_ne_boundaryRound :
    (⟨1, 0, 1⟩ : RoundLayout).Whole ∧ (⟨1, 0, 1⟩ : RoundLayout).rowToRound 0 = 0 ∧
      boundaryRound 1 0 0 = 1 :=
  ⟨⟨by decide, by decide, .inl ⟨1, rfl⟩, by decide⟩, by decide, by decide⟩

end RoundLayout

end CudaqQec
