import CudaqQec.Dem.Atomic
import CudaqQec.Lib.Runs

/-!
# Sorting and simplifying a matrix

`sort_pcm_columns` puts the columns of a matrix in topological order. `simplify_pcm` drops the columns
that set no row or have no weight, and merges a column into the one before it in that order where both
set the same rows.

* `simplified_of_fits`: the columns that are left are distinct, with the weights of all columns they
  stand for.
* `columnOrder_sound_iff`: for which matrices the sort and the merge are right.
-/

namespace CudaqQec

open Checked Mechanisms Dem.DetectorErrorModel

/-! ## The functions -/

/-- `get_sorted_pcm_column_indices` of a matrix. -/
def getSortedPcmColumnIndicesOfDense (pcm : Tensor) (numSyndromesPerRound : Nat) :
    Except Error (List Nat) := do
  throwIf (pcm.shape.length ≠ 2)
    (.invalidArgument "get_sorted_pcm_column_indices: PCM must be a 2D tensor")
  let rowIndices ← denseToSparse pcm
  return sortedPcmColumnIndicesImpl rowIndices (0 < numSyndromesPerRound) (· / numSyndromesPerRound)

/-- `pcm_is_sorted` of a matrix. -/
def pcmIsSortedOfDense (pcm : Tensor) (numSyndromesPerRound : Nat) : Except Error Bool := do
  throwIf (pcm.shape.length ≠ 2) (.invalidArgument "pcm_is_sorted: PCM must be a 2D tensor")
  let columnIndices ← getSortedPcmColumnIndicesOfDense pcm numSyndromesPerRound
  return columnIndices = List.range pcm.cols

def sortPcmColumns (pcm : Tensor) (numSyndromesPerRound : Nat) : Except Error Tensor := do
  let columnOrder ← getSortedPcmColumnIndicesOfDense pcm numSyndromesPerRound
  reorderPcmColumns pcm columnOrder 0 uint32Max

/-- One column of `simplify_pcm`. The new columns are kept last first, with their weights. -/
def simplifyColumn (rowIndices : List (List Nat)) (weights : List ℚ) (new : List (List Nat × ℚ))
    (column : Nat) : List (List Nat × ℚ) :=
  let currRowIndices := rowIndices.getD column []
  let weight := weights.getD column 0
  if currRowIndices = [] ∨ weight = 0 then new
  else
    match new with
    | [] => [(currRowIndices, weight)]
    | (prevRowIndices, prevWeight) :: rest =>
      if prevRowIndices = currRowIndices then
        (prevRowIndices, prevWeight + weight - 2 * prevWeight * weight) :: rest
      else (currRowIndices, weight) :: (prevRowIndices, prevWeight) :: rest

/-- `simplify_pcm`, over exact rationals. -/
def simplifyPcm (pcm : Tensor) (weights : List ℚ) (numSyndromesPerRound : Nat) :
    Except Error (Tensor × List ℚ) := do
  let rowIndices ← denseToSparse pcm
  let columnOrder ← getSortedPcmColumnIndicesOfDense pcm numSyndromesPerRound
  let new := (columnOrder.foldl (simplifyColumn rowIndices weights) []).reverse
  return (.ofEntries pcm.rows new.length fun r c => if r ∈ (new.getD c ([], 0)).1 then 1 else 0,
    new.map Prod.snd)

/-! ## What is promised -/

def equalColumns (pcm : Tensor) (weights : List ℚ) (rows : List Nat) : List Nat :=
  (List.range pcm.cols).filter fun c => columnRows pcm c = rows ∧ weights.getD c 0 ≠ 0

/-- Each set of rows that a column with a weight sets, once, with the weights of all such columns. -/
structure Simplified (pcm : Tensor) (weights : List ℚ) (out : Tensor × List ℚ) : Prop where
  rank : out.1.shape.length = 2
  rows : out.1.rows = pcm.rows
  length_weights : out.2.length = out.1.cols
  nonempty : ∀ j < out.1.cols, columnRows out.1 j ≠ []
  distinct : ∀ i < out.1.cols, ∀ j < out.1.cols, columnRows out.1 i = columnRows out.1 j → i = j
  complete : ∀ c < pcm.cols, columnRows pcm c ≠ [] → weights.getD c 0 ≠ 0 →
    ∃ j < out.1.cols, columnRows out.1 j = columnRows pcm c
  sound : ∀ j < out.1.cols, equalColumns pcm weights (columnRows out.1 j) ≠ []
  weight : ∀ j < out.1.cols, out.2.getD j 0 =
    xorRates ((equalColumns pcm weights (columnRows out.1 j)).map fun c => weights.getD c 0)

/-- What sorting and merging columns rests on, and what both promise. -/
structure ColumnOrderSound (rowIndices : List (List Nat)) (useRounds : Bool) (roundOf : Nat → Nat)
    (pcm : Tensor) (weights : List ℚ) (numSyndromesPerRound : Nat) : Prop where
  order : ColumnOrderTotal rowIndices useRounds roundOf
  perm : (sortedPcmColumnIndicesImpl rowIndices useRounds roundOf).Perm
    (List.range rowIndices.length)
  sorted : ∃ sorted, sortPcmColumns pcm numSyndromesPerRound = .ok sorted ∧
    pcmIsSortedOfDense sorted numSyndromesPerRound = .ok true
  simplified : ∃ out, simplifyPcm pcm weights numSyndromesPerRound = .ok out ∧
    Simplified pcm weights out

/-- A matrix with a column where it has a row, whose column numbers fit a `uint32_t`, and so do the
rows that matter. -/
structure ColumnsFit (pcm : Tensor) (weights : List ℚ) : Prop where
  cols_pos : pcm.rows = 0 ∨ 0 < pcm.cols
  cols_le : pcm.cols ≤ 2 ^ 32
  rows_lt : ∀ c < pcm.cols, weights.getD c 0 ≠ 0 → ∀ r ∈ columnRows pcm c, r < 2 ^ 32

/-! ## Reading and sorting -/

/-- The rows of every column, as `dense_to_sparse` returns them. -/
def readColumnsOf (pcm : Tensor) : List (List Nat) :=
  (List.range pcm.cols).map fun c => (columnRows pcm c).map u32

variable {pcm : Tensor} {weights : List ℚ} {S : Nat}

@[simp] theorem length_readColumnsOf : (readColumnsOf pcm).length = pcm.cols := by
  simp [readColumnsOf]

theorem getD_readColumnsOf {c : Nat} (h : c < pcm.cols) :
    (readColumnsOf pcm).getD c [] = (columnRows pcm c).map u32 := by
  rw [readColumnsOf, getD_map_range, if_pos h]

/-- A matrix of rank 2 is read exactly when it has a column where it has a row. -/
theorem denseToSparse_eq_ok_iff (hrank : pcm.shape.length = 2) {rowIndices : List (List Nat)} :
    denseToSparse pcm = .ok rowIndices ↔
      (pcm.rows = 0 ∨ 0 < pcm.cols) ∧ rowIndices = readColumnsOf pcm := by
  rcases denseToSparse_cases pcm with ⟨-, hcols, hok⟩ | ⟨hbad, e, herr⟩
  · rw [hok, Except.ok.injEq, readColumnsOf, eq_comm]
    have : pcm.rows = 0 ∨ 0 < pcm.cols := by omega
    simp only [this, true_and]
  · have : ¬ (pcm.rows = 0 ∨ 0 < pcm.cols) := by
      rcases hbad with hbad | hbad
      · exact absurd hrank hbad
      · omega
    simp [herr, this]

def orderOfDense (pcm : Tensor) (S : Nat) : List Nat :=
  sortedPcmColumnIndicesImpl (readColumnsOf pcm) (0 < S) (· / S)

theorem getSortedOfDense_eq_ok_iff (hrank : pcm.shape.length = 2) {order : List Nat} :
    getSortedPcmColumnIndicesOfDense pcm S = .ok order ↔
      (pcm.rows = 0 ∨ 0 < pcm.cols) ∧ order = orderOfDense pcm S := by
  rw [getSortedPcmColumnIndicesOfDense, throwIf_of_not (not_not.mpr hrank), ok_bind, bind_eq_ok]
  constructor
  · rintro ⟨rowIndices, hread, horder⟩
    obtain ⟨hcols, rfl⟩ := (denseToSparse_eq_ok_iff hrank).mp hread
    exact ⟨hcols, (Except.ok.inj horder).symm⟩
  · rintro ⟨hcols, rfl⟩
    exact ⟨_, (denseToSparse_eq_ok_iff hrank).mpr ⟨hcols, rfl⟩, rfl⟩

theorem mem_orderOfDense {c : Nat} (h : c ∈ orderOfDense pcm S) : c < pcm.cols ∧ c < 2 ^ 32 := by
  have := mem_sortedPcmColumnIndicesImpl h
  rwa [length_readColumnsOf] at this

/-- Every column once, where the column numbers fit. -/
theorem orderOfDense_perm (h : pcm.cols ≤ 2 ^ 32) :
    (orderOfDense pcm S).Perm (List.range pcm.cols) := by
  have hperm : (orderOfDense pcm S).Perm (List.range (readColumnsOf pcm).length) :=
    sortedPcmColumnIndicesImpl_perm_iff.mpr (by rw [length_readColumnsOf]; exact h)
  rwa [length_readColumnsOf] at hperm

@[simp] theorem length_orderOfDense : (orderOfDense pcm S).length = pcm.cols := by
  simp [orderOfDense]

/-! ## The sorted matrix -/

def sortedOf (pcm : Tensor) (S : Nat) : Tensor :=
  .ofEntries (rowsCopied pcm.rows) (orderOfDense pcm S).length fun r j =>
    pcm.entry r ((orderOfDense pcm S).getD j 0)

theorem sortPcmColumns_eq_ok_iff (hrank : pcm.shape.length = 2) {sorted : Tensor} :
    sortPcmColumns pcm S = .ok sorted ↔
      (pcm.rows = 0 ∨ 0 < pcm.cols) ∧ sorted = sortedOf pcm S := by
  have hwhole : reorderPcmColumns pcm (orderOfDense pcm S) 0 uint32Max = .ok (sortedOf pcm S) :=
    reorderPcmColumns_whole hrank fun c hc => (mem_orderOfDense hc).1
  rw [sortPcmColumns, bind_eq_ok]
  constructor
  · rintro ⟨order, horder, hsorted⟩
    obtain ⟨hcols, rfl⟩ := (getSortedOfDense_eq_ok_iff hrank).mp horder
    rw [hwhole] at hsorted
    exact ⟨hcols, (Except.ok.inj hsorted).symm⟩
  · rintro ⟨hcols, rfl⟩
    exact ⟨_, (getSortedOfDense_eq_ok_iff hrank).mpr ⟨hcols, rfl⟩, hwhole⟩

theorem pcmIsSortedOfDense_iff (hrank : pcm.shape.length = 2) :
    pcmIsSortedOfDense pcm S = .ok true ↔
      (pcm.rows = 0 ∨ 0 < pcm.cols) ∧ orderOfDense pcm S = List.range pcm.cols := by
  rw [pcmIsSortedOfDense, throwIf_of_not (not_not.mpr hrank), ok_bind, bind_eq_ok]
  constructor
  · rintro ⟨order, horder, hsorted⟩
    obtain ⟨hcols, rfl⟩ := (getSortedOfDense_eq_ok_iff hrank).mp horder
    exact ⟨hcols, of_decide_eq_true (Except.ok.inj hsorted)⟩
  · rintro ⟨hcols, heq⟩
    refine ⟨_, (getSortedOfDense_eq_ok_iff hrank).mpr ⟨hcols, rfl⟩, ?_⟩
    rw [heq]
    simp
    rfl

theorem readColumnsOf_sortedOf (hrows : pcm.rows < 2 ^ 32) :
    readColumnsOf (sortedOf pcm S) =
      (orderOfDense pcm S).map fun c => (readColumnsOf pcm).getD c [] := by
  apply List.ext_getElem
  · simp [sortedOf]
  · intro j hj hj'
    have hlt : j < (orderOfDense pcm S).length := by
      rw [List.length_map] at hj'
      exact hj'
    have hget : (orderOfDense pcm S).getD j 0 = (orderOfDense pcm S)[j] :=
      List.getD_eq_getElem _ _ hlt
    have hmem : (orderOfDense pcm S)[j] < pcm.cols := (mem_orderOfDense (List.getElem_mem hlt)).1
    simp only [readColumnsOf, List.getElem_map, List.getElem_range]
    rw [getD_map_range, if_pos hmem, sortedOf, rowsCopied, if_pos hrows, columnRows_reorder hlt, hget]

theorem eq_nil_of_mem_readColumnsOf (hrows : ¬ pcm.rows < 2 ^ 32) {v : List Nat}
    (hv : v ∈ readColumnsOf (sortedOf pcm S)) : v = [] := by
  obtain ⟨j, -, rfl⟩ := List.mem_map.mp hv
  rw [columnRows, sortedOf, rowsCopied, if_neg hrows]
  rfl

/-- Sorting again changes nothing. -/
theorem orderOfDense_sortedOf (h : pcm.cols ≤ 2 ^ 32) :
    orderOfDense (sortedOf pcm S) S = List.range (sortedOf pcm S).cols := by
  have hcols : (sortedOf pcm S).cols = pcm.cols := by simp [sortedOf]
  have hlen : (readColumnsOf (sortedOf pcm S)).length ≤ 2 ^ 32 := by
    rw [length_readColumnsOf, hcols]
    exact h
  rw [orderOfDense, sortedPcmColumnIndicesImpl_eq hlen, sortedColumns_eq_range,
    length_readColumnsOf]
  by_cases hrows : pcm.rows < 2 ^ 32
  · rw [readColumnsOf_sortedOf hrows, List.pairwise_map, orderOfDense,
      sortedPcmColumnIndicesImpl_eq (by rw [length_readColumnsOf]; exact h)]
    exact pairwise_sortedColumns _ _
  · refine List.Pairwise.imp_of_mem ?_ (List.pairwise_of_forall fun _ _ => trivial)
    intro v w hv hw _
    rw [eq_nil_of_mem_readColumnsOf hrows hv, eq_nil_of_mem_readColumnsOf hrows hw]

/-- A sorted matrix is found sorted exactly when it is returned and its column numbers fit. -/
theorem exists_sorted_iff (hrank : pcm.shape.length = 2) :
    (∃ sorted, sortPcmColumns pcm S = .ok sorted ∧ pcmIsSortedOfDense sorted S = .ok true) ↔
      (pcm.rows = 0 ∨ 0 < pcm.cols) ∧ pcm.cols ≤ 2 ^ 32 := by
  have hcols : (sortedOf pcm S).cols = pcm.cols := by simp [sortedOf]
  constructor
  · rintro ⟨sorted, hsort, hsorted⟩
    obtain ⟨hpos, rfl⟩ := (sortPcmColumns_eq_ok_iff hrank).mp hsort
    refine ⟨hpos, ?_⟩
    have horder := ((pcmIsSortedOfDense_iff rfl).mp hsorted).2
    by_contra hlt
    have hmem : 2 ^ 32 ∈ orderOfDense (sortedOf pcm S) S := by
      rw [horder, List.mem_range, hcols]
      omega
    exact lt_irrefl _ (mem_orderOfDense hmem).2
  · rintro ⟨hpos, hle⟩
    refine ⟨_, (sortPcmColumns_eq_ok_iff hrank).mpr ⟨hpos, rfl⟩, ?_⟩
    apply (pcmIsSortedOfDense_iff rfl).mpr
    refine ⟨?_, orderOfDense_sortedOf hle⟩
    rw [hcols]
    rcases hpos with h0 | h0
    · left
      simp [sortedOf, rowsCopied, h0]
    · exact .inr h0

/-! ## Merging equal columns -/

/-- The columns that `simplify_pcm` does not skip, as rows and weight. -/
def entriesOf (rowIndices : List (List Nat)) (weights : List ℚ) (order : List Nat) :
    List (List Nat × ℚ) :=
  (order.filter fun c => ¬ (rowIndices.getD c [] = [] ∨ weights.getD c 0 = 0)).map fun c =>
    (rowIndices.getD c [], weights.getD c 0)

theorem simplifyColumn_eq (rowIndices : List (List Nat)) (weights : List ℚ)
    (new : List (List Nat × ℚ)) {c : Nat}
    (h : ¬ (rowIndices.getD c [] = [] ∨ weights.getD c 0 = 0)) :
    simplifyColumn rowIndices weights new c =
      Runs.push xorRate new (rowIndices.getD c [], weights.getD c 0) := by
  simp only [simplifyColumn, if_neg h]
  cases new with
  | nil => rfl
  | cons last rest => rfl

theorem foldl_simplifyColumn (rowIndices : List (List Nat)) (weights : List ℚ) (order : List Nat)
    (new : List (List Nat × ℚ)) :
    order.foldl (simplifyColumn rowIndices weights) new =
      (entriesOf rowIndices weights order).foldl (Runs.push xorRate) new := by
  induction order generalizing new with
  | nil => rfl
  | cons c order ih =>
    rw [List.foldl_cons, ih]
    by_cases hskip : rowIndices.getD c [] = [] ∨ weights.getD c 0 = 0
    · have hnew : simplifyColumn rowIndices weights new c = new := if_pos hskip
      have hentries : entriesOf rowIndices weights (c :: order) =
          entriesOf rowIndices weights order := by
        rw [entriesOf, List.filter_cons_of_neg (by simp only [hskip, not_true_eq_false, decide_false,
          Bool.false_eq_true, not_false_eq_true]), entriesOf]
      rw [hnew, hentries]
    · have hentries : entriesOf rowIndices weights (c :: order) =
          (rowIndices.getD c [], weights.getD c 0) :: entriesOf rowIndices weights order := by
        rw [entriesOf, List.filter_cons_of_pos (by simp only [hskip, not_false_eq_true, decide_true]),
          List.map_cons, entriesOf]
      rw [simplifyColumn_eq _ _ _ hskip, hentries, List.foldl_cons]

def newColumns (pcm : Tensor) (weights : List ℚ) (S : Nat) : List (List Nat × ℚ) :=
  ((orderOfDense pcm S).foldl (simplifyColumn (readColumnsOf pcm) weights) []).reverse

/-- The result of `simplify_pcm`. -/
def simplifiedOf (pcm : Tensor) (weights : List ℚ) (S : Nat) : Tensor × List ℚ :=
  (.ofEntries pcm.rows (newColumns pcm weights S).length fun r c =>
    if r ∈ ((newColumns pcm weights S).getD c ([], 0)).1 then 1 else 0,
    (newColumns pcm weights S).map Prod.snd)

theorem simplifyPcm_eq_ok_iff (hrank : pcm.shape.length = 2) {out : Tensor × List ℚ} :
    simplifyPcm pcm weights S = .ok out ↔
      (pcm.rows = 0 ∨ 0 < pcm.cols) ∧ out = simplifiedOf pcm weights S := by
  rw [simplifyPcm, bind_eq_ok]
  constructor
  · rintro ⟨rowIndices, hread, hrest⟩
    obtain ⟨hcols, rfl⟩ := (denseToSparse_eq_ok_iff hrank).mp hread
    obtain ⟨order, horder, hout⟩ := bind_eq_ok.mp hrest
    obtain ⟨-, rfl⟩ := (getSortedOfDense_eq_ok_iff hrank).mp horder
    exact ⟨hcols, (Except.ok.inj hout).symm⟩
  · rintro ⟨hcols, rfl⟩
    refine ⟨_, (denseToSparse_eq_ok_iff hrank).mpr ⟨hcols, rfl⟩, ?_⟩
    exact bind_eq_ok.mpr ⟨_, (getSortedOfDense_eq_ok_iff hrank).mpr ⟨hcols, rfl⟩, rfl⟩

/-- A new column sets the rows it was given, those that there are. -/
theorem columnRows_simplifiedOf {j : Nat} (hj : j < (newColumns pcm weights S).length) :
    columnRows (simplifiedOf pcm weights S).1 j =
      (List.range pcm.rows).filter fun r => r ∈ ((newColumns pcm weights S).getD j ([], 0)).1 := by
  rw [columnRows]
  apply List.filter_congr
  intro r hr
  have hr' : r < pcm.rows := List.mem_range.mp hr
  rw [simplifiedOf, Tensor.entry_ofEntries _ _ _ hr' hj]
  by_cases hmem : r ∈ ((newColumns pcm weights S).getD j ([], 0)).1
  · rw [if_pos hmem]
    exact (decide_eq_true hmem).symm
  · rw [if_neg hmem]
    exact (decide_eq_false hmem).symm

theorem merged_newColumns (weights : List ℚ) (S : Nat) (h : pcm.cols ≤ 2 ^ 32) :
    Runs.Merged xorRate 0 (entriesOf (readColumnsOf pcm) weights (orderOfDense pcm S))
      (newColumns pcm weights S).reverse := by
  rw [newColumns, List.reverse_reverse, foldl_simplifyColumn]
  apply Runs.merged_foldl (columnKey_injective (roundKey (0 < S) (· / S)))
  · intro v
    simp [xorRate]
  · rw [entriesOf, List.pairwise_map]
    apply List.Pairwise.filter
    rw [orderOfDense, sortedPcmColumnIndicesImpl_eq (by rw [length_readColumnsOf]; exact h)]
    exact pairwise_sortedColumns _ _

section Fits

variable (h : ColumnsFit pcm weights)
include h

theorem ColumnsFit.getD_readColumnsOf {c : Nat} (hc : c < pcm.cols) (hw : weights.getD c 0 ≠ 0) :
    (readColumnsOf pcm).getD c [] = columnRows pcm c := by
  rw [CudaqQec.getD_readColumnsOf hc, map_u32_of_lt (h.rows_lt c hc hw)]

theorem ColumnsFit.mem_orderOfDense {c : Nat} : c ∈ orderOfDense pcm S ↔ c < pcm.cols := by
  rw [(orderOfDense_perm h.cols_le).mem_iff, List.mem_range]

/-- The columns that the merge sees with the rows of one of them. -/
theorem ColumnsFit.mem_entries {rows : List Nat} :
    rows ∈ (entriesOf (readColumnsOf pcm) weights (orderOfDense pcm S)).map Prod.fst ↔
      rows ≠ [] ∧ ∃ c < pcm.cols, weights.getD c 0 ≠ 0 ∧ columnRows pcm c = rows := by
  simp only [entriesOf, List.map_map, List.mem_map, List.mem_filter, decide_eq_true_eq, not_or,
    Function.comp_apply, h.mem_orderOfDense]
  constructor
  · rintro ⟨c, ⟨hc, hne, hw⟩, rfl⟩
    exact ⟨hne, c, hc, hw, (h.getD_readColumnsOf hc hw).symm⟩
  · rintro ⟨hne, c, hc, hw, rfl⟩
    have hread := h.getD_readColumnsOf hc hw
    exact ⟨c, ⟨hc, by rw [hread]; exact hne, hw⟩, hread⟩

theorem ColumnsFit.valuesOf_perm {rows : List Nat} (hne : rows ≠ []) :
    (Runs.valuesOf (entriesOf (readColumnsOf pcm) weights (orderOfDense pcm S)) rows).Perm
      ((equalColumns pcm weights rows).map fun c => weights.getD c 0) := by
  have hperm : (orderOfDense pcm S).Perm (List.range pcm.cols) := orderOfDense_perm h.cols_le
  rw [Runs.valuesOf, entriesOf, List.filter_map, List.map_map, List.filter_filter, equalColumns]
  have hsame : ∀ c ∈ List.range pcm.cols,
      (((fun e : List Nat × ℚ => decide (e.1 = rows)) ∘
          fun c => ((readColumnsOf pcm).getD c [], weights.getD c 0)) c &&
        decide ¬ ((readColumnsOf pcm).getD c [] = [] ∨ weights.getD c 0 = 0)) =
      decide (columnRows pcm c = rows ∧ weights.getD c 0 ≠ 0) := by
    intro c hc
    have hc := List.mem_range.mp hc
    rw [Bool.eq_iff_iff]
    simp only [Function.comp_apply, Bool.and_eq_true, decide_eq_true_eq, not_or]
    constructor
    · rintro ⟨hrows, -, hw⟩
      rw [h.getD_readColumnsOf hc hw] at hrows
      exact ⟨hrows, hw⟩
    · rintro ⟨hrows, hw⟩
      rw [h.getD_readColumnsOf hc hw, hrows]
      exact ⟨rfl, hne, hw⟩
  refine List.Perm.map _ ((hperm.filter _).trans ?_)
  rw [List.filter_congr hsame]

/-- What `simplify_pcm` leaves of a matrix that fits. -/
theorem simplified_of_fits : Simplified pcm weights (simplifiedOf pcm weights S) := by
  have hmerged := merged_newColumns weights S h.cols_le
  -- Every new column is an entry of the merge, and sets the rows of a column with a weight.
  have hentry : ∀ j, ∀ hj : j < (newColumns pcm weights S).length,
      (newColumns pcm weights S)[j] ∈ (newColumns pcm weights S).reverse := by
    intro j hj
    exact List.mem_reverse.mpr (List.getElem_mem hj)
  have hkey : ∀ j, ∀ hj : j < (newColumns pcm weights S).length,
      (newColumns pcm weights S)[j].1 ≠ [] ∧ ∃ c < pcm.cols, weights.getD c 0 ≠ 0 ∧
        columnRows pcm c = (newColumns pcm weights S)[j].1 := by
    intro j hj
    apply h.mem_entries.mp
    exact (hmerged.keys _).mp (List.mem_map_of_mem (hentry j hj))
  have hrows : ∀ j, ∀ hj : j < (newColumns pcm weights S).length,
      columnRows (simplifiedOf pcm weights S).1 j = (newColumns pcm weights S)[j].1 := by
    intro j hj
    obtain ⟨-, c, -, -, hc⟩ := hkey j hj
    rw [columnRows_simplifiedOf hj, List.getD_eq_getElem _ _ hj, ← hc, columnRows]
    apply List.filter_congr
    intro r hr
    simp [List.mem_range.mp hr]
  have hnodup : ((newColumns pcm weights S).map Prod.fst).Nodup := by
    have := hmerged.nodup
    rwa [List.map_reverse, List.nodup_reverse] at this
  refine ⟨rfl, rfl, by simp [simplifiedOf], ?_, ?_, ?_, ?_, ?_⟩
  · intro j hj
    rw [hrows j hj]
    exact (hkey j hj).1
  · intro i hi j hj heq
    rw [hrows i hi, hrows j hj] at heq
    have hi' : i < ((newColumns pcm weights S).map Prod.fst).length := by
      rw [List.length_map]
      exact hi
    have hj' : j < ((newColumns pcm weights S).map Prod.fst).length := by
      rw [List.length_map]
      exact hj
    have hsame : ((newColumns pcm weights S).map Prod.fst)[i] =
        ((newColumns pcm weights S).map Prod.fst)[j] := by
      rw [List.getElem_map, List.getElem_map]
      exact heq
    exact hnodup.getElem_inj_iff.mp hsame
  · intro c hc hne hw
    have hmem := (hmerged.keys (columnRows pcm c)).mpr (h.mem_entries.mpr ⟨hne, c, hc, hw, rfl⟩)
    obtain ⟨e, he, heq⟩ := List.mem_map.mp hmem
    obtain ⟨j, hj, rfl⟩ := List.getElem_of_mem (List.mem_reverse.mp he)
    exact ⟨j, hj, by rw [hrows j hj, heq]⟩
  · intro j hj hnil
    obtain ⟨-, c, hc, hw, heq⟩ := hkey j hj
    have hmem : c ∈ equalColumns pcm weights (columnRows (simplifiedOf pcm weights S).1 j) := by
      rw [equalColumns, List.mem_filter, List.mem_range, hrows j hj]
      exact ⟨hc, decide_eq_true ⟨heq, hw⟩⟩
    rw [hnil] at hmem
    cases hmem
  · intro j hj
    have hvalue := hmerged.values _ (hentry j hj)
    have hweight : (simplifiedOf pcm weights S).2.getD j 0 = (newColumns pcm weights S)[j].2 := by
      have hj' : j < (simplifiedOf pcm weights S).2.length := by
        simp only [simplifiedOf, List.length_map]
        exact hj
      rw [List.getD_eq_getElem _ _ hj']
      exact List.getElem_map _
    rw [hweight, hvalue, hrows j hj]
    exact xorRates_perm two_ne_zero (h.valuesOf_perm (hkey j hj).1)

end Fits

theorem rows_lt_of_simplified {c : Nat} (hc : c < pcm.cols) (hw : weights.getD c 0 ≠ 0)
    (hcols : pcm.cols ≤ 2 ^ 32) (h : Simplified pcm weights (simplifiedOf pcm weights S)) :
    ∀ r ∈ columnRows pcm c, r < 2 ^ 32 := by
  intro r hr
  obtain ⟨j, hj, heq⟩ := h.complete c hc (List.ne_nil_of_mem hr) hw
  have hj : j < (newColumns pcm weights S).length := hj
  rw [← heq, columnRows_simplifiedOf hj, List.getD_eq_getElem _ _ hj] at hr
  have hr := of_decide_eq_true (List.mem_filter.mp hr).2
  have hkey := ((merged_newColumns weights S hcols).keys _).mp
    (List.mem_map_of_mem (List.mem_reverse.mpr (List.getElem_mem hj)))
  obtain ⟨e, he, hfst⟩ := List.mem_map.mp hkey
  obtain ⟨c', hc', rfl⟩ := List.mem_map.mp he
  have hc' := (mem_orderOfDense (List.mem_of_mem_filter hc')).1
  rw [← hfst, getD_readColumnsOf hc'] at hr
  obtain ⟨r', -, rfl⟩ := List.mem_map.mp hr
  exact u32_lt r'

/-! ## When the order is sound -/

/-- The comparison is always a strict total order. The sort and the merge are right exactly where
column and row numbers fit a `uint32_t` and the matrix has a column if it has a row. -/
theorem columnOrder_sound_iff {rowIndices : List (List Nat)} (useRounds : Bool) (roundOf : Nat → Nat)
    (_ : ∀ rows ∈ rowIndices, rows.Pairwise (· < ·)) (hrank : pcm.shape.length = 2)
    (_ : weights.length = pcm.cols) (S : Nat) :
    ColumnOrderSound rowIndices useRounds roundOf pcm weights S ↔
      rowIndices.length ≤ 2 ^ 32 ∧ ColumnsFit pcm weights := by
  constructor
  · intro h
    obtain ⟨hpos, hcols⟩ := (exists_sorted_iff hrank).mp h.sorted
    obtain ⟨out, hout, hsimple⟩ := h.simplified
    obtain ⟨-, rfl⟩ := (simplifyPcm_eq_ok_iff hrank).mp hout
    refine ⟨sortedPcmColumnIndicesImpl_perm_iff.mp h.perm, hpos, hcols, ?_⟩
    intro c hc hw
    exact rows_lt_of_simplified hc hw hcols hsimple
  · rintro ⟨hlen, hfits⟩
    refine ⟨columnOrder_total _ _ _, sortedPcmColumnIndicesImpl_perm_iff.mpr hlen, ?_, ?_⟩
    · exact (exists_sorted_iff hrank).mpr ⟨hfits.cols_pos, hfits.cols_le⟩
    · exact ⟨_, (simplifyPcm_eq_ok_iff hrank).mpr ⟨hfits.cols_pos, rfl⟩, simplified_of_fits hfits⟩

/-- One column, with no rows to sort by. -/
theorem columnOrder_sound_one :
    ColumnOrderSound [[0]] false id (.ofEntries 1 1 fun _ _ => 1) [1 / 4] 1 := by
  apply (columnOrder_sound_iff false id (by simp) rfl rfl 1).mpr
  refine ⟨by decide, .inr (by decide), by decide, ?_⟩
  intro c _ _ r hr
  have : r < 1 := List.mem_range.mp (List.mem_of_mem_filter hr)
  omega

/-- A matrix of two rows and no columns is not sorted: reading it throws. -/
theorem not_columnOrder_sound_noColumns :
    ¬ ∀ (rowIndices : List (List Nat)) (useRounds : Bool) (roundOf : Nat → Nat) (pcm : Tensor)
      (weights : List ℚ) (S : Nat), (∀ rows ∈ rowIndices, rows.Pairwise (· < ·)) →
      pcm.shape.length = 2 → weights.length = pcm.cols →
      ColumnOrderSound rowIndices useRounds roundOf pcm weights S := by
  intro hall
  obtain ⟨sorted, hsort, -⟩ := (hall [] false id (.ofEntries 2 0 fun _ _ => 0) [] 1 (by simp) rfl
    rfl).sorted
  cases hsort

end CudaqQec
