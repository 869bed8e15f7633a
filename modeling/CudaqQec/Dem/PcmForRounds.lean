import CudaqQec.Dem.Atomic
import CudaqQec.SlidingWindow.Select
import CudaqQec.Sparse.Text

/-!
# The rows and columns of a range of layers, dense and sparse

The two overloads of `get_pcm_for_rounds`. They check their parameters and select columns with the same
code, and then cut the rows each in its own way: the dense one with `reorder_pcm_columns`, which
refuses a range that ends before it begins, the sparse one row by row.

* `Kept`: what the common checks promise of the rows that are kept.
* `roundsAgree_iff`: for which requests the two do the same.
-/

namespace CudaqQec

open Checked

/-! ## The two overloads -/

/-- `get_pcm_for_rounds` on a dense matrix. -/
def getPcmForRoundsDense (pcm : Tensor) (S startRound endRound : Nat)
    (straddleStartRound straddleEndRound : Bool) (B : Nat) : Except Error (Tensor × Nat × Nat) := do
  validatePcmForRoundsParams S B startRound endRound pcm.rows
  let layout : RoundLayout := ⟨S, B, pcm.rows⟩
  let firstRowToKeep := layout.roundStart startRound
  let lastRowToKeep := sizeT (layout.roundStart (u32 (endRound + 1)) - 1)
  let rowIndices ← denseToSparse pcm
  let (columnsInRange, firstColumn, lastColumn) := selectPcmColumnsForRoundRange rowIndices
    layout startRound endRound straddleStartRound straddleEndRound
  let sub ← reorderPcmColumns pcm columnsInRange (u32 firstRowToKeep) (u32 lastRowToKeep)
  return (sub, firstColumn, lastColumn)

/-- `get_pcm_for_rounds` on a sparse matrix. The rows of a column that lie in the range are written one
by one, so they lie in the result too. -/
def getPcmForRoundsSparse (pcm : SparseBinaryMatrix) (S startRound endRound : Nat)
    (straddleStartRound straddleEndRound pcmIsCanonical : Bool) (B : Nat) :
    Except Error (Tensor × Nat × Nat) := do
  validatePcmForRoundsParams S B startRound endRound pcm.numRows
  let layout : RoundLayout := ⟨S, B, pcm.numRows⟩
  let firstRowToKeep := u32 (layout.roundStart startRound)
  let lastRowToKeep := u32 (sizeT (layout.roundStart (u32 (endRound + 1)) - 1))
  let rowIndices := if pcmIsCanonical then pcm.toNestedCsc else pcm.canonicalize.toNestedCsc
  let (columnsInRange, firstColumn, lastColumn) := selectPcmColumnsForRoundRange rowIndices
    layout startRound endRound straddleStartRound straddleEndRound
  let numRowsToCopy := u32 (sub32 lastRowToKeep firstRowToKeep + 1)
  return (.ofEntries numRowsToCopy columnsInRange.length fun r c =>
      if firstRowToKeep + r ≤ lastRowToKeep ∧
          firstRowToKeep + r ∈ rowIndices.getD (columnsInRange.getD c 0) [] then 1 else 0,
    firstColumn, lastColumn)

/-- Both throw or neither does, and what they return is the same. -/
structure RoundsAgree (m : Tensor) (s : SparseBinaryMatrix) (S startRound endRound : Nat)
    (straddleStartRound straddleEndRound : Bool) (B : Nat) : Prop where
  throws :
    (∃ e, getPcmForRoundsDense m S startRound endRound straddleStartRound straddleEndRound B =
      .error e) ↔
    ∃ e, getPcmForRoundsSparse s S startRound endRound straddleStartRound straddleEndRound false B =
      .error e
  same : ∀ a b,
    getPcmForRoundsDense m S startRound endRound straddleStartRound straddleEndRound B = .ok a →
    getPcmForRoundsSparse s S startRound endRound straddleStartRound straddleEndRound false B =
      .ok b → a = b

/-! ## The rows that are kept -/

/-- What the common checks leave of the parameters: the range ends with a row of the matrix, and it
begins at or before its last row exactly when its layers are in order. -/
structure Kept (l : RoundLayout) (startRound endRound : Nat) : Prop where
  first_lt : l.roundStart startRound < l.numRows
  stop_pos : 0 < l.roundStart (endRound + 1)
  stop_le : l.roundStart (endRound + 1) ≤ l.numRows
  first_lt_stop_iff : l.roundStart startRound < l.roundStart (endRound + 1) ↔ startRound ≤ endRound
  end_lt : endRound + 1 < 2 ^ 32

/-- Without boundaries all layers are as wide as each other, and rows may be left over. -/
theorem kept_of_no_boundary {l : RoundLayout} {p q : Nat} (hb : l.boundary = false) (hS : 0 < l.S)
    (hrows : l.numRows < 2 ^ 32) (hq : q < l.numRounds) (hp : l.roundStart p < l.numRows) :
    Kept l p q := by
  have hstart : ∀ r, l.roundStart r = r * l.S := fun r => if_pos hb
  have hnum : l.numRounds = l.numRows / l.S := if_pos hb
  have hstop : (q + 1) * l.S ≤ l.numRows := by
    rw [hnum] at hq
    exact (Nat.le_div_iff_mul_le hS).mp hq
  have hcount : q + 1 ≤ (q + 1) * l.S := Nat.le_mul_of_pos_right _ hS
  refine ⟨hp, ?_, ?_, ?_, by omega⟩
  · rw [hstart]
    omega
  · rw [hstart]
    exact hstop
  · rw [hstart, hstart, Nat.mul_lt_mul_right hS]
    exact Nat.lt_succ_iff

/-- With boundaries the layers fill the matrix. -/
theorem kept_of_boundary {l : RoundLayout} {p q k : Nat} (hb : l.boundary = true) (hS : l.B < l.S)
    (hB : 0 < l.B) (hrows : l.numRows < 2 ^ 32) (hk : l.numRows = 2 * l.B + k * l.S)
    (hq : q < l.numRounds) (hp : l.roundStart p < l.numRows) : Kept l p q := by
  -- two boundary layers and `k` layers between them
  have hnum : l.numRounds = k + 2 := by
    have htwice : size64 (2 * l.B) = 2 * l.B := size64_of_lt (by omega)
    rw [RoundLayout.numRounds, if_neg (by rw [hb]; simp), htwice, if_pos (by omega), hk,
      Nat.add_sub_cancel_left, Nat.mul_div_cancel _ (by omega)]
  have hstart : ∀ r, l.roundStart r =
      if r = 0 then 0 else if k + 2 ≤ r then l.numRows else l.B + (r - 1) * l.S := by
    intro r
    rw [RoundLayout.roundStart, if_neg (by rw [hb]; simp), hnum]
  have hmul : ∀ i j, i ≤ j → i * l.S ≤ j * l.S := fun i j hij => Nat.mul_le_mul_right l.S hij
  have hcount : k ≤ k * l.S := Nat.le_mul_of_pos_right _ (by omega)
  have hfirst : p < k + 2 := by
    by_contra hlt
    rw [hstart, if_neg (by omega), if_pos (by omega)] at hp
    exact lt_irrefl _ hp
  -- the last layer ends with the matrix, any other where the next begins
  have hstop : l.roundStart (q + 1) = if q = k + 1 then l.numRows else l.B + q * l.S := by
    rw [hstart, if_neg (by omega), Nat.add_sub_cancel]
    split
    · rw [if_pos (by omega)]
    · rw [if_neg (by omega)]
  rw [hnum] at hq
  refine ⟨hp, ?_, ?_, ?_, by omega⟩
  · rw [hstop]
    split <;> omega
  · rw [hstop]
    split
    · exact le_refl _
    · have := hmul q k (by omega)
      omega
  · rw [hstop]
    split
    · next hlast =>
      constructor
      · intro _
        omega
      · intro _
        exact hp
    · next hlast =>
      rw [hstart]
      split
      · next h0 =>
        constructor
        · intro _
          omega
        · intro _
          omega
      · rw [if_neg (by omega)]
        constructor
        · intro hlt
          by_contra hgt
          have := hmul q (p - 1) (by omega)
          omega
        · intro hle
          have := hmul (p - 1 + 1) q (by omega)
          rw [Nat.succ_mul] at this
          omega

theorem kept_of_validate {S B p q rows : Nat} (hS32 : S < 2 ^ 32) (hrows : rows < 2 ^ 32)
    (h : validatePcmForRoundsParams S B p q rows = .ok ()) : Kept ⟨S, B, rows⟩ p q := by
  simp only [validatePcmForRoundsParams, bind_eq_ok, throwIf_eq_ok] at h
  obtain ⟨_, hS, _, hB, _, hfit, _, hend, hfirst⟩ := h
  have hS : 0 < S := Nat.pos_of_ne_zero hS
  have hend := not_le.mp hend
  cases hb : RoundLayout.boundary ⟨S, B, rows⟩ with
  | false => exact kept_of_no_boundary hb hS hrows hend (not_le.mp hfirst)
  | true =>
    have hwidth : B ≠ 0 ∧ B ≠ S := by
      simpa [RoundLayout.boundary] using hb
    simp only [hb, true_and, not_or, not_lt, not_not] at hfit
    -- Twice a boundary may pass `2 ^ 32` in the check, but then the layout has no layer.
    have hnarrow : 2 * B ≤ rows := by
      by_contra hwide
      have hnone : RoundLayout.numRounds ⟨S, B, rows⟩ = 0 := by
        have htwice : size64 (2 * B) = 2 * B := size64_of_lt (by omega)
        rw [RoundLayout.numRounds, if_neg (by rw [hb]; simp)]
        simp only [htwice]
        rw [if_neg hwide]
      omega
    have hu32 : u32 (2 * B) = 2 * B := u32_of_lt (by omega)
    rw [hu32] at hfit
    obtain ⟨k, hk⟩ := Nat.dvd_of_mod_eq_zero hfit.2
    have hfill : rows = 2 * B + k * S := by
      rw [Nat.mul_comm k S, ← hk]
      omega
    exact kept_of_boundary hb (lt_of_le_of_ne (not_lt.mp hB) hwidth.2)
      (Nat.pos_of_ne_zero hwidth.1) hrows hfill hend (not_le.mp hfirst)

/-! ## Where the two agree -/

variable {m : Tensor} {s : SparseBinaryMatrix}

/-- The canonical columns of a sparse matrix are the columns of the dense one. -/
theorem toNestedCsc_canonicalize_eq (hm : m.Binary) (h : Represents s m) :
    s.canonicalize.toNestedCsc = (List.range m.cols).map (columnRows m) := by
  have hlen : s.canonicalize.toNestedCsc.length = m.cols := by simp [h.cols]
  apply List.ext_getElem (by simp [hlen])
  intro c hc hc'
  have hcol : c < m.cols := by omega
  have hget : s.canonicalize.toNestedCsc[c] = s.canonicalize.toNestedCsc.getD c [] :=
    (List.getD_eq_getElem _ _ hc).symm
  rw [hget, List.getElem_map, List.getElem_range]
  apply (s.pairwise_lt_canonicalize c).sortedLT.eq_of_mem_iff
  · exact (List.pairwise_lt_range.filter _).sortedLT
  intro r
  have hcount : (s.canonicalize.toNestedCsc.getD c []).count r = s.count r c % 2 := by
    rw [SparseBinaryMatrix.count_toNestedCsc, SparseBinaryMatrix.count_canonicalize]
  have hmem : r ∈ s.canonicalize.toNestedCsc.getD c [] ↔ s.entry r c = true := by
    rw [← List.count_pos_iff, hcount, SparseBinaryMatrix.entry, decide_eq_true_eq]
    omega
  rw [hmem, columnRows, List.mem_filter, List.mem_range, decide_eq_true_eq]
  by_cases hr : r < m.rows
  · rw [h.entry r hr c hcol]
    rcases Tensor.entry_cases hm.entry r c with h0 | h1
    · simp [h0]
    · simp [h1, hr]
  · have hout : s.entry r c = false := s.entry_eq_false_of_row_le c (by rw [h.rows]; omega)
    rw [hout]
    exact iff_of_false (by decide) fun hin => hr hin.1

section Agree

variable {S B p q : Nat} (ss se : Bool)

def selectedOf (m : Tensor) (S B p q : Nat) (ss se : Bool) : List Nat × Nat × Nat :=
  selectPcmColumnsForRoundRange ((List.range m.cols).map (columnRows m)) ⟨S, B, m.rows⟩ p q ss se

/-- What the sparse overload returns. -/
theorem getPcmForRoundsSparse_eq (hm : m.Binary) (hs : Represents s m) (hS32 : S < 2 ^ 32)
    (hok : validatePcmForRoundsParams S B p q m.rows = .ok ()) :
    ∃ out, getPcmForRoundsSparse s S p q ss se false B = .ok out ∧
      (p ≤ q → out = (.ofEntries
        (RoundLayout.roundStart ⟨S, B, m.rows⟩ (q + 1) - RoundLayout.roundStart ⟨S, B, m.rows⟩ p)
        (selectedOf m S B p q ss se).1.length fun r j =>
          m.entry (RoundLayout.roundStart ⟨S, B, m.rows⟩ p + r)
            ((selectedOf m S B p q ss se).1.getD j 0),
        (selectedOf m S B p q ss se).2)) := by
  have hkept := kept_of_validate hS32 hm.rows_lt hok
  have hrows : s.numRows = m.rows := hs.rows
  have hcsc := toNestedCsc_canonicalize_eq hm hs
  rw [getPcmForRoundsSparse, hrows, hok]
  simp only [ok_bind, Bool.false_eq_true, if_false, hcsc]
  refine ⟨_, rfl, ?_⟩
  intro hpq
  have hlt := hkept.first_lt_stop_iff.mpr hpq
  have h1 := hkept.first_lt
  have h2 := hkept.stop_le
  have h3 := hm.rows_lt
  rw [u32_of_lt hkept.end_lt]
  change RoundLayout.roundStart ⟨S, B, m.rows⟩ p < m.rows at h1
  change RoundLayout.roundStart ⟨S, B, m.rows⟩ (q + 1) ≤ m.rows at h2
  set first := RoundLayout.roundStart ⟨S, B, m.rows⟩ p
  set stop := RoundLayout.roundStart ⟨S, B, m.rows⟩ (q + 1)
  -- `round_start - 1` does not wrap: the range is not empty at its end
  have hlast : u32 (sizeT ((stop : Int) - 1)) = stop - 1 := by
    have : ((stop : Int) - 1) = ((stop - 1 : Nat) : Int) := by omega
    rw [this, sizeT_natCast, u32_of_lt (by omega)]
  have hcount : u32 (sub32 (stop - 1) first + 1) = stop - first := by
    rw [sub32_of_le (by omega) (by omega), u32_of_lt (by omega)]
    omega
  rw [hlast, u32_of_lt (by omega : first < 2 ^ 32), hcount]
  -- element by element: a stored row of the column is a set entry of the dense matrix
  apply Prod.ext
  · apply Tensor.ofEntries_congr
    intro r hr j hj
    have hj : j < (selectedOf m S B p q ss se).1.length := hj
    have hsel : (selectedOf m S B p q ss se).1.getD j 0 ∈ (selectedOf m S B p q ss se).1 := by
      rw [List.getD_eq_getElem _ _ hj]
      exact List.getElem_mem hj
    have hcol : (selectedOf m S B p q ss se).1.getD j 0 < m.cols := by
      have := (mem_selected.mp hsel).1
      simpa using this
    change (if first + r ≤ stop - 1 ∧ first + r ∈ ((List.range m.cols).map (columnRows m)).getD
      ((selectedOf m S B p q ss se).1.getD j 0) [] then (1 : UInt8) else 0) = _
    rw [getD_map_range, if_pos hcol]
    have hmem : first + r ∈ columnRows m ((selectedOf m S B p q ss se).1.getD j 0) ↔
        m.entry (first + r) ((selectedOf m S B p q ss se).1.getD j 0) ≠ 0 := by
      rw [columnRows, List.mem_filter, List.mem_range, decide_eq_true_eq]
      exact and_iff_right (by omega)
    rcases Tensor.entry_cases hm.entry (first + r) ((selectedOf m S B p q ss se).1.getD j 0) with h0 | h0
    · rw [h0] at hmem ⊢
      exact if_neg fun hin => absurd rfl (hmem.mp hin.2)
    · rw [h0] at hmem ⊢
      exact if_pos ⟨by omega, hmem.mpr (by decide)⟩
  · rfl

/-- What the dense overload returns, and when. -/
theorem getPcmForRoundsDense_eq_ok_iff (hm : m.Binary) (hS32 : S < 2 ^ 32)
    (hok : validatePcmForRoundsParams S B p q m.rows = .ok ()) {out : Tensor × Nat × Nat} :
    getPcmForRoundsDense m S p q ss se B = .ok out ↔ p ≤ q ∧ 0 < m.cols ∧
      out = (.ofEntries
        (RoundLayout.roundStart ⟨S, B, m.rows⟩ (q + 1) - RoundLayout.roundStart ⟨S, B, m.rows⟩ p)
        (selectedOf m S B p q ss se).1.length fun r j =>
          m.entry (RoundLayout.roundStart ⟨S, B, m.rows⟩ p + r)
            ((selectedOf m S B p q ss se).1.getD j 0),
        (selectedOf m S B p q ss se).2) := by
  have hkept := kept_of_validate hS32 hm.rows_lt hok
  have hiff := hkept.first_lt_stop_iff
  have h1 : RoundLayout.roundStart ⟨S, B, m.rows⟩ p < m.rows := hkept.first_lt
  have h2 : RoundLayout.roundStart ⟨S, B, m.rows⟩ (q + 1) ≤ m.rows := hkept.stop_le
  have h3 := hm.rows_lt
  have h4 := hkept.stop_pos
  rw [getPcmForRoundsDense, hok]
  simp only [ok_bind, u32_of_lt hkept.end_lt]
  set first := RoundLayout.roundStart ⟨S, B, m.rows⟩ p
  set stop := RoundLayout.roundStart ⟨S, B, m.rows⟩ (q + 1)
  -- `round_start - 1` does not wrap: the range is not empty at its end
  have hlast : u32 (sizeT ((stop : Int) - 1)) = stop - 1 := by
    have : ((stop : Int) - 1) = ((stop - 1 : Nat) : Int) := by omega
    rw [this, sizeT_natCast, u32_of_lt (by omega)]
  rw [hlast, u32_of_lt (by omega : first < 2 ^ 32)]
  -- a matrix without columns is refused when it is made sparse
  by_cases hcols : 0 < m.cols
  swap
  · have hthrow : ∃ e, denseToSparse m = .error e := by
      rcases Dem.DetectorErrorModel.denseToSparse_cases m with ⟨-, hsome, -⟩ | ⟨-, herr⟩
      · exact absurd ⟨by omega, by omega⟩ hsome
      · exact herr
    obtain ⟨e, he⟩ := hthrow
    simp [he, hcols]
  rw [denseToSparse_eq hm.rank (by omega) (.inr hcols)]
  simp only [ok_bind]
  change (reorderPcmColumns m (selectedOf m S B p q ss se).1 first (stop - 1) >>= fun sub =>
    .ok (sub, (selectedOf m S B p q ss se).2)) = _ ↔ _
  -- rounds the wrong way around are refused when the rows are cut
  by_cases hpq : p ≤ q
  swap
  · have hbad : stop - 1 < first := by omega
    have hthrow : validateReorderPcmColumnsRows m.rows first (stop - 1) = .error (.invalidArgument
        "reorder_pcm_columns: row_begin must be less than or equal to row_end") := by
      rw [validateReorderPcmColumnsRows, throwIf_of hbad]
      rfl
    rw [reorderPcmColumns, throwIf_of_not (not_not.mpr hm.rank), ok_bind, hthrow]
    simp [hpq]
  have hlt := hiff.mpr hpq
  have hvalid : validateReorderPcmColumnsRows m.rows first (stop - 1) = .ok (stop - first) := by
    rw [validateReorderPcmColumnsRows, throwIf_of_not (by omega), ok_bind, if_neg (by omega),
      throwIf_of_not (by omega), ok_bind]
    have hcount : min (stop - 1) (min uint32Max (m.rows - 1)) - first + 1 = stop - first := by
      unfold uint32Max
      omega
    rw [hcount, u32_of_lt (by omega)]
    rfl
  have horder : ¬ (((selectedOf m S B p q ss se).1.any fun c => m.cols ≤ c) = true) := by
    simp only [List.any_eq_true, decide_eq_true_eq, not_exists, not_and, not_le]
    intro c hc
    simpa using (mem_selected.mp hc).1
  rw [reorderPcmColumns, throwIf_of_not (not_not.mpr hm.rank), ok_bind, hvalid, ok_bind,
    throwIf_of_not horder, ok_bind]
  simp only [hpq, hcols, true_and]
  constructor
  · intro h
    exact (Except.ok.inj h).symm
  · rintro rfl
    rfl

end Agree

/-! ## The two overloads against each other -/

/-- The two overloads do the same exactly when both refuse their parameters, or the layers are in order
and there is a column. -/
theorem roundsAgree_iff (hm : m.Binary) (hs : Represents s m) {S p q B : Nat} (hS32 : S < 2 ^ 32)
    (ss se : Bool) :
    RoundsAgree m s S p q ss se B ↔
      (∃ e, validatePcmForRoundsParams S B p q m.rows = .error e) ∨ p ≤ q ∧ 0 < m.cols := by
  cases hvalid : validatePcmForRoundsParams S B p q m.rows with
  | error e =>
    have hdense : getPcmForRoundsDense m S p q ss se B = .error e := by
      rw [getPcmForRoundsDense, hvalid, error_bind]
    have hsparse : getPcmForRoundsSparse s S p q ss se false B = .error e := by
      rw [getPcmForRoundsSparse, hs.rows, hvalid, error_bind]
    refine iff_of_true ⟨?_, ?_⟩ (.inl ⟨e, rfl⟩)
    · rw [hdense, hsparse]
    · intro a b ha
      rw [hdense] at ha
      cases ha
  | ok u =>
    obtain ⟨out, hsparse, hout⟩ := getPcmForRoundsSparse_eq ss se hm hs hS32 hvalid
    constructor
    · intro h
      right
      cases hd : getPcmForRoundsDense m S p q ss se B with
      | error e =>
        obtain ⟨e', he'⟩ := h.throws.mp ⟨e, hd⟩
        rw [hsparse] at he'
        cases he'
      | ok a =>
        have := (getPcmForRoundsDense_eq_ok_iff ss se hm hS32 hvalid).mp hd
        exact ⟨this.1, this.2.1⟩
    · rintro (⟨e, he⟩ | ⟨hpq, hcols⟩)
      · cases he
      · have hd := (getPcmForRoundsDense_eq_ok_iff ss se hm hS32 hvalid).mpr ⟨hpq, hcols, hout hpq⟩
        refine ⟨?_, ?_⟩
        · rw [hd, hsparse]
        · intro a b ha hb
          rw [hd] at ha
          rw [hsparse] at hb
          exact (Except.ok.inj ha).symm.trans (Except.ok.inj hb)

/-- The first layer of two. -/
theorem roundsAgree_first : RoundsAgree (.zeros 2 1)
    { SparseBinaryMatrix.empty with
      numRows := 2, numCols := 1, groups := [[]], rows_lt := by decide, cols_lt := by decide,
      length_groups := rfl, index_lt := by simp, nnz_lt := by decide } 1 0 0 false false 0 := by
  apply (roundsAgree_iff ?_ ?_ (by decide) false false).mpr
  · exact .inr ⟨le_refl _, by decide⟩
  · refine ⟨rfl, ?_, by decide, by decide⟩
    intro x hx
    simp only [Tensor.zeros, Tensor.ofEntries, List.mem_flatMap, List.mem_map] at hx
    obtain ⟨_, _, _, _, rfl⟩ := hx
    exact .inl rfl
  · refine ⟨rfl, rfl, ?_⟩
    decide

/-- Asked for the second layer up to the first, the dense overload throws and the sparse one returns no
rows. -/
theorem not_roundsAgree : ¬ ∀ (m : Tensor) (s : SparseBinaryMatrix) (S p q B : Nat) (ss se : Bool),
    m.Binary → Represents s m → S < 2 ^ 32 → RoundsAgree m s S p q ss se B := by
  intro hall
  have hagree := hall (.zeros 2 1)
    { SparseBinaryMatrix.empty with
      numRows := 2, numCols := 1, groups := [[]], rows_lt := by decide, cols_lt := by decide,
      length_groups := rfl, index_lt := by simp, nnz_lt := by decide } 1 1 0 0 false false
    ⟨rfl, by
      intro x hx
      simp only [Tensor.zeros, Tensor.ofEntries, List.mem_flatMap, List.mem_map] at hx
      obtain ⟨_, _, _, _, rfl⟩ := hx
      exact .inl rfl, by decide, by decide⟩
    ⟨rfl, rfl, by decide⟩ (by decide)
  obtain ⟨e, he⟩ := hagree.throws.mp ⟨_, rfl⟩
  cases he

end CudaqQec
