import CudaqQec.ExtendedDem.Fold

/-!
# Closing a chain

`demClose` writes the leading and interior rows of one chunk as a dense matrix. `demCloseAll` writes
those of a whole chain chunk by chunk, without composing it first. Both flip bits, so each is
described by how often it hits a position (`BitMatrix.Added`), and both hit a position as often as
the bands of the composed chain list it.

* `demCloseAll_eq`: what the chunk-by-chunk pass writes.
* `demClose_eq`: what closing one chunk writes.
-/

namespace CudaqQec

open Checked SparseBinaryMatrix ExtendedDem BitMatrix

variable {c c' d r x : ExtendedDem} {cs : List ExtendedDem} {f t : SeamId}

/-! ## Writing one block -/

def rowsAt (ro co : Nat) (rows : List Row) (i j : Nat) : Nat :=
  if ro ≤ i ∧ co ≤ j then rows.getD (i - ro) zeroRow (j - co) else 0

@[simp] theorem rowsAt_nil (ro co i j : Nat) : rowsAt ro co [] i j = 0 := by
  simp [rowsAt]

def blockAt (ro co : Nat) (m : SparseBinaryMatrix) (i j : Nat) : Nat :=
  if ro ≤ i ∧ co ≤ j then m.count (i - ro) (j - co) else 0

theorem blockAt_eq_rowsAt (ro co : Nat) (m : SparseBinaryMatrix) :
    blockAt ro co m = rowsAt ro co m.rowCounts := by
  funext i j
  rw [blockAt, rowsAt, getD_rowCounts]

private theorem count_zipIdx_positions (cols : List (List Nat)) (ro co k i j : Nat) :
    ((cols.zipIdx k).flatMap fun p => p.1.map fun r => (ro + r, co + p.2)).count (i, j) =
      if ro ≤ i ∧ co + k ≤ j then (cols.getD (j - (co + k)) []).count (i - ro) else 0 := by
  induction cols generalizing k with
  | nil => simp
  | cons col cols ih =>
    have hcol : (col.map fun r => (ro + r, co + k)).count (i, j) =
        if ro ≤ i ∧ j = co + k then col.count (i - ro) else 0 := by
      rw [List.count_eq_countP, List.countP_map]
      split_ifs with h
      · rw [List.count_eq_countP]
        apply List.countP_congr
        intro r _
        simp only [Function.comp_apply, beq_iff_eq, Prod.mk.injEq]
        omega
      · rw [List.countP_eq_zero]
        intro r _
        simp only [Function.comp_apply, beq_iff_eq, Prod.mk.injEq]
        omega
    rw [List.zipIdx_cons, List.flatMap_cons, List.count_append, hcol, ih]
    by_cases hi : ro ≤ i
    · rcases Nat.lt_trichotomy j (co + k) with hj | hj | hj
      · rw [if_neg (by omega), if_neg (by omega), if_neg (by omega)]
      · rw [if_pos ⟨hi, hj⟩, if_neg (by omega), if_pos ⟨hi, hj.ge⟩, hj, Nat.sub_self,
          List.getD_cons_zero, Nat.add_zero]
      · obtain ⟨n, hn⟩ : ∃ n, j - (co + k) = n + 1 := ⟨j - (co + k) - 1, by omega⟩
        have hn' : j - (co + (k + 1)) = n := by omega
        rw [if_neg (by omega), if_pos (by omega), if_pos (by omega), hn, hn', List.getD_cons_succ,
          Nat.zero_add]
    · rw [if_neg (by omega), if_neg (by omega), if_neg (by omega)]

theorem count_blockPositions (m : SparseBinaryMatrix) (ro co i j : Nat) :
    (blockPositions m ro co).count (i, j) = blockAt ro co m i j := by
  rw [blockPositions, count_zipIdx_positions, blockAt, Nat.add_zero, count_toNestedCsc]

/-- A block that fits is written. -/
theorem exists_writeSparseBlock (dst : BitMatrix) (m : SparseBinaryMatrix) (ro co : Nat)
    (hr : ro + m.numRows ≤ dst.rows) (hc : co + m.numCols ≤ dst.cols) :
    ∃ dst', writeSparseBlock dst m ro co = .ok dst' ∧ Added dst dst' (blockAt ro co m) := by
  have hin : ∀ p ∈ blockPositions m ro co, p.1 < dst.rows ∧ p.2 < dst.cols := by
    rintro ⟨i, j⟩ hp
    have hpos : 0 < blockAt ro co m i j := by
      rw [← count_blockPositions]
      exact List.count_pos_iff.mpr hp
    unfold blockAt at hpos
    split_ifs at hpos with hij
    · have hrow : i - ro < m.numRows := by
        by_contra hge
        rw [count_eq_zero_of_row_le m _ (by omega)] at hpos
        omega
      have hcol : j - co < m.numCols := by
        by_contra hge
        rw [count_eq_zero_of_col_le m _ (by omega)] at hpos
        omega
      simp only
      omega
    · omega
  have hnone : (blockPositions m ro co).find?
      (fun p => decide (¬ (p.1 < dst.rows ∧ p.2 < dst.cols))) = none := by
    rw [List.find?_eq_none]
    intro p hp
    simpa using hin p hp
  refine ⟨dst.toggleAll (blockPositions m ro co), ?_, ?_⟩
  · rw [writeSparseBlock, hnone]
  · exact (added_toggleAll dst _ hin).congr fun i j => by rw [count_blockPositions]

/-! ## Closing one chunk -/

theorem ExtendedDem.Valid.bandNnz_le (h : d.Valid) (id : SeamId) :
    ((d.bandRowList id).map d.H.rowNnz).sum < 2 ^ 32 := by
  have hrows := sum_rows_eq d.H.rowNnz h.bands h.disjoint
  have hlt : d.H.numNnz < 2 ^ 32 := d.H.nnz_lt
  rw [numNnz_eq_sum, hrows] at hlt
  rw [bandRowList, List.map_map]
  unfold seamRowsOrZero seamBand
  cases hf : d.findSeam id with
  | none => simp
  | some s =>
    have hle := List.single_le_sum (l := d.seams.map fun s =>
      ((List.range s.numRows).map fun k => d.H.rowNnz (s.rowBegin + k)).sum)
      (fun _ _ => Nat.zero_le _) _ (List.mem_map_of_mem (mem_of_findSeam hf).1)
    simp only [Function.comp_def]
    exact lt_of_le_of_lt hle (by omega)

theorem ExtendedDem.Valid.interiorNnz_lt (h : d.Valid) :
    ((interiorRowList d.H.numRows d.seams).map d.H.rowNnz).sum < 2 ^ 32 := by
  have hrows := sum_rows_eq d.H.rowNnz h.bands h.disjoint
  have hlt : d.H.numNnz < 2 ^ 32 := d.H.nnz_lt
  rw [numNnz_eq_sum, hrows] at hlt
  omega

theorem seamRowsOrZero_of_not_hasSeam {id : SeamId} (h : d.hasSeam id = false) :
    d.seamRowsOrZero id = 0 := by
  by_contra hne
  rw [hasSeam_of_rows (by omega)] at h
  cases h

/-! ## The bands that are cut out -/

theorem ExtendedDem.Valid.exists_band (h : d.Valid) (id : SeamId)
    (hr : d.seamRowsOrZero id < uint32Max)
    (hc : d.seamRowsOrZero id = 0 → d.numFaults < uint32Max) :
    ∃ m, extractRowBand d.H (d.seamBand id).1 (d.seamBand id).2 = .ok m ∧
      m.numCols = d.H.numCols ∧ m.numRows = d.seamRowsOrZero id ∧
        m.rowCounts = (d.bandRowList id).map d.H.count := by
  obtain ⟨m, hm⟩ := h.exists_extractSeamRows hr hc (h.bandNnz_le id)
  obtain ⟨hc, hr, -⟩ := h.extractSeamRows_rowCounts hm
  rw [h.extractSeamRows_eq] at hm
  exact ⟨m, hm, hc, by rw [← length_rowCounts, hr, List.length_map, length_bandRowList], hr⟩

theorem ExtendedDem.Valid.exists_interior (h : d.Valid) (hr : d.numInteriorRows < uint32Max) :
    ∃ m, extractInteriorRows d.H d.seams = .ok m ∧ m.numCols = d.H.numCols ∧
      m.numRows = d.numInteriorRows ∧
        m.rowCounts = (interiorRowList d.H.numRows d.seams).map d.H.count := by
  obtain ⟨m, hm⟩ := exists_extractInteriorRows (h.numInteriorRows ▸ hr) h.interiorNnz_lt
  obtain ⟨hc, hr, -⟩ := extractInteriorRows_rowCounts hm
  exact ⟨m, hm, hc, by rw [← length_rowCounts, hr, List.length_map, h.numInteriorRows], hr⟩

theorem rowsAt_append (ro co : Nat) (rows rows' : List Row) (i j : Nat) :
    rowsAt ro co (rows ++ rows') i j =
      rowsAt ro co rows i j + rowsAt (ro + rows.length) co rows' i j := by
  unfold rowsAt
  rw [getD_append_ite]
  by_cases h1 : ro ≤ i ∧ co ≤ j
  · rw [if_pos h1, if_pos h1]
    split_ifs with h2 h3 h3
    · omega
    · rfl
    · rw [getD_of_length_le (l := rows) (by omega), zeroRow_apply, Nat.zero_add, Nat.sub_add_eq]
    · omega
  · rw [if_neg h1, if_neg h1, if_neg (by omega)]

theorem Valid.numCols_O_le (h : d.Valid) : d.O.numCols ≤ d.numFaults := by
  rcases h.obs with h | h <;> omega

/-! ## A chunk by itself -/

theorem exists_writeLead (h : d.Valid) (hlead : d.seamRowsOrZero t < uint32Max) (dst : BitMatrix)
    (hr : d.seamRowsOrZero t ≤ dst.rows) (hc : d.numFaults ≤ dst.cols) :
    ∃ dst', writeLead dst d t = .ok dst' ∧ Added dst dst' (rowsAt 0 0 (d.banded f t).lead) := by
  unfold writeLead
  split_ifs with hpos
  · obtain ⟨L, hL, hLc, hLr, hLrows⟩ := h.exists_band t hlead fun hz => by omega
    have hcols := h.cols
    obtain ⟨D, hD, hA⟩ := exists_writeSparseBlock dst L 0 0 (by omega) (by omega)
    refine ⟨D, by rw [hL, ok_bind, hD], hA.congr fun i j => ?_⟩
    rw [blockAt_eq_rowsAt, hLrows]
    rfl
  · have hnil : (d.banded f t).lead = [] := by
      rw [← List.length_eq_zero_iff, length_banded_lead]
      omega
    refine ⟨dst, rfl, (Added.refl dst).congr fun i j => ?_⟩
    rw [hnil, rowsAt_nil]

theorem demClose_eq (h : d.Valid) (ho : d.OnlySeams f t) (hlead : d.seamRowsOrZero t < uint32Max)
    (hint : d.numInteriorRows < uint32Max) :
    ∃ D O, demClose d t f = .ok ⟨D, O, d.errorRates⟩ ∧
      Added (zero (d.seamRowsOrZero t + d.numInteriorRows) d.numFaults) D
        (rowsAt 0 0 ((d.banded f t).lead ++ (d.banded f t).interior)) ∧
      Added (zero d.numObservables d.numFaults) O (blockAt 0 0 d.O) := by
  obtain ⟨I, hI, hIc, hIr, hIrows⟩ := h.exists_interior hint
  have hcols := h.cols
  obtain ⟨D₁, hD₁, hA₁⟩ := exists_writeLead (f := f) h hlead
    (zero (d.seamRowsOrZero t + d.numInteriorRows) d.numFaults)
    (by simp only [zero_rows]; omega) (by simp only [zero_cols]; omega)
  obtain ⟨D₂, hD₂, hA₂⟩ := exists_writeSparseBlock D₁ I (d.seamRowsOrZero t) 0
    (by rw [hA₁.rows, zero_rows]; omega) (by rw [hA₁.cols, zero_cols]; omega)
  obtain ⟨O, hO, hAO⟩ := exists_writeSparseBlock (zero d.numObservables d.numFaults) d.O 0 0
    (by simp only [zero_rows]; exact (Nat.zero_add _).le)
    (by simp only [zero_cols]; have := Valid.numCols_O_le h; omega)
  have hv : d.validate "dem_close" = .ok () := (validate_eq_ok d).mpr h
  have hx : rejectExtraSeams d f t "dem_close" = .ok () := rejectExtraSeams_eq_ok.mpr ho
  refine ⟨D₂, O, ?_, ?_, hAO⟩
  · simp only [demClose, hv, hx, hI, hD₁, hD₂, hO, ok_bind]
    rfl
  · refine (hA₁.trans hA₂).congr ?_
    intro i j
    rw [rowsAt_append, blockAt_eq_rowsAt, hIrows, length_banded_lead, Nat.zero_add]
    rfl

/-! ## Placing composed bands -/

def Supported (n : Nat) (rows : List Row) : Prop := ∀ r ∈ rows, ∀ c, n ≤ c → r c = 0

theorem supported_map_count (m : SparseBinaryMatrix) (rows : List Nat) :
    Supported m.numCols (rows.map m.count) := by
  intro r hr c hc
  obtain ⟨k, -, rfl⟩ := List.mem_map.mp hr
  exact count_eq_zero_of_col_le m k hc

theorem Supported.getD {n : Nat} {rows : List Row} (h : Supported n rows) (i : Nat) {c : Nat}
    (hc : n ≤ c) : rows.getD i zeroRow c = 0 := by
  rw [List.getD_eq_getElem?_getD]
  cases hi : rows[i]? with
  | none => rfl
  | some r => exact h r (List.mem_of_getElem? hi) c hc

theorem rowsAt_padRight {n : Nat} {rows : List Row} (h : Supported n rows) (ro co i j : Nat) :
    rowsAt ro co (rows.map fun r => joinRows n r zeroRow) i j = rowsAt ro co rows i j := by
  unfold rowsAt
  rw [Banded.getD_map_row _ (fun r => joinRows n r zeroRow) (by simp)]
  congr 1
  rcases Nat.lt_or_ge (j - co) n with hlt | hge
  · exact joinRows_of_lt _ _ hlt
  · rw [joinRows_of_le _ _ hge, h.getD _ hge, zeroRow_apply]

theorem rowsAt_padLeft (n : Nat) (rows : List Row) (ro co i j : Nat) :
    rowsAt ro co (rows.map fun r => joinRows n zeroRow r) i j = rowsAt ro (co + n) rows i j := by
  unfold rowsAt
  rw [Banded.getD_map_row _ (fun r => joinRows n zeroRow r) (by simp)]
  split_ifs with h1 h2 h2
  · rw [joinRows_of_le _ _ (by omega), Nat.sub_add_eq]
  · rw [joinRows_of_lt _ _ (by omega), zeroRow_apply]
  · omega
  · rfl

theorem rowsAt_zipWith {n : Nat} {rows rows' : List Row} (h : Supported n rows)
    (hlen : rows.length = rows'.length) (ro co i j : Nat) :
    rowsAt ro co (List.zipWith (joinRows n) rows rows') i j =
      rowsAt ro co rows i j + rowsAt ro (co + n) rows' i j := by
  unfold rowsAt
  rw [Banded.getD_zipWith_row _ _ _ hlen (by simp)]
  split_ifs with h1 h2 h2
  · rw [joinRows_of_le _ _ (by omega), h.getD _ (by omega), Nat.zero_add, Nat.sub_add_eq]
  · rw [joinRows_of_lt _ _ (by omega), Nat.add_zero]
  · omega
  · rfl

theorem rowsAt_bandedChain_lead (ro co i j : Nat) :
    rowsAt ro co (bandedChain f t (c :: cs)).lead i j = rowsAt ro co (c.banded f t).lead i j := by
  cases cs with
  | nil => rfl
  | cons c' cs => exact rowsAt_padRight (supported_map_count c.H _) ro co i j

/-- The interior of a composed chain: the first interior, the contracted band, and the rest. -/
theorem rowsAt_bandedChain_interior (h : CloseValid f t (c :: c' :: cs)) (ro co i j : Nat) :
    rowsAt ro co (bandedChain f t (c :: c' :: cs)).interior i j =
      rowsAt ro co (c.banded f t).interior i j +
        (rowsAt (ro + c.numInteriorRows) co (c.banded f t).trail i j +
          rowsAt (ro + c.numInteriorRows) (co + c.numFaults) (c'.banded f t).lead i j +
            rowsAt (ro + c.numInteriorRows + c.seamRowsOrZero f) (co + c.numFaults)
              (bandedChain f t (c' :: cs)).interior i j) := by
  have hv := h.valid c (by simp)
  have hb := (List.isChain_cons_cons.mp h.widths).1
  have hlen : (c.banded f t).trail.length = (bandedChain f t (c' :: cs)).lead.length := by
    rw [length_banded_trail, length_bandedChain_lead, hb]
  have hw : (c.banded f t).width = c.numFaults := hv.cols
  have hint : Supported (c.banded f t).width (c.banded f t).interior := supported_map_count c.H _
  have htr : Supported (c.banded f t).width (c.banded f t).trail := supported_map_count c.H _
  rw [bandedChain, Banded.stitch, rowsAt_append, rowsAt_append, rowsAt_padRight hint,
    rowsAt_zipWith htr hlen, rowsAt_padLeft, rowsAt_bandedChain_lead, List.length_map,
    hv.length_banded_interior, List.length_zipWith, ← hlen, Nat.min_self, length_banded_trail, hw]

/-! ## The pass over a chain -/

def colsAt (co : Nat) (cols : List (List Nat)) (i j : Nat) : Nat :=
  if co ≤ j then (cols.getD (j - co) []).count i else 0

theorem colsAt_append (co : Nat) (cols cols' : List (List Nat)) (i j : Nat) :
    colsAt co (cols ++ cols') i j = colsAt co cols i j + colsAt (co + cols.length) cols' i j := by
  unfold colsAt
  rw [getD_append_ite]
  by_cases h1 : co ≤ j
  · rw [if_pos h1, if_pos h1]
    split_ifs with h2 h3 h3
    · omega
    · rfl
    · rw [getD_of_length_le (l := cols) (by omega), List.count_nil, Nat.zero_add, Nat.sub_add_eq]
    · omega
  · rw [if_neg h1, if_neg h1, if_neg (by omega)]

/-! ## The observables of a chain -/

def chunkOColumns (c : ExtendedDem) : List (List Nat) :=
  if c.O.numCols = 0 then List.replicate c.numFaults [] else c.O.toCsc.toNestedCsc

theorem Valid.length_chunkOColumns (h : c.Valid) : (chunkOColumns c).length = c.numFaults := by
  unfold chunkOColumns
  split
  · simp
  · next h0 =>
    rw [toNestedCsc_toCsc, length_toNestedCsc]
    rcases h.obs with h | h
    · exact absurd h.2 h0
    · exact h

theorem colsAt_chunkOColumns (co i j : Nat) :
    colsAt co (chunkOColumns c) i j = blockAt 0 co c.O i j := by
  unfold colsAt blockAt chunkOColumns
  simp only [Nat.zero_le, true_and, Nat.sub_zero]
  split_ifs with h1 h2
  · rw [getD_replicate_self, List.count_nil, count_eq_zero_of_col_le c.O _ (by omega)]
  · rw [toNestedCsc_toCsc, count_toNestedCsc]
  · rfl

theorem chainOColumns_cons : chainOColumns (c :: cs) = chunkOColumns c ++ chainOColumns cs := rfl

/-! ## One chunk of the pass -/

theorem closeChunk_last (f t : SeamId) (h : c.Valid) (hint : c.numInteriorRows < uint32Max)
    (st : CloseState) (col : Nat)
    (hr : st.rowCursor + c.numInteriorRows ≤ st.detectors.rows)
    (hc : col + c.numFaults ≤ st.detectors.cols) (hor : c.numObservables ≤ st.observables.rows)
    (hoc : col + c.numFaults ≤ st.observables.cols) :
    ∃ st', closeChunk f t st c none col = .ok st' ∧
      Added st.detectors st'.detectors (rowsAt st.rowCursor col (c.banded f t).interior) ∧
      Added st.observables st'.observables (blockAt 0 col c.O) := by
  obtain ⟨I, hI, hIc, hIr, hIrows⟩ := h.exists_interior hint
  have hcols := h.cols
  obtain ⟨D, hD, hA⟩ := exists_writeSparseBlock st.detectors I st.rowCursor col (by omega)
    (by omega)
  obtain ⟨O, hO, hAO⟩ := exists_writeSparseBlock st.observables c.O 0 col
    (by rw [Nat.zero_add]; exact hor)
    (by have := Valid.numCols_O_le h; omega)
  refine ⟨⟨D, O, st.rowCursor + I.numRows⟩, ?_, ?_, hAO⟩
  · simp only [closeChunk, closeChunk.closeSeam, hI, hD, hO, ok_bind]
    rfl
  · rw [blockAt_eq_rowsAt, hIrows] at hA
    exact hA

/-- A chunk of the pass that another one follows. Where one of them has no seam the other's has no
rows. -/
theorem closeChunk_next (h : c.Valid) (h' : c'.Valid)
    (hw : c.seamRowsOrZero f = c'.seamRowsOrZero t) (hint : c.numInteriorRows < uint32Max)
    (hseam : c.seamRowsOrZero f < uint32Max) (hfaults : c.numFaults + c'.numFaults < uint32Max)
    (st : CloseState) (col : Nat)
    (hr : st.rowCursor + c.numInteriorRows + c.seamRowsOrZero f ≤ st.detectors.rows)
    (hc : col + c.numFaults + c'.numFaults ≤ st.detectors.cols)
    (hor : c.numObservables ≤ st.observables.rows)
    (hoc : col + c.numFaults ≤ st.observables.cols) :
    ∃ st', closeChunk f t st c (some c') col = .ok st' ∧
      st'.rowCursor = st.rowCursor + c.numInteriorRows + c.seamRowsOrZero f ∧
      Added st.detectors st'.detectors (fun i j =>
        rowsAt st.rowCursor col (c.banded f t).interior i j +
          (rowsAt (st.rowCursor + c.numInteriorRows) col (c.banded f t).trail i j +
            rowsAt (st.rowCursor + c.numInteriorRows) (col + c.numFaults)
              (c'.banded f t).lead i j)) ∧
      Added st.observables st'.observables (blockAt 0 col c.O) := by
  obtain ⟨I, hI, hIc, hIr, hIrows⟩ := h.exists_interior hint
  obtain ⟨F, hF, hFc, hFr, hFrows⟩ := h.exists_band f hseam fun _ => by omega
  obtain ⟨T, hT, hTc, hTr, hTrows⟩ := h'.exists_band t (hw ▸ hseam) fun _ => by omega
  have hcols := h.cols
  have hcols' := h'.cols
  obtain ⟨D₁, hD₁, hA₁⟩ := exists_writeSparseBlock st.detectors I st.rowCursor col (by omega)
    (by omega)
  obtain ⟨O, hO, hAO⟩ := exists_writeSparseBlock st.observables c.O 0 col
    (by rw [Nat.zero_add]; exact hor)
    (by have := Valid.numCols_O_le h; omega)
  -- a seam is written where both chunks have it, the trailing rows of one with the leading of the
  -- other
  by_cases hseams : c.hasSeam f = true ∧ c'.hasSeam t = true
  · obtain ⟨D₂, hD₂, hA₂⟩ := exists_writeSparseBlock D₁ F (st.rowCursor + I.numRows) col
      (by rw [hA₁.rows]; omega) (by rw [hA₁.cols]; omega)
    obtain ⟨D₃, hD₃, hA₃⟩ := exists_writeSparseBlock D₂ T (st.rowCursor + I.numRows)
      (col + c.numFaults) (by rw [hA₂.rows, hA₁.rows]; omega) (by rw [hA₂.cols, hA₁.cols]; omega)
    refine ⟨⟨D₃, O, st.rowCursor + I.numRows + c.seamRowsOrZero f⟩, ?_, by rw [hIr], ?_, hAO⟩
    · simp only [closeChunk, closeChunk.closeSeam, hI, hD₁, hseams, and_self, if_true,
        hF, hT, hD₂, hD₃, ok_bind, pure, Except.pure]
      rw [hO]
      rfl
    · have hA := hA₁.trans (hA₂.trans hA₃)
      simp only [blockAt_eq_rowsAt, hIrows, hFrows, hTrows, hIr] at hA
      exact hA
  -- otherwise neither has seam rows, since the widths agree
  · have hzero : c.seamRowsOrZero f = 0 := by
      rcases not_and_or.mp hseams with hn | hn
      · exact seamRowsOrZero_of_not_hasSeam (by simpa using hn)
      · rw [hw]
        exact seamRowsOrZero_of_not_hasSeam (by simpa using hn)
    have htrail : (c.banded f t).trail = [] := by
      rw [← List.length_eq_zero_iff, length_banded_trail, hzero]
    have hlead : (c'.banded f t).lead = [] := by
      rw [← List.length_eq_zero_iff, length_banded_lead, ← hw, hzero]
    refine ⟨⟨D₁, O, st.rowCursor + I.numRows⟩, ?_, by rw [hIr, hzero, Nat.add_zero], ?_, hAO⟩
    · simp only [closeChunk, closeChunk.closeSeam, hI, hD₁, if_neg hseams, ok_bind]
      rw [hO]
      rfl
    · refine hA₁.congr fun i j => ?_
      rw [blockAt_eq_rowsAt, hIrows, htrail, hlead, rowsAt_nil, rowsAt_nil]
      rfl

/-- The pass writes the interior of the composed chain below the row cursor. -/
theorem exists_closeChunks (h : CloseValid f t (c :: cs))
    (hint : (bandedChain f t (c :: cs)).interior.length < uint32Max)
    (hfaults : cs ≠ [] → chainFaults (c :: cs) < uint32Max) (st : CloseState) (col : Nat)
    (hr : st.rowCursor + (bandedChain f t (c :: cs)).interior.length ≤ st.detectors.rows)
    (hc : col + chainFaults (c :: cs) ≤ st.detectors.cols)
    (hor : c.numObservables ≤ st.observables.rows)
    (hoc : col + chainFaults (c :: cs) ≤ st.observables.cols) :
    ∃ st', closeChunks f t st col (c :: cs) = .ok st' ∧
      Added st.detectors st'.detectors
        (rowsAt st.rowCursor col (bandedChain f t (c :: cs)).interior) ∧
      Added st.observables st'.observables (colsAt col (chainOColumns (c :: cs))) := by
  induction cs generalizing c st col with
  | nil =>
    have hv := h.valid c (by simp)
    simp only [chainFaults, List.map_cons, List.map_nil, List.sum_cons, List.sum_nil] at hc hoc
    rw [bandedChain, hv.length_banded_interior] at hr hint
    obtain ⟨st', hst, hA, hAO⟩ := closeChunk_last f t hv hint st col hr
      (by omega) hor (by omega)
    refine ⟨st', ?_, hA, ?_⟩
    · simp only [closeChunks, List.head?_nil, hst, ok_bind]
    · refine hAO.congr fun i j => ?_
      rw [chainOColumns_cons, colsAt_append, colsAt_chunkOColumns]
      simp [chainOColumns, colsAt]
  -- a chunk that another follows: its interior and the seam between them, then the rest
  | cons c' cs ih =>
    have hv := h.valid c (by simp)
    have hv' := h.valid c' (by simp)
    have hb := (List.isChain_cons_cons.mp h.widths).1
    have hobs : c'.numObservables = c.numObservables := h.obs c' (by simp)
    have hlen : (bandedChain f t (c :: c' :: cs)).interior.length = c.numInteriorRows +
        (c.seamRowsOrZero f + (bandedChain f t (c' :: cs)).interior.length) := by
      have hl := length_bandedChain_lead f t c' cs
      simp [bandedChain, Banded.stitch, hv.length_banded_interior, hl, hb]
    have hfc : chainFaults (c :: c' :: cs) = c.numFaults + chainFaults (c' :: cs) := by
      simp [chainFaults]
    have hfc' : chainFaults (c' :: cs) = c'.numFaults + chainFaults cs := by
      simp [chainFaults]
    rw [hlen] at hr hint
    rw [hfc] at hc hoc
    have hmax := hfaults (by simp)
    rw [hfc] at hmax
    obtain ⟨st₁, hst, hcur, hA, hAO⟩ := closeChunk_next hv hv' hb (by omega) (by omega)
      (by omega) st col (by omega) (by omega) hor (by omega)
    obtain ⟨st₂, hst₂, hA₂, hAO₂⟩ := ih h.tail (by omega) (fun _ => by omega) st₁
      (col + c.numFaults)
      (by rw [hA.rows, hcur]; omega) (by rw [hA.cols]; omega) (by rw [hAO.rows, hobs]; exact hor)
      (by rw [hAO.cols]; omega)
    refine ⟨st₂, ?_, ?_, ?_⟩
    · rw [closeChunks, List.head?_cons, hst, ok_bind, hst₂]
    · refine (hA.trans hA₂).congr fun i j => ?_
      rw [rowsAt_bandedChain_interior h, hcur, Nat.add_assoc]
    · refine (hAO.trans hAO₂).congr fun i j => ?_
      rw [chainOColumns_cons (c := c), colsAt_append, colsAt_chunkOColumns,
        Valid.length_chunkOColumns hv]

/-! ## Closing a chain against closing the composed chain -/

theorem validateClose_of_chainValid (h : ChainValid f t cs) (hne : cs ≠ []) :
    validateClose cs f t = .ok () := by
  have hv : ∀ j < cs.length, (cs.getD j .empty).Valid := forall_getD.mpr h.valid
  have ho : ∀ j < cs.length, (cs.getD j .empty).OnlySeams f t := forall_getD.mpr h.only
  simp only [validateClose, bind_eq_ok, forM_eq_ok, List.mem_range, validate_eq_ok,
    rejectExtraSeams_eq_ok, throwIf_eq_ok, ne_eq, not_not]
  refine ⟨(), hne, (), fun i hi => ⟨(), hv i hi, ho i hi⟩, (), ?_, ?_⟩
  · rw [← headD_eq_getD]
    exact forall_getD.mpr h.obs
  · intro i hi
    have hb := isChain_getD.mpr h.boundary i hi
    exact (checkSeamBoundary_eq_ok (hv i (by omega)) (hv (i + 1) (by omega))).mpr
      ⟨hb.width, hb.tags⟩

theorem closeValid_of_validateClose {u : Unit} (h : validateClose cs f t = .ok u) :
    cs ≠ [] ∧ CloseValid f t cs := by
  simp only [validateClose, bind_eq_ok, forM_eq_ok, List.mem_range, validate_eq_ok,
    rejectExtraSeams_eq_ok, throwIf_eq_ok, ne_eq, not_not] at h
  obtain ⟨_, hne, _, hall, _, hobs, hb⟩ := h
  have hv : ∀ i < cs.length, (cs.getD i .empty).Valid := by
    intro i hi
    obtain ⟨_, hv, -⟩ := hall i hi
    exact hv
  refine ⟨hne, forall_getD.mp hv, forall_getD.mp ?_, forall_getD.mp ?_, isChain_getD.mp ?_⟩
  · intro i hi
    obtain ⟨_, -, ho⟩ := hall i hi
    exact ho
  · rw [headD_eq_getD]
    exact hobs
  · intro i hi
    exact ((checkSeamBoundary_eq_ok (hv i (by omega)) (hv (i + 1) (by omega))).mp (hb i hi)).1

theorem onlySeams_of_validateClose {u : Unit} (h : validateClose cs f t = .ok u) :
    ∀ c ∈ cs, c.OnlySeams f t := (closeValid_of_validateClose h).2.only

/-- The rows of a chain, counting each contracted band with the chunk before it. -/
theorem CloseValid.closedRows_eq (h : CloseValid f t (c :: cs)) :
    c.seamRowsOrZero t + ((c :: cs).map numInteriorRows).sum +
      ((c :: cs).dropLast.map fun c => c.seamRowsOrZero f).sum = startRow t (c :: cs) := by
  induction cs generalizing c with
  | nil => simp [startRow]
  | cons c' cs ih =>
    have ih := ih h.tail
    have hb := (List.isChain_cons_cons.mp h.widths).1
    simp only [startRow_cons, ← ih, List.map_cons, List.sum_cons, List.dropLast_cons_cons]
    omega

/-! ## Room for the closed chain -/

/-- The bands that closing a chain cuts out leave room for a pointer array each. -/
structure CloseFits (f t : SeamId) (cs : List ExtendedDem) : Prop where
  lead : (cs.headD .empty).seamRowsOrZero t < uint32Max
  interior : startRow t cs - (cs.headD .empty).seamRowsOrZero t < uint32Max
  faults : 2 ≤ cs.length → chainFaults cs < uint32Max

/-- What the chunk-by-chunk pass returns. -/
theorem demCloseAll_of_validateClose (hval : validateClose (c :: cs) f t = .ok ())
    (hfit : CloseFits f t (c :: cs)) :
    ∃ D O, demCloseAll (c :: cs) f t = .ok ⟨D, O, (c :: cs).flatMap errorRates⟩ ∧
      Added (zero (startRow t (c :: cs)) (chainFaults (c :: cs))) D (rowsAt 0 0
        ((bandedChain f t (c :: cs)).lead ++ (bandedChain f t (c :: cs)).interior)) ∧
      Added (zero c.numObservables (chainFaults (c :: cs))) O
        (colsAt 0 (chainOColumns (c :: cs))) := by
  have h := (closeValid_of_validateClose hval).2
  have hv := h.valid c (by simp)
  have htr := h.trailRow
  have hlead := length_bandedChain_lead f t c cs
  rw [Banded.trailRow, hlead] at htr
  have hfc : chainFaults (c :: cs) = c.numFaults + chainFaults cs := by simp [chainFaults]
  have hint := hfit.interior
  rw [List.headD_cons] at hint
  obtain ⟨D₁, hD₁, hA₁⟩ := exists_writeLead (f := f) hv hfit.lead
    (zero (startRow t (c :: cs)) (chainFaults (c :: cs)))
    (by simp only [zero_rows]; omega) (by simp only [zero_cols]; omega)
  have hmax : cs ≠ [] → chainFaults (c :: cs) < uint32Max := by
    intro hcs
    have := List.length_pos_iff.mpr hcs
    exact hfit.faults (by rw [List.length_cons]; omega)
  obtain ⟨st, hst, hA, hAO⟩ := exists_closeChunks h (by omega) hmax
    ⟨D₁, zero c.numObservables (chainFaults (c :: cs)), c.seamRowsOrZero t⟩ 0
    (by rw [hA₁.rows, zero_rows]; simp only; omega) (by rw [hA₁.cols, zero_cols]; omega)
    (by simp only [zero_rows]; exact le_refl _) (by simp only [zero_cols]; omega)
  refine ⟨st.detectors, st.observables, ?_, ?_, hAO⟩
  · simp only [demCloseAll, hval, ok_bind, List.headD_cons, getLastD_faultOffsets, h.closedRows_eq,
      hD₁, hst]
    rfl
  · refine (hA₁.trans hA).congr fun i j => ?_
    rw [rowsAt_append, rowsAt_bandedChain_lead, hlead, Nat.zero_add]

theorem demCloseAll_eq (h : ChainValid f t (c :: cs)) (hfit : CloseFits f t (c :: cs)) :
    ∃ D O, demCloseAll (c :: cs) f t = .ok ⟨D, O, (c :: cs).flatMap errorRates⟩ ∧
      Added (zero (startRow t (c :: cs)) (chainFaults (c :: cs))) D (rowsAt 0 0
        ((bandedChain f t (c :: cs)).lead ++ (bandedChain f t (c :: cs)).interior)) ∧
      Added (zero c.numObservables (chainFaults (c :: cs))) O
        (colsAt 0 (chainOColumns (c :: cs))) :=
  demCloseAll_of_validateClose (validateClose_of_chainValid h (by simp)) hfit

/-! ## The assembled chain, closed -/

def parityRow (r : Row) : Row := fun c => r c % 2

theorem rowsAt_parityRow (ro co : Nat) (rows : List Row) (i j : Nat) :
    rowsAt ro co (rows.map parityRow) i j % 2 = rowsAt ro co rows i j % 2 := by
  unfold rowsAt
  rw [Banded.getD_map_row _ parityRow (by funext c; rfl)]
  split
  · exact Nat.mod_mod _ _
  · rfl

theorem rowCounts_canonicalize (m : SparseBinaryMatrix) :
    m.canonicalize.rowCounts = m.rowCounts.map parityRow := by
  rw [rowCounts, rowCounts, List.map_map, canonicalize_numRows]
  apply List.map_congr_left
  intro r _
  funext c
  exact count_canonicalize m r c

/-- The bands of an assembled chain whose rows fit are those of the composition, reduced to
parities. -/
theorem IsAssembled.banded_eq (h : IsAssembled f t (c :: cs) r) (hc : ChainValid f t (c :: cs))
    (hlt : chainRows f t (c :: cs) < 2 ^ 32) :
    r.banded f t = ⟨chainFaults (c :: cs), (bandedChain f t (c :: cs)).lead.map parityRow,
      (bandedChain f t (c :: cs)).interior.map parityRow,
      (bandedChain f t (c :: cs)).trail.map parityRow⟩ := by
  obtain ⟨m, hrH, hml, hmr, hmc, hmrows⟩ := h.H
  have htr := hc.trailRow
  have hlead := length_bandedChain_lead f t c cs
  have htrail := length_bandedChain_trail f t c cs
  apply banded_eq_of_rows h.ne
  · rw [hrH, rowCounts_canonicalize, hmrows hlt]
    simp [Banded.rows]
  · rw [hrH, canonicalize_numCols, hmc]
  · have hle : startRow t (c :: cs) ≤ chainRows f t (c :: cs) := Nat.le_add_right _ _
    have hle' : c.seamRowsOrZero t ≤ startRow t (c :: cs) := by
      rw [startRow_cons]
      omega
    rw [Banded.trailRow, hlead] at htr
    rw [h.seams, pairSeams]
    simp only [List.headD_cons, Banded.trailRow, List.length_map]
    rw [u32_of_lt (by omega), u32_of_lt (by omega), u32_of_lt hlt, hlead, htr, htrail]
    rfl

theorem IsAssembled.onlySeams (h : IsAssembled f t cs r) : r.OnlySeams f t := by
  intro s hs
  rw [h.seams, List.mem_cons, List.mem_singleton] at hs
  rcases hs with rfl | rfl
  · exact .inr (.inl rfl)
  · exact .inl rfl

theorem u32_length_rates (cs : List ExtendedDem) :
    u32 (cs.flatMap errorRates).length = u32 (chainFaults cs) := by
  induction cs with
  | nil => rfl
  | cons c cs ih =>
    have hcons : chainFaults (c :: cs) = u32 c.errorRates.length + chainFaults cs := by
      simp [chainFaults, numFaults]
    rw [List.flatMap_cons, List.length_append, ← u32_add', ih, u32_add', ← u32_add, hcons]

/-- An assembled chain whose rows fit is a valid chunk. -/
theorem IsAssembled.valid (h : IsAssembled f t (c :: cs) r) (hc : ChainValid f t (c :: cs))
    (hlt : chainRows f t (c :: cs) < 2 ^ 32) : r.Valid := by
  obtain ⟨m, hrH, hml, hmr, hmc, hmrows⟩ := h.H
  have hle : startRow t (c :: cs) ≤ chainRows f t (c :: cs) := Nat.le_add_right _ _
  have hle' : c.seamRowsOrZero t ≤ startRow t (c :: cs) := by
    rw [startRow_cons]
    omega
  have hnum : r.H.numRows = chainRows f t (c :: cs) := by
    rw [hrH, canonicalize_numRows, hmr, u32_of_lt hlt]
  have hseams := h.seams
  rw [List.headD_cons, u32_of_lt (by omega), u32_of_lt (by omega), u32_of_lt hlt] at hseams
  have hfaults : r.numFaults = chainFaults (c :: cs) := by
    rw [ExtendedDem.numFaults, h.rates, u32_length_rates, u32_of_lt (lt_two_pow_of_lt_uint32Max h.faults)]
  have hlast : ((c :: cs).getLastD .empty).Valid := by
    rw [List.getLastD_cons]
    exact hc.valid _ List.getLastD_mem_cons
  refine ⟨by rw [hrH, canonicalize_numCols, hmc, hfaults], .inr (by rw [h.colsO, hfaults]), ?_, ?_,
    ?_⟩
  · intro s hs
    rw [hseams, List.mem_cons, List.mem_singleton] at hs
    rcases hs with rfl | rfl
    · simp only
      omega
    · simp only
      omega
  · rw [hseams, List.pairwise_pair]
    exact .inr (.inr (.inl hle'))
  · rw [h.tags, List.length_append, hlast.length_seamTags, List.headD_cons,
      (hc.valid c (by simp)).length_seamTags, seamTotal, hseams]
    simp [Seam.numRows, chainRows]

/-- Closing the composed chain gives what the chunk-by-chunk pass gives. -/
theorem demClose_of_assembled (h : IsAssembled f t (c :: cs) r) (hc : ChainValid f t (c :: cs))
    (hlt : chainRows f t (c :: cs) < 2 ^ 32) (hfit : CloseFits f t (c :: cs)) :
    ∃ m, demCloseAll (c :: cs) f t = .ok m ∧ demClose r t f = .ok m := by
  obtain ⟨D, O, hall, hD, hO⟩ := demCloseAll_eq hc hfit
  have hv := h.valid hc hlt
  have hbands := h.banded_eq hc hlt
  have hfaults : r.numFaults = chainFaults (c :: cs) := by
    rw [ExtendedDem.numFaults, h.rates, u32_length_rates,
      u32_of_lt (lt_two_pow_of_lt_uint32Max h.faults)]
  have hlead : r.seamRowsOrZero t = c.seamRowsOrZero t := by
    rw [← length_banded_lead (f := f), hbands, List.length_map, length_bandedChain_lead]
  have hrows : r.seamRowsOrZero t + r.numInteriorRows = startRow t (c :: cs) := by
    rw [← length_banded_lead (f := f), ← hv.length_banded_interior (f := f) (t := t), hbands,
      ← hc.trailRow]
    simp [Banded.trailRow]
  -- the chunk that is closed has the bands of the chain
  have hint := hfit.interior
  rw [List.headD_cons] at hint
  obtain ⟨D', O', hone, hD', hO'⟩ :=
    demClose_eq hv h.onlySeams (hlead ▸ hfit.lead) (by omega)
  have hobs : r.numObservables = c.numObservables := h.rowsO
  rw [hrows, hfaults] at hD'
  rw [hobs, hfaults] at hO'
  have hDeq : D = D' := by
    apply hD.unique hD'
    intro i j
    rw [hbands, ← List.map_append, rowsAt_parityRow]
  have hOeq : O = O' := by
    apply hO.unique hO'
    intro i j
    simp only [colsAt, blockAt, Nat.zero_le, true_and, if_true, Nat.sub_zero]
    rw [count_of_csc r.O h.layoutO, h.groupsO]
  exact ⟨_, hall, by rw [hone, hDeq, hOeq, h.rates]⟩

theorem demClose_of_single (hv : c.Valid) (ho : c.OnlySeams f t) (hfit : CloseFits f t [c]) :
    ∃ m, demCloseAll [c] f t = .ok m ∧ demClose c t f = .ok m := by
  have hc : ChainValid f t [c] :=
    ⟨by simpa using hv, by simpa using ho, by simp, List.isChain_singleton c⟩
  have hrows : startRow t [c] = c.seamRowsOrZero t + c.numInteriorRows := by simp [startRow]
  have hint := hfit.interior
  rw [List.headD_cons] at hint
  obtain ⟨D, O, hall, hD, hO⟩ := demCloseAll_eq hc hfit
  obtain ⟨D', O', hone, hD', hO'⟩ := demClose_eq hv ho hfit.lead (by omega)
  have hfaults : chainFaults [c] = c.numFaults := by simp [chainFaults]
  rw [hrows, hfaults] at hD
  rw [hfaults] at hO
  have hDeq : D = D' := hD.unique hD' fun i j => rfl
  have hOeq : O = O' := by
    apply hO.unique hO'
    intro i j
    rw [chainOColumns_cons, colsAt_append, colsAt_chunkOColumns]
    simp [chainOColumns, colsAt]
  exact ⟨_, hall, by rw [hone, hDeq, hOeq, List.flatMap_singleton]⟩

/-! ## Both ways of closing -/

/-- `dem_close_all` closes a chain as `dem_close` closes the chain `dem_stitch_all` composes: one
returns a model exactly when the other does, it is the same model, and both return one unless a
single chunk carries rows in a third seam. Chunks that hide a seam behind another of its id are left
out, and chains whose closed rows are as many as no pointer array is made for. -/
theorem demCloseAll_eq_demClose (cs : List ExtendedDem) (f t : SeamId) (r : ExtendedDem)
    (hd : ∀ c ∈ cs, c.DistinctSeams) (hr : demStitchAll cs f t = .ok r)
    (hrows : chainRows f t cs < 2 ^ 32) (hfit : CloseFits f t cs) :
    (demCloseAll cs f t).toOption = (demClose r t f).toOption ∧
      ((∀ c ∈ cs, c.OnlySeams f t) → ∃ m, demCloseAll cs f t = .ok m ∧ demClose r t f = .ok m) := by
  match cs, hd, hr, hrows, hfit with
  | [c], _, hr, _, hfit =>
    obtain ⟨_, hval, hret⟩ := bind_eq_ok.mp hr
    obtain rfl : c = r := Except.ok.inj hret
    have hv := (validate_eq_ok c).mp hval
    by_cases ho : c.OnlySeams f t
    · obtain ⟨m, h1, h2⟩ := demClose_of_single hv ho hfit
      exact ⟨by rw [h1, h2], fun _ => ⟨m, h1, h2⟩⟩
    · -- Both reject the chunk for its third seam.
      refine ⟨?_, fun hall => absurd (hall c (by simp)) ho⟩
      apply toOption_eq_of_ok_iff
      intro m
      constructor
      · intro hm
        obtain ⟨_, hclose, -⟩ := bind_eq_ok.mp hm
        exact absurd (onlySeams_of_validateClose hclose c (by simp)) ho
      · intro hm
        simp only [demClose, bind_eq_ok, rejectExtraSeams_eq_ok] at hm
        obtain ⟨_, -, _, hs, -⟩ := hm
        exact absurd hs ho
  | c :: c' :: cs, hd, hr, hrows, hfit =>
    obtain ⟨hc, ha⟩ := demStitchAll_eq_ok (by simp) hd hr
    obtain ⟨m, h1, h2⟩ := demClose_of_assembled ha hc hrows hfit
    exact ⟨by rw [h1, h2], fun _ => ⟨m, h1, h2⟩⟩

example : chainRows ⟨1⟩ ⟨0⟩ [oneFaultChunk, oneFaultChunk, oneFaultChunk] = 7 := by decide +kernel

/-- Three chunks, the last one's outgoing seam dropped. -/
theorem demCloseAll_eq_demClose_oneFault :
    ∃ r, demStitchAll [oneFaultChunk, oneFaultChunk, oneFaultChunk] ⟨1⟩ ⟨0⟩ = .ok r ∧
      (demCloseAll [oneFaultChunk, oneFaultChunk, oneFaultChunk] ⟨1⟩ ⟨0⟩).toOption =
        (demClose r ⟨0⟩ ⟨1⟩).toOption := by
  have hok : (demStitchAll [oneFaultChunk, oneFaultChunk, oneFaultChunk] ⟨1⟩ ⟨0⟩).isOk = true := by
    decide +kernel
  obtain ⟨r, h⟩ := exists_eq_ok hok
  have hfit : CloseFits ⟨1⟩ ⟨0⟩ [oneFaultChunk, oneFaultChunk, oneFaultChunk] :=
    ⟨by decide +kernel, by decide +kernel, fun _ => by decide +kernel⟩
  exact ⟨r, h, (demCloseAll_eq_demClose _ _ _ r (by decide) h (by decide +kernel) hfit).1⟩

/-- A chunk whose incoming seam hides another of its id, with the one row that its fault flips. -/
def hiddenSeamChunk : ExtendedDem where
  H := .ofGroups .csc 3 1 [[2]]
  O := .empty
  errorRates := [1 / 10]
  seams := [⟨⟨1⟩, 0, 1⟩, ⟨⟨0⟩, 1, 2⟩, ⟨⟨0⟩, 2, 3⟩]
  tags := [0, 0, 0]

/-- The hidden row is no interior row, yet the planned chain places it as the first one. -/
theorem demCloseAll_ne_demClose_hiddenSeam :
    ∃ r, demStitchAll [hiddenSeamChunk, hiddenSeamChunk] ⟨1⟩ ⟨0⟩ = .ok r ∧
      chainRows ⟨1⟩ ⟨0⟩ [hiddenSeamChunk, hiddenSeamChunk] < 2 ^ 32 ∧
        chainFaults [hiddenSeamChunk, hiddenSeamChunk] < 2 ^ 32 ∧
          (demCloseAll [hiddenSeamChunk, hiddenSeamChunk] ⟨1⟩ ⟨0⟩).toOption ≠
            (demClose r ⟨0⟩ ⟨1⟩).toOption := by
  have hdiffer : (demStitchAll [hiddenSeamChunk, hiddenSeamChunk] ⟨1⟩ ⟨0⟩).toOption.map
      (fun r => decide ((demCloseAll [hiddenSeamChunk, hiddenSeamChunk] ⟨1⟩ ⟨0⟩).toOption =
        (demClose r ⟨0⟩ ⟨1⟩).toOption)) = some false := by decide +kernel
  cases h : demStitchAll [hiddenSeamChunk, hiddenSeamChunk] ⟨1⟩ ⟨0⟩ with
  | error e => simp [h, Except.toOption] at hdiffer
  | ok r =>
    rw [h, Except.toOption, Option.map_some, Option.some.injEq] at hdiffer
    exact ⟨r, rfl, by decide +kernel, by decide +kernel, of_decide_eq_false hdiffer⟩

end CudaqQec
