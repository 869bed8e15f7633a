import CudaqQec.ExtendedDem.Bands

/-!
# What `dem_stitch` does to the bands

`demStitch` returns exactly when its two chunks are `Stitchable` and the result fits, and what it
returns is the composition of the two chunks' bands (`IsStitch`). The one exception is a result
without fault columns: its `H` is replaced by the matrix without rows, whatever rows the bands had.
-/

namespace CudaqQec

open Checked SparseBinaryMatrix ExtendedDem

variable {a b d r : ExtendedDem} {f t : SeamId}

/-! ## Tags -/

namespace ExtendedDem

def seamTags (d : ExtendedDem) (id : SeamId) : List Nat :=
  extractSeamTags d id (d.seamRowsOrZero id)

theorem hasSeam_of_rows {id : SeamId} (h : d.seamRowsOrZero id ≠ 0) : d.hasSeam id = true := by
  unfold hasSeam
  cases hf : d.findSeam id with
  | none => simp [seamRowsOrZero, seamBand, hf] at h
  | some s => rfl

theorem seamTags_of_no_rows {id : SeamId} (h : d.seamRowsOrZero id = 0) : d.seamTags id = [] := by
  simp [seamTags, extractSeamTags, h]

theorem tagOffset_add_le (d : ExtendedDem) (id : SeamId) (h : d.hasSeam id = true) :
    tagOffset d id + d.seamRowsOrZero id ≤ d.seamTotal := by
  unfold hasSeam at h
  unfold tagOffset seamTotal seamRowsOrZero seamBand
  unfold findSeam at *
  generalize d.seams = l at h
  induction l with
  | nil => simp at h
  | cons s l ih =>
    rw [List.find?_cons] at h ⊢
    rw [List.takeWhile_cons]
    by_cases hs : s.id = id
    · simp [hs, Seam.numRows]
    · have ih := ih (by simpa [hs] using h)
      simp only [hs, decide_false, ne_eq, not_false_eq_true, decide_true, if_true, List.map_cons,
        List.sum_cons] at ih ⊢
      omega

theorem Valid.length_seamTags (h : d.Valid) (id : SeamId) :
    (d.seamTags id).length = d.seamRowsOrZero id := by
  by_cases hz : d.seamRowsOrZero id = 0
  · rw [seamTags_of_no_rows hz, hz, List.length_nil]
  · have hs := hasSeam_of_rows hz
    have := tagOffset_add_le d id hs
    rw [seamTags, extractSeamTags, if_pos hs, List.length_take, List.length_drop, h.tags]
    omega

theorem getElem?_seamTags {id : SeamId} (h : d.hasSeam id = true) {k : Nat}
    (hk : k < d.seamRowsOrZero id) : (d.seamTags id)[k]? = d.tags[tagOffset d id + k]? := by
  rw [seamTags, extractSeamTags, if_pos h, List.getElem?_take_of_lt hk, List.getElem?_drop]

end ExtendedDem

/-- The two sides of a boundary agree exactly when they have one width and the same tags. -/
theorem checkSeamBoundary_eq_ok {context : String} {u : Unit} (ha : a.Valid) (hb : b.Valid) :
    checkSeamBoundary a b f t context = .ok u ↔
      a.seamRowsOrZero f = b.seamRowsOrZero t ∧ a.seamTags f = b.seamTags t := by
  simp only [checkSeamBoundary]
  -- two sides without rows have nothing to compare
  split_ifs with hz
  · simp only [true_iff]
    exact ⟨hz.1.trans hz.2.symm, by rw [seamTags_of_no_rows hz.1, seamTags_of_no_rows hz.2]⟩
  simp only [bind_eq_ok, throwIf_eq_ok, ne_eq, not_not, forM_eq_ok, List.mem_range]
  constructor
  · rintro ⟨_, hw, offA, hA, offB, hB, htags⟩
    refine ⟨hw, ?_⟩
    have hsA : a.hasSeam f = true := hasSeam_of_rows (by omega)
    have hsB : b.hasSeam t = true := hasSeam_of_rows (by omega)
    rw [seamTagOffset, if_pos hsA] at hA
    rw [seamTagOffset, if_pos hsB] at hB
    cases hA
    cases hB
    have hlA := ha.length_seamTags f
    have hlB := hb.length_seamTags t
    apply List.ext_getElem?
    intro k
    by_cases hk : k < a.seamRowsOrZero f
    · have := htags k hk
      have hkA : tagOffset a f + k < a.tags.length := by
        have := tagOffset_add_le a f hsA
        rw [ha.tags]
        omega
      have hkB : tagOffset b t + k < b.tags.length := by
        have := tagOffset_add_le b t hsB
        rw [hb.tags]
        omega
      rw [getElem?_seamTags hsA hk, getElem?_seamTags hsB (hw ▸ hk), List.getElem?_eq_getElem hkA,
        List.getElem?_eq_getElem hkB]
      simpa [List.getD_eq_getElem?_getD, hkA, hkB] using this
    · rw [List.getElem?_eq_none (by omega), List.getElem?_eq_none (by omega)]
  · rintro ⟨hw, htags⟩
    have hsA : a.hasSeam f = true := hasSeam_of_rows (by omega)
    have hsB : b.hasSeam t = true := hasSeam_of_rows (by omega)
    refine ⟨(), hw, tagOffset a f, by rw [seamTagOffset, if_pos hsA], tagOffset b t,
      by rw [seamTagOffset, if_pos hsB], ?_⟩
    intro k hk
    rw [List.getD_eq_getElem?_getD, List.getD_eq_getElem?_getD, ← getElem?_seamTags hsA hk,
      ← getElem?_seamTags hsB (hw ▸ hk), htags]

/-! ## When two chunks can be composed -/

/-- What `checkStitch` accepts. -/
structure Stitchable (a b : ExtendedDem) (f t : SeamId) : Prop where
  left : a.Valid
  right : b.Valid
  obs : a.numObservables = b.numObservables
  hasFrom : a.hasSeam f = true
  hasTo : b.hasSeam t = true
  onlyLeft : a.OnlySeams f t
  onlyRight : b.OnlySeams f t
  width : a.seamRowsOrZero f = b.seamRowsOrZero t
  tags : a.seamTags f = b.seamTags t
  faults : a.numFaults + b.numFaults < 2 ^ 32

theorem checkStitch_eq_ok {u : Unit} : checkStitch a b f t = .ok u ↔ Stitchable a b f t := by
  simp only [checkStitch, bind_eq_ok, validate_eq_ok, rejectExtraSeams_eq_ok, throwIf_eq_ok, ne_eq,
    not_not, Bool.not_eq_false]
  constructor
  · rintro ⟨_, h1, _, h2, _, h3, _, h4, _, h5, _, h6, _, h7, _, h8, h9⟩
    rw [checkSeamBoundary_eq_ok h1 h2] at h8
    exact ⟨h1, h2, h3, h4, h5, h6, h7, h8.1, h8.2, by rw [uint32Max] at h9; omega⟩
  · intro h
    refine ⟨(), h.left, (), h.right, (), h.obs, (), h.hasFrom, (), h.hasTo, (), h.onlyLeft, (),
      h.onlyRight, (), (checkSeamBoundary_eq_ok h.left h.right).mpr ⟨h.width, h.tags⟩, ?_⟩
    have := h.faults
    rw [uint32Max]
    omega

/-! ## The bands of a chunk, as matrices -/

theorem ExtendedDem.Valid.extractSeamRows_eq (h : d.Valid) (id : SeamId) :
    extractSeamRows d id = extractRowBand d.H (d.seamBand id).1 (d.seamBand id).2 := by
  unfold extractSeamRows
  split
  · rfl
  · next hs =>
    have hz : d.seamBand id = (0, 0) := by
      unfold hasSeam at hs
      unfold seamBand
      cases hf : d.findSeam id with
      | none => rfl
      | some s => simp [hf] at hs
    rw [hz, extractRowBand, if_pos (by rfl), h.cols]

theorem ExtendedDem.Valid.extractSeamRows_rowCounts {m : SparseBinaryMatrix} (h : d.Valid)
    {id : SeamId} (hm : extractSeamRows d id = .ok m) :
    m.numCols = d.H.numCols ∧ m.rowCounts = (d.bandRowList id).map d.H.count ∧
      m.numNnz = ((d.bandRowList id).map d.H.rowNnz).sum := by
  rw [h.extractSeamRows_eq] at hm
  have hlt := lt_of_le_of_lt (h.seamBand_le id).2 d.H.rows_lt
  obtain ⟨hc, hr, hn⟩ := extractRowBand_rowCounts hm hlt
  exact ⟨hc, by rw [hr, bandRowList, List.map_map]; rfl, by rw [hn, bandRowList, List.map_map]; rfl⟩

theorem ExtendedDem.Valid.nnz_le (h : d.Valid) (hne : f ≠ t) :
    ((d.bandRowList t).map d.H.rowNnz).sum ≤ d.H.numNnz ∧
      ((interiorRowList d.H.numRows d.seams).map d.H.rowNnz).sum ≤ d.H.numNnz ∧
        ((d.bandRowList f).map d.H.rowNnz).sum ≤ d.H.numNnz := by
  have := h.numNnz_le hne
  omega

theorem ExtendedDem.Valid.exists_extractSeamRows (h : d.Valid) {id : SeamId}
    (hr : d.seamRowsOrZero id < uint32Max)
    (hc : d.seamRowsOrZero id = 0 → d.numFaults < uint32Max)
    (hn : ((d.bandRowList id).map d.H.rowNnz).sum < 2 ^ 32) :
    ∃ m, extractSeamRows d id = .ok m := by
  rw [h.extractSeamRows_eq]
  rw [bandRowList, List.map_map] at hn
  exact exists_extractRowBand hr (fun hz => h.cols ▸ hc hz) hn

/-! ## `H` of a stitched chunk -/

def stitchRows (a b : ExtendedDem) (f t : SeamId) : Nat :=
  a.seamRowsOrZero t + a.numInteriorRows + a.seamRowsOrZero f + b.numInteriorRows +
    b.seamRowsOrZero f

/-- The three bands of a chunk that are cut out of it leave room for a pointer array each. -/
structure BandsFit (f t : SeamId) (d : ExtendedDem) : Prop where
  lead : d.seamRowsOrZero t < uint32Max
  interior : d.numInteriorRows < uint32Max
  trail : d.seamRowsOrZero f < uint32Max

/-- The matrices a composition of two chunks is put together from leave room for their pointer
arrays. -/
structure StitchFits (a b : ExtendedDem) (f t : SeamId) : Prop where
  faults : a.numFaults + b.numFaults < uint32Max
  rows : stitchRows a b f t < 2 ^ 32
  left : BandsFit f t a
  right : BandsFit f t b

theorem Stitchable.length_rows (h : Stitchable a b f t) :
    ((a.banded f t).stitch (b.banded f t)).rows.length = stitchRows a b f t := by
  simp only [Banded.rows_stitch, List.length_append, List.length_map, List.length_zipWith,
    length_banded_lead, length_banded_trail, h.left.length_banded_interior,
    h.right.length_banded_interior, h.width, Nat.min_self, stitchRows]
  omega

theorem Stitchable.left_cols_le (h : Stitchable a b f t) :
    a.H.numCols ≤ a.numFaults + b.numFaults :=
  h.left.cols.trans_le (Nat.le_add_right _ _)

theorem Stitchable.cols_add (h : Stitchable a b f t) :
    a.H.numCols + b.H.numCols = a.numFaults + b.numFaults := by
  rw [h.left.cols, h.right.cols]

/-- The five bands of a composition, with the seams' two rows side by side, add up to both chunks. -/
private theorem sum_bands (x y z u v w : Nat) :
    x + (y + (z + u + (v + (w + 0)))) = x + y + z + (u + v + w) := by
  omega

/-- Bands that were cut out of a chunk. -/
private theorem bandsFit_of_extract {d : ExtendedDem} (h : d.Valid) {lead interior trail : SparseBinaryMatrix}
    (hlead : extractSeamRows d t = .ok lead) (hint : extractInteriorRows d.H d.seams = .ok interior)
    (htrail : extractSeamRows d f = .ok trail) : BandsFit f t d := by
  have hband : ∀ {id : SeamId} {m : SparseBinaryMatrix}, extractSeamRows d id = .ok m →
      d.seamRowsOrZero id < uint32Max := by
    intro id m hm
    obtain ⟨-, hr, -⟩ := h.extractSeamRows_rowCounts hm
    rw [h.extractSeamRows_eq] at hm
    have hlt := extractRowBand_numRows_lt hm
    rwa [← length_rowCounts, hr, List.length_map, length_bandRowList] at hlt
  refine ⟨hband hlead, ?_, hband htrail⟩
  obtain ⟨-, hr, -⟩ := extractInteriorRows_rowCounts hint
  have hlt := extractInteriorRows_numRows_lt hint
  rwa [← length_rowCounts, hr, List.length_map, ← h.numInteriorRows] at hlt

/-- What `stitchH` returns. -/
structure IsStitchH (a b : ExtendedDem) (f t : SeamId) (H : SparseBinaryMatrix) : Prop where
  layout : H.layout = .csc
  cols : H.numCols = a.numFaults + b.numFaults
  rows : H.rowCounts = if a.numFaults + b.numFaults = 0 then []
    else ((a.banded f t).stitch (b.banded f t)).rows
  nnz : H.numNnz ≤ a.H.numNnz + b.H.numNnz
  fits : StitchFits a b f t

theorem stitchH_eq_ok {H : SparseBinaryMatrix} (h : Stitchable a b f t) (hne : f ≠ t)
    (hH : stitchH a b f t = .ok H) : IsStitchH a b f t H := by
  simp only [stitchH, bind_eq_ok] at hH
  obtain ⟨aTo, haTo, aInt, haInt, aFrom, haFrom, bTo, hbTo, bInt, hbInt, bFrom, hbFrom,
    contracted, hcon, top, htop, topInt, htopInt, botInt, hbotInt, bot, hbot, S, hS, hres⟩ := hH
  have hfl := h.faults
  obtain ⟨hc1, hr1, hn1⟩ := h.left.extractSeamRows_rowCounts haTo
  obtain ⟨hc2, hr2, hn2⟩ := extractInteriorRows_rowCounts haInt
  obtain ⟨hc3, hr3, hn3⟩ := h.left.extractSeamRows_rowCounts haFrom
  obtain ⟨hc4, hr4, hn4⟩ := h.right.extractSeamRows_rowCounts hbTo
  obtain ⟨hc5, hr5, hn5⟩ := extractInteriorRows_rowCounts hbInt
  obtain ⟨hc6, hr6, hn6⟩ := h.right.extractSeamRows_rowCounts hbFrom
  have hrows34 : aFrom.numRows = bTo.numRows := by
    rw [← length_rowCounts, ← length_rowCounts, hr3, hr4, List.length_map, List.length_map,
      length_bandRowList, length_bandRowList, h.width]
  obtain ⟨tl, tc, tr, tn⟩ := padRight_rowCounts htop hfl (hc1.trans_le h.left_cols_le)
  obtain ⟨til, tic, tir, tin⟩ := padRight_rowCounts htopInt hfl (hc2.trans_le h.left_cols_le)
  obtain ⟨cl, -, cc, -⟩ := hcat_groups hcon
  have cr := hcat_rowCounts hcon hrows34
  have cn := hcat_numNnz hcon
  obtain ⟨bil, bic, bir, bin⟩ := padLeft_rowCounts hbotInt hfl (by rw [hc5, h.right.cols])
  obtain ⟨bl, bc, br, bn⟩ := padLeft_rowCounts hbot hfl (by rw [hc6, h.right.cols])
  obtain ⟨sl, sc, sr, sn⟩ := stackBands_rowCounts hS hfl (by
    simp only [List.mem_cons, List.not_mem_nil, or_false, forall_eq_or_imp, forall_eq]
    exact ⟨⟨tl, tc⟩, ⟨til, tic⟩, ⟨cl, by rw [cc, hc3, hc4, h.cols_add]⟩, ⟨bil, bic⟩, bl, bc⟩)
  -- band by band, the rows are those of the stitched bands
  have hrows : S.rowCounts = ((a.banded f t).stitch (b.banded f t)).rows := by
    rw [sr, Banded.rows_stitch]
    simp only [List.flatMap_cons, List.flatMap_nil, tr, tir, cr, bir, br, hr1, hr2, hr3, hr4, hr5,
      hr6, hc1, hc2, hc3, banded, List.map_append, h.left.cols, List.append_nil, List.append_assoc]
  have hnnz : S.numNnz ≤ a.H.numNnz + b.H.numNnz := by
    simp only [List.map_cons, List.map_nil, List.sum_cons, List.sum_nil, tn, tin, cn, bin, bn, hn1,
      hn2, hn3, hn4, hn5, hn6] at sn
    rw [sn, sum_bands]
    exact Nat.add_le_add (h.left.numNnz_le hne) (h.right.numNnz_le hne)
  -- what was built shows that it fits
  have hfits : StitchFits a b f t := by
    refine ⟨padRight_lt htop hfl, ?_, bandsFit_of_extract h.left haTo haInt haFrom,
      bandsFit_of_extract h.right hbTo hbInt hbFrom⟩
    rw [← h.length_rows, ← hrows, length_rowCounts]
    exact S.rows_lt
  -- without a fault the rows are dropped for a matrix of zeros
  by_cases hz : a.numFaults + b.numFaults = 0
  · rw [if_pos (sc.trans hz)] at hres
    obtain ⟨zl, zc, zr, zn⟩ := zeroMatrix_rowCounts hres hfl
    obtain ⟨ha, hb⟩ := Nat.add_eq_zero_iff.mp hz
    exact ⟨zl, zc, by rw [zr, if_pos hz], zn.trans_le (Nat.zero_le _), hfits⟩
  · rw [if_neg (sc ▸ hz)] at hres
    cases hres
    exact ⟨sl, sc, by rw [hrows, if_neg hz], hnnz, hfits⟩

private theorem numRows_of_map {m : SparseBinaryMatrix} {rs : List Nat} {g : Nat → Row}
    (h : m.rowCounts = rs.map g) : m.numRows = rs.length := by
  rw [← length_rowCounts, h, List.length_map]

private theorem numRows_of_mapRows {m x : SparseBinaryMatrix} {g : Row → Row}
    (h : m.rowCounts = x.rowCounts.map g) : m.numRows = x.numRows := by
  rw [← length_rowCounts, h, List.length_map, length_rowCounts]

theorem exists_stitchH (h : Stitchable a b f t) (hne : f ≠ t) (hfit : StitchFits a b f t)
    (hnnz : a.H.numNnz + b.H.numNnz < 2 ^ 32) : ∃ H, stitchH a b f t = .ok H := by
  have hfl := h.faults
  have hmax := hfit.faults
  have ha : a.numFaults < uint32Max := (Nat.le_add_right _ _).trans_lt hmax
  have hb : b.numFaults < uint32Max := (Nat.le_add_left _ _).trans_lt hmax
  have hleft : ∀ id, a.seamRowsOrZero id = 0 → a.numFaults < uint32Max := fun _ _ => ha
  have hright : ∀ id, b.seamRowsOrZero id = 0 → b.numFaults < uint32Max := fun _ _ => hb
  obtain ⟨hbt, hbi, hbf⟩ := h.left.nnz_le hne
  obtain ⟨hbt', hbi', hbf'⟩ := h.right.nnz_le hne
  -- the six bands that are cut out of the two matrices
  obtain ⟨aTo, haTo⟩ :=
    h.left.exists_extractSeamRows hfit.left.lead (hleft t) (hbt.trans_lt a.H.nnz_lt)
  obtain ⟨aInt, haInt⟩ := exists_extractInteriorRows
    (h.left.numInteriorRows ▸ hfit.left.interior) (hbi.trans_lt a.H.nnz_lt)
  obtain ⟨aFrom, haFrom⟩ :=
    h.left.exists_extractSeamRows hfit.left.trail (hleft f) (hbf.trans_lt a.H.nnz_lt)
  obtain ⟨bTo, hbTo⟩ :=
    h.right.exists_extractSeamRows hfit.right.lead (hright t) (hbt'.trans_lt b.H.nnz_lt)
  obtain ⟨bInt, hbInt⟩ := exists_extractInteriorRows
    (h.right.numInteriorRows ▸ hfit.right.interior) (hbi'.trans_lt b.H.nnz_lt)
  obtain ⟨bFrom, hbFrom⟩ :=
    h.right.exists_extractSeamRows hfit.right.trail (hright f) (hbf'.trans_lt b.H.nnz_lt)
  obtain ⟨hc1, hr1, hn1⟩ := h.left.extractSeamRows_rowCounts haTo
  obtain ⟨hc2, hr2, hn2⟩ := extractInteriorRows_rowCounts haInt
  obtain ⟨hc3, hr3, hn3⟩ := h.left.extractSeamRows_rowCounts haFrom
  obtain ⟨hc4, hr4, hn4⟩ := h.right.extractSeamRows_rowCounts hbTo
  obtain ⟨hc5, hr5, hn5⟩ := extractInteriorRows_rowCounts hbInt
  obtain ⟨hc6, hr6, hn6⟩ := h.right.extractSeamRows_rowCounts hbFrom
  -- the seam rows of both sides contract to one band, whose columns are those of both
  have hrows34 : aFrom.numRows = bTo.numRows := by
    rw [numRows_of_map hr3, numRows_of_map hr4, length_bandRowList, length_bandRowList, h.width]
  have hcols34 : aFrom.numCols + bTo.numCols = a.numFaults + b.numFaults := by
    rw [hc3, hc4, h.cols_add]
  have hnnz34 : aFrom.numNnz + bTo.numNnz < 2 ^ 32 := by
    rw [hn3, hn4]
    exact (Nat.add_le_add hbf hbt').trans_lt hnnz
  obtain ⟨contracted, hcon⟩ := exists_hcat hrows34.ge (hcols34.trans_lt hmax) hnnz34
  have hle1 := hc1.trans_le h.left_cols_le
  have hle2 := hc2.trans_le h.left_cols_le
  have heq5 : a.numFaults + bInt.numCols = a.numFaults + b.numFaults := by rw [hc5, h.right.cols]
  have heq6 : a.numFaults + bFrom.numCols = a.numFaults + b.numFaults := by rw [hc6, h.right.cols]
  -- every other band is widened to the columns of both
  obtain ⟨top, htop⟩ := exists_padRight hmax hle1
  obtain ⟨topInt, htopInt⟩ := exists_padRight hmax hle2
  obtain ⟨botInt, hbotInt⟩ := exists_padLeft hmax heq5
  obtain ⟨bot, hbot⟩ := exists_padLeft hmax heq6
  obtain ⟨tl, tc, tr, tn⟩ := padRight_rowCounts htop hfl hle1
  obtain ⟨til, tic, tir, tin⟩ := padRight_rowCounts htopInt hfl hle2
  obtain ⟨cl, crow, cc, -⟩ := hcat_groups hcon
  have cn := hcat_numNnz hcon
  obtain ⟨bil, bic, bir, bin⟩ := padLeft_rowCounts hbotInt hfl heq5
  obtain ⟨bl, bc, br, bn⟩ := padLeft_rowCounts hbot hfl heq6
  -- stacked, the bands have the rows of the stitched matrix and no more elements than were there
  have hsumRows : ([top, topInt, contracted, botInt, bot].map SparseBinaryMatrix.numRows).sum =
      stitchRows a b f t := by
    simp only [List.map_cons, List.map_nil, List.sum_cons, List.sum_nil, numRows_of_mapRows tr,
      numRows_of_mapRows tir, crow, numRows_of_mapRows bir, numRows_of_mapRows br,
      numRows_of_map hr1, numRows_of_map hr2, numRows_of_map hr3, numRows_of_map hr5,
      numRows_of_map hr6, length_bandRowList, ← h.left.numInteriorRows, ← h.right.numInteriorRows,
      stitchRows, Nat.add_zero, Nat.add_assoc]
  have hsumNnz : ([top, topInt, contracted, botInt, bot].map numNnz).sum ≤
      a.H.numNnz + b.H.numNnz := by
    simp only [List.map_cons, List.map_nil, List.sum_cons, List.sum_nil, tn, tin, cn, bin, bn, hn1,
      hn2, hn3, hn4, hn5, hn6]
    rw [sum_bands]
    exact Nat.add_le_add (h.left.numNnz_le hne) (h.right.numNnz_le hne)
  obtain ⟨S, hS⟩ := exists_stackBands [top, topInt, contracted, botInt, bot] hmax (by
    simp only [List.mem_cons, List.not_mem_nil, or_false, forall_eq_or_imp, forall_eq]
    exact ⟨⟨tl, tc⟩, ⟨til, tic⟩, ⟨cl, cc.trans hcols34⟩, ⟨bil, bic⟩, bl, bc⟩)
    (hsumRows.trans_lt hfit.rows) (hsumNnz.trans_lt hnnz)
  obtain ⟨Z, hZ⟩ := exists_zeroMatrix hmax
  simp only [stitchH, haTo, haInt, haFrom, hbTo, hbInt, hbFrom, hcon, htop, htopInt, hbotInt, hbot,
    hS, ok_bind]
  split_ifs
  · exact ⟨Z, hZ⟩
  · exact ⟨S, rfl⟩

/-! ## The stitched chunk -/

theorem addSeam_eq_ok {id : SeamId} {rb re : Nat} :
    d.addSeam id rb re = .ok r ↔ d.hasSeam id = false ∧ r.H = d.H ∧ r.O = d.O ∧
      r.errorRates = d.errorRates ∧ r.tags = d.tags ∧ r.seams = d.seams ++ [⟨id, rb, re⟩] := by
  unfold addSeam
  split
  · next h => simp [h]
  · next h =>
    obtain ⟨H, O, er, ss, tg⟩ := r
    simp only [Except.ok.injEq, h, true_and, ExtendedDem.mk.injEq]
    constructor
    · rintro ⟨rfl, rfl, rfl, rfl, rfl⟩
      exact ⟨rfl, rfl, rfl, rfl, rfl⟩
    · rintro ⟨rfl, rfl, rfl, rfl, rfl⟩
      exact ⟨rfl, rfl, rfl, rfl, rfl⟩

def pairSeams (f t : SeamId) (lead trailRow trail : Nat) : List Seam :=
  [⟨t, 0, lead⟩, ⟨f, trailRow, trailRow + trail⟩]

/-- Adding the two seams works exactly when their ids differ. -/
theorem addSeams_eq_ok (hd : d.seams = []) {lead x y : Nat} :
    (d.addSeam t 0 lead >>= fun d' => d'.addSeam f x y) = .ok r ↔
      f ≠ t ∧ r.H = d.H ∧ r.O = d.O ∧ r.errorRates = d.errorRates ∧ r.tags = d.tags ∧
        r.seams = [⟨t, 0, lead⟩, ⟨f, x, y⟩] := by
  have hnone : d.hasSeam t = false := by simp [hasSeam, findSeam, hd]
  rw [bind_eq_ok]
  constructor
  · rintro ⟨d', h1, h2⟩
    obtain ⟨-, e1, e2, e3, e4, e5⟩ := addSeam_eq_ok.mp h1
    obtain ⟨hn, e6, e7, e8, e9, e10⟩ := addSeam_eq_ok.mp h2
    rw [hd, List.nil_append] at e5
    refine ⟨?_, e6.trans e1, e7.trans e2, e8.trans e3, e9.trans e4, by rw [e10, e5]; rfl⟩
    rintro rfl
    simp [hasSeam, findSeam, e5] at hn
  · rintro ⟨hne, e1, e2, e3, e4, e5⟩
    refine ⟨{ d with seams := [⟨t, 0, lead⟩] }, ?_, ?_⟩
    · rw [addSeam_eq_ok]
      exact ⟨hnone, rfl, rfl, rfl, rfl, by rw [hd]; rfl⟩
    · rw [addSeam_eq_ok]
      have hne' : ¬ t = f := fun he => hne he.symm
      exact ⟨by simp [hasSeam, findSeam, hne'], e1, e2, e3, e4, e5⟩

/-- What `demStitch` returns. -/
structure IsStitch (a b : ExtendedDem) (f t : SeamId) (r : ExtendedDem) : Prop where
  ne : f ≠ t
  stitchable : Stitchable a b f t
  H : IsStitchH a b f t r.H
  O : hcat a.O b.O = .ok r.O
  rates : r.errorRates = a.errorRates ++ b.errorRates
  tags : r.tags = a.seamTags t ++ b.seamTags f
  seams : r.seams = pairSeams f t (a.seamRowsOrZero t)
    (a.seamRowsOrZero t + a.numInteriorRows + a.seamRowsOrZero f + b.numInteriorRows)
    (b.seamRowsOrZero f)

theorem IsStitch.numFaults (h : IsStitch a b f t r) : r.numFaults = a.numFaults + b.numFaults := by
  have hlt := h.stitchable.faults
  rw [ExtendedDem.numFaults, h.rates, List.length_append, ← u32_add, ← u32_add']
  exact u32_of_lt hlt

theorem demStitch_eq_ok (h : demStitch a b f t = .ok r) : IsStitch a b f t r := by
  simp only [demStitch, bind_eq_ok] at h
  obtain ⟨_, hcheck, H, hH, O, hO, hadd⟩ := h
  rw [← bind_eq_ok, addSeams_eq_ok rfl] at hadd
  obtain ⟨hne, e1, e2, e3, e4, e5⟩ := hadd
  have hs := checkStitch_eq_ok.mp hcheck
  exact ⟨hne, hs, by rw [e1]; exact stitchH_eq_ok hs hne hH, by rw [e2]; exact hO, e3, e4, e5⟩

theorem exists_demStitch (h : Stitchable a b f t) (hne : f ≠ t)
    (hfit : StitchFits a b f t) (hnnz : a.H.numNnz + b.H.numNnz < 2 ^ 32)
    (hcols : a.O.numCols + b.O.numCols < uint32Max) (hnnzO : a.O.numNnz + b.O.numNnz < 2 ^ 32) :
    ∃ r, demStitch a b f t = .ok r := by
  obtain ⟨H, hH⟩ := exists_stitchH h hne hfit hnnz
  obtain ⟨O, hO⟩ := exists_hcat (a := a.O) (b := b.O) h.obs.ge hcols hnnzO
  have hne' : ¬ t = f := fun he => hne he.symm
  refine ⟨⟨H, O, a.errorRates ++ b.errorRates, pairSeams f t (a.seamRowsOrZero t)
    (a.seamRowsOrZero t + a.numInteriorRows + a.seamRowsOrZero f + b.numInteriorRows)
    (b.seamRowsOrZero f), a.seamTags t ++ b.seamTags f⟩, ?_⟩
  have hcheck : checkStitch a b f t = .ok () := checkStitch_eq_ok.mpr h
  rw [demStitch, hcheck, ok_bind, hH, ok_bind, hO, ok_bind]
  exact (addSeams_eq_ok rfl).mpr ⟨hne, rfl, rfl, rfl, rfl, rfl⟩

/-! ## Chunks laid out band by band -/

private theorem getD_middle (A B C : List Row) :
    (List.range B.length).map (fun k => (A ++ (B ++ C)).getD (A.length + k) zeroRow) = B := by
  apply List.ext_getElem (by simp)
  intro k hk hk'
  rw [List.getElem_map, List.getElem_range, List.getD_eq_getElem?_getD,
    List.getElem?_append_right (by omega), Nat.add_sub_cancel_left,
    List.getElem?_append_left hk', List.getElem?_eq_getElem hk', Option.getD_some]

theorem seamBand_pairSeams_to {lead x n : Nat} (hs : d.seams = pairSeams f t lead x n) :
    d.seamBand t = (0, lead) := by
  simp [seamBand, findSeam, hs, pairSeams]

theorem seamBand_pairSeams_from {lead x n : Nat} (hne : f ≠ t)
    (hs : d.seams = pairSeams f t lead x n) : d.seamBand f = (x, x + n) := by
  have hne' : ¬ t = f := fun he => hne he.symm
  simp [seamBand, findSeam, hs, pairSeams, hne']

theorem onlySeams_of_pairSeams {lead x n : Nat} (hs : d.seams = pairSeams f t lead x n) :
    d.OnlySeams f t := by
  intro s hmem
  rw [hs, pairSeams, List.mem_cons, List.mem_singleton] at hmem
  rcases hmem with rfl | rfl
  · exact .inr (.inl rfl)
  · exact .inl rfl

private theorem interiorRowList_pairSeams (f t : SeamId) (l i n : Nat) :
    interiorRowList (l + (i + n)) (pairSeams f t l (l + i) n) = (List.range i).map (l + ·) := by
  have hcov : ∀ r, (!(pairSeams f t l (l + i) n).any fun s => s.covers r) =
      decide (l ≤ r ∧ ¬ (l + i ≤ r ∧ r < l + i + n)) := by
    intro r
    rw [Bool.eq_iff_iff]
    simp only [pairSeams, Seam.covers, List.any_cons, List.any_nil, Bool.or_false, Bool.not_eq_true',
      Bool.or_eq_false_iff, Bool.and_eq_false_iff, decide_eq_false_iff_not, decide_eq_true_eq]
    omega
  unfold interiorRowList
  simp only [hcov]
  rw [List.range_add, List.range_add, List.map_append, List.filter_append, List.filter_append]
  have h1 : (List.range l).filter (fun r => decide (l ≤ r ∧ ¬ (l + i ≤ r ∧ r < l + i + n))) = [] := by
    rw [List.filter_eq_nil_iff]
    intro r hr
    rw [List.mem_range] at hr
    simp only [decide_eq_true_eq]
    omega
  have h2 : ((List.range i).map (l + ·)).filter
      (fun r => decide (l ≤ r ∧ ¬ (l + i ≤ r ∧ r < l + i + n))) = (List.range i).map (l + ·) := by
    rw [List.filter_eq_self]
    intro r hr
    obtain ⟨k, hk, rfl⟩ := List.mem_map.mp hr
    rw [List.mem_range] at hk
    simp only [decide_eq_true_eq]
    omega
  have h3 : (((List.range n).map (i + ·)).map (l + ·)).filter
      (fun r => decide (l ≤ r ∧ ¬ (l + i ≤ r ∧ r < l + i + n))) = [] := by
    rw [List.filter_eq_nil_iff]
    intro r hr
    obtain ⟨j, hj, rfl⟩ := List.mem_map.mp hr
    obtain ⟨k, hk, rfl⟩ := List.mem_map.mp hj
    rw [List.mem_range] at hk
    simp only [decide_eq_true_eq]
    omega
  rw [h1, h2, h3, List.nil_append, List.append_nil]

/-- A chunk whose `H` lists the rows of `B` from the top, with the seams to match, has the bands of
`B`. -/
theorem banded_eq_of_rows {B : Banded} (hne : f ≠ t) (hrows : d.H.rowCounts = B.rows)
    (hcols : d.H.numCols = B.width)
    (hs : d.seams = pairSeams f t B.lead.length B.trailRow B.trail.length) :
    d.banded f t = B := by
  have hn : d.H.numRows = B.lead.length + (B.interior.length + B.trail.length) := by
    rw [← length_rowCounts, hrows, Banded.length_rows, Banded.trailRow, Nat.add_assoc]
  have hcount : d.H.count = fun r => B.rows.getD r zeroRow := by
    funext r
    rw [← hrows, getD_rowCounts]
  have hto := seamBand_pairSeams_to hs
  have hfrom := seamBand_pairSeams_from hne hs
  apply Banded.ext
  · exact hcols
  · have := getD_middle [] B.lead (B.interior ++ B.trail)
    simp only [List.nil_append, List.length_nil] at this
    simpa [banded, bandRowList, seamRowsOrZero, hto, hcount, Function.comp_def, Banded.rows]
      using this
  · have := getD_middle B.lead B.interior B.trail
    rw [banded, hn, hs, Banded.trailRow, interiorRowList_pairSeams, List.map_map, hcount]
    exact this
  · have := getD_middle (B.lead ++ B.interior) B.trail []
    simp only [List.append_nil, List.append_assoc, List.length_append] at this
    simpa [banded, bandRowList, seamRowsOrZero, hfrom, hcount, Function.comp_def, Banded.rows,
      Banded.trailRow] using this

end CudaqQec
