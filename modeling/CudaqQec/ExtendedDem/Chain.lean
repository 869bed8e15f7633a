import CudaqQec.ExtendedDem.StitchSpec

/-!
# Chains of chunks

A chain that `validateChain` accepts is composed by `bandedChain`, contracting one boundary after
another. `plan_chain` lays the rows of the whole chain out in advance; `chainBlocks` is that layout
chunk by chunk, each one starting where the contracted band before it starts.

* `count_chainBlocks`: the planned columns list exactly the rows of `bandedChain`.
* `assembleChain_eq_ok`: what the assembled chunk holds.
-/

namespace CudaqQec

open Checked SparseBinaryMatrix ExtendedDem

variable {c c' : ExtendedDem} {cs : List ExtendedDem} {f t : SeamId}

/-! ## Valid chains -/

/-- One boundary of a chain. -/
structure Boundary (f t : SeamId) (a b : ExtendedDem) : Prop where
  hasFrom : a.hasSeam f = true
  hasTo : b.hasSeam t = true
  width : a.seamRowsOrZero f = b.seamRowsOrZero t
  tags : a.seamTags f = b.seamTags t

/-- What `validateChain` accepts. -/
structure ChainValid (f t : SeamId) (cs : List ExtendedDem) : Prop where
  valid : ∀ c ∈ cs, c.Valid
  only : ∀ c ∈ cs, c.OnlySeams f t
  obs : ∀ c ∈ cs, c.numObservables = (cs.headD .empty).numObservables
  boundary : cs.IsChain (Boundary f t)

theorem forall_getD {P : ExtendedDem → Prop} :
    (∀ i < cs.length, P (cs.getD i .empty)) ↔ ∀ c ∈ cs, P c := by
  simp only [List.forall_mem_iff_forall_getElem, List.getD_eq_getElem?_getD]
  constructor
  · intro h i hi
    simpa [hi] using h i hi
  · intro h i hi
    simpa [hi] using h i hi

theorem isChain_getD {R : ExtendedDem → ExtendedDem → Prop} :
    (∀ i < cs.length - 1, R (cs.getD i .empty) (cs.getD (i + 1) .empty)) ↔ cs.IsChain R := by
  rw [List.isChain_iff_getElem]
  constructor
  · intro h i hi
    have hi' : i < cs.length := by omega
    simpa [List.getD_eq_getElem?_getD, hi, hi'] using h i (by omega)
  · intro h i hi
    have hi1 : i + 1 < cs.length := by omega
    have hi' : i < cs.length := by omega
    simpa [List.getD_eq_getElem?_getD, hi1, hi'] using h i hi1

theorem headD_eq_getD (cs : List ExtendedDem) : cs.headD .empty = cs.getD 0 .empty := by
  cases cs <;> rfl

/-- Chunks checked one by one, boundary by boundary. -/
theorem validateChain_eq_ok {fn : String} {u : Unit} :
    validateChain cs f t fn = .ok u ↔ ChainValid f t cs := by
  simp only [validateChain, bind_eq_ok, forM_eq_ok, List.mem_range, validate_eq_ok,
    rejectExtraSeams_eq_ok, throwIf_eq_ok, ne_eq, not_not, Bool.not_eq_false]
  constructor
  · rintro ⟨_, h1, _, h2, h3⟩
    have hvalid : ∀ c ∈ cs, c.Valid ∧ c.OnlySeams f t := by
      rw [← forall_getD]
      intro i hi
      obtain ⟨_, hv, ho⟩ := h1 i hi
      exact ⟨hv, ho⟩
    refine ⟨fun c hc => (hvalid c hc).1, fun c hc => (hvalid c hc).2, ?_, ?_⟩
    · rw [← forall_getD, headD_eq_getD]
      exact h2
    · rw [← isChain_getD]
      intro i hi
      obtain ⟨_, hf, _, ht, hb⟩ := h3 i hi
      have hv : ∀ j < cs.length, (cs.getD j .empty).Valid :=
        forall_getD.mpr fun c hc => (hvalid c hc).1
      obtain ⟨hw, htag⟩ := (checkSeamBoundary_eq_ok (hv i (by omega)) (hv (i + 1) (by omega))).mp hb
      exact ⟨hf, ht, hw, htag⟩
  · intro h
    have hv : ∀ j < cs.length, (cs.getD j .empty).Valid := forall_getD.mpr h.valid
    have ho : ∀ j < cs.length, (cs.getD j .empty).OnlySeams f t := forall_getD.mpr h.only
    refine ⟨(), fun i hi => ⟨(), hv i hi, ho i hi⟩, (), ?_, ?_⟩
    · rw [← headD_eq_getD]
      exact forall_getD.mpr h.obs
    · intro i hi
      have hb := isChain_getD.mpr h.boundary i hi
      exact ⟨(), hb.hasFrom, (), hb.hasTo,
        (checkSeamBoundary_eq_ok (hv i (by omega)) (hv (i + 1) (by omega))).mpr ⟨hb.width, hb.tags⟩⟩

theorem ChainValid.tail (h : ChainValid f t (c :: c' :: cs)) : ChainValid f t (c' :: cs) where
  valid x hx := h.valid x (by simp [hx])
  only x hx := h.only x (by simp [hx])
  obs x hx := (h.obs x (by simp [hx])).trans (h.obs c' (by simp)).symm
  boundary := (List.isChain_cons_cons.mp h.boundary).2

/-- What `dem_close_all` needs of a chain: where neither side of a boundary has a seam, there are no
rows to share. -/
structure CloseValid (f t : SeamId) (cs : List ExtendedDem) : Prop where
  valid : ∀ c ∈ cs, c.Valid
  only : ∀ c ∈ cs, c.OnlySeams f t
  obs : ∀ c ∈ cs, c.numObservables = (cs.headD .empty).numObservables
  widths : cs.IsChain fun a b => a.seamRowsOrZero f = b.seamRowsOrZero t

theorem ChainValid.close (h : ChainValid f t cs) : CloseValid f t cs where
  valid := h.valid
  only := h.only
  obs := h.obs
  widths := h.boundary.imp fun _ _ hb => hb.width

theorem CloseValid.tail (h : CloseValid f t (c :: c' :: cs)) : CloseValid f t (c' :: cs) where
  valid x hx := h.valid x (by simp [hx])
  only x hx := h.only x (by simp [hx])
  obs x hx := (h.obs x (by simp [hx])).trans (h.obs c' (by simp)).symm
  widths := (List.isChain_cons_cons.mp h.widths).2

/-! ## The composed bands -/

@[grind =] def bandedChain (f t : SeamId) : List ExtendedDem → Banded
  | [] => ⟨0, [], [], []⟩
  | [c] => c.banded f t
  | c :: c' :: cs => (c.banded f t).stitch (bandedChain f t (c' :: cs))

/-- The rows of the chunks, each contracted band counted with the chunk after it, up to the trailing
band. -/
def startRow (t : SeamId) (cs : List ExtendedDem) : Nat :=
  (cs.map fun c => c.seamRowsOrZero t + c.numInteriorRows).sum

def chainRows (f t : SeamId) (cs : List ExtendedDem) : Nat :=
  startRow t cs + (cs.getLastD .empty).seamRowsOrZero f

def chainFaults (cs : List ExtendedDem) : Nat := (cs.map numFaults).sum

theorem length_bandedChain_lead (f t : SeamId) (c : ExtendedDem) (cs : List ExtendedDem) :
    (bandedChain f t (c :: cs)).lead.length = c.seamRowsOrZero t := by
  cases cs <;> simp [bandedChain, Banded.stitch]

theorem length_bandedChain_trail (f t : SeamId) (c : ExtendedDem) (cs : List ExtendedDem) :
    (bandedChain f t (c :: cs)).trail.length = ((c :: cs).getLastD .empty).seamRowsOrZero f := by
  induction cs generalizing c with
  | nil => simp [bandedChain]
  | cons c' cs ih =>
    rw [bandedChain, Banded.stitch, List.length_map, ih]
    simp

theorem CloseValid.trailRow (h : CloseValid f t (c :: cs)) :
    (bandedChain f t (c :: cs)).trailRow = startRow t (c :: cs) := by
  induction cs generalizing c with
  | nil =>
    simp [bandedChain, Banded.trailRow, startRow, (h.valid c (by simp)).length_banded_interior]
  | cons c' cs ih =>
    have hb := (List.isChain_cons_cons.mp h.widths).1
    have ih := ih h.tail
    have hlead : (bandedChain f t (c' :: cs)).lead.length = c'.seamRowsOrZero t :=
      length_bandedChain_lead f t c' cs
    simp only [Banded.trailRow] at ih
    simp only [bandedChain, Banded.trailRow, Banded.stitch, List.length_map, List.length_append,
      List.length_zipWith, length_banded_lead, length_banded_trail, hb, hlead,
      (h.valid c (by simp)).length_banded_interior, Nat.min_self]
    rw [hlead] at ih
    rw [startRow, List.map_cons, List.sum_cons, ← startRow]
    omega

theorem ChainValid.trailRow (h : ChainValid f t (c :: cs)) :
    (bandedChain f t (c :: cs)).trailRow = startRow t (c :: cs) := h.close.trailRow

theorem ChainValid.length_rows (h : ChainValid f t (c :: cs)) :
    (bandedChain f t (c :: cs)).rows.length = chainRows f t (c :: cs) := by
  rw [Banded.length_rows, h.trailRow, length_bandedChain_trail, chainRows]

theorem ChainValid.width (h : ChainValid f t (c :: cs)) :
    (bandedChain f t (c :: cs)).width = chainFaults (c :: cs) := by
  induction cs generalizing c with
  | nil => simp [bandedChain, banded, chainFaults, (h.valid c (by simp)).cols]
  | cons c' cs ih =>
    rw [chainFaults, List.map_cons, List.sum_cons, ← chainFaults, ← ih h.tail,
      ← (h.valid c (by simp)).cols]
    rfl

/-! ## The plan -/

theorem startRow_cons : startRow t (c :: cs) =
    c.seamRowsOrZero t + c.numInteriorRows + startRow t cs := by
  simp [startRow]

theorem chainRows_cons_cons : chainRows f t (c :: c' :: cs) =
    c.seamRowsOrZero t + c.numInteriorRows + chainRows f t (c' :: cs) := by
  simp [chainRows, startRow_cons]
  omega

/-- The bands the loop of `plan_chain` computes when it starts below an incoming band at `base`. -/
theorem planBands_eq (h : ChainValid f t (c :: cs)) (base : Nat) :
    (∀ i < (c :: cs).length,
      (planBands f (base + c.seamRowsOrZero t) (c :: cs)).1.getD i 0 =
        base + startRow t ((c :: cs).take i) + ((c :: cs).getD i .empty).seamRowsOrZero t) ∧
    (∀ i, i + 1 < (c :: cs).length →
      (planBands f (base + c.seamRowsOrZero t) (c :: cs)).2.1.getD i 0 =
        base + startRow t ((c :: cs).take (i + 1))) ∧
    (planBands f (base + c.seamRowsOrZero t) (c :: cs)).2.2 = base + startRow t (c :: cs) := by
  induction cs generalizing c base with
  | nil =>
    refine ⟨?_, ?_, ?_⟩
    · intro i hi
      obtain rfl : i = 0 := by simpa using hi
      simp [planBands, startRow]
    · intro i hi
      simp at hi
    · simp only [planBands, startRow, List.map_cons, List.map_nil, List.sum_cons, List.sum_nil]
      omega
  | cons c' cs ih =>
    have hb := (List.isChain_cons_cons.mp h.boundary).1
    obtain ⟨ih1, ih2, ih3⟩ := ih h.tail (base + c.seamRowsOrZero t + c.numInteriorRows)
    rw [← hb.width] at ih1 ih2 ih3
    -- the bands of the rest, one incoming band and one interior further down
    refine ⟨?_, ?_, ?_⟩
    · intro i hi
      cases i with
      | zero => simp [planBands, startRow]
      | succ i =>
        have := ih1 i (by simpa using hi)
        rw [List.take_succ_cons, startRow_cons]
        simp only [planBands, List.getD_cons_succ]
        rw [this]
        omega
    · intro i hi
      cases i with
      | zero =>
        simp only [planBands, List.getD_cons_zero, List.take_succ_cons, List.take_zero,
          startRow_cons]
        simp only [startRow, List.map_nil, List.sum_nil]
        omega
      | succ i =>
        have := ih2 i (by simpa using hi)
        rw [List.take_succ_cons, startRow_cons]
        simp only [planBands, List.getD_cons_succ]
        rw [this]
        omega
    · rw [startRow_cons]
      simp only [planBands]
      rw [ih3]
      omega

/-- Chunk `i` of a chain is placed below the bands of the chunks before it. -/
theorem chainRowMap_eq (h : ChainValid f t cs) {i : Nat} (hi : i < cs.length) :
    chainRowMap (cs.getD i .empty) i cs.length (planChain cs f t) f t =
      placeRows (cs.getD i .empty) f t (startRow t (cs.take i))
        (startRow t (cs.take i) + (cs.getD i .empty).seamRowsOrZero t)
        (startRow t (cs.take i) + (cs.getD i .empty).seamRowsOrZero t +
          (cs.getD i .empty).numInteriorRows) := by
  cases cs with
  | nil => simp at hi
  | cons c cs =>
    obtain ⟨h1, h2, h3⟩ := planBands_eq h 0
    simp only [Nat.zero_add] at h1 h2 h3
    have hto : (if i = 0 then 0 else (planChain (c :: cs) f t).seamRow.getD (i - 1) 0) =
        startRow t ((c :: cs).take i) := by
      split_ifs with h0
      · simp [h0, startRow]
      · have := h2 (i - 1) (by omega)
        rw [Nat.sub_add_cancel (by omega)] at this
        exact this
    have hnext : startRow t ((c :: cs).take (i + 1)) = startRow t ((c :: cs).take i) +
        ((c :: cs).getD i .empty).seamRowsOrZero t + ((c :: cs).getD i .empty).numInteriorRows := by
      rw [List.take_add_one, startRow, List.map_append, List.sum_append, ← startRow,
        List.getElem?_eq_getElem hi, List.getD_eq_getElem?_getD, List.getElem?_eq_getElem hi]
      simp [Nat.add_assoc]
    have hfrom : (if i + 1 < (c :: cs).length then (planChain (c :: cs) f t).seamRow.getD i 0
        else (planChain (c :: cs) f t).trailRow) = startRow t ((c :: cs).take (i + 1)) := by
      split_ifs with hl
      · exact h2 i hl
      · rw [List.take_of_length_le (by omega)]
        exact h3
    rw [chainRowMap, hto, hfrom, hnext]
    congr 1
    exact h1 i hi

/-! ## The planned columns -/

def chainBlock (f t : SeamId) (base : Nat) (c : ExtendedDem) : List (List Nat) :=
  c.H.toNestedCsc.map fun col => col.map ((placeRows c f t base (base + c.seamRowsOrZero t)
    (base + c.seamRowsOrZero t + c.numInteriorRows)).getD · 0)

@[grind =] def chainBlocks (f t : SeamId) : Nat → List ExtendedDem → List (List Nat)
  | _, [] => []
  | base, c :: cs =>
    chainBlock f t base c ++ chainBlocks f t (base + c.seamRowsOrZero t + c.numInteriorRows) cs

private theorem flatMap_zipIdx_eq_chainBlocks (f t : SeamId) (limit base k : Nat)
    (l : List ExtendedDem) (F : ExtendedDem × Nat → List (List Nat))
    (hF : ∀ i < l.length, F (l.getD i .empty, k + i) =
      (chainBlock f t (base + startRow t (l.take i)) (l.getD i .empty)).map
        (List.filter (· < limit))) :
    (l.zipIdx k).flatMap F = (chainBlocks f t base l).map (List.filter (· < limit)) := by
  induction l generalizing base k with
  | nil => rfl
  | cons c l ih =>
    rw [List.zipIdx_cons, List.flatMap_cons, chainBlocks, List.map_append]
    have h0 := hF 0 (by simp)
    simp only [List.getD_cons_zero, Nat.add_zero, List.take_zero, startRow, List.map_nil,
      List.sum_nil] at h0
    rw [h0]
    congr 1
    apply ih
    intro i hi
    have := hF (i + 1) (by simpa using hi)
    rw [List.getD_cons_succ, List.take_succ_cons, startRow_cons] at this
    rw [Nat.add_right_comm k 1 i, Nat.add_assoc k i 1, this]
    congr 2
    omega

theorem chainHColumns_eq (h : ChainValid f t cs) (limit : Nat) :
    chainHColumns cs (planChain cs f t) f t limit =
      (chainBlocks f t 0 cs).map (List.filter (· < limit)) := by
  apply flatMap_zipIdx_eq_chainBlocks
  intro i hi
  simp only [Nat.zero_add]
  rw [chainRowMap_eq h hi, toNestedCsc_toCsc, chainBlock, List.map_map]
  rfl

theorem length_chainBlocks (f t : SeamId) (base : Nat) (cs : List ExtendedDem) :
    (chainBlocks f t base cs).length = (cs.map fun c => c.H.numCols).sum := by
  induction cs generalizing base with
  | nil => rfl
  | cons c cs ih => simp [chainBlocks, chainBlock, ih]

theorem storedCount_chainBlocks (f t : SeamId) (base : Nat) (cs : List ExtendedDem) :
    storedCount (chainBlocks f t base cs) = (cs.map fun c => c.H.numNnz).sum := by
  induction cs generalizing base with
  | nil => rfl
  | cons c cs ih =>
    rw [chainBlocks, storedCount_append, ih, List.map_cons, List.sum_cons, ← storedCount_toNestedCsc]
    simp [chainBlock, storedCount, Function.comp_def]

theorem count_chainBlock (h : c.Valid) (hd : c.DistinctSeams) (ho : c.OnlySeams f t) (hne : f ≠ t)
    {base : Nat} (hfit : base + c.H.numRows ≤ 2 ^ 32) (R col : Nat) :
    ((chainBlock f t base c).getD col []).count R =
      if R < base then 0 else (c.banded f t).rowAt (R - base) col := by
  have hget : (chainBlock f t base c).getD col [] =
      (c.H.toNestedCsc.getD col []).map ((placeRows c f t base (base + c.seamRowsOrZero t)
        (base + c.seamRowsOrZero t + c.numInteriorRows)).getD · 0) := by
    rw [chainBlock, List.getD_eq_getElem?_getD, List.getD_eq_getElem?_getD, List.getElem?_map]
    cases c.H.toNestedCsc[col]? <;> rfl
  have hcol : ∀ r ∈ c.H.toNestedCsc.getD col [], r < c.H.numRows :=
    fun r hr => c.H.mem_toNestedCsc_lt (getD_mem hr) hr
  rw [hget, h.count_map_placeRows hd ho hne hfit hcol]
  congr 1
  rw [Banded.rowAt, rows_banded, List.getD_eq_getElem?_getD (l := (c.rowOrder f t).map c.H.count),
    List.getElem?_map]
  cases (c.rowOrder f t)[R - base]? with
  | none => rfl
  | some r => exact count_toNestedCsc _ _ _

theorem length_chainBlock (base : Nat) : (chainBlock f t base c).length = c.H.numCols := by
  simp [chainBlock]

theorem ChainValid.numRows_le (h : ChainValid f t (c :: cs)) (hd : c.DistinctSeams) (hne : f ≠ t) :
    c.H.numRows ≤ chainRows f t (c :: cs) := by
  have hrows := (h.valid c (by simp)).rows_eq hd (h.only c (by simp)) hne
  cases cs with
  | nil =>
    simp [chainRows, startRow]
    omega
  | cons c' cs =>
    have hb := (List.isChain_cons_cons.mp h.boundary).1.width
    simp only [chainRows, startRow_cons]
    omega

/-- The planned columns list exactly the rows of the composed bands. -/
theorem ChainValid.count_chainBlocks (h : ChainValid f t (c :: cs))
    (hd : ∀ x ∈ c :: cs, x.DistinctSeams) (hne : f ≠ t) {base : Nat}
    (hfit : base + chainRows f t (c :: cs) ≤ 2 ^ 32) (R col : Nat) :
    ((chainBlocks f t base (c :: cs)).getD col []).count R =
      if R < base then 0 else (bandedChain f t (c :: cs)).rowAt (R - base) col := by
  have hv := h.valid c (by simp)
  have ho := h.only c (by simp)
  have hdc := hd c (by simp)
  have hfit' : base + c.H.numRows ≤ 2 ^ 32 := by
    have := h.numRows_le hdc hne
    omega
  induction cs generalizing c base col with
  | nil =>
    rw [chainBlocks, chainBlocks, List.append_nil, count_chainBlock hv hdc ho hne hfit']
    rfl
  | cons c' cs ih =>
    have hb := (List.isChain_cons_cons.mp h.boundary).1.width
    have hwidth : (c.banded f t).trail.length = (bandedChain f t (c' :: cs)).lead.length := by
      rw [length_banded_trail, length_bandedChain_lead, hb]
    have htrail : (c.banded f t).trailRow = c.seamRowsOrZero t + c.numInteriorRows := by
      rw [Banded.trailRow, length_banded_lead, hv.length_banded_interior]
    rw [chainRows_cons_cons] at hfit
    have hsplit : (chainBlocks f t base (c :: c' :: cs)).getD col [] =
        if col < c.H.numCols then (chainBlock f t base c).getD col []
        else (chainBlocks f t (base + c.seamRowsOrZero t + c.numInteriorRows) (c' :: cs)).getD
          (col - c.H.numCols) [] := by
      rw [chainBlocks, getD_append_ite, length_chainBlock]
    have hw : (c.banded f t).width = c.H.numCols := rfl
    rw [hsplit, bandedChain, Banded.rowAt_stitch _ _ hwidth, htrail, hw]
    -- the columns of the first chunk meet only its own bands, the others those of the rest
    by_cases hcol : col < c.H.numCols
    · rw [if_pos hcol, count_chainBlock hv hdc ho hne hfit', joinRows_of_lt _ _ hcol]
    · have hd' : ∀ x ∈ c' :: cs, x.DistinctSeams := fun x hx => hd x (List.mem_cons_of_mem _ hx)
      have hfit2 := h.tail.numRows_le (hd' c' (by simp)) hne
      rw [if_neg hcol, joinRows_of_le _ _ (by omega),
        ih h.tail hd' (by omega) _ (h.tail.valid c' (by simp)) (h.tail.only c' (by simp))
          (hd' c' (by simp)) (by omega)]
      split_ifs with h1 h2 h3 h4 h5
      · rfl
      · rfl
      · omega
      · omega
      · omega
      · congr 1
        omega

/-! ## The assembled chunk -/

private theorem getLastD_foldl_offsets (cs : List ExtendedDem) (offsets : List Nat) :
    (cs.foldl (fun offsets c => offsets ++ [offsets.getLastD 0 + c.numFaults]) offsets).getLastD 0 =
      offsets.getLastD 0 + chainFaults cs := by
  induction cs generalizing offsets with
  | nil => simp [chainFaults]
  | cons c cs ih =>
    rw [List.foldl_cons, ih, chainFaults, chainFaults, List.map_cons, List.sum_cons,
      List.getLastD_concat, Nat.add_assoc]

theorem getLastD_faultOffsets (cs : List ExtendedDem) :
    (demChunksToFaultOffsets cs).getLastD 0 = chainFaults cs := by
  rw [demChunksToFaultOffsets, getLastD_foldl_offsets]
  simp

theorem ChainValid.planChain_trailRow (h : ChainValid f t (c :: cs)) :
    (planChain (c :: cs) f t).trailRow = startRow t (c :: cs) := by
  have := (planBands_eq h 0).2.2
  simp only [Nat.zero_add] at this
  exact this

theorem ChainValid.sum_numCols (h : ChainValid f t cs) :
    (cs.map fun c => c.H.numCols).sum = chainFaults cs := by
  rw [chainFaults]
  congr 1
  apply List.map_congr_left
  intro c hc
  exact (h.valid c hc).cols

/-- The planned columns stay above the last row. -/
theorem ChainValid.filter_chainBlocks (h : ChainValid f t (c :: cs))
    (hd : ∀ x ∈ c :: cs, x.DistinctSeams) (hne : f ≠ t) (hfit : chainRows f t (c :: cs) < 2 ^ 32) :
    (chainBlocks f t 0 (c :: cs)).map (List.filter (· < chainRows f t (c :: cs))) =
      chainBlocks f t 0 (c :: cs) := by
  apply List.ext_getElem (by simp)
  intro col hcol hcol'
  rw [List.getElem_map, List.filter_eq_self]
  intro R hR
  have hpos : 0 < ((chainBlocks f t 0 (c :: cs)).getD col []).count R := by
    rw [List.getD_eq_getElem?_getD, List.getElem?_eq_getElem hcol', Option.getD_some]
    exact List.count_pos_iff.mpr hR
  rw [h.count_chainBlocks hd hne (by omega), if_neg (by omega), Nat.sub_zero, Banded.rowAt,
    List.getD_eq_getElem?_getD] at hpos
  rw [decide_eq_true_eq, ← h.length_rows]
  by_contra hge
  rw [List.getElem?_eq_none (by omega)] at hpos
  simp at hpos

/-- What `assembleChain` returns. A chain whose rows do not fit in `uint32_t` is assembled all the
same; its `H` then says nothing about the bands. -/
structure IsAssembled (f t : SeamId) (cs : List ExtendedDem) (r : ExtendedDem) : Prop where
  ne : f ≠ t
  faults : chainFaults cs < uint32Max
  H : ∃ m : SparseBinaryMatrix, r.H = m.canonicalize ∧ m.layout = .csc ∧
    m.numRows = u32 (chainRows f t cs) ∧ m.numCols = chainFaults cs ∧
      (chainRows f t cs < 2 ^ 32 → m.rowCounts = (bandedChain f t cs).rows)
  nnz : chainRows f t cs < 2 ^ 32 → (cs.map fun c => c.H.numNnz).sum < 2 ^ 32
  layoutO : r.O.layout = .csc
  rowsO : r.O.numRows = (cs.headD .empty).numObservables
  colsO : r.O.numCols = chainFaults cs
  groupsO : r.O.groups = chainOColumns cs
  rates : r.errorRates = cs.flatMap errorRates
  tags : r.tags = (cs.headD .empty).seamTags t ++ (cs.getLastD .empty).seamTags f
  seams : r.seams = [⟨t, 0, u32 ((cs.headD .empty).seamRowsOrZero t)⟩,
    ⟨f, u32 (startRow t cs), u32 (chainRows f t cs)⟩]

theorem assembleChain_eq_ok {r : ExtendedDem} (h : ChainValid f t (c :: cs))
    (hd : ∀ x ∈ c :: cs, x.DistinctSeams) (hr : assembleChain (c :: cs) f t = .ok r) : IsAssembled f t (c :: cs) r := by
  simp only [assembleChain, bind_eq_ok] at hr
  obtain ⟨m, hm, O, hO, hadd⟩ := hr
  rw [← bind_eq_ok, addSeams_eq_ok rfl] at hadd
  obtain ⟨hne, e1, e2, e3, e4, e5⟩ := hadd
  obtain ⟨hmax, hml, hmr, hmc, hmg⟩ := fromNestedCsc_eq_ok.mp hm
  obtain ⟨-, hOl, hOr, hOc, hOg⟩ := fromNestedCsc_eq_ok.mp hO
  have hrow : (planChain (c :: cs) f t).trailRow + (planChain (c :: cs) f t).trail =
      chainRows f t (c :: cs) := by
    rw [h.planChain_trailRow]
    rfl
  have hnf : (planChain (c :: cs) f t).numFaults = chainFaults (c :: cs) :=
    getLastD_faultOffsets _
  rw [hrow, chainHColumns_eq h] at hmg
  rw [hrow, u32_u32] at hmr
  rw [hnf, u32_u32] at hmc hOc
  -- The number of columns is checked against its cast, so it fits.
  have hfit : chainFaults (c :: cs) < 2 ^ 32 := by
    rw [← u32_eq_iff, ← hmc, ← m.length_groups_csc hml, hmg, List.length_map, length_chainBlocks,
      h.sum_numCols]
  rw [u32_of_lt hfit] at hmc hOc
  rw [hmc] at hmax
  have hobs : ((c :: cs).headD .empty).numObservables < 2 ^ 32 := SparseBinaryMatrix.rows_lt _
  rw [u32_of_lt hobs] at hOr
  refine ⟨hne, hmax, ⟨m, e1, hml, hmr, hmc, ?_⟩, ?_, by rw [e2, hOl], by rw [e2, hOr],
    by rw [e2, hOc], by rw [e2, hOg], e3, e4, ?_⟩
  · intro hlt
    apply rowCounts_eq
    · rw [hmr, u32_of_lt hlt, h.length_rows]
    intro R _ col
    rw [count_of_csc m hml, hmg, h.filter_chainBlocks hd hne hlt,
      h.count_chainBlocks hd hne (by omega), if_neg (by omega), Nat.sub_zero, Banded.rowAt]
  · intro hlt
    rw [h.filter_chainBlocks hd hne hlt] at hmg
    rw [← storedCount_chainBlocks f t 0, ← hmg]
    exact m.nnz_lt
  · rw [e5, hrow, h.planChain_trailRow]
    rfl

end CudaqQec
