import CudaqQec.Dem.StimText
import CudaqQec.Sparse.Canonical

/-!
# The sparse projection of a Stim model

`sparse_dem_from_stim_text` lays the lists of hits out as compressed arrays, without a dense matrix
between: the detectors by column, the observables by row. The sizes are summed and checked before
anything is allocated; the rows of the observables are counted and then filled by a scatter.

* `sparseDemFromStimText_eq`: the arrays are the storage of the matrices of the hits.
* `stimReaders_agree`: both readers return the columns of the text, and the columns that come from one
  instruction sum to that instruction.
-/

namespace CudaqQec

open Checked Buckets CompressedMatrix

/-! ## The projection -/

structure SparseDem where
  detectorErrorMatrix : CompressedMatrix
  observablesFlipsMatrix : CompressedMatrix
  errorRates : List ℚ
  deriving DecidableEq

/-- The pointers of groups of the given sizes: the sums run in a `size_t` and are cast. -/
def groupPtrs (sizes : List Nat) : List Nat := (sizes.scanl (· + ·) 0).map u32

/-- `++observable_counts[ob]`. -/
def countHit (observableCounts : List Nat) (ob : Nat) : Except Fault (List Nat) := do
  let k ← readAt observableCounts ob
  writeAt observableCounts ob (k + 1)

def countHits (numObservables : Nat) (observableHits : List (List Nat)) : Except Fault (List Nat) :=
  (groupEntries observableHits).foldlM (fun counts hit => countHit counts hit.1)
    (List.replicate numObservables 0)

/-- `col_indices[cursor[ob]++] = err`. -/
def scatterHit (st : List Nat × List Nat) (hit : Nat × Nat) : Except Fault (List Nat × List Nat) := do
  let pos ← readAt st.1 hit.1
  let colIndices ← writeAt st.2 pos (u32 hit.2)
  let cursor ← writeAt st.1 hit.1 (u32 (pos + 1))
  return (cursor, colIndices)

def scatterHits (rowPtrs : List Nat) (oNnz : Nat) (observableHits : List (List Nat)) :
    Except Fault (List Nat) := do
  let st ← (groupEntries observableHits).foldlM scatterHit
    (rowPtrs.dropLast, List.replicate oNnz 0)
  return st.2

def sparseDemFromStimText (stim : String → Except String StimModel) (demText : String) :
    Except Fault SparseDem := do
  let parsed ← thrown (parseStimDem false stim demText)
  thrown (validateHitIds parsed)
  let numCols := parsed.detectorHits.length
  thrown (throwIf
    (uint32Max < numCols ∨ uint32Max < parsed.numDetectors ∨ uint32Max < parsed.numObservables)
    (.runtimeError "Stim DEM dimensions exceed the sparse matrix index type"))
  let hNnz := storedCount parsed.detectorHits
  let oNnz := storedCount parsed.observableHits
  thrown (throwIf (uint32Max < hNnz ∨ uint32Max < oNnz)
    (.runtimeError "Stim DEM nonzero count exceeds the sparse matrix index type"))
  let observableCounts ← countHits parsed.numObservables parsed.observableHits
  let rowPtrs := groupPtrs observableCounts
  let colIndices ← scatterHits rowPtrs oNnz parsed.observableHits
  let detectors ← fromCompressed .csc parsed.numDetectors numCols
    (groupPtrs (parsed.detectorHits.map List.length)) (parsed.detectorHits.flatten.map u32)
  let observables ← fromCompressed .csr parsed.numObservables numCols rowPtrs colIndices
  return {
    detectorErrorMatrix := detectors
    observablesFlipsMatrix := observables
    errorRates := parsed.errorRates }

/-! ## The arrays -/

/-- Sums that fit are not changed by the cast. -/
theorem groupPtrs_length {groups : List (List Nat)} (h : storedCount groups < 2 ^ 32) :
    groupPtrs (groups.map List.length) = (groups.map List.length).scanl (· + ·) 0 := by
  apply map_u32_of_lt
  intro x hx
  obtain ⟨j, hj, rfl⟩ := List.getElem_of_mem hx
  have hle : j ≤ groups.length := by
    rw [List.length_scanl, List.length_map] at hj
    omega
  have hget := getElem?_scanl_length groups hle
  rw [List.getElem?_eq_getElem hj, Option.some.injEq] at hget
  rw [hget]
  refine lt_of_le_of_lt (start_le groups j) ?_
  rw [List.length_flatten]
  exact h

section Scatter

variable {n : Nat} {hits : List (Nat × Nat)}

theorem foldlM_countHit (hkeys : ∀ e ∈ hits, e.1 < n) :
    hits.foldlM (fun counts hit => countHit counts hit.1) (List.replicate n 0) =
      .ok ((buckets n hits).map List.length) := by
  rw [← map_length_buckets_nil]
  apply foldlM_eq_ok_of_step (s := fun done => (buckets n done).map List.length)
  intro done e rest h
  have hlen : e.1 < ((buckets n done).map List.length).length := by
    simpa using hkeys e (by simp [h])
  have hread : readAt ((buckets n done).map List.length) e.1 = .ok (bucket done e.1).length := by
    rw [readAt_eq_ok, List.getElem?_eq_getElem hlen]
    simp [buckets]
  rw [countHit, hread, ok_bind, writeAt_of_lt hlen, map_length_buckets_append]

def cursorOf (n : Nat) (hits done : List (Nat × Nat)) : List Nat :=
  (List.range n).map fun j => start (buckets n hits) j + (bucket done j).length

theorem cursorOf_nil : cursorOf n hits [] =
    (((buckets n hits).map List.length).scanl (· + ·) 0).dropLast := by
  have hlen : (buckets n hits).length = n := by simp [buckets]
  apply List.ext_getElem (by simp [cursorOf, hlen])
  intro j hj _
  have hlt : j < n := by simpa [cursorOf] using hj
  have hget := getElem?_scanl_length (buckets n hits) (hlen ▸ hlt.le)
  rw [List.getElem_dropLast]
  rw [List.getElem?_eq_getElem (by rw [List.length_scanl, List.length_map, hlen]; omega),
    Option.some.injEq] at hget
  rw [hget]
  simp [cursorOf, bucket]

theorem cursorOf_append (done : List (Nat × Nat)) (e : Nat × Nat) :
    (cursorOf n hits done).set e.1 (start (buckets n hits) e.1 + (bucket done e.1).length + 1) =
      cursorOf n hits (done ++ [e]) := by
  apply List.ext_getElem (by simp [cursorOf])
  intro j hj _
  rw [List.getElem_set]
  simp only [cursorOf, List.getElem_map, List.getElem_range, bucket_append, bucket_singleton,
    List.length_append]
  by_cases hje : e.1 = j
  · subst hje
    rw [if_pos rfl, if_pos rfl, List.length_singleton, Nat.add_assoc]
  · rw [if_neg hje, if_neg hje, List.length_nil, Nat.add_zero]

theorem foldlM_scatterHit (hkeys : ∀ e ∈ hits, e.1 < n) (hvalues : ∀ e ∈ hits, e.2 < 2 ^ 32)
    (hfit : hits.length < 2 ^ 32) :
    hits.foldlM scatterHit (cursorOf n hits [], List.replicate hits.length 0) =
      .ok (cursorOf n hits hits, (buckets n hits).flatten) := by
  have hinit : List.replicate hits.length 0 = (filled 0 n [] hits).flatten := by
    rw [filled_nil, length_flatten_buckets hkeys]
  rw [hinit, ← @filled_all _ 0]
  apply foldlM_eq_ok_of_step (s := fun done => (cursorOf n hits done, (filled 0 n done hits).flatten))
  intro done e rest h
  have hmem : e ∈ hits := by simp [h]
  have he : e.1 < n := hkeys e hmem
  have hlen : e.1 < (cursorOf n hits done).length := by simpa [cursorOf] using he
  have hread : readAt (cursorOf n hits done) e.1 =
      .ok (start (buckets n hits) e.1 + (bucket done e.1).length) := by
    rw [readAt_eq_ok, List.getElem?_eq_getElem hlen]
    simp [cursorOf]
  obtain ⟨hset, hlt⟩ : (filled 0 n done hits).flatten.set _ e.2 = _ ∧ _ := filled_append h he
  have hsmall : start (buckets n hits) e.1 + (bucket done e.1).length + 1 < 2 ^ 32 := by
    have hroom := hlt
    rw [length_flatten_filled h, length_flatten_buckets hkeys] at hroom
    omega
  rw [scatterHit, hread, ok_bind, u32_of_lt (hvalues e hmem), writeAt_of_lt hlt, ok_bind,
    u32_of_lt hsmall, writeAt_of_lt hlen, ok_bind, hset, cursorOf_append]
  rfl

end Scatter

/-! ## The matrices -/

section

variable {stim : String → Except String StimModel} {demText : String} {dem : StimModel}

/-- Dimensions and entry counts of what is read fit in a `uint32_t`. -/
structure StimModel.Fits (dem : StimModel) : Prop where
  detectors : dem.countDetectors < 2 ^ 32
  observables : dem.countObservables < 2 ^ 32
  columns : ∀ use, (dem.columns use).length < 2 ^ 32
  detectorEntries : ((dem.columns false).map fun c => (oddDetectors c.targets).length).sum < 2 ^ 32
  observableEntries : ((dem.columns false).map fun c => (oddObservables c.targets).length).sum < 2 ^ 32

theorem storedCount_detectorHits (hfits : dem.Fits) :
    storedCount (parsedOf dem false).detectorHits < 2 ^ 32 := by
  have h := hfits.detectorEntries
  simpa [storedCount, parsedOf, hitListsOf, Function.comp_def] using h

theorem storedCount_observableHits (hfits : dem.Fits) :
    storedCount (parsedOf dem false).observableHits < 2 ^ 32 := by
  have h := hfits.observableEntries
  simpa [storedCount, parsedOf, hitListsOf, Function.comp_def] using h

/-- The matrix of the detectors' hits. -/
def detectorMatrix (dem : StimModel) (hdem : dem.WellFormed) (hfits : dem.Fits) :
    SparseBinaryMatrix where
  layout := .csc
  numRows := dem.countDetectors
  numCols := (dem.columns false).length
  groups := (parsedOf dem false).detectorHits
  rows_lt := hfits.detectors
  cols_lt := hfits.columns false
  length_groups := List.length_map _
  index_lt := by
    intro _ hg
    obtain ⟨c, hc, rfl⟩ := List.mem_map.mp hg
    exact (hits_lt hdem hc).1
  nnz_lt := storedCount_detectorHits hfits

theorem observableEntries_lt (hdem : dem.WellFormed) :
    (∀ e ∈ groupEntries (parsedOf dem false).observableHits, e.1 < dem.countObservables) ∧
      ∀ e ∈ groupEntries (parsedOf dem false).observableHits, e.2 < (dem.columns false).length := by
  constructor
  · apply groupEntries_lt
    intro _ hg
    obtain ⟨c, hc, rfl⟩ := List.mem_map.mp hg
    exact (hits_lt hdem hc).2
  · intro e he
    obtain ⟨p, hp, he⟩ := List.mem_flatMap.mp he
    obtain ⟨i, -, rfl⟩ := List.mem_map.mp he
    have hlen : (parsedOf dem false).observableHits.length = (dem.columns false).length :=
      List.length_map _
    have hlt := List.snd_lt_add_of_mem_zipIdx hp
    omega

theorem exists_observableMatrix (hdem : dem.WellFormed) (hfits : dem.Fits) :
    ∃ s : SparseBinaryMatrix, s.layout = .csr ∧ s.numRows = dem.countObservables ∧
      s.numCols = (dem.columns false).length ∧
      s.groups = buckets dem.countObservables (groupEntries (parsedOf dem false).observableHits) := by
  obtain ⟨hkeys, hvalues⟩ := observableEntries_lt hdem
  exact @exists_buckets .csr _ _ _ hfits.observables (hfits.columns false) hkeys hvalues
    (by rw [length_groupEntries]; exact storedCount_observableHits hfits)

/-- The arrays are the storage of the two matrices. -/
theorem sparseDemFromStimText_eq (hstim : stim demText = .ok dem) (hdem : dem.WellFormed)
    (hfits : dem.Fits) {observables : SparseBinaryMatrix} (hlayout : observables.layout = .csr)
    (hrows : observables.numRows = dem.countObservables)
    (hcols : observables.numCols = (dem.columns false).length)
    (hgroups : observables.groups =
      buckets dem.countObservables (groupEntries (parsedOf dem false).observableHits)) :
    sparseDemFromStimText stim demText = if dem.columns false = [] then
      .error (.thrown (.runtimeError "Stim DEM contains no error mechanisms after flattening"))
    else .ok {
      detectorErrorMatrix := (detectorMatrix dem hdem hfits).compressed
      observablesFlipsMatrix := observables.compressed
      errorRates := (dem.columns false).map (·.rate) } := by
  rw [sparseDemFromStimText, parseStimDem_eq hstim hdem]
  split
  · rfl
  obtain ⟨hkeys, hvalues⟩ := observableEntries_lt hdem
  have hparsed : thrown (.ok (parsedOf dem false) : Except Error ParsedStimDem) =
      .ok (parsedOf dem false) := rfl
  have hlen : (parsedOf dem false).detectorHits.length = (dem.columns false).length := List.length_map _
  have hfit := length_groupEntries (parsedOf dem false).observableHits
  have honnz := storedCount_observableHits hfits
  have hhnnz := storedCount_detectorHits hfits
  have hcolumns := hfits.columns false
  have hdetectors := hfits.detectors
  have hobservables := hfits.observables
  have hdims : ¬ (uint32Max < (dem.columns false).length ∨ uint32Max < (parsedOf dem false).numDetectors ∨
      uint32Max < (parsedOf dem false).numObservables) := by
    simp only [uint32Max, parsedOf]
    omega
  have hnnz : ¬ (uint32Max < storedCount (parsedOf dem false).detectorHits ∨
      uint32Max < storedCount (parsedOf dem false).observableHits) := by
    simp only [uint32Max]
    omega
  -- the rows of the observables
  have hcount : countHits (parsedOf dem false).numObservables (parsedOf dem false).observableHits =
      .ok (observables.groups.map List.length) := by
    rw [hgroups]
    exact foldlM_countHit hkeys
  have hptrs : groupPtrs (observables.groups.map List.length) =
      (observables.groups.map List.length).scanl (· + ·) 0 := groupPtrs_length observables.nnz_lt
  have hscatter : scatterHits ((observables.groups.map List.length).scanl (· + ·) 0)
      (storedCount (parsedOf dem false).observableHits) (parsedOf dem false).observableHits =
      .ok observables.groups.flatten := by
    rw [scatterHits, hgroups, ← cursorOf_nil, ← hfit,
      foldlM_scatterHit hkeys (fun e he => lt_trans (hvalues e he) hcolumns) (hfit ▸ honnz), ok_bind]
    rfl
  have hindices : (parsedOf dem false).detectorHits.flatten.map u32 =
      (parsedOf dem false).detectorHits.flatten := by
    apply map_u32_of_lt
    intro i hi
    obtain ⟨g, hg, hi⟩ := List.mem_flatten.mp hi
    exact lt_trans ((detectorMatrix dem hdem hfits).index_lt g hg i hi) hdetectors
  have hdet := fromCompressed_compressed (detectorMatrix dem hdem hfits)
  have hobs := fromCompressed_compressed observables
  rw [hlayout, hrows, hcols] at hobs
  simp only [hparsed, ok_bind, thrown_eq_ok.mpr (validateHitIds_eq hdem), hlen, throwIf_of_not hdims,
    throwIf_of_not hnnz, hcount, hptrs, hscatter, groupPtrs_length hhnnz, hindices]
  have hdet' : fromCompressed .csc (parsedOf dem false).numDetectors (dem.columns false).length
      (((parsedOf dem false).detectorHits.map List.length).scanl (· + ·) 0)
      (parsedOf dem false).detectorHits.flatten = .ok (detectorMatrix dem hdem hfits).compressed := hdet
  have hobs' : fromCompressed .csr (parsedOf dem false).numObservables (dem.columns false).length
      ((observables.groups.map List.length).scanl (· + ·) 0) observables.groups.flatten =
      .ok observables.compressed := hobs
  have hpass : thrown (.ok () : Except Error Unit) = .ok () := rfl
  rw [hpass, ok_bind, ok_bind, hdet', ok_bind, hobs', ok_bind]
  rfl

end

/-! ## The readers agree -/

namespace StimModel

variable (dem : StimModel)

def kept : List DemInstruction := dem.errors.filter fun inst => ¬ Cancel inst.targetData

def blockStart (i : Nat) : Nat := ((dem.errors.take i).map fun inst => (inst.columns true).length).sum

/-- A dense model has these columns, each with the detectors and observables that its targets name an
odd number of times. -/
structure HasColumns (d : Css.Dem) (columns : List StimColumn) : Prop where
  detectorShape : d.detectorErrorMatrix.shape = [dem.countDetectors, columns.length]
  observableShape : d.observablesFlipsMatrix.shape = [dem.countObservables, columns.length]
  rates : d.errorRates = columns.map (·.rate)
  detector : ∀ j (h : j < columns.length), ∀ r < dem.countDetectors,
    d.detectorErrorMatrix.get r j = decide (columns[j].targets.count (.detector r) % 2 = 1)
  observable : ∀ j (h : j < columns.length), ∀ r < dem.countObservables,
    d.observablesFlipsMatrix.get r j = decide (columns[j].targets.count (.observable r) % 2 = 1)

/-- The columns of each block sum to the instruction that they come from. -/
structure SumsToInstructions (d : Css.Dem) : Prop where
  columns : d.errorRates.length = dem.blockStart dem.errors.length
  detector : ∀ i (h : i < dem.errors.length), ∀ r < dem.countDetectors,
    (List.range' (dem.blockStart i) (dem.errors[i].columns true).length).countP
        (d.detectorErrorMatrix.get r) % 2 = dem.errors[i].targetData.count (.detector r) % 2
  observable : ∀ i (h : i < dem.errors.length), ∀ r < dem.countObservables,
    (List.range' (dem.blockStart i) (dem.errors[i].columns true).length).countP
        (d.observablesFlipsMatrix.get r) % 2 = dem.errors[i].targetData.count (.observable r) % 2

end StimModel

/-- A stored matrix is canonical, and has the elements of a dense one. -/
structure SameMatrix (m : CompressedMatrix) (t : BitTensor) : Prop where
  shape : t.shape = [m.numRows, m.numCols]
  canonical : m.canonicalizeGroups = .ok m
  entries : ∀ r c, (r, c) ∈ m.positions ↔ r < m.numRows ∧ c < m.numCols ∧ t.get r c = true

/-- A sparse model is canonical, and the same as a dense one. -/
structure SameModel (s : SparseDem) (d : Css.Dem) : Prop where
  rates : s.errorRates = d.errorRates
  layouts : s.detectorErrorMatrix.layout = .csc ∧ s.observablesFlipsMatrix.layout = .csr
  detectors : SameMatrix s.detectorErrorMatrix d.detectorErrorMatrix
  observables : SameMatrix s.observablesFlipsMatrix d.observablesFlipsMatrix

section

variable {stim : String → Except String StimModel} {demText : String} {dem : StimModel} {use : Bool}

theorem columns_false (dem : StimModel) :
    dem.columns false = dem.kept.map fun inst => ⟨inst.targetData, inst.prob⟩ := by
  rw [StimModel.columns, StimModel.kept]
  induction dem.errors with
  | nil => rfl
  | cons inst errors ih =>
    rw [List.flatMap_cons, ih, List.filter_cons]
    by_cases h : Cancel inst.targetData <;> simp [DemInstruction.columns, DemInstruction.components, h]

theorem size_lt {rows cols : Nat} (hrows : rows < 2 ^ 32) (hcols : cols < 2 ^ 32) :
    rows * cols < 2 ^ 64 :=
  calc rows * cols ≤ 2 ^ 32 * cols := Nat.mul_le_mul_right _ hrows.le
    _ < 2 ^ 32 * 2 ^ 32 := Nat.mul_lt_mul_of_pos_left hcols (by decide)
    _ = 2 ^ 64 := by decide

theorem nodup_oddDetectors (targets : List DemTarget) : (oddDetectors targets).Nodup :=
  nodup_canonicalGroup _

theorem nodup_oddObservables (targets : List DemTarget) : (oddObservables targets).Nodup :=
  nodup_canonicalGroup _

/-! ## The dense model -/

theorem hasColumns_denseModel (hfits : dem.Fits) :
    dem.HasColumns (denseModel dem use) (dem.columns use) where
  detectorShape := by simp [denseModel, denseOf, BitTensor.alloc, hitListsOf]
  observableShape := by simp [denseModel, denseOf, BitTensor.alloc, hitListsOf]
  rates := rfl
  detector := by
    intro j hj r hr
    have hlen : (hitListsOf (dem.columns use)).detectorHits.length = (dem.columns use).length :=
      List.length_map _
    rw [denseModel, get_denseOf (hlen ▸ size_lt hfits.detectors (hfits.columns use)) ?_ hr (hlen ▸ hj)]
    · simp only [hitListsOf, List.getElem_map, mem_oddDetectors]
    · intro _ hc
      obtain ⟨c, -, rfl⟩ := List.mem_map.mp hc
      exact nodup_oddDetectors c.targets
  observable := by
    intro j hj r hr
    have hlen : (hitListsOf (dem.columns use)).observableHits.length = (dem.columns use).length :=
      List.length_map _
    rw [denseModel, get_denseOf (hlen ▸ size_lt hfits.observables (hfits.columns use)) ?_ hr (hlen ▸ hj)]
    · simp only [hitListsOf, List.getElem_map, mem_oddObservables]
    · intro _ hc
      obtain ⟨c, -, rfl⟩ := List.mem_map.mp hc
      exact nodup_oddObservables c.targets

/-- The columns of an instruction name a target an odd number of times when the instruction does. -/
theorem countP_columns (inst : DemInstruction) {t : DemTarget} (ht : t ≠ .separator)
    (hcancel : ∀ targets, Cancel targets → targets.count t % 2 = 0) :
    (inst.columns use).countP (fun c => decide (c.targets.count t % 2 = 1)) % 2 =
      inst.targetData.count t % 2 := by
  have hsum := SparseBinaryMatrix.sum_mod_two (inst.components use) (List.count t)
  rw [sum_count_components inst ht] at hsum
  rw [hsum, DemInstruction.columns, List.countP_map, List.countP_filter]
  congr 1
  apply List.countP_congr
  intro targets _
  -- what cancels is not counted
  by_cases hc : Cancel targets
  · simp [hc, hcancel targets hc]
  · simp [hc]

theorem count_of_cancel {targets : List DemTarget} (h : Cancel targets) (r : Nat) :
    targets.count (.detector r) % 2 = 0 ∧ targets.count (.observable r) % 2 = 0 := by
  have hdet := @mem_oddDetectors targets r
  have hobs := @mem_oddObservables targets r
  rw [h.1] at hdet
  rw [h.2] at hobs
  simp only [List.not_mem_nil, false_iff] at hdet hobs
  omega

theorem countP_block {get : Nat → Bool} {t : DemTarget} (i : Nat) (hi : i < dem.errors.length)
    (hget : ∀ j (h : j < (dem.columns true).length),
      get j = decide ((dem.columns true)[j].targets.count t % 2 = 1)) :
    (List.range' (dem.blockStart i) (dem.errors[i].columns true).length).countP get =
      (dem.errors[i].columns true).countP fun c => decide (c.targets.count t % 2 = 1) := by
  set block := dem.errors[i].columns true with hblock
  have hgroup : (dem.errors.map (DemInstruction.columns · true)).getD i [] = block := by
    rw [List.getD_eq_getElem _ _ (by simpa using hi), List.getElem_map]
  have hstart : start (dem.errors.map (DemInstruction.columns · true)) i = dem.blockStart i := by
    rw [start, StimModel.blockStart, ← List.map_take, List.map_map]
    rfl
  have hflat : (dem.errors.map (DemInstruction.columns · true)).flatten = dem.columns true := rfl
  rw [List.range'_eq_map_range, List.countP_map]
  conv_rhs => rw [← map_getD_range block ⟨[], 0⟩, List.countP_map]
  apply List.countP_congr
  intro k hk
  have hk' : k < block.length := List.mem_range.mp hk
  have hread := getElem?_flatten_start (dem.errors.map (DemInstruction.columns · true)) (hgroup ▸ hk')
  rw [hgroup, hstart, hflat] at hread
  obtain ⟨hlt, hval⟩ := List.getElem?_eq_some_iff.mp (hread.trans (List.getElem?_eq_getElem hk'))
  simp only [Function.comp_apply, hget _ hlt, hval, List.getD_eq_getElem _ _ hk']

/-! ## The sums over an instruction -/

theorem sumsToInstructions_denseModel (hfits : dem.Fits) :
    dem.SumsToInstructions (denseModel dem true) where
  columns := by
    rw [(hasColumns_denseModel hfits).rates, List.length_map, StimModel.columns, List.length_flatMap,
      StimModel.blockStart, List.take_length]
  detector := by
    intro i hi r hr
    rw [countP_block (t := .detector r) i hi fun j hj => (hasColumns_denseModel hfits).detector j hj r hr]
    exact countP_columns _ (by simp) fun _ hc => (count_of_cancel hc r).1
  observable := by
    intro i hi r hr
    rw [countP_block (t := .observable r) i hi
      fun j hj => (hasColumns_denseModel hfits).observable j hj r hr]
    exact countP_columns _ (by simp) fun _ hc => (count_of_cancel hc r).2

/-! ## The matrices agree -/

/-- A stored matrix with groups in increasing order is a dense one with the same elements. -/
theorem sameMatrix_compressed {s : SparseBinaryMatrix} {t : BitTensor}
    (hshape : t.shape = [s.numRows, s.numCols]) (hgroups : ∀ g ∈ s.groups, g.Pairwise (· < ·))
    (hentry : ∀ r < s.numRows, ∀ c < s.numCols, (s.count r c ≠ 0 ↔ t.get r c = true)) :
    SameMatrix s.compressed t where
  shape := hshape
  canonical := by
    rw [canonicalizeGroups_compressed, SparseBinaryMatrix.canonicalize_of_increasing hgroups]
  entries := by
    intro r c
    rw [← List.count_pos_iff, count_positions_compressed, Nat.pos_iff_ne_zero]
    constructor
    · intro hne
      have hr : r < s.numRows := by
        by_contra hr
        exact hne (s.count_eq_zero_of_row_le c (Nat.le_of_not_lt hr))
      have hc : c < s.numCols := by
        by_contra hc
        exact hne (s.count_eq_zero_of_col_le r (Nat.le_of_not_lt hc))
      exact ⟨hr, hc, (hentry r hr c hc).mp hne⟩
    · rintro ⟨hr, hc, hget⟩
      exact (hentry r hr c hc).mpr hget

theorem sameMatrix_detectors (hdem : dem.WellFormed) (hfits : dem.Fits) :
    SameMatrix (detectorMatrix dem hdem hfits).compressed (denseModel dem false).detectorErrorMatrix := by
  apply sameMatrix_compressed (hasColumns_denseModel hfits).detectorShape
  · intro _ hg
    obtain ⟨c, -, rfl⟩ := List.mem_map.mp hg
    exact (sortedLT_canonicalGroup _).pairwise
  · intro r hr j hj
    have hj' : j < (dem.columns false).length := hj
    have hgroup : (parsedOf dem false).detectorHits.getD j [] =
        oddDetectors (dem.columns false)[j].targets := by
      simp [parsedOf, hitListsOf, List.getD_eq_getElem?_getD, hj']
    have hcount : (detectorMatrix dem hdem hfits).count r j =
        (oddDetectors (dem.columns false)[j].targets).count r := by
      rw [← hgroup]
      rfl
    rw [(hasColumns_denseModel hfits).detector j hj r hr, hcount, decide_eq_true_eq, ← mem_oddDetectors,
      ← Nat.pos_iff_ne_zero, List.count_pos_iff]
    exact Iff.rfl

theorem sameMatrix_observables (hfits : dem.Fits) {s : SparseBinaryMatrix} (hlayout : s.layout = .csr)
    (hrows : s.numRows = dem.countObservables) (hcols : s.numCols = (dem.columns false).length)
    (hgroups : s.groups =
      buckets dem.countObservables (groupEntries (parsedOf dem false).observableHits)) :
    SameMatrix s.compressed (denseModel dem false).observablesFlipsMatrix := by
  rw [buckets_groupEntries] at hgroups
  apply sameMatrix_compressed
  · rw [hrows, hcols]
    exact (hasColumns_denseModel hfits).observableShape
  · intro g hg
    rw [hgroups] at hg
    refine SparseBinaryMatrix.pairwise_lt_transposeGroups (fun h hmem => ?_) hg
    obtain ⟨c, -, rfl⟩ := List.mem_map.mp hmem
    exact nodup_oddObservables c.targets
  · intro r hr j hj
    rw [hrows] at hr
    have hj' : j < (dem.columns false).length := hcols ▸ hj
    have hgroup : (parsedOf dem false).observableHits.getD j [] =
        oddObservables (dem.columns false)[j].targets := by
      simp [parsedOf, hitListsOf, List.getD_eq_getElem?_getD, hj']
    have hcount : s.count r j = (oddObservables (dem.columns false)[j].targets).count r := by
      rw [← hgroup, ← count_transposeGroups _ _ _ _ hr, ← hgroups, SparseBinaryMatrix.count, hlayout]
    rw [(hasColumns_denseModel hfits).observable j hj' r hr, hcount, decide_eq_true_eq,
      ← mem_oddObservables, ← Nat.pos_iff_ne_zero, List.count_pos_iff]

/-- Both readers return one column for each instruction that does not cancel, with its odd detectors
and observables, the sparse one in canonical form; and with decomposition the columns of one
instruction sum to it. A text that has no column left is rejected. -/
theorem stimReaders_agree (hstim : stim demText = .ok dem) (hdem : dem.WellFormed) (hfits : dem.Fits) :
    (dem.kept ≠ [] → ∃ d s, demFromStimText stim demText false = .ok d ∧
      dem.HasColumns d (dem.kept.map fun inst => ⟨inst.targetData, inst.prob⟩) ∧
      sparseDemFromStimText stim demText = .ok s ∧ SameModel s d) ∧
    (dem.columns true ≠ [] → ∃ d, demFromStimText stim demText true = .ok d ∧
      dem.HasColumns d (dem.columns true) ∧ dem.SumsToInstructions d) ∧
    ∀ e : Fault, e = .thrown (.runtimeError "Stim DEM contains no error mechanisms after flattening") →
      (dem.kept = [] → demFromStimText stim demText false = .error e ∧
        sparseDemFromStimText stim demText = .error e) ∧
      (dem.columns true = [] → demFromStimText stim demText true = .error e) := by
  obtain ⟨observables, hlayout, hrows, hcols, hgroups⟩ := exists_observableMatrix hdem hfits
  have hdense (use : Bool) := demFromStimText_eq hstim hdem hfits.detectors hfits.observables
    (hfits.columns use)
  have hsparse := sparseDemFromStimText_eq hstim hdem hfits hlayout hrows hcols hgroups
  have hkept : dem.columns false = [] ↔ dem.kept = [] := by rw [columns_false, List.map_eq_nil_iff]
  refine ⟨fun hne => ?_, fun hne => ?_, ?_⟩
  · have hne' := mt hkept.mp hne
    refine ⟨_, _, (hdense false).trans (if_neg hne'), columns_false dem ▸ hasColumns_denseModel hfits,
      hsparse.trans (if_neg hne'), rfl, ⟨rfl, hlayout⟩, sameMatrix_detectors hdem hfits, ?_⟩
    exact sameMatrix_observables hfits hlayout hrows hcols hgroups
  · exact ⟨_, (hdense true).trans (if_neg hne), hasColumns_denseModel hfits,
      sumsToInstructions_denseModel hfits⟩
  · rintro e rfl
    refine ⟨fun hnil => ?_, fun hnil => (hdense true).trans (if_pos hnil)⟩
    have hnil' := hkept.mpr hnil
    exact ⟨(hdense false).trans (if_pos hnil'), hsparse.trans (if_pos hnil')⟩

end

/-! ## Two errors -/

/-- What Stim reads from an error on two detectors and an observable, and one that is decomposed. -/
def twoErrors : StimModel :=
  ⟨2, 1, [⟨[1 / 4], [.detector 0, .detector 1, .observable 0]⟩,
    ⟨[1 / 8], [.detector 0, .separator, .detector 1]⟩]⟩

def cancellingError : StimModel := ⟨1, 0, [⟨[1 / 8], [.detector 0, .detector 0]⟩]⟩

def stimOn (demText : String) (dem : StimModel) (text : String) : Except String StimModel :=
  if text = demText then .ok dem else .error "Unrecognized instruction name"

theorem wellFormed_twoErrors : twoErrors.WellFormed := by
  refine ⟨?_, ?_, ?_, ?_⟩
  · simp [twoErrors]
    norm_num
  all_goals simp [twoErrors]

theorem fits_twoErrors : twoErrors.Fits :=
  ⟨by decide, by decide, by decide, by decide +kernel, by decide +kernel⟩

/-- The two columns of the text, and the three of its decomposition. -/
theorem stimReaders_agree_twoErrors :
    (∃ d s, demFromStimText (stimOn "error(0.25) D0 D1 L0\nerror(0.125) D0 ^ D1" twoErrors)
        "error(0.25) D0 D1 L0\nerror(0.125) D0 ^ D1" false = .ok d ∧
      twoErrors.HasColumns d (twoErrors.kept.map fun inst => ⟨inst.targetData, inst.prob⟩) ∧
      sparseDemFromStimText (stimOn "error(0.25) D0 D1 L0\nerror(0.125) D0 ^ D1" twoErrors)
        "error(0.25) D0 D1 L0\nerror(0.125) D0 ^ D1" = .ok s ∧ SameModel s d) ∧
    ∃ d, demFromStimText (stimOn "error(0.25) D0 D1 L0\nerror(0.125) D0 ^ D1" twoErrors)
        "error(0.25) D0 D1 L0\nerror(0.125) D0 ^ D1" true = .ok d ∧
      twoErrors.HasColumns d (twoErrors.columns true) ∧ twoErrors.SumsToInstructions d := by
  have hstim : stimOn "error(0.25) D0 D1 L0\nerror(0.125) D0 ^ D1" twoErrors
      "error(0.25) D0 D1 L0\nerror(0.125) D0 ^ D1" = .ok twoErrors := if_pos rfl
  have h := stimReaders_agree hstim wellFormed_twoErrors fits_twoErrors
  exact ⟨h.1 (by decide +kernel), h.2.1 (by decide +kernel)⟩

/-- A text whose only error cancels has no columns, and is rejected. -/
theorem not_stimReaders_agree : ¬ ∀ (stim : String → Except String StimModel) (demText : String)
    (dem : StimModel), stim demText = .ok dem → dem.WellFormed → dem.Fits →
    ∃ d, demFromStimText stim demText false = .ok d ∧
      dem.HasColumns d (dem.kept.map fun inst => ⟨inst.targetData, inst.prob⟩) := by
  intro h
  have hdem : cancellingError.WellFormed := by
    refine ⟨?_, ?_, ?_, ?_⟩
    · simp [cancellingError]
      norm_num
    all_goals simp [cancellingError]
  have hfits : cancellingError.Fits :=
    ⟨by decide, by decide, by decide, by decide +kernel, by decide +kernel⟩
  have hstim : stimOn "error(0.125) D0 D0" cancellingError "error(0.125) D0 D0" = .ok cancellingError :=
    if_pos rfl
  obtain ⟨d, hd, -⟩ := h _ _ _ hstim hdem hfits
  rw [demFromStimText_eq hstim hdem hfits.detectors hfits.observables (hfits.columns false),
    if_pos (by decide +kernel)] at hd
  cases hd

end CudaqQec
