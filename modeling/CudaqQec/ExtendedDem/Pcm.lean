import CudaqQec.ExtendedDem.Observables
import Mathlib.Data.List.GetD

/-!
# The sparse parity-check matrix of a chain

`dem_chunks_to_pcm` closes a chain without going through the dense model: it maps every stored entry
to its planned row, stops before the trailing band and reduces repeats. The result lists the entries
that `dem_close_all` sets, and the observable map lists the columns of its observable matrix.

* `demChunksToPcm_eq_demCloseAll`: both closings agree, as long as the entries kept can be stored.
-/

namespace CudaqQec

open Checked SparseBinaryMatrix ExtendedDem BitMatrix

variable {c : ExtendedDem} {cs : List ExtendedDem} {f t : SeamId}

/-! ## Dense matrices -/

/-- `to_dense`: a bit for each position the matrix lists. -/
def SparseBinaryMatrix.toDense (m : SparseBinaryMatrix) : BitMatrix where
  rows := m.numRows
  cols := m.numCols
  bits := (List.range m.numRows).map fun i =>
    (List.range m.numCols).map fun j => decide (m.count i j ≠ 0)
  length_bits := by simp
  length_row := by
    intro r hr
    obtain ⟨i, -, rfl⟩ := List.mem_map.mp hr
    simp

theorem get_toDense (m : SparseBinaryMatrix) (i j : Nat) :
    m.toDense.get i j = decide (m.count i j ≠ 0) := by
  unfold BitMatrix.get toDense
  rw [getD_map_range]
  by_cases hi : i < m.numRows
  · rw [if_pos hi, getD_map_range]
    by_cases hj : j < m.numCols
    · rw [if_pos hj]
    · rw [if_neg hj, count_eq_zero_of_col_le m i (by omega)]
      rfl
  · rw [if_neg hi, count_eq_zero_of_row_le m j (by omega)]
    rfl

/-! ## `dem_chunks_to_pcm` -/

/-- The columns of a closed chain: every stored entry above the trailing band. -/
def closedColumns (chunks : List ExtendedDem) (fromSeam toSeam : SeamId) : List (List Nat) :=
  let plan := planChain chunks fromSeam toSeam
  chainHColumns chunks plan fromSeam toSeam plan.trailRow

def demChunksToPcm (chunks : List ExtendedDem) (fromSeam toSeam : SeamId) :
    Except Error SparseBinaryMatrix := do
  throwIf (chunks = []) (.invalidArgument "dem_chunks_to_pcm: dem_chunks must be non-empty")
  validateChain chunks fromSeam toSeam "dem_chunks_to_pcm"
  let plan := planChain chunks fromSeam toSeam
  let m ← fromNestedCsc (u32 plan.trailRow) (u32 plan.numFaults)
    (closedColumns chunks fromSeam toSeam)
  return m.canonicalize

/-- Above the trailing band the closed columns list the composed bands. -/
theorem count_closedColumns (h : ChainValid f t (c :: cs))
    (hd : ∀ x ∈ c :: cs, x.DistinctSeams) (hft : f ≠ t) (hrows : chainRows f t (c :: cs) < 2 ^ 32) {i : Nat} (hi : i < startRow t (c :: cs)) (j : Nat) :
    ((closedColumns (c :: cs) f t).getD j []).count i =
      rowsAt 0 0 ((bandedChain f t (c :: cs)).lead ++ (bandedChain f t (c :: cs)).interior) i j := by
  have hlen : ((bandedChain f t (c :: cs)).lead ++ (bandedChain f t (c :: cs)).interior).length =
      startRow t (c :: cs) := by
    rw [List.length_append]
    exact h.trailRow
  have hget : (closedColumns (c :: cs) f t).getD j [] =
      ((chainBlocks f t 0 (c :: cs)).getD j []).filter (· < startRow t (c :: cs)) := by
    unfold closedColumns
    simp only [h.planChain_trailRow, chainHColumns_eq h]
    rw [List.getD_eq_getElem?_getD, List.getElem?_map, List.getD_eq_getElem?_getD]
    cases (chainBlocks f t 0 (c :: cs))[j]? <;> rfl
  rw [hget, List.count_filter (by simpa using hi), h.count_chainBlocks hd hft (by omega),
    if_neg (by omega), Nat.sub_zero, Banded.rowAt, Banded.rows, ← List.append_assoc,
    getD_append_ite, if_pos (by omega), rowsAt, if_pos ⟨by omega, by omega⟩]
  rfl

/-- A closed chain has a column for each fault, and no row beyond its trailing band. -/
theorem closedColumns_eq (h : ChainValid f t (c :: cs)) : closedColumns (c :: cs) f t =
    (chainBlocks f t 0 (c :: cs)).map (List.filter (· < startRow t (c :: cs))) := by
  unfold closedColumns
  simp only [h.planChain_trailRow, chainHColumns_eq h]

theorem length_closedColumns (h : ChainValid f t (c :: cs)) :
    (closedColumns (c :: cs) f t).length = chainFaults (c :: cs) := by
  rw [closedColumns_eq h, List.length_map, length_chainBlocks, h.sum_numCols]

theorem closedColumns_lt (h : ChainValid f t (c :: cs)) :
    ∀ g ∈ closedColumns (c :: cs) f t, ∀ i ∈ g, i < startRow t (c :: cs) := by
  intro g hg i hi
  rw [closedColumns_eq h] at hg
  obtain ⟨g', -, rfl⟩ := List.mem_map.mp hg
  simpa using (List.mem_filter.mp hi).2

/-- Closing a chain drops entries and adds none. -/
theorem storedCount_closedColumns_le (h : ChainValid f t (c :: cs)) :
    storedCount (closedColumns (c :: cs) f t) ≤ ((c :: cs).map fun c => c.H.numNnz).sum := by
  rw [closedColumns_eq h, ← storedCount_chainBlocks f t 0, storedCount, storedCount, List.map_map]
  exact List.sum_le_sum fun g _ => List.length_filter_le _ g

theorem exists_closedMatrix (h : ChainValid f t (c :: cs))
    (hstart : startRow t (c :: cs) < 2 ^ 32) (hmax : chainFaults (c :: cs) < uint32Max)
    (hnnz : storedCount (closedColumns (c :: cs) f t) < 2 ^ 32) :
    ∃ m : SparseBinaryMatrix, demChunksToPcm (c :: cs) f t = .ok m.canonicalize ∧
      m.layout = .csc ∧ m.numRows = startRow t (c :: cs) ∧ m.numCols = chainFaults (c :: cs) ∧
      m.groups = closedColumns (c :: cs) f t := by
  have hfaults := lt_two_pow_of_lt_uint32Max hmax
  have hnf : (planChain (c :: cs) f t).numFaults = chainFaults (c :: cs) := getLastD_faultOffsets _
  obtain ⟨m, hm⟩ :=
    exists_fromNestedCsc hstart hmax (length_closedColumns h) hnnz (closedColumns_lt h)
  obtain ⟨-, hl, hr, hc, hg⟩ := fromNestedCsc_eq_ok.mp hm
  rw [u32_of_lt hstart] at hr
  rw [u32_of_lt hfaults] at hc
  refine ⟨m, ?_, hl, hr, hc, hg⟩
  have hval : validateChain (c :: cs) f t "dem_chunks_to_pcm" = .ok () := validateChain_eq_ok.mpr h
  rw [demChunksToPcm, throwIf_of_not (by simp), ok_bind, hval, ok_bind]
  simp only [h.planChain_trailRow, hnf, u32_of_lt hstart, u32_of_lt hfaults, hm]
  rfl

/-- With `2 ^ 32 - 1` faults the closed matrix has no pointer array. -/
theorem demChunksToPcm_outOfBounds (h : ChainValid f t (c :: cs))
    (hmax : chainFaults (c :: cs) = uint32Max) :
    demChunksToPcm (c :: cs) f t = .error .outOfBounds := by
  have hnf : (planChain (c :: cs) f t).numFaults = uint32Max :=
    (getLastD_faultOffsets _).trans hmax
  have hval : validateChain (c :: cs) f t "dem_chunks_to_pcm" = .ok () := validateChain_eq_ok.mpr h
  have hcols : u32 (u32 uint32Max) = uint32Max := by decide
  have hlen : (closedColumns (c :: cs) f t).length = u32 (u32 uint32Max) := by
    rw [length_closedColumns h, hmax, hcols]
  rw [demChunksToPcm, throwIf_of_not (by simp), ok_bind, hval, ok_bind]
  simp only [hnf, fromNestedCsc_outOfBounds hcols hlen, error_bind]

/-- The sparse and the dense closing of a chain agree: detectors bit by bit, and for each observable
the columns that its list names an odd number of times. -/
theorem demChunksToPcm_eq_demCloseAll (cs : List ExtendedDem) (f t : SeamId) (hne : cs ≠ [])
    (hft : f ≠ t) (hd : ∀ c ∈ cs, c.DistinctSeams)
    (hval : validateChain cs f t "dem_chunks_to_pcm" = .ok ())
    (hrows : chainRows f t cs < 2 ^ 32) (hfaults : chainFaults cs < uint32Max)
    (hfit : CloseFits f t cs) (hnnz : storedCount (closedColumns cs f t) < 2 ^ 32) :
    ∃ m model o, demChunksToPcm cs f t = .ok m ∧ demCloseAll cs f t = .ok model ∧
      demChunksToOSparse cs = .ok o ∧ m.toDense = model.detectorErrorMatrix ∧
      ∀ k j, (o.getD k []).count j % 2 = 1 ↔ model.observablesFlipsMatrix.get k j = true := by
  obtain ⟨c, cs, rfl⟩ := List.exists_cons_of_ne_nil hne
  have h := validateChain_eq_ok.mp hval
  have hstart : startRow t (c :: cs) < 2 ^ 32 := by
    unfold chainRows at hrows
    omega
  obtain ⟨m, hm, hl, hr, hc, hg⟩ := exists_closedMatrix h hstart hfaults hnnz
  obtain ⟨D, O, hclose, hD, hO⟩ := demCloseAll_eq h hfit
  have hs : SameObservables (c :: cs) := ⟨by simp, h.valid, h.obs⟩
  have ho : demChunksToOSparse (c :: cs) = .ok (flipLists (c :: cs)) :=
    demChunksToOSparse_eq_ok.mpr ⟨hs, (lt_two_pow_of_lt_uint32Max hfaults).le, rfl⟩
  refine ⟨_, _, _, hm, hclose, ho, ?_, fun k j => ?_⟩
  · apply ext_get
    · rw [hD.rows]
      exact hr
    · rw [hD.cols]
      exact hc
    intro i hi j _
    have hi' : i < startRow t (c :: cs) := hr ▸ hi
    rw [get_toDense, hD.get, get_zero, count_canonicalize, count_of_csc m hl, hg,
      count_closedColumns h hd hft hrows hi', Bool.false_xor]
    apply decide_eq_decide.mpr
    omega
  · rw [getD_flipLists hs, count_flipsOf, hO.get, get_zero, Bool.false_xor, decide_eq_true_eq]

/-- Two chunks and one boundary. -/
theorem demChunksToPcm_eq_demCloseAll_oneFault :
    ∃ m model, demChunksToPcm [oneFaultChunk, oneFaultChunk] ⟨1⟩ ⟨0⟩ = .ok m ∧
      demCloseAll [oneFaultChunk, oneFaultChunk] ⟨1⟩ ⟨0⟩ = .ok model ∧
      m.toDense = model.detectorErrorMatrix := by
  obtain ⟨m, model, -, hm, hmodel, -, heq, -⟩ := demChunksToPcm_eq_demCloseAll
    [oneFaultChunk, oneFaultChunk] ⟨1⟩ ⟨0⟩ (by simp) (by decide) (by decide) (by decide +kernel)
    (by decide +kernel) (by decide +kernel)
    ⟨by decide +kernel, by decide +kernel, fun _ => by decide +kernel⟩ (by decide +kernel)
  exact ⟨m, model, hm, hmodel, heq⟩

/-! ## Entries that cannot be stored together -/

/-- A chunk of one row and one fault that lists its only entry `2 ^ 31` times. -/
def heavyChunk : ExtendedDem where
  H :=
    { layout := .csc
      numRows := 1
      numCols := 1
      groups := [List.replicate (2 ^ 31) 0]
      rows_lt := one_lt_uint32
      cols_lt := one_lt_uint32
      length_groups := rfl
      index_lt := by
        intro g hg i hi
        rw [List.mem_singleton.mp hg] at hi
        rw [List.eq_of_mem_replicate hi]
        exact Nat.one_pos
      nnz_lt := by
        rw [storedCount, List.map_singleton, List.length_replicate, List.sum_singleton]
        decide }
  O := .empty
  errorRates := [1 / 10]
  seams := [⟨SeamId.prevRound, 0, 0⟩, ⟨SeamId.nextRound, 1, 1⟩]
  tags := []

theorem heavyChunk_valid : heavyChunk.Valid where
  cols := rfl
  obs := .inl ⟨rfl, rfl⟩
  bands := by
    intro s hs
    rcases List.mem_pair.mp hs with rfl | rfl
    · exact ⟨le_refl _, Nat.zero_le _⟩
    · exact ⟨le_refl _, le_refl _⟩
  disjoint := List.pairwise_pair.mpr (.inl rfl)
  tags := rfl

theorem heavyChunk_chainValid :
    ChainValid SeamId.nextRound SeamId.prevRound [heavyChunk, heavyChunk] where
  valid := by
    intro c hc
    rcases List.mem_pair.mp hc with rfl | rfl <;> exact heavyChunk_valid
  only := by
    intro c hc
    rcases List.mem_pair.mp hc with rfl | rfl <;> unfold OnlySeams <;> decide +kernel
  obs := by
    intro c hc
    rcases List.mem_pair.mp hc with rfl | rfl <;> rfl
  boundary := by
    rw [List.isChain_cons_cons]
    exact ⟨⟨by decide +kernel, by decide +kernel, by decide +kernel, by decide +kernel⟩,
      List.isChain_singleton _⟩

/-- Two such chunks are a valid chain of two rows and two faults that `dem_close_all` closes, but
their entries together exceed what a sparse matrix can index. -/
theorem heavyChunk_not_stored :
    validateChain [heavyChunk, heavyChunk] SeamId.nextRound SeamId.prevRound "dem_chunks_to_pcm" =
        .ok () ∧
      chainRows SeamId.nextRound SeamId.prevRound [heavyChunk, heavyChunk] = 2 ∧
      chainFaults [heavyChunk, heavyChunk] = 2 ∧
      (∃ model, demCloseAll [heavyChunk, heavyChunk] SeamId.nextRound SeamId.prevRound = .ok model) ∧
      ∀ m, demChunksToPcm [heavyChunk, heavyChunk] SeamId.nextRound SeamId.prevRound ≠ .ok m := by
  have hc := heavyChunk_chainValid
  have hrows : chainRows SeamId.nextRound SeamId.prevRound [heavyChunk, heavyChunk] = 2 := by
    decide +kernel
  have hstart : startRow SeamId.prevRound [heavyChunk, heavyChunk] = 2 := by decide +kernel
  refine ⟨validateChain_eq_ok.mpr hc, hrows, by decide +kernel, ?_, ?_⟩
  · obtain ⟨D, O, hclose, -⟩ := demCloseAll_eq hc
      ⟨by decide +kernel, by decide +kernel, fun _ => by decide +kernel⟩
    exact ⟨_, hclose⟩
  · intro m hm
    simp only [demChunksToPcm, bind_eq_ok] at hm
    obtain ⟨_, -, _, -, m', hm', -⟩ := hm
    obtain ⟨-, hl, -, -, hg⟩ := fromNestedCsc_eq_ok.mp hm'
    have hnnz := m'.nnz_lt
    have hkeep := hc.filter_chainBlocks (by decide +kernel) (by decide +kernel) (by rw [hrows]; decide)
    rw [hrows] at hkeep
    unfold closedColumns at hg
    simp only [hc.planChain_trailRow, chainHColumns_eq hc, hstart, hkeep] at hg
    rw [hg, storedCount_chainBlocks] at hnnz
    have hcount : heavyChunk.H.numNnz = 2 ^ 31 := by
      unfold numNnz storedCount
      show ([List.replicate (2 ^ 31) 0].map List.length).sum = 2 ^ 31
      rw [List.map_singleton, List.length_replicate, List.sum_singleton]
    rw [List.map_cons, List.map_singleton, List.sum_cons, List.sum_singleton, hcount] at hnnz
    exact absurd hnnz (by decide)

end CudaqQec
