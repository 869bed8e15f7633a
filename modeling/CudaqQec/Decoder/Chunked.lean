import CudaqQec.Decoder.Init
import CudaqQec.ExtendedDem.Memory

/-!
# Chunked decoder inputs, closed

`from_dem_chunks` knows the size of a chain without expanding it: it closes the compact chain, of two
rounds of the repeating phase at most, and adds what each elided round would. `from_dem_chunks_closed`
expands the chain, closes it and compares.

* `ChainValid.insertCopies`: a chain that holds a boundary of its repeating chunk is valid with any
  number of copies.
* `fromDemChunks_closed`: both forms have the same detectors, mechanisms and observables.
-/

namespace CudaqQec

open Checked SparseBinaryMatrix ExtendedDem

/-! ## The closed form -/

structure SparseChunkModel where
  detectorErrorMatrix : SparseBinaryMatrix
  observableRows : List (List Nat)
  errorRates : List ℚ
  deriving DecidableEq

def sparseDemFromChunks (chunks : List ExtendedDem) (fromSeam toSeam : SeamId)
    (withPriors : Bool) : Except Error SparseChunkModel := do
  let detectorErrorMatrix ← demChunksToPcm chunks fromSeam toSeam
  let observableRows ← demChunksToOSparse chunks
  return {
    detectorErrorMatrix := detectorErrorMatrix
    observableRows := observableRows
    errorRates := if withPriors then chunks.flatMap (·.errorRates) else [] }

namespace DecoderInit

/-- A model given by its matrices that remembers the chunks it was closed from. -/
def withChunks (init : DecoderInit) (spec : DemChunksSpec) : DecoderInit :=
  { init with
    chunks := some spec
    chunked := fun h => ⟨(init.chunked h).1, rfl⟩ }

/-- The observable matrix of a closed chain: none for a chain without observables. -/
def closedObservables (numObservables numErrorMechanisms : Nat) (rows : List (List Nat)) :
    Except Error (Option SparseBinaryMatrix) :=
  if 0 < numObservables then
    (fromNestedCsr (u32 numObservables) (u32 numErrorMechanisms) rows).map some
  else .ok none

def fromDemChunksClosed (spec : DemChunksSpec) (D : Option SparseBinaryMatrix) :
    Except Error DecoderInit := do
  let chunked ← fromDemChunks spec none
  let expanded ← demChunksFromSpec spec
  let closed ← sparseDemFromChunks expanded spec.seam.fromSeam spec.seam.toSeam true
  let H := closed.detectorErrorMatrix
  throwIf (H.numRows ≠ chunked.numDetectors ∨ H.numCols ≠ chunked.numErrorMechanisms)
    (.logicError ("decoder_init: dem_chunks closed model is " ++ toString H.numRows ++ " x " ++
      toString H.numCols ++ ", not " ++ toString chunked.numDetectors ++ " x " ++
      toString chunked.numErrorMechanisms))
  let O ← closedObservables chunked.numObservables chunked.numErrorMechanisms closed.observableRows
  let state ← makeMatrixState H O closed.errorRates none D
  return state.withChunks spec

end DecoderInit

/-! ## Tags of a built chunk -/

theorem foldlM_pushSeam_tags {n : Nat} {rates : List ℚ} {acc acc' : ExtendedDem × Nat}
    {es : List SeamSpecEntry} (hn : n < 2 ^ 32) (h : es.foldlM (pushSeam n) acc = .ok acc')
    (hacc : Stacked n rates acc)
    (htags : acc.1.tags = acc.1.seams.flatMap fun s => List.range s.numRows) :
    acc'.1.tags = acc'.1.seams.flatMap fun s => List.range s.numRows := by
  induction es generalizing acc with
  | nil =>
    cases h
    exact htags
  | cons e es ih =>
    rw [List.foldlM_cons, bind_eq_ok] at h
    obtain ⟨acc₁, h1, h2⟩ := h
    refine ih h2 (pushSeam_stacked hn h1 hacc) ?_
    simp only [pushSeam, bind_eq_ok] at h1
    obtain ⟨seamH, hseam, H, hH, d, hd, hok⟩ := h1
    obtain ⟨-, hscols⟩ := sparseFromTerminatedRows_shape hn hseam
    have hrows := (stackSeam_shape hscols hacc.cols hH).1
    have hcur : u32 (acc.2 + seamH.numRows) = acc.2 + seamH.numRows := by
      rw [hacc.cursor, ← hrows, u32_of_lt H.rows_lt]
    simp only [addSeam] at hd
    split at hd
    · cases hd
    · cases hd
      cases hok
      show acc.1.tags ++ List.range seamH.numRows = (acc.1.seams ++ [_]).flatMap _
      rw [List.flatMap_append, List.flatMap_singleton, ← htags, Seam.numRows, hcur,
        Nat.add_sub_cancel_left]

/-- A chunk built from a phase counts the rows of each seam anew. -/
theorem demChunkFromSpec_tags {s : DemChunkSpec} {ids : List SeamId} {context : String}
    {d : ExtendedDem} (h : demChunkFromSpec s ids context = .ok d) :
    d.tags = d.seams.flatMap fun s => List.range s.numRows := by
  simp only [demChunkFromSpec, bind_eq_ok] at h
  obtain ⟨_, hval, _, -, acc, hacc, hfin⟩ := h
  simp only [DemChunkSpec.validate, bind_eq_ok, throwIf_eq_ok, ne_eq, not_not] at hval
  obtain ⟨_, hle, -⟩ := hval
  have hn : s.numFaults < 2 ^ 32 := by
    unfold uint32Max at hle
    omega
  obtain ⟨he1, he2, -⟩ := s.expand_eq ids
  rw [he1, he2] at hacc
  have htags := foldlM_pushSeam_tags hn hacc (stacked_empty s.numFaults s.errorRates) rfl
  simp only [finishChunk, bind_eq_ok] at hfin
  obtain ⟨H, -, O, -, hok⟩ := hfin
  cases hok
  exact htags

theorem seamTags_eq_range {d : ExtendedDem}
    (h : d.tags = d.seams.flatMap fun s => List.range s.numRows) (id : SeamId) :
    d.seamTags id = List.range (d.seamRowsOrZero id) := by
  by_cases hs : d.hasSeam id = true
  · rw [seamTags, extractSeamTags, if_pos hs, h]
    unfold hasSeam at hs
    unfold tagOffset seamRowsOrZero seamBand
    unfold findSeam at *
    generalize d.seams = seams at hs
    induction seams with
    | nil => simp at hs
    | cons s seams ih =>
      rw [List.find?_cons] at hs ⊢
      rw [List.takeWhile_cons, List.flatMap_cons]
      by_cases hid : s.id = id
      · simp [hid, Seam.numRows]
      · have ih := ih (by simpa [hid] using hs)
        simp only [hid, decide_false, ne_eq, not_false_eq_true, decide_true, if_true, List.map_cons,
          List.sum_cons] at ih ⊢
        rw [List.drop_append, List.drop_of_length_le (by simp), List.length_range,
          Nat.add_sub_cancel_left, List.nil_append]
        exact ih
  · have hnone : d.findSeam id = none := by simpa [hasSeam] using hs
    rw [seamTags, extractSeamTags, if_neg hs]
    simp [seamRowsOrZero, seamBand, hnone]

/-! ## A repeating chunk next to itself -/

variable {spec : DemChunksSpec} {f t : SeamId} {chunks : List ExtendedDem}

theorem hasSeam_eq_find (d : ExtendedDem) (id : SeamId) :
    d.hasSeam id = ((d.seams.map Seam.size).find? fun p => p.1 = id).isSome := by
  rw [List.find?_map, Option.isSome_map]
  rfl

/-- The incoming seam of a phase does not depend on whether another round follows. -/
theorem find_expand_toSeam (s : DemChunkSpec) (f t : SeamId) :
    (((s.expand [t]).seamSpecs.map SeamSpecEntry.size).find? fun p => p.1 = t) =
      ((s.expand [t, f]).seamSpecs.map SeamSpecEntry.size).find? fun p => p.1 = t := by
  unfold DemChunkSpec.expand
  split
  · rfl
  · split
    · rfl
    · simp [SeamSpecEntry.size]

theorem roundChunk_toSeam {rounds i j : Nat} {id : PhaseId} {c d : ExtendedDem}
    (hc : roundChunk spec rounds i id = .ok c) (hd : roundChunk spec rounds j id = .ok d) :
    c.hasSeam spec.seam.toSeam = d.hasSeam spec.seam.toSeam ∧
      c.seamRowsOrZero spec.seam.toSeam = d.seamRowsOrZero spec.seam.toSeam := by
  simp only [roundChunk, bind_eq_ok] at hc hd
  obtain ⟨phase, hp, hc⟩ := hc
  obtain ⟨phase', hp', hd⟩ := hd
  rw [hp] at hp'
  obtain rfl := Except.ok.inj hp'
  have hfind : ∀ k, ((((phase.expand (roundSeams spec k rounds)).seamSpecs.map
      SeamSpecEntry.size).find? fun p => p.1 = spec.seam.toSeam) =
        ((phase.expand [spec.seam.toSeam, spec.seam.fromSeam]).seamSpecs.map
          SeamSpecEntry.size).find? fun p => p.1 = spec.seam.toSeam) := by
    intro k
    unfold roundSeams
    split
    · rfl
    · exact find_expand_toSeam _ _ _
  simp only [hasSeam_eq_find, seamRowsOrZero_eq_find, demChunkFromSpec_sizes hc,
    demChunkFromSpec_sizes hd, hfind, and_self]

/-- A chunk that fits another round of its phase fits itself. -/
theorem Boundary.self {rounds i j : Nat} {id : PhaseId} {c d : ExtendedDem}
    (h : Boundary spec.seam.fromSeam spec.seam.toSeam c d)
    (hc : roundChunk spec rounds i id = .ok c) (hd : roundChunk spec rounds j id = .ok d) :
    Boundary spec.seam.fromSeam spec.seam.toSeam c c := by
  obtain ⟨hseam, hrows⟩ := roundChunk_toSeam hc hd
  have hwidth : c.seamRowsOrZero spec.seam.fromSeam = c.seamRowsOrZero spec.seam.toSeam :=
    h.width.trans hrows.symm
  refine ⟨h.hasFrom, hseam.trans h.hasTo, hwidth, ?_⟩
  -- Every seam of a built chunk is tagged from zero, so tags agree where widths do.
  simp only [roundChunk, bind_eq_ok] at hc
  obtain ⟨phase, -, hc⟩ := hc
  have htags := demChunkFromSpec_tags hc
  rw [seamTags_eq_range htags, seamTags_eq_range htags, hwidth]

/-- More copies of a chunk that fits itself leave a chain valid. -/
theorem ChainValid.insertCopies {b e : Nat} (h : ChainValid f t chunks) (hb : b < chunks.length)
    (hself : Boundary f t (chunks.getD b .empty) (chunks.getD b .empty)) :
    ChainValid f t (insertCopies b e chunks) := by
  have hlen : (CudaqQec.insertCopies b e chunks).length = chunks.length + e := by
    simp only [CudaqQec.insertCopies, List.length_append, List.length_take, List.length_replicate,
      List.length_drop]
    omega
  have hmem : ∀ c ∈ CudaqQec.insertCopies b e chunks, c ∈ chunks := by
    rw [← forall_getD]
    intro j hj
    rw [getD_insertCopies hb]
    have hst : standInRound b e j < chunks.length := by
      unfold standInRound
      split_ifs <;> omega
    rw [List.getD_eq_getElem _ _ hst]
    exact List.getElem_mem hst
  have hhead : (CudaqQec.insertCopies b e chunks).headD .empty = chunks.headD .empty := by
    rw [headD_eq_getD, headD_eq_getD, getD_insertCopies hb]
    rfl
  refine ⟨fun c hc => h.valid c (hmem c hc), fun c hc => h.only c (hmem c hc), fun c hc => ?_, ?_⟩
  · rw [hhead]
    exact h.obs c (hmem c hc)
  · rw [← isChain_getD, hlen]
    intro j hj
    have hold := isChain_getD.mpr h.boundary
    rw [getD_insertCopies hb, getD_insertCopies hb]
    -- Before the copies, among them, and behind them.
    rcases lt_or_ge j b with h1 | h1
    · have h0 : standInRound b e j = j := by simp [standInRound, h1.le]
      have h0' : standInRound b e (j + 1) = j + 1 := by
        simp [standInRound, Nat.succ_le_of_lt h1]
      rw [h0, h0']
      exact hold j (by omega)
    rcases lt_or_ge j (b + e) with h2 | h2
    · have h0 : standInRound b e j = b := by
        unfold standInRound
        split_ifs <;> omega
      have h0' : standInRound b e (j + 1) = b := by
        unfold standInRound
        split_ifs <;> omega
      rw [h0, h0']
      exact hself
    · have h0 : standInRound b e j = j - e := by
        unfold standInRound
        split_ifs <;> omega
      have h0' : standInRound b e (j + 1) = j - e + 1 := by
        unfold standInRound
        split_ifs <;> omega
      rw [h0, h0']
      exact hold (j - e) (by omega)

/-! ## The stand-in of a chain -/

/-- A phase repeats only in a chain whose length is given. -/
theorem DemChunksSpec.numRounds_of_repeatingRounds {run : DemChunksSpec.RepeatingSpan}
    (h : spec.repeatingRounds = .ok run) : ∃ n, spec.numRounds = some n := by
  cases hn : spec.numRounds with
  | some n => exact ⟨n, rfl⟩
  | none =>
    simp only [repeatingRounds, bind_eq_ok] at h
    obtain ⟨rep, hrep, seq, hseq, -⟩ := h
    rw [hn, Option.map_none] at hseq
    simp only [phaseSequence, bind_eq_ok, throwIf_eq_ok] at hseq
    obtain ⟨_, -, _, -, _, -, _, hnone, -⟩ := hseq
    have hself : ({ spec with numRounds := none } : DemChunksSpec).selfLoops = [rep] :=
      repeatingPhase_eq_ok hrep
    rw [hself] at hnone
    simp at hnone

/-- A stand-in was built from the spec of a chain that exists, and where rounds are left out its
copies are two rounds of one phase. -/
theorem standsFor_compactChain {chain : CompactChain} (h : demChunksToCompactChain spec = .ok chain) :
    ∃ chunks, demChunksFromSpec spec = .ok chunks ∧ StandsFor chain chunks ∧
      (chain.elidedRounds ≠ 0 → chain.repeating + 1 < chain.chunks.length ∧ ∃ m id,
        roundChunk (spec.withRounds m) m chain.repeating id =
            .ok (chain.chunks.getD chain.repeating .empty) ∧
          roundChunk (spec.withRounds m) m (chain.repeating + 1) id =
            .ok (chain.chunks.getD (chain.repeating + 1) .empty)) := by
  -- without a repeating phase the chain is kept whole
  by_cases hself : spec.selfLoops = []
  · rw [demChunksToCompactChain_eq_none hself, bind_eq_ok] at h
    obtain ⟨chunks, hchunks, hok⟩ := h
    cases hok
    refine ⟨chunks, hchunks, ⟨le_refl 1, .inl ⟨rfl, rfl⟩, (insertCopies_zero _ _).symm, ?_⟩, ?_⟩
    · intro hc
      cases hc
    · intro he
      exact absurd rfl he
  · have hrun := h
    rw [demChunksToCompactChain, if_pos (DemChunksSpec.hasRepeatingPhase_eq_true.mpr hself),
      bind_eq_ok] at hrun
    obtain ⟨run, hrun, -⟩ := hrun
    obtain ⟨n, hnum⟩ := DemChunksSpec.numRounds_of_repeatingRounds hrun
    have hon : spec.OnChain := by
      by_contra hoff
      exact compactChain_offChain hoff hnum chain h
    obtain ⟨chunks, hchunks⟩ := exists_chunks_of_compactChain hon hnum h
    obtain ⟨chain', hchain', hstands⟩ := exists_compactChain hon hnum hchunks
    rw [h] at hchain'
    obtain rfl := Except.ok.inj hchain'
    refine ⟨chunks, hchunks, hstands, fun he => ?_⟩
    obtain ⟨rep, seq, hself, hseq⟩ := DemChunksSpec.repeatingRounds_eq_ok hnum hrun
    obtain ⟨h2, hmin, before, after, har⟩ := DemChunksSpec.exists_around hself hon hseq
    unfold DemChunksSpec.boundedRounds at h2 hmin
    rw [demChunksToCompactChain_eq_around hself har (by omega) (by omega) hnum, bind_eq_ok] at h
    obtain ⟨cs, hcs, hok⟩ := h
    cases hok
    have hl := har.length
    obtain ⟨hc1, hc2, hc3, hc4⟩ := copiesOf_spec
      (show 1 ≤ n - before.length - after.length by omega)
    -- rounds are left out only where the bulk stands twice
    have hcopies : copiesOf (n - before.length - after.length) = 2 := by
      by_contra hne
      have hone := hc4 (by omega)
      rw [hone] at he
      exact he rfl
    obtain ⟨hlt, h0, h1⟩ := roundChunk_copies har (by omega) (by omega) hcopies rfl hcs
    exact ⟨by rw [length_demChunksFromSpec hself hcs]; exact hlt, _, rep, h0, h1⟩

/-! ## Sizes -/

theorem demChunksToPcm_size {m : SparseBinaryMatrix} (h : demChunksToPcm chunks f t = .ok m) :
    chunks ≠ [] ∧ ChainValid f t chunks ∧ m.numRows = u32 (startRow t chunks) ∧
      m.numCols = u32 (chainFaults chunks) := by
  simp only [demChunksToPcm, bind_eq_ok, throwIf_eq_ok] at h
  obtain ⟨_, hne, _, hval, m', hm', hok⟩ := h
  cases hok
  obtain ⟨c, cs, rfl⟩ := List.exists_cons_of_ne_nil hne
  have hc := validateChain_eq_ok.mp hval
  obtain ⟨-, -, hr, hcols, -⟩ := fromNestedCsc_eq_ok.mp hm'
  rw [hc.planChain_trailRow, u32_u32] at hr
  rw [show (planChain (c :: cs) f t).numFaults = chainFaults (c :: cs) from
    getLastD_faultOffsets _, u32_u32] at hcols
  exact ⟨hne, hc, hr, hcols⟩

/-- A full chain against its stand-in: valid, and each round left out adds the interior rows, the
outgoing seam and the faults of the repeating chunk. -/
theorem standIn_sizes {chain : CompactChain} (h : demChunksToCompactChain spec = .ok chain)
    (hval : ChainValid spec.seam.fromSeam spec.seam.toSeam chain.chunks) :
    ∃ chunks, demChunksFromSpec spec = .ok chunks ∧ StandsFor chain chunks ∧
      ChainValid spec.seam.fromSeam spec.seam.toSeam chunks ∧
      startRow spec.seam.toSeam chunks = startRow spec.seam.toSeam chain.chunks +
        chain.elidedRounds * ((chain.chunks.getD chain.repeating .empty).numInteriorRows +
          (chain.chunks.getD chain.repeating .empty).seamRowsOrZero spec.seam.fromSeam) ∧
      chainFaults chunks = chainFaults chain.chunks +
        chain.elidedRounds * (chain.chunks.getD chain.repeating .empty).numFaults := by
  obtain ⟨chunks, hchunks, hstands, hcopies⟩ := standsFor_compactChain h
  refine ⟨chunks, hchunks, hstands, ?_⟩
  by_cases he : chain.elidedRounds = 0
  · have hsame : chunks = chain.chunks := by rw [hstands.chunks, he, insertCopies_zero]
    rw [hsame, he, Nat.zero_mul, Nat.zero_mul]
    exact ⟨hval, rfl, rfl⟩
  obtain ⟨hlt, m, id, h0, h1⟩ := hcopies he
  have hb := isChain_getD.mpr hval.boundary chain.repeating (by omega)
  have hself : Boundary spec.seam.fromSeam spec.seam.toSeam
      (chain.chunks.getD chain.repeating .empty) (chain.chunks.getD chain.repeating .empty) :=
    @Boundary.self (spec.withRounds m) _ _ _ _ _ _ hb h0 h1
  rw [hstands.chunks]
  refine ⟨hval.insertCopies (by omega) hself, ?_, ?_⟩
  · rw [startRow, sum_insertCopies, ← startRow, hself.width, Nat.add_comm (numInteriorRows _)]
  · rw [chainFaults, sum_insertCopies, ← chainFaults]

/-- A chain whose closed model fits into the 32 bits of a sparse matrix: its rows, its columns and
what its two matrices store. -/
structure ChainFits (f t : SeamId) (chunks : List ExtendedDem) : Prop where
  rows : startRow t chunks < 2 ^ 32
  faults : chainFaults chunks < 2 ^ 32
  entries : storedCount (closedColumns chunks f t) < 2 ^ 32
  flips : storedCount (flipLists chunks) < 2 ^ 32

/-- What `chunk_sizes` returned is the size of the full chain. -/
theorem chunkSizes_spec {sizes : DecoderInit.ChunkSizes} (h : DecoderInit.chunkSizes spec = .ok sizes) :
    ∃ chunks, demChunksFromSpec spec = .ok chunks ∧ SameObservables chunks ∧
      ChainValid spec.seam.fromSeam spec.seam.toSeam chunks ∧
      sizes.observables = (chunks.headD .empty).numObservables ∧
      (startRow spec.seam.toSeam chunks < 2 ^ 32 → chainFaults chunks < 2 ^ 32 →
        sizes.detectors = startRow spec.seam.toSeam chunks ∧
          sizes.mechanisms = chainFaults chunks) := by
  simp only [DecoderInit.chunkSizes, bind_eq_ok] at h
  obtain ⟨_, -, chain, hchain, closed, hclosed, hok⟩ := h
  cases hok
  obtain ⟨hne, hval, hrows, hcols⟩ := demChunksToPcm_size hclosed
  obtain ⟨chunks, hchunks, hstands, hfull, hstart, hfaults⟩ := standIn_sizes hchain hval
  have hne' := hstands.ne_nil' hne
  refine ⟨chunks, hchunks, sameObservables_of_spec hchunks hne', hfull, ?_, fun h1 h2 => ?_⟩
  · rw [hstands.headD hne']
  · rw [hrows, hcols, hstart, hfaults]
    rw [hstart] at h1
    rw [hfaults] at h2
    rw [u32_of_lt (by omega), u32_of_lt (by omega)]
    exact ⟨rfl, rfl⟩

/-! ## The two forms -/

theorem invalidArgument_ne_logicError (what what' : String) :
    Error.invalidArgument what ≠ .logicError what' := by
  simp [Error.invalidArgument, Error.logicError]

theorem outOfBounds_ne_logicError (what : String) : Error.outOfBounds ≠ .logicError what := by
  simp [Error.outOfBounds, Error.logicError]

theorem fromNested_ne_logicError {layout : SparseLayout} {fn group index : String}
    {numRows numCols : Nat} {nested : List (List Nat)} (what : String) :
    fromNested layout fn group index numRows numCols nested ≠ .error (.logicError what) := by
  unfold fromNested
  split_ifs <;> simp [invalidArgument_ne_logicError, outOfBounds_ne_logicError]

theorem demChunksToPcm_ne_logicError (h : ChainValid f t chunks) (what : String) :
    demChunksToPcm chunks f t ≠ .error (.logicError what) := by
  have hval : validateChain chunks f t "dem_chunks_to_pcm" = .ok () := validateChain_eq_ok.mpr h
  unfold demChunksToPcm
  rw [hval, ok_bind]
  refine bind_ne_error (throwIf_ne_error (invalidArgument_ne_logicError _ _)) fun _ _ => ?_
  refine bind_ne_error (fromNested_ne_logicError what) fun _ _ => ?_
  simp [pure, Except.pure]

namespace DecoderInit

theorem makeMatrixState_ne_logicError {H : SparseBinaryMatrix} {O : Option SparseBinaryMatrix}
    {rates : List ℚ} {ids : Option (List Nat)} {D : Option SparseBinaryMatrix} (what : String) :
    makeMatrixState H O rates ids D ≠ .error (.logicError what) := by
  have hmodel : ∀ (H : SparseBinaryMatrix) (O : Option SparseBinaryMatrix)
      (D : Option SparseBinaryMatrix), validateModel H O rates ids D ≠ .error (.logicError what) := by
    intro H O D
    unfold validateModel
    refine bind_ne_error (throwIf_ne_error (invalidArgument_ne_logicError _ _)) fun _ _ => ?_
    refine bind_ne_error (throwIf_ne_error (invalidArgument_ne_logicError _ _)) fun _ _ => ?_
    refine bind_ne_error (throwIf_ne_error (invalidArgument_ne_logicError _ _)) fun _ _ => ?_
    exact throwIf_ne_error (invalidArgument_ne_logicError _ _)
  unfold makeMatrixState
  split
  · next e he =>
    intro herr
    cases herr
    exact hmodel _ _ _ he
  · simp

theorem closedObservables_ne_logicError {numObservables numErrorMechanisms : Nat}
    {rows : List (List Nat)} (what : String) :
    closedObservables numObservables numErrorMechanisms rows ≠ .error (.logicError what) := by
  unfold closedObservables
  split
  · intro h
    cases hm : fromNestedCsr (u32 numObservables) (u32 numErrorMechanisms) rows with
    | error e =>
      rw [hm] at h
      cases h
      exact fromNested_ne_logicError what hm
    | ok m =>
      rw [hm] at h
      cases h
  · simp

/-- A model whose matrices agree on their sizes is made. -/
theorem exists_makeMatrixState {H : SparseBinaryMatrix} {O : Option SparseBinaryMatrix}
    {rates : List ℚ} {D : Option SparseBinaryMatrix} (hO : ∀ m ∈ O, m.numCols = H.numCols)
    (hr : rates.length = H.numCols) (hD : ∀ m ∈ D, m.numRows = H.numRows) :
    ∃ init, makeMatrixState H O rates none D = .ok init ∧ init.numDetectors = H.numRows ∧
      init.numErrorMechanisms = H.numCols ∧ init.numObservables = (O.map (·.numRows)).getD 0 ∧
      init.hasMatrices = true ∧ init.O = O.map toCsr ∧ init.D = D.map toCsr := by
  have hmodel : validateModel H.toCsc (O.map toCsr) rates none (D.map toCsr) = .ok () := by
    simp only [validateModel, bind_eq_ok, throwIf_eq_ok]
    refine ⟨(), ?_, (), ?_, (), by simp, ?_⟩
    · cases O with
      | none => simp
      | some m => simpa using hO m rfl
    · rw [toCsc_numCols]
      tauto
    · cases D with
      | none => simp
      | some m => simpa using hD m rfl
  unfold makeMatrixState
  split
  · next e he =>
    rw [hmodel] at he
    cases he
  · exact ⟨_, rfl, rfl, rfl, rfl, rfl, rfl, rfl⟩

end DecoderInit

/-- The rates of a chain: one for each fault. -/
theorem length_chainRates (h : demChunksFromSpec spec = .ok chunks) :
    (chunks.flatMap (·.errorRates)).length = chainFaults chunks := by
  rw [List.length_flatMap, chainFaults]
  congr 1
  apply List.map_congr_left
  intro c hc
  obtain ⟨e, he, hb⟩ := exists_phase_of_mem h hc
  obtain ⟨hval, -⟩ := demChunksFromSpec_eq_ok.mp h
  simp only [DemChunksSpec.validate, bind_eq_ok, forM_eq_ok] at hval
  obtain ⟨_, -, _, -, _, -, _, -, _, hphases, -⟩ := hval
  have hphase := hphases e (List.mem_filter.mp he).1
  simp only [DemChunkSpec.validate, bind_eq_ok, throwIf_eq_ok, ne_eq, not_not] at hphase
  obtain ⟨_, -, _, -, _, hrates, -⟩ := hphase
  rw [hb.rates, hrates, hb.faults]

/-! ## The closed form of a chain -/

theorem exists_sparseDemFromChunks (hs : SameObservables chunks) (hval : ChainValid f t chunks)
    (hfit : ChainFits f t chunks) (hmax : chainFaults chunks < uint32Max) :
    ∃ closed, sparseDemFromChunks chunks f t true = .ok closed ∧
      closed.detectorErrorMatrix.numRows = startRow t chunks ∧
      closed.detectorErrorMatrix.numCols = chainFaults chunks ∧
      closed.observableRows = flipLists chunks ∧
      closed.errorRates = chunks.flatMap (·.errorRates) := by
  obtain ⟨c, cs, rfl⟩ := List.exists_cons_of_ne_nil hs.ne_nil
  obtain ⟨m, hm, -, hr, hc, -⟩ := exists_closedMatrix hval hfit.rows hmax hfit.entries
  have ho : demChunksToOSparse (c :: cs) = .ok (flipLists (c :: cs)) :=
    demChunksToOSparse_eq_ok.mpr ⟨hs, hfit.faults.le, rfl⟩
  rw [sparseDemFromChunks, hm, ok_bind, ho]
  exact ⟨_, rfl, hr, hc, rfl, rfl⟩

theorem length_flipLists (chunks : List ExtendedDem) :
    (flipLists chunks).length = (chunks.headD .empty).numObservables := by
  simp [flipLists]

theorem flipLists_lt (hs : SameObservables chunks) {l : List Nat} (hl : l ∈ flipLists chunks) {j : Nat}
    (hj : j ∈ l) : j < chainFaults chunks := by
  obtain ⟨k, -, rfl⟩ := List.mem_map.mp hl
  have hcount := List.count_pos_iff.mpr hj
  rw [count_flipsOf, colsAt, if_pos (Nat.zero_le _)] at hcount
  by_contra hle
  rw [List.getD_eq_default _ _ (by rw [length_chainOColumns hs.valid]; omega)] at hcount
  simp at hcount

namespace DecoderInit

/-! ## The observables of the closed form -/

/-- The observable matrix of a chain that fits: a row for each observable. -/
theorem exists_closedObservables (hs : SameObservables chunks) (hfit : ChainFits f t chunks)
    (hrows : (chunks.headD .empty).numObservables < uint32Max) :
    ∃ O, closedObservables (chunks.headD .empty).numObservables (chainFaults chunks)
        (flipLists chunks) = .ok O ∧
      O.isSome = decide (0 < (chunks.headD .empty).numObservables) ∧
      (∀ m ∈ O, m.numCols = chainFaults chunks) ∧
      (O.map (·.numRows)).getD 0 = (chunks.headD .empty).numObservables := by
  unfold closedObservables
  split
  · next hpos =>
    have hlt := lt_two_pow_of_lt_uint32Max hrows
    rw [u32_of_lt hlt, u32_of_lt hfit.faults]
    obtain ⟨m, hm⟩ := exists_fromNestedCsr hrows hfit.faults (length_flipLists chunks) hfit.flips
      fun l hl j hj => flipLists_lt hs hl hj
    obtain ⟨-, -, hr, hc, -⟩ := fromNestedCsr_eq_ok.mp hm
    rw [u32_of_lt hlt] at hr
    rw [u32_of_lt hfit.faults] at hc
    rw [hm]
    exact ⟨some m, rfl, (decide_eq_true hpos).symm, by simpa using hc, hr⟩
  · next hzero =>
    refine ⟨none, rfl, (decide_eq_false hzero).symm, by simp, ?_⟩
    exact (Nat.eq_zero_of_not_pos hzero).symm

/-- The closed form of a chunked source is built, with the sizes that the source knows without
expanding its chain. -/
structure AgreesClosed (spec : DemChunksSpec) (D : Option SparseBinaryMatrix) (init : DecoderInit)
    (chunks : List ExtendedDem) (closed : SparseChunkModel) (full : DecoderInit) : Prop where
  closed_eq : sparseDemFromChunks chunks spec.seam.fromSeam spec.seam.toSeam true = .ok closed
  detectors : init.numDetectors = closed.detectorErrorMatrix.numRows
  mechanisms : init.numErrorMechanisms = closed.detectorErrorMatrix.numCols
  observables : init.numObservables = closed.observableRows.length
  full_eq : fromDemChunksClosed spec D = .ok full
  numDetectors : full.numDetectors = init.numDetectors
  numErrorMechanisms : full.numErrorMechanisms = init.numErrorMechanisms
  numObservables : full.numObservables = init.numObservables
  observableModel : full.hasObservableModel = init.hasObservableModel
  D_eq : full.D = init.D
  chunks_eq : full.chunks = init.chunks

/-- The sizes of a chunked source are those of the chain it stands for. Where that chain fits, they are
the sizes of the closed form, unless the faults are as many as no pointer array is made for. -/
theorem fromDemChunks_closed {D : Option SparseBinaryMatrix} {init : DecoderInit}
    (h : fromDemChunks spec D = .ok init) :
    ∃ chunks, demChunksFromSpec spec = .ok chunks ∧
      (startRow spec.seam.toSeam chunks < 2 ^ 32 → chainFaults chunks < 2 ^ 32 →
        ∀ D' what, fromDemChunksClosed spec D' ≠ .error (.logicError what)) ∧
      (ChainFits spec.seam.fromSeam spec.seam.toSeam chunks →
        ((∃ closed full, AgreesClosed spec D init chunks closed full) ↔
          chainFaults chunks ≠ uint32Max)) := by
  simp only [fromDemChunks, bind_eq_ok] at h
  obtain ⟨sizes, hsizes, h⟩ := h
  split at h
  case isFalse => cases h
  next hD =>
  cases h
  obtain ⟨chunks, hchunks, hs, hval, hobs, heq⟩ := chunkSizes_spec hsizes
  refine ⟨chunks, hchunks, fun hrows hfaults D' what => ?_, fun hfit => ?_⟩
  -- each call of the closed form can only fail for want of room, never by a check of its own
  · obtain ⟨hdet, hmech⟩ := heq hrows hfaults
    unfold fromDemChunksClosed
    simp only [fromDemChunks, hsizes, ok_bind, Option.mem_def, reduceCtorEq, IsEmpty.forall_iff,
      implies_true, dite_true, pure, Except.pure, hchunks]
    refine bind_ne_error ?_ fun closed hclosed => ?_
    · refine bind_ne_error (demChunksToPcm_ne_logicError hval what) fun m _ => ?_
      rw [demChunksToOSparse_eq_ok.mpr ⟨hs, hfaults.le, rfl⟩]
      simp [pure, Except.pure]
    · rw [sparseDemFromChunks, bind_eq_ok] at hclosed
      obtain ⟨m, hm, hrest⟩ := hclosed
      rw [bind_eq_ok] at hrest
      obtain ⟨o, -, hok⟩ := hrest
      cases hok
      obtain ⟨-, -, hr, hc⟩ := demChunksToPcm_size hm
      rw [u32_of_lt hrows] at hr
      rw [u32_of_lt hfaults] at hc
      rw [throwIf_of_not (by simp [hr, hc, hdet, hmech]), ok_bind]
      refine bind_ne_error (closedObservables_ne_logicError what) fun O _ => ?_
      refine bind_ne_error (makeMatrixState_ne_logicError what) fun state _ => ?_
      simp
  · obtain ⟨hdet, hmech⟩ := heq hfit.rows hfit.faults
    constructor
    -- at the largest count the pointer array of the closed form has no element
    · rintro ⟨closed, full, hagrees⟩ hmax
      obtain ⟨c, cs, rfl⟩ := List.exists_cons_of_ne_nil hs.ne_nil
      have hclosed := hagrees.closed_eq
      rw [sparseDemFromChunks, demChunksToPcm_outOfBounds hval hmax, error_bind] at hclosed
      cases hclosed
    -- below it the closed form is built, and its sizes are the ones that were counted
    intro hne
    have hmax : chainFaults chunks < uint32Max := by
      have := hfit.faults
      unfold uint32Max at hne ⊢
      omega
    obtain ⟨closed, hclosed, hr, hc, ho, hrates⟩ := exists_sparseDemFromChunks hs hval hfit hmax
    obtain ⟨O, hO, hsome, hcols, hnum⟩ :=
      exists_closedObservables hs hfit (numObservables_lt_of_spec hchunks hs.ne_nil)
    obtain ⟨full, hfull, hfr, hfc, hfo, hfm, hfO, hfD⟩ := @exists_makeMatrixState
      closed.detectorErrorMatrix O closed.errorRates D (fun m hm => (hcols m hm).trans hc.symm)
      (by rw [hrates, length_chainRates hchunks, hc]) (fun m hm => by rw [hD m hm, hdet, hr])
    refine ⟨closed, full.withChunks spec, hclosed, hdet.trans hr.symm, hmech.trans hc.symm, ?_, ?_,
      ?_, ?_, ?_, ?_, hfD, rfl⟩
    · rw [ho, length_flipLists]
      exact hobs
    · unfold fromDemChunksClosed
      simp only [fromDemChunks, hsizes, ok_bind, Option.mem_def, reduceCtorEq, IsEmpty.forall_iff,
        implies_true, dite_true, pure, Except.pure, hchunks, hclosed]
      rw [throwIf_of_not (by simp [hr, hc, hdet, hmech]), ok_bind, hobs, hmech, ho, hO, ok_bind,
        hfull]
      rfl
    · exact hfr.trans (hr.trans hdet.symm)
    · exact hfc.trans (hc.trans hmech.symm)
    · exact hfo.trans (hnum.trans hobs.symm)
    · show full.hasObservableModel = _
      unfold hasObservableModel
      rw [hfm, hfO, if_pos rfl, Option.isSome_map, hsome]
      simp [hobs]

/-- Five rounds, one of them left out of the stand-in. -/
theorem fromDemChunks_closed_flipping :
    ∃ init full, fromDemChunks flippingSpec none = .ok init ∧
      fromDemChunksClosed flippingSpec none = .ok full ∧
      full.numDetectors = init.numDetectors ∧ full.numErrorMechanisms = init.numErrorMechanisms ∧
      full.numObservables = init.numObservables := by
  obtain ⟨init, hinit⟩ := exists_eq_ok
    (show (fromDemChunks flippingSpec none).isOk = true by decide +kernel)
  obtain ⟨chunks, hchunks, -, hclosed⟩ := fromDemChunks_closed hinit
  have hfit : (match demChunksFromSpec flippingSpec with
      | .ok cs => decide (startRow ⟨0⟩ cs < 2 ^ 32 ∧ chainFaults cs < 2 ^ 32 ∧
          storedCount (closedColumns cs ⟨1⟩ ⟨0⟩) < 2 ^ 32 ∧ storedCount (flipLists cs) < 2 ^ 32 ∧
            chainFaults cs ≠ uint32Max)
      | .error _ => false) = true := by decide +kernel
  simp only [hchunks, decide_eq_true_eq] at hfit
  obtain ⟨h1, h2, h3, h4, hne⟩ := hfit
  obtain ⟨closed, full, hagrees⟩ := (hclosed ⟨h1, h2, h3, h4⟩).mpr hne
  exact ⟨init, full, hinit, hagrees.full_eq, hagrees.numDetectors, hagrees.numErrorMechanisms,
    hagrees.numObservables⟩

/-! ## Many rounds -/

def idlePhase : DemChunkSpec :=
  { numFaults := 1, hSparse := [-1], errorRates := [1 / 10] }

/-- As many rounds as a `uint32_t` counts. -/
def manyRoundsSpec : DemChunksSpec where
  phases := [⟨⟨10⟩, idlePhase⟩]
  connections := [⟨⟨10⟩, ⟨10⟩⟩]
  seam := ⟨⟨1⟩, ⟨0⟩⟩
  numRounds := some (2 ^ 32 - 1)

/-- Its expanded chain fits, and its closed form has no pointer array. -/
theorem fromDemChunksClosed_manyRounds :
    ∃ init chunks, fromDemChunks manyRoundsSpec none = .ok init ∧
      demChunksFromSpec manyRoundsSpec = .ok chunks ∧ ChainFits ⟨1⟩ ⟨0⟩ chunks ∧
      chainFaults chunks = uint32Max ∧
      ¬ ∃ closed full, AgreesClosed manyRoundsSpec none init chunks closed full := by
  obtain ⟨init, hinit⟩ := exists_eq_ok
    (show (fromDemChunks manyRoundsSpec none).isOk = true by decide +kernel)
  -- of the stand-in chain everything is evaluated; the rounds it leaves out are counted
  have hchain : (demChunksToCompactChain manyRoundsSpec).toOption.map (fun chain =>
      (validateChain chain.chunks ⟨1⟩ ⟨0⟩ "").isOk && decide (chain.elidedRounds = 2 ^ 32 - 3 ∧
        startRow ⟨0⟩ chain.chunks = 2 ∧ chainFaults chain.chunks = 2 ∧
        (chain.chunks.getD chain.repeating .empty).numInteriorRows = 0 ∧
        (chain.chunks.getD chain.repeating .empty).seamRowsOrZero ⟨1⟩ = 1 ∧
        (chain.chunks.getD chain.repeating .empty).numFaults = 1 ∧
        (chain.chunks.headD .empty).numObservables = 0 ∧
        ∀ c ∈ chain.chunks, c.H.numNnz = 0)) = some true := by decide +kernel
  cases hcompact : demChunksToCompactChain manyRoundsSpec with
  | error e =>
    rw [hcompact] at hchain
    cases hchain
  | ok chain =>
    rw [hcompact, Except.toOption, Option.map_some, Option.some.injEq, Bool.and_eq_true,
      decide_eq_true_eq] at hchain
    obtain ⟨hok, helided, hstart, hfaults, hinterior, hseam, hfault, hobs, hnnz⟩ := hchain
    obtain ⟨_, hok⟩ := exists_eq_ok hok
    obtain ⟨chunks, hchunks, hstands, hval, hrows, hcols⟩ :=
      standIn_sizes hcompact (validateChain_eq_ok.mp hok)
    have hne : chunks ≠ [] := demChunksFromSpec_ne_nil rfl hchunks
    have hrows' : startRow ⟨0⟩ chunks = uint32Max := by
      rw [show startRow ⟨0⟩ chunks = _ from hrows, show startRow manyRoundsSpec.seam.toSeam _ = 2 from
        hstart, hinterior, show seamRowsOrZero _ manyRoundsSpec.seam.fromSeam = 1 from hseam, helided]
      rfl
    -- so the expanded chain has one fault for each round
    have hcols' : chainFaults chunks = uint32Max := by
      rw [hcols, hfaults, hfault, helided]
      rfl
    have hfit : ChainFits ⟨1⟩ ⟨0⟩ chunks := by
      refine ⟨by rw [hrows']; decide, by rw [hcols']; decide, ?_, ?_⟩
      · obtain ⟨c, cs, rfl⟩ := List.exists_cons_of_ne_nil hne
        have hzero : ((c :: cs).map fun c => c.H.numNnz).sum = 0 := by
          apply List.sum_eq_zero
          intro n hn
          obtain ⟨x, hx, rfl⟩ := List.mem_map.mp hn
          exact hnnz x ((hstands.mem_iff hne).mp hx)
        refine lt_of_le_of_lt (storedCount_closedColumns_le hval) ?_
        rw [hzero]
        decide
      · rw [flipLists, hstands.headD hne, hobs, List.range_zero, List.map_nil]
        decide
    refine ⟨init, chunks, hinit, hchunks, hfit, hcols', ?_⟩
    obtain ⟨chunks', hchunks', -, hiff⟩ := fromDemChunks_closed hinit
    obtain rfl : chunks' = chunks := Except.ok.inj (hchunks'.symm.trans hchunks)
    exact fun hagrees => (hiff hfit).mp hagrees hcols'

end DecoderInit

end CudaqQec
