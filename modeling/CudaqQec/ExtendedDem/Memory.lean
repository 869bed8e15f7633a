import CudaqQec.ExtendedDem.Compact

/-!
# Detectors of a memory experiment

`dem_chunks_to_d_sparse` says which measurement bits each detector XORs. Without `D` rows a detector
compares a check with the same check one round earlier, so the map of a chain depends only on the
chain's width and number of rounds (`demChunksToDSparse_eq_ok`). The compact form counts the rounds on
a stand-in and extends the map for the rounds left out.

* `compactDSparse_iff`: when the compact form returns what the expanded one does.
-/

namespace CudaqQec

open Checked SparseBinaryMatrix ExtendedDem

/-! ## Rounds of a chain -/

/-- `chunk_seam_width`: the rows of the leading seam, else of the trailing one. -/
def chunkSeamWidth (c : ExtendedDem) (fromSeam toSeam : SeamId) : Nat :=
  if 0 < c.seamRowsOrZero toSeam then c.seamRowsOrZero toSeam
  else if 0 < c.seamRowsOrZero fromSeam then c.seamRowsOrZero fromSeam
  else 0

def checkChunkWidth (c : ExtendedDem) (d i : Nat) (fn : String) : Except Error Unit := do
  throwIf (c.numInteriorRows % d ≠ 0)
    (.invalidArgument (fn ++ ": chunk " ++ toString i ++
      " interior rows not a whole number of rounds of " ++ toString d))
  forM c.seams fun s =>
    throwIf (s.numRows ≠ 0 ∧ s.numRows ≠ d)
      (.invalidArgument (fn ++ ": chunk " ++ toString i ++ " seam width " ++ toString s.numRows ++
        " != sequence width " ++ toString d))

def validateDemChunkSequence (chunks : List ExtendedDem) (fromSeam toSeam : SeamId) (fn : String) :
    Except Error Unit := do
  throwIf (chunks = []) (.invalidArgument (fn ++ ": dem_chunks must be non-empty"))
  let d := chunkSeamWidth (chunks.headD .empty) fromSeam toSeam
  throwIf (d = 0) (.invalidArgument (fn ++ ": chunk 0 has no seam rows"))
  forM (List.range chunks.length) fun i => checkChunkWidth (chunks.getD i .empty) d i fn

/-- `dem_chunk_rounds`: a leading seam with rows is one round, and the interior rows are more. -/
def demChunkRounds (c : ExtendedDem) (fromSeam toSeam : SeamId) : Except Error Nat := do
  let d := chunkSeamWidth c fromSeam toSeam
  throwIf (d = 0)
    (.invalidArgument "dem_chunk_rounds: chunk has no seam rows on either side")
  throwIf (c.numInteriorRows % d ≠ 0)
    (.invalidArgument "dem_chunk_rounds: interior rows not a whole number of rounds")
  return (if 0 < c.seamRowsOrZero toSeam then 1 else 0) + c.numInteriorRows / d

def demChunksToRounds (chunks : List ExtendedDem) (fromSeam toSeam : SeamId) : Except Error Nat := do
  validateDemChunkSequence chunks fromSeam toSeam "dem_chunks_to_rounds"
  let rounds ← chunks.mapM fun c => demChunkRounds c fromSeam toSeam
  return rounds.sum

/-! ## The memory convention -/

/-- The detectors of round `r`: those of the first round against a zero initial state. -/
def memoryRound (d r : Nat) : List (List Nat) :=
  (List.range d).map fun k => if r = 0 then [k] else [u32 ((r - 1) * d + k), u32 (r * d + k)]

/-- The width `dem_chunks_to_d_sparse` reads off a chunk. -/
def memoryWidth (c : ExtendedDem) (fromSeam toSeam : SeamId) : Nat :=
  if c.seamRowsOrZero toSeam = 0 then c.seamRowsOrZero fromSeam else c.seamRowsOrZero toSeam

/-- `dem_chunks_to_d_sparse` of a chain. The products are exact: a chain with `2 ^ 64` rows has as
many tags. -/
def demChunksToDSparse (chunks : List ExtendedDem) (fromSeam toSeam : SeamId) :
    Except Error (List (List Nat)) := do
  throwIf (chunks = [])
    (.invalidArgument "dem_chunks_to_d_sparse: dem_chunks must be non-empty")
  let d := memoryWidth (chunks.headD .empty) fromSeam toSeam
  throwIf (d = 0)
    (.invalidArgument ("dem_chunks_to_d_sparse: chunk 0 has no seam rows on either side, " ++
      "so its rounds cannot be counted"))
  let rounds ← demChunksToRounds chunks fromSeam toSeam
  throwIf (0 < rounds ∧ uint32Max < (rounds - 1) * d + (d - 1))
    (.overflowError "dem_chunks_to_d_sparse: measurement bit index exceeds uint32_t max")
  return (List.range rounds).flatMap (memoryRound d)

/-! ## Rows the phases carry -/

/-- The walk over a phase's `D` rows so far: the rows of the map, the row that is open, and the first
measurement and the width of the round before and of this one. -/
structure DRow where
  rows : List (List Nat)
  row : List Nat

/-- One value of `D_sparse`: an index counts the previous round's measurements first. -/
def pushDValue (previousStart previousCount start count : Nat) (context : String) (acc : DRow)
    (value : Int) : Except Error DRow :=
  if value = -1 then .ok ⟨acc.rows ++ [acc.row], []⟩
  else do
    let index := value.toNat
    throwIf (previousCount ≤ index ∧ count ≤ index - previousCount)
      (.invalidArgument (context ++ ": D_sparse index " ++ toString index ++ " exceeds the " ++
        toString previousCount ++ " + " ++ toString count ++ " measurements it may name"))
    let measurement := if previousCount ≤ index then start + (index - previousCount)
      else previousStart + index
    throwIf (uint32Max < measurement)
      (.overflowError (context ++ ": measurement index exceeds uint32_t max"))
    return ⟨acc.rows, acc.row ++ [u32 measurement]⟩

/-- `detectors_per_phase`: the rows of the last entry of an id, as a map keeps it. -/
def detectorsPerPhase (spec : DemChunksSpec) : Except Error (List (PhaseId × Nat)) :=
  spec.phases.mapM fun e => do
    let n ← spec.detectorsOf e.spec ("dem_chunks." ++ e.id.name)
    return (e.id, n)

/-- The measurements of the round before: where they start and how many they are. -/
structure DState where
  rows : List (List Nat)
  previousStart : Nat
  previousCount : Nat
  start : Nat

/-- One round of the sequence. -/
def pushDRound (spec : DemChunksSpec) (detectors : List (PhaseId × Nat)) (acc : DState)
    (round : PhaseId × Nat) : Except Error DState := do
  let phase ← spec.getPhase round.1
  let count ← spec.measurementsOf phase
  let context := "dem_chunks_to_d_sparse: chunk " ++ toString round.2 ++ " (phase '" ++
    round.1.name ++ "')"
  let contributed := ((detectors.reverse.find? fun p => p.1 = round.1).map (·.2)).getD 0
  let acc' ← phase.dSparse.foldlM
    (pushDValue acc.previousStart acc.previousCount acc.start count context) ⟨acc.rows, []⟩
  throwIf (acc'.rows.length - acc.rows.length ≠ contributed)
    (.invalidArgument (context ++ ": D_sparse has " ++
      toString (acc'.rows.length - acc.rows.length) ++ " rows but the chunk contributes " ++
      toString contributed ++ " detectors"))
  return ⟨acc'.rows, acc.start, count, acc.start + count⟩

/-- The memory convention on a compact chain: the map of the stand-in, extended by the rounds that
were left out. -/
def CompactChain.dSparse (chain : CompactChain) (fromSeam toSeam : SeamId) :
    Except Error (List (List Nat)) := do
  let rows ← demChunksToDSparse chain.chunks fromSeam toSeam
  if chain.elidedRounds = 0 then return rows
  let width := memoryWidth (chain.chunks.headD .empty) fromSeam toSeam
  let compactRounds := rows.length / width
  let roundsPerBulk ← demChunkRounds (chain.chunks.getD chain.repeating .empty) fromSeam toSeam
  if roundsPerBulk = 0 then return rows
  let maxRounds := (uint32Max + 1) / width
  throwIf (maxRounds < compactRounds ∨
      (maxRounds - compactRounds) / roundsPerBulk < chain.elidedRounds)
    (.overflowError "dem_chunks_to_d_sparse: measurement bit index exceeds uint32_t max")
  return rows ++ (List.range (chain.elidedRounds * roundsPerBulk)).flatMap fun i =>
    memoryRound width (compactRounds + i)

/-- `dem_chunks_to_d_sparse` of a spec. -/
def demChunksToDSparseSpec (spec : DemChunksSpec) : Except Error (List (List Nat)) :=
  if spec.hasDSparse then do
    spec.validate
    let sequence ← spec.phaseSequence
    let detectors ← detectorsPerPhase spec
    let acc ← sequence.zipIdx.foldlM (pushDRound spec detectors) ⟨[], 0, 0, 0⟩
    return acc.rows
  else do
    let chain ← demChunksToCompactChain spec
    chain.dSparse spec.seam.fromSeam spec.seam.toSeam

/-! ## When the memory convention applies -/

variable {f t : SeamId} {cs : List ExtendedDem} {d : Nat}

def roundsOf (f t : SeamId) (c : ExtendedDem) : Nat :=
  (if 0 < c.seamRowsOrZero t then 1 else 0) + c.numInteriorRows / chunkSeamWidth c f t

/-- A chunk of a sequence of width `d` whose rounds can be counted. -/
structure Counts (f t : SeamId) (d : Nat) (c : ExtendedDem) : Prop where
  whole : c.numInteriorRows % d = 0
  seams : ∀ s ∈ c.seams, s.numRows = 0 ∨ s.numRows = d
  width : chunkSeamWidth c f t ≠ 0
  interior : c.numInteriorRows % chunkSeamWidth c f t = 0

theorem memoryWidth_eq (c : ExtendedDem) (f t : SeamId) :
    memoryWidth c f t = chunkSeamWidth c f t := by
  unfold memoryWidth chunkSeamWidth
  split_ifs <;> omega

theorem demChunkRounds_eq_ok {c : ExtendedDem} {n : Nat} : demChunkRounds c f t = .ok n ↔
    chunkSeamWidth c f t ≠ 0 ∧ c.numInteriorRows % chunkSeamWidth c f t = 0 ∧ n = roundsOf f t c := by
  simp only [demChunkRounds, bind_eq_ok, throwIf_eq_ok, ne_eq, not_not]
  constructor
  · rintro ⟨_, h1, _, h2, hok⟩
    exact ⟨h1, h2, (Except.ok.inj hok).symm⟩
  · rintro ⟨h1, h2, rfl⟩
    exact ⟨(), h1, (), h2, rfl⟩

/-- What `dem_chunks_to_rounds` accepts, and what it returns. -/
theorem demChunksToRounds_eq_ok {n : Nat} : demChunksToRounds cs f t = .ok n ↔
    cs ≠ [] ∧ chunkSeamWidth (cs.headD .empty) f t ≠ 0 ∧
      (∀ c ∈ cs, Counts f t (chunkSeamWidth (cs.headD .empty) f t) c) ∧
      n = (cs.map (roundsOf f t)).sum := by
  -- the loop over the indices checks every chunk
  have hcheck : ∀ d : Nat, (∀ i ∈ List.range cs.length,
      checkChunkWidth (cs.getD i .empty) d i "dem_chunks_to_rounds" = .ok ()) ↔
        ∀ c ∈ cs, c.numInteriorRows % d = 0 ∧ ∀ s ∈ c.seams, s.numRows = 0 ∨ s.numRows = d := by
    intro d
    rw [← forall_getD (P := fun c => c.numInteriorRows % d = 0 ∧
      ∀ s ∈ c.seams, s.numRows = 0 ∨ s.numRows = d)]
    simp only [List.mem_range, checkChunkWidth, bind_eq_ok, forM_eq_ok, throwIf_eq_ok, ne_eq,
      not_not, not_and_or]
    constructor
    · intro h i hi
      obtain ⟨_, h1, h2⟩ := h i hi
      exact ⟨h1, h2⟩
    · intro h i hi
      exact ⟨(), (h i hi).1, (h i hi).2⟩
  simp only [demChunksToRounds, validateDemChunkSequence, bind_eq_ok, throwIf_eq_ok, forM_eq_ok,
    hcheck, mapM_eq_ok]
  constructor
  · rintro ⟨_, ⟨_, hne, _, hd, hall⟩, rounds, hrounds, hok⟩
    have hlist : rounds = cs.map (roundsOf f t) ∧ ∀ c ∈ cs, chunkSeamWidth c f t ≠ 0 ∧
        c.numInteriorRows % chunkSeamWidth c f t = 0 := by
      clear hall hd hne hok hcheck
      induction hrounds with
      | nil => exact ⟨rfl, by simp⟩
      | cons hc _ ih =>
        obtain ⟨h1, h2, rfl⟩ := demChunkRounds_eq_ok.mp hc
        obtain ⟨rfl, ih⟩ := ih
        exact ⟨rfl, List.forall_mem_cons.mpr ⟨⟨h1, h2⟩, ih⟩⟩
    refine ⟨hne, hd, fun c hc => ⟨(hall c hc).1, (hall c hc).2, (hlist.2 c hc).1, (hlist.2 c hc).2⟩,
      ?_⟩
    rw [← Except.ok.inj hok, hlist.1]
  · rintro ⟨hne, hd, hall, rfl⟩
    refine ⟨(), ⟨(), hne, (), hd, fun c hc => ⟨(hall c hc).whole, (hall c hc).seams⟩⟩,
      cs.map (roundsOf f t), ?_, rfl⟩
    rw [List.forall₂_map_right_iff, List.forall₂_same]
    exact fun c hc => demChunkRounds_eq_ok.mpr ⟨(hall c hc).width, (hall c hc).interior, rfl⟩

/-- What `dem_chunks_to_d_sparse` accepts: a chain of countable chunks whose bits are `uint32_t`. -/
structure MemoryChain (f t : SeamId) (cs : List ExtendedDem) : Prop where
  ne_nil : cs ≠ []
  width : chunkSeamWidth (cs.headD .empty) f t ≠ 0
  counts : ∀ c ∈ cs, Counts f t (chunkSeamWidth (cs.headD .empty) f t) c
  bits : (cs.map (roundsOf f t)).sum * chunkSeamWidth (cs.headD .empty) f t ≤ 2 ^ 32

theorem demChunksToDSparse_eq_ok {rows : List (List Nat)} :
    demChunksToDSparse cs f t = .ok rows ↔ MemoryChain f t cs ∧
      rows = (List.range (cs.map (roundsOf f t)).sum).flatMap
        (memoryRound (chunkSeamWidth (cs.headD .empty) f t)) := by
  have hbits : ∀ n d : Nat, d ≠ 0 → (¬ (0 < n ∧ uint32Max < (n - 1) * d + (d - 1)) ↔
      n * d ≤ 2 ^ 32) := by
    intro n d hd
    unfold uint32Max
    cases n with
    | zero => simp
    | succ n =>
      rw [Nat.add_sub_cancel, Nat.succ_mul]
      omega
  simp only [demChunksToDSparse, memoryWidth_eq, bind_eq_ok, throwIf_eq_ok, demChunksToRounds_eq_ok]
  constructor
  · rintro ⟨_, hne, _, hd, n, ⟨-, -, hall, rfl⟩, _, hb, hok⟩
    exact ⟨⟨hne, hd, hall, (hbits _ _ hd).mp hb⟩, (Except.ok.inj hok).symm⟩
  · rintro ⟨⟨hne, hd, hall, hb⟩, rfl⟩
    exact ⟨(), hne, (), hd, _, ⟨hne, hd, hall, rfl⟩, (), (hbits _ _ hd).mpr hb, rfl⟩

/-! ## The compact form -/

theorem length_memoryRounds (d n : Nat) :
    ((List.range n).flatMap (memoryRound d)).length = n * d := by
  rw [List.length_flatMap]
  have hlen : ∀ r ∈ List.range n, (memoryRound d r).length = d := by
    intro r _
    simp [memoryRound]
  rw [List.map_congr_left hlen, List.map_const', List.sum_replicate_nat, List.length_range]

theorem memoryRounds_add (d m n : Nat) :
    (List.range (m + n)).flatMap (memoryRound d) = (List.range m).flatMap (memoryRound d) ++
      (List.range n).flatMap fun i => memoryRound d (m + i) := by
  rw [List.range_add, List.flatMap_append, List.flatMap_map]

theorem sum_insertCopies (g : ExtendedDem → Nat) (b e : Nat) (cs : List ExtendedDem) :
    ((insertCopies b e cs).map g).sum = (cs.map g).sum + e * g (cs.getD b .empty) := by
  have hsplit : (cs.map g).sum = ((cs.take (b + 1)).map g).sum + ((cs.drop (b + 1)).map g).sum := by
    rw [← List.sum_append, ← List.map_append, List.take_append_drop]
  rw [insertCopies, List.map_append, List.map_append, List.sum_append, List.sum_append,
    List.map_replicate, List.sum_replicate_nat, hsplit]
  omega

/-- The overflow guard of the compact form: it divides where the expanded form multiplies. -/
theorem rounds_fit_iff {rounds elided bulk d : Nat} (hd : d ≠ 0) (hb : bulk ≠ 0) :
    ¬ ((uint32Max + 1) / d < rounds ∨ ((uint32Max + 1) / d - rounds) / bulk < elided) ↔
      (rounds + elided * bulk) * d ≤ 2 ^ 32 := by
  have hmax : uint32Max + 1 = 2 ^ 32 := by decide
  rw [hmax, ← Nat.le_div_iff_mul_le (Nat.pos_of_ne_zero hd), not_or, not_lt, not_lt,
    Nat.le_div_iff_mul_le (Nat.pos_of_ne_zero hb)]
  generalize 2 ^ 32 / d = m
  generalize elided * bulk = k
  omega

variable {chain : CompactChain} {chunks : List ExtendedDem}

/-- The expanded chain is counted like its stand-in, with the elided rounds added. -/
theorem StandsFor.memoryChain_iff (h : StandsFor chain chunks) : MemoryChain f t chunks ↔
    MemoryChain f t chain.chunks ∧
      ((chain.chunks.map (roundsOf f t)).sum +
        chain.elidedRounds * roundsOf f t (chain.chunks.getD chain.repeating .empty)) *
          chunkSeamWidth (chain.chunks.headD .empty) f t ≤ 2 ^ 32 := by
  have hsum := sum_insertCopies (roundsOf f t) chain.repeating chain.elidedRounds chain.chunks
  rw [← h.chunks] at hsum
  rw [← hsum]
  constructor
  · rintro ⟨hne, hw, hall, hbits⟩
    rw [h.headD hne] at hw hall hbits
    refine ⟨⟨h.ne_nil hne, hw, fun c hc => hall c ((h.mem_iff hne).mpr hc), ?_⟩, hbits⟩
    exact (Nat.mul_le_mul_right _ (by omega)).trans hbits
  · rintro ⟨⟨hne, hw, hall, -⟩, hbits⟩
    have hne' := h.ne_nil' hne
    rw [← h.headD hne'] at hw hall hbits
    exact ⟨hne', hw, fun c hc => hall c ((h.mem_iff hne').mp hc), hbits⟩

/-- On a stand-in the compact form returns what the expanded form returns on the full chain. -/
theorem StandsFor.dSparse_iff (h : StandsFor chain chunks) {rows : List (List Nat)} :
    chain.dSparse f t = .ok rows ↔ demChunksToDSparse chunks f t = .ok rows := by
  have hsum := sum_insertCopies (roundsOf f t) chain.repeating chain.elidedRounds chain.chunks
  rw [← h.chunks] at hsum
  have hiff := h.memoryChain_iff (f := f) (t := t)
  unfold CompactChain.dSparse
  by_cases he : chain.elidedRounds = 0
  · have hsame : chunks = chain.chunks := by rw [h.chunks, he, insertCopies_zero]
    rw [bind_eq_ok, hsame]
    simp only [if_pos he]
    constructor
    · rintro ⟨rows', hrows, hok⟩
      exact Except.ok.inj hok ▸ hrows
    · exact fun hrows => ⟨rows, hrows, rfl⟩
  -- With rounds left out, the repeating chunk is one of the stand-in.
  have hmem : chain.chunks.getD chain.repeating .empty ∈ chain.chunks := by
    have hcopies := copiesOf_spec h.rounds
    have hindex := h.index
    have hlt : chain.repeating < chain.chunks.length := by
      unfold CompactChain.elidedRounds CompactChain.repeatedCopies at *
      omega
    rw [List.getD_eq_getElem _ _ hlt]
    exact List.getElem_mem hlt
  rw [bind_eq_ok]
  simp only [if_neg he, demChunksToDSparse_eq_ok, hiff, hsum, memoryWidth_eq]
  constructor
  · rintro ⟨rows', ⟨hchain, rfl⟩, hrest⟩
    have hd := hchain.width
    have hhead := h.headD (h.ne_nil' hchain.ne_nil)
    rw [bind_eq_ok] at hrest
    obtain ⟨bulk, hbulk, hrest⟩ := hrest
    obtain ⟨-, -, rfl⟩ := demChunkRounds_eq_ok.mp hbulk
    rw [length_memoryRounds, Nat.mul_div_cancel _ (Nat.pos_of_ne_zero hd)] at hrest
    rw [hhead]
    split at hrest
    · next hzero =>
      rw [hzero, Nat.mul_zero, Nat.add_zero]
      exact ⟨⟨hchain, hchain.bits⟩, (Except.ok.inj hrest).symm⟩
    · next hpos =>
      rw [bind_eq_ok] at hrest
      obtain ⟨_, hfit, hok⟩ := hrest
      rw [throwIf_eq_ok, rounds_fit_iff hd hpos] at hfit
      refine ⟨⟨hchain, hfit⟩, ?_⟩
      rw [memoryRounds_add]
      exact (Except.ok.inj hok).symm
  · rintro ⟨⟨hchain, hfit⟩, rfl⟩
    have hd := hchain.width
    have hhead := h.headD (h.ne_nil' hchain.ne_nil)
    have hbulk : demChunkRounds (chain.chunks.getD chain.repeating .empty) f t =
        .ok (roundsOf f t (chain.chunks.getD chain.repeating .empty)) :=
      demChunkRounds_eq_ok.mpr ⟨(hchain.counts _ hmem).width, (hchain.counts _ hmem).interior, rfl⟩
    refine ⟨_, ⟨hchain, rfl⟩, ?_⟩
    rw [hbulk, ok_bind, length_memoryRounds, Nat.mul_div_cancel _ (Nat.pos_of_ne_zero hd), hhead]
    split
    · next hzero =>
      rw [hzero, Nat.mul_zero, Nat.add_zero]
      rfl
    · next hpos =>
      rw [throwIf_of_not ((rounds_fit_iff hd hpos).mpr hfit), ok_bind, memoryRounds_add]
      rfl

/-- The expanded call: the map of the chain that `dem_chunks_from_spec` builds. -/
def expandedDSparse (spec : DemChunksSpec) : Except Error (List (List Nat)) := do
  let chunks ← demChunksFromSpec spec
  demChunksToDSparse chunks spec.seam.fromSeam spec.seam.toSeam

/-- The compact form throws on a chain that does not visit the repeating phase. -/
theorem onChain_of_dSparseSpec {spec : DemChunksSpec} {n : Nat} (hD : spec.hasDSparse = false)
    (hnum : spec.numRounds = some n) {rows : List (List Nat)}
    (h : demChunksToDSparseSpec spec = .ok rows) : spec.OnChain := by
  by_contra hoff
  rw [demChunksToDSparseSpec, hD, if_neg (by simp), bind_eq_ok] at h
  obtain ⟨chain, hchain, -⟩ := h
  exact compactChain_offChain hoff hnum chain hchain

/-- What the compact form returns the expanded call returns too. -/
theorem expandedDSparse_of_spec {spec : DemChunksSpec} {n : Nat} (hD : spec.hasDSparse = false)
    (hnum : spec.numRounds = some n) {rows : List (List Nat)}
    (h : demChunksToDSparseSpec spec = .ok rows) : expandedDSparse spec = .ok rows := by
  have hon := onChain_of_dSparseSpec hD hnum h
  rw [demChunksToDSparseSpec, hD, if_neg (by simp), bind_eq_ok] at h
  obtain ⟨chain, hchain, hrows⟩ := h
  obtain ⟨chunks, hchunks⟩ := exists_chunks_of_compactChain hon hnum hchain
  obtain ⟨chain', hchain', hstands⟩ := exists_compactChain hon hnum hchunks
  rw [hchain] at hchain'
  obtain rfl := Except.ok.inj hchain'
  rw [expandedDSparse, hchunks]
  exact hstands.dSparse_iff.mp hrows

/-- Where the expanded call returns, the compact form returns the same rows exactly when the chain
visits the self-connected phase; where the expanded call throws, so does the compact form. -/
theorem compactDSparse_iff (spec : DemChunksSpec) (n : Nat) (hD : spec.hasDSparse = false)
    (hnum : spec.numRounds = some n) :
    (∀ rows, expandedDSparse spec = .ok rows →
      (demChunksToDSparseSpec spec = .ok rows ↔ spec.OnChain)) ∧
    ∀ e, expandedDSparse spec = .error e → ∃ e', demChunksToDSparseSpec spec = .error e' := by
  refine ⟨fun rows hrows => ⟨onChain_of_dSparseSpec hD hnum, fun hon => ?_⟩, fun e he => ?_⟩
  · rw [expandedDSparse, bind_eq_ok] at hrows
    obtain ⟨chunks, hchunks, hrows⟩ := hrows
    obtain ⟨chain, hchain, hstands⟩ := exists_compactChain hon hnum hchunks
    rw [demChunksToDSparseSpec, hD, if_neg (by simp), hchain]
    exact hstands.dSparse_iff.mpr hrows
  · cases hcompact : demChunksToDSparseSpec spec with
    | error e' => exact ⟨e', rfl⟩
    | ok rows =>
      rw [expandedDSparse_of_spec hD hnum hcompact] at he
      cases he

example : flippingSpec.selfLoops.length = 1 := by decide +kernel

/-- Five rounds, one of them left out of the stand-in. -/
theorem compactDSparse_iff_flipping :
    expandedDSparse flippingSpec = .ok [[0], [0, 1], [1, 2], [2, 3], [3, 4]] ∧
      demChunksToDSparseSpec flippingSpec = .ok [[0], [0, 1], [1, 2], [2, 3], [3, 4]] := by
  have hexp : expandedDSparse flippingSpec = .ok [[0], [0, 1], [1, 2], [2, 3], [3, 4]] := by
    decide +kernel
  exact ⟨hexp, ((compactDSparse_iff flippingSpec 5 (by decide +kernel) rfl).1 _ hexp).mpr
    (by decide +kernel)⟩

/-- The expanded call returns on a chain that does not visit the repeating phase, and the compact form
throws. -/
theorem unvisitedSpec_dSparse : unvisitedSpec.hasDSparse = false ∧
    expandedDSparse unvisitedSpec = .ok [[0], [0, 1]] ∧
    (demChunksToDSparseSpec unvisitedSpec).isOk = false := by
  decide +kernel

end CudaqQec
