import CudaqQec.ExtendedDem.Layout

/-!
# The chunks of a shot

`dem_chunks_from_spec`: one chunk for each round, built from the round's phase. Every round but the
last gets both seams. A phase's chunk depends on nothing else: the context it is built in only names
it in errors.

* `demChunkFromSpec_built`: what a chunk built from a phase is.
* `demChunksFromSpec_eq_ok`: what the chunks of a shot are.
* `validate_withRounds`: a valid spec is valid at every length.
-/

namespace CudaqQec

open Checked SparseBinaryMatrix ExtendedDem

/-! ## Contexts -/

theorem checkIndices_context {n : Nat} {context context' field field' : String} {rows seen : List Int}
    (h : checkIndices n context field rows seen = .ok ()) :
    checkIndices n context' field' rows seen = .ok () := by
  induction rows generalizing seen with
  | nil => rfl
  | cons v vs ih =>
    unfold checkIndices at h ⊢
    split
    · next hv =>
      rw [if_pos hv] at h
      exact ih h
    · next hv =>
      simp only [if_neg hv, bind_eq_ok, throwIf_eq_ok] at h ⊢
      obtain ⟨_, h1, _, h2, h3⟩ := h
      exact ⟨(), h1, (), h2, ih h3⟩

theorem validateIndexList_context {n : Nat} {context context' field field' : String} {rows : List Int}
    (h : validateIndexList rows n context field = .ok ()) :
    validateIndexList rows n context' field' = .ok () := by
  unfold validateIndexList at h ⊢
  split
  · rfl
  · next hr =>
    simp only [if_neg hr, bind_eq_ok, throwIf_eq_ok] at h ⊢
    obtain ⟨_, h1, h2⟩ := h
    exact ⟨(), h1, checkIndices_context h2⟩

theorem DemChunkSpec.validate_context {s : DemChunkSpec} {context : String} (context' : String)
    (h : s.validate context = .ok ()) : s.validate context' = .ok () := by
  simp only [validate, bind_eq_ok, throwIf_eq_ok, forM_eq_ok] at h ⊢
  obtain ⟨_, h1, _, h2, _, h3, _, h4, _, h5, _, h6, _, h7, _, h8, _, h9, h10⟩ := h
  refine ⟨(), h1, (), h2, (), h3, (), h4, (), validateIndexList_context h5, (),
    validateIndexList_context h6, (), fun e he => ?_, (), h8, (), h9, validateIndexList_context h10⟩
  obtain ⟨_, ha, hb⟩ := h7 e he
  exact ⟨(), validateIndexList_context ha, validateIndexList_context hb⟩

theorem demChunkFromSpec_context {s : DemChunkSpec} {ids : List SeamId} {context : String}
    (context' : String) {d : ExtendedDem} (h : demChunkFromSpec s ids context = .ok d) :
    demChunkFromSpec s ids context' = .ok d := by
  simp only [demChunkFromSpec, bind_eq_ok, forM_eq_ok, throwIf_eq_ok] at h ⊢
  obtain ⟨_, h1, _, h2, h3⟩ := h
  exact ⟨(), DemChunkSpec.validate_context context' h1, (), h2, h3⟩

/-! ## What a chunk built from a phase is -/

/-- What the seam loop keeps: the cursor is behind the rows written so far, every one of them in a
band, one band after the other. -/
structure Stacked (numFaults : Nat) (rates : List ℚ) (acc : ExtendedDem × Nat) : Prop where
  rates : acc.1.errorRates = rates
  cursor : acc.2 = acc.1.H.numRows
  cols : acc.1.H.numCols = numFaults ∨ acc.1.H.numRows = 0
  bands : ∀ s ∈ acc.1.seams, s.rowBegin ≤ s.rowEnd ∧ s.rowEnd ≤ acc.2
  disjoint : acc.1.seams.Pairwise Seam.Disjoint
  tags : acc.1.tags.length = acc.1.seamTotal
  total : acc.1.seamTotal = acc.2
  distinct : acc.1.DistinctSeams

theorem stacked_empty (n : Nat) (rates : List ℚ) :
    Stacked n rates ({ ExtendedDem.empty with errorRates := rates }, 0) where
  rates := rfl
  cursor := rfl
  cols := .inr rfl
  bands := by simp [ExtendedDem.empty]
  disjoint := .nil
  tags := rfl
  total := rfl
  distinct := List.nodup_nil

theorem sparseFromTerminatedRows_shape {rows : List Int} {n : Nat} {m : SparseBinaryMatrix}
    (hn : n < 2 ^ 32) (h : sparseFromTerminatedRows rows n = .ok m) :
    m.numRows = (terminatedRows rows).1.length ∧ m.numCols = n := by
  simp only [sparseFromTerminatedRows, bind_eq_ok] at h
  obtain ⟨_, -, m', hm', hok⟩ := h
  obtain rfl : m'.toCsc = m := Except.ok.inj hok
  obtain ⟨-, hl, hr, hc, hg⟩ := fromNestedCsr_eq_ok.mp hm'
  have hlen := m'.length_groups_csr hl
  rw [hg, List.length_map] at hlen
  rw [u32_of_lt hn] at hc
  unfold toCsc
  split
  · exact ⟨hlen.symm, hc⟩
  · exact ⟨hlen.symm, hc⟩

theorem stackSeam_shape {H seamH H' : SparseBinaryMatrix} {n : Nat}
    (hseam : seamH.numCols = n) (hcols : H.numCols = n ∨ H.numRows = 0)
    (h : stackSeam H seamH n = .ok H') :
    H'.numRows = H.numRows + seamH.numRows ∧ (H'.numCols = n ∨ H'.numRows = 0) := by
  unfold stackSeam at h
  split at h
  · next hzero =>
    split at h
    · cases h
      exact ⟨by omega, .inl hseam⟩
    · next hrows =>
      obtain ⟨-, -, hr, -, -⟩ := fromNestedCsc_eq_ok.mp h
      rw [u32_of_lt (by decide)] at hr
      exact ⟨by omega, .inr hr⟩
  · split at h
    · obtain ⟨-, hr, hc, hbc, -⟩ := vstack_groups h
      exact ⟨hr, .inl (by omega)⟩
    · cases h
      exact ⟨by omega, hcols⟩

theorem pushSeam_stacked {n : Nat} {rates : List ℚ} {acc acc' : ExtendedDem × Nat} {e : SeamSpecEntry}
    (hn : n < 2 ^ 32) (h : pushSeam n acc e = .ok acc') (hacc : Stacked n rates acc) :
    Stacked n rates acc' := by
  simp only [pushSeam, bind_eq_ok] at h
  obtain ⟨seamH, hseam, H, hH, d, hd, hok⟩ := h
  obtain ⟨-, hscols⟩ := sparseFromTerminatedRows_shape hn hseam
  obtain ⟨hrows, hcols⟩ := stackSeam_shape hscols hacc.cols hH
  have hcur : u32 (acc.2 + seamH.numRows) = H.numRows := by
    rw [hacc.cursor, ← hrows, u32_of_lt H.rows_lt]
  have hdistinct := DistinctSeams.addSeam (d := { acc.1 with H := H }) hacc.distinct hd
  simp only [addSeam] at hd
  split at hd
  · cases hd
  · cases hd
    cases hok
    have hold := hacc.cursor
    refine ⟨hacc.rates, hcur, hcols, ?_, ?_, ?_, ?_, hdistinct⟩
    · intro s hs
      show s.rowBegin ≤ s.rowEnd ∧ s.rowEnd ≤ u32 (acc.2 + seamH.numRows)
      rcases List.mem_append.mp hs with hs | hs
      · have := hacc.bands s hs
        omega
      · obtain rfl := List.mem_singleton.mp hs
        simp only
        omega
    · show (acc.1.seams ++ [_]).Pairwise Seam.Disjoint
      rw [List.pairwise_append]
      refine ⟨hacc.disjoint, by simp, fun s hs b hb => ?_⟩
      -- Earlier bands end where the cursor stood.
      obtain rfl := List.mem_singleton.mp hb
      exact .inr (.inr (.inl (hacc.bands s hs).2))
    · have htags := hacc.tags
      simp only [seamTotal, List.map_append, List.sum_append, List.length_append, List.map_cons,
        List.map_nil, List.sum_singleton, Seam.numRows, List.length_range] at htags ⊢
      omega
    · have htotal := hacc.total
      simp only [seamTotal, List.map_append, List.sum_append, List.map_cons,
        List.map_nil, List.sum_singleton, Seam.numRows] at htotal ⊢
      omega

theorem foldlM_pushSeam_stacked {n : Nat} {rates : List ℚ} {acc acc' : ExtendedDem × Nat}
    {es : List SeamSpecEntry} (hn : n < 2 ^ 32) (h : es.foldlM (pushSeam n) acc = .ok acc')
    (hacc : Stacked n rates acc) : Stacked n rates acc' := by
  induction es generalizing acc with
  | nil =>
    cases h
    exact hacc
  | cons e es ih =>
    rw [List.foldlM_cons, bind_eq_ok] at h
    obtain ⟨acc₁, h1, h2⟩ := h
    exact ih h2 (pushSeam_stacked hn h1 hacc)

theorem DemChunkSpec.expand_eq (s : DemChunkSpec) (ids : List SeamId) :
    (s.expand ids).numFaults = s.numFaults ∧ (s.expand ids).errorRates = s.errorRates ∧
      (s.expand ids).oSparse = s.oSparse := by
  unfold DemChunkSpec.expand
  split
  · exact ⟨rfl, rfl, rfl⟩
  · split <;> exact ⟨rfl, rfl, rfl⟩

/-- A chunk built from a phase is valid, has no interior row, and takes its rates and observables
from the phase whatever its seams are. -/
structure BuiltFrom (s : DemChunkSpec) (d : ExtendedDem) : Prop where
  valid : d.Valid
  distinct : d.DistinctSeams
  interior : d.numInteriorRows = 0
  rates : d.errorRates = s.errorRates
  faults : d.numFaults = s.numFaults
  obs : sparseFromTerminatedRows s.oSparse s.numFaults = .ok d.O

theorem demChunkFromSpec_built {s : DemChunkSpec} {ids : List SeamId} {context : String}
    {d : ExtendedDem} (h : demChunkFromSpec s ids context = .ok d) : BuiltFrom s d := by
  simp only [demChunkFromSpec, bind_eq_ok] at h
  obtain ⟨_, hval, _, -, acc, hacc, hfin⟩ := h
  simp only [DemChunkSpec.validate, bind_eq_ok, throwIf_eq_ok, ne_eq, not_not] at hval
  obtain ⟨_, hle, _, -, _, hrates, -⟩ := hval
  have hn : s.numFaults < 2 ^ 32 := by
    unfold uint32Max at hle
    omega
  obtain ⟨he1, he2, he3⟩ := s.expand_eq ids
  rw [he1, he2] at hacc
  rw [he1, he3] at hfin
  have hst := foldlM_pushSeam_stacked hn hacc (stacked_empty s.numFaults s.errorRates)
  simp only [finishChunk, bind_eq_ok] at hfin
  obtain ⟨H, hH, O, hO, hok⟩ := hfin
  cases hok
  have hshape : H.numCols = s.numFaults ∧ H.numRows = acc.2 := by
    unfold finishRows at hH
    split at hH
    · next h0 =>
      obtain ⟨-, -, hr, hc, -⟩ := fromNestedCsc_eq_ok.mp hH
      rw [u32_of_lt (by decide)] at hr
      rw [u32_of_lt hn] at hc
      exact ⟨hc, by omega⟩
    · next h0 =>
      cases hH
      have := hst.cursor
      exact ⟨hst.cols.resolve_right (by omega), this.symm⟩
  have hfaults : u32 acc.1.errorRates.length = s.numFaults := by
    rw [hst.rates, hrates, u32_of_lt hn]
  have hvalid : ExtendedDem.Valid { acc.1 with H := H, O := O } := by
    refine ⟨hshape.1.trans hfaults.symm, ?_, ?_, hst.disjoint, hst.tags⟩
    · right
      rw [(sparseFromTerminatedRows_shape hn hO).2]
      exact hfaults.symm
    · intro b hb
      have := hst.bands b hb
      rw [hshape.2]
      exact this
  refine ⟨hvalid, hst.distinct, ?_, hst.rates, hfaults, hO⟩
  -- The bands hold every row.
  have htotal : ExtendedDem.seamTotal { acc.1 with H := H, O := O } = H.numRows :=
    hst.total.trans hshape.2.symm
  have hu := hvalid.u32_seamTotal
  rw [numInteriorRows, hu, htotal, if_neg (lt_irrefl _)]

/-! ## Seams of a chunk built from a phase -/

def Seam.size (s : Seam) : SeamId × Nat := (s.id, s.numRows)

def SeamSpecEntry.size (e : SeamSpecEntry) : SeamId × Nat :=
  (e.id, (terminatedRows e.spec.hSparse).1.length)

theorem foldlM_pushSeam_sizes {n : Nat} {rates : List ℚ} {acc acc' : ExtendedDem × Nat}
    {es : List SeamSpecEntry} (hn : n < 2 ^ 32) (h : es.foldlM (pushSeam n) acc = .ok acc')
    (hacc : Stacked n rates acc) :
    acc'.1.seams.map Seam.size = acc.1.seams.map Seam.size ++ es.map SeamSpecEntry.size := by
  induction es generalizing acc with
  | nil =>
    cases h
    simp
  | cons e es ih =>
    rw [List.foldlM_cons, bind_eq_ok] at h
    obtain ⟨acc₁, h1, h2⟩ := h
    rw [ih h2 (pushSeam_stacked hn h1 hacc)]
    simp only [pushSeam, bind_eq_ok] at h1
    obtain ⟨seamH, hseam, H, hH, d, hd, hok⟩ := h1
    obtain ⟨hsrows, hscols⟩ := sparseFromTerminatedRows_shape hn hseam
    have hrows := (stackSeam_shape hscols hacc.cols hH).1
    have hcur : u32 (acc.2 + seamH.numRows) = acc.2 + seamH.numRows := by
      rw [hacc.cursor, ← hrows, u32_of_lt H.rows_lt]
    rw [hsrows] at hcur
    simp only [addSeam] at hd
    split at hd
    · cases hd
    · cases hd
      cases hok
      simp only [List.map_append, List.map_cons, List.map_nil, List.append_assoc, List.cons_append,
        List.nil_append, Seam.size, SeamSpecEntry.size, Seam.numRows, hcur, hsrows,
        Nat.add_sub_cancel_left]

/-- A chunk has the seams of its phase, with as many rows as their entries give. -/
theorem demChunkFromSpec_sizes {s : DemChunkSpec} {ids : List SeamId} {context : String}
    {d : ExtendedDem} (h : demChunkFromSpec s ids context = .ok d) :
    d.seams.map Seam.size = (s.expand ids).seamSpecs.map SeamSpecEntry.size := by
  simp only [demChunkFromSpec, bind_eq_ok] at h
  obtain ⟨_, hval, _, -, acc, hacc, hfin⟩ := h
  simp only [DemChunkSpec.validate, bind_eq_ok, throwIf_eq_ok, ne_eq, not_not] at hval
  obtain ⟨_, hle, -⟩ := hval
  have hn : s.numFaults < 2 ^ 32 := by
    unfold uint32Max at hle
    omega
  obtain ⟨he1, he2, -⟩ := s.expand_eq ids
  rw [he1, he2] at hacc
  have hsizes := foldlM_pushSeam_sizes hn hacc (stacked_empty s.numFaults s.errorRates)
  simp only [finishChunk, bind_eq_ok] at hfin
  obtain ⟨H, -, O, -, hok⟩ := hfin
  cases hok
  simpa [ExtendedDem.empty] using hsizes

theorem seamRowsOrZero_eq_find (d : ExtendedDem) (id : SeamId) : d.seamRowsOrZero id =
    (((d.seams.map Seam.size).find? fun p => p.1 = id).map (·.2)).getD 0 := by
  rw [List.find?_map]
  unfold seamRowsOrZero seamBand findSeam
  have hcomp : ((fun p : SeamId × Nat => decide (p.1 = id)) ∘ Seam.size) =
      fun s => decide (s.id = id) := rfl
  rw [hcomp]
  cases d.seams.find? fun s => s.id = id with
  | none => rfl
  | some s => rfl

/-- The last round of a shot has no outgoing seam; its incoming one is as wide as elsewhere. -/
theorem demChunkFromSpec_toSeam {s : DemChunkSpec} {f t : SeamId} {context context' : String}
    {inner last : ExtendedDem} (hinner : demChunkFromSpec s [t, f] context = .ok inner)
    (hlast : demChunkFromSpec s [t] context' = .ok last) :
    last.seamRowsOrZero t = inner.seamRowsOrZero t := by
  rw [seamRowsOrZero_eq_find, seamRowsOrZero_eq_find, demChunkFromSpec_sizes hinner,
    demChunkFromSpec_sizes hlast]
  unfold DemChunkSpec.expand
  split
  · rfl
  · split
    · rfl
    · simp [SeamSpecEntry.size]

/-! ## `dem_chunks_from_spec` -/

/-- The seams of a round: the incoming one, and the outgoing one where another round follows. -/
def roundSeams (spec : DemChunksSpec) (i rounds : Nat) : List SeamId :=
  if i + 1 < rounds then [spec.seam.toSeam, spec.seam.fromSeam] else [spec.seam.toSeam]

def roundChunk (spec : DemChunksSpec) (rounds i : Nat) (id : PhaseId) : Except Error ExtendedDem := do
  let phase ← spec.getPhase id
  demChunkFromSpec phase (roundSeams spec i rounds) ("dem_chunks." ++ toString id.value)

/-- `dem_chunks_from_spec`: a chunk for each round of the sequence. -/
def demChunksFromSpec (spec : DemChunksSpec) : Except Error (List ExtendedDem) := do
  spec.validate
  let seq ← spec.phaseSequence
  (List.range seq.length).mapM fun i => roundChunk spec seq.length i (seq.getD i ⟨0⟩)

variable {spec : DemChunksSpec}

theorem forall₂_range {β : Type} {P : Nat → β → Prop} {n : Nat} {ys : List β} (d : β) :
    List.Forall₂ P (List.range n) ys ↔ ys.length = n ∧ ∀ i < n, P i (ys.getD i d) := by
  rw [List.forall₂_iff_get]
  simp only [List.length_range, List.get_eq_getElem, List.getElem_range]
  constructor
  · rintro ⟨hlen, h⟩
    refine ⟨hlen.symm, fun i hi => ?_⟩
    have hi' : i < ys.length := by omega
    rw [List.getD_eq_getElem?_getD, List.getElem?_eq_getElem hi', Option.getD_some]
    exact h i hi hi'
  · rintro ⟨hlen, h⟩
    refine ⟨hlen.symm, fun i hi hi' => ?_⟩
    have := h i hi
    rwa [List.getD_eq_getElem?_getD, List.getElem?_eq_getElem hi', Option.getD_some] at this

theorem demChunksFromSpec_eq_ok {chunks : List ExtendedDem} :
    demChunksFromSpec spec = .ok chunks ↔ spec.validate = .ok () ∧ ∃ seq,
      spec.phaseSequence = .ok seq ∧ chunks.length = seq.length ∧ ∀ i < seq.length,
        roundChunk spec seq.length i (seq.getD i ⟨0⟩) = .ok (chunks.getD i .empty) := by
  simp only [demChunksFromSpec, bind_eq_ok, mapM_eq_ok, forall₂_range ExtendedDem.empty]
  constructor
  · rintro ⟨_, h1, seq, h2, h3⟩
    exact ⟨h1, seq, h2, h3⟩
  · rintro ⟨h1, seq, h2, h3⟩
    exact ⟨(), h1, seq, h2, h3⟩

/-! ## Lengths -/

namespace DemChunksSpec

variable {s : DemChunksSpec} {n : Nat}

theorem validate_withRounds (h : s.validate = .ok ()) (hn : 2 ≤ n) :
    (s.withRounds n).validate = .ok () := by
  simp only [validate, bind_eq_ok, throwIf_eq_ok] at h ⊢
  obtain ⟨_, h1, _, h2, _, h3, _, -, h5⟩ := h
  exact ⟨(), h1, (), h2, (), h3, (), by simp [withRounds]; omega, h5⟩

theorem withRounds_eq_self (hn : s.numRounds = some n) : s.withRounds n = s := by
  unfold withRounds
  rw [← hn]

/-- Without a self-connection the number of rounds is not read. -/
theorem phaseSequence_withRounds (hself : s.selfLoops = []) :
    (s.withRounds n).phaseSequence = s.phaseSequence := by
  have hself' : (s.withRounds n).selfLoops = [] := hself
  have hc : s.connections ≠ [] → s.chain ≠ [] := by
    intro hne hnil
    apply hne
    rw [List.eq_nil_iff_forall_not_mem]
    intro c hc
    by_cases hs : c.isSelf = true
    · have : c.fromPhase ∈ s.selfLoops := List.mem_map.mpr ⟨c, List.mem_filter.mpr ⟨hc, hs⟩, rfl⟩
      rw [hself] at this
      exact List.not_mem_nil this
    · have : c ∈ s.chain := List.mem_filter.mpr ⟨hc, by simpa using hs⟩
      rw [hnil] at this
      exact List.not_mem_nil this
  have hchain : (s.withRounds n).chain = s.chain := rfl
  have hphases : (s.withRounds n).phases = s.phases := rfl
  have hconn : (s.withRounds n).connections = s.connections := rfl
  unfold phaseSequence
  rw [hself', hself, hchain, hphases, hconn]
  by_cases hp : s.phases = []
  · simp [throwIf_of hp]
  by_cases hcn : s.connections = []
  · simp [throwIf_of hcn, throwIf_of_not hp]
  simp only [List.head?_nil, Option.isSome_none, Bool.false_eq_true, false_and, if_false,
    if_neg (hc hcn)]
  rfl

/-! ## The phases of a sequence are named -/

theorem mem_walkPhases {chain : List PhaseConnection} {fuel : Nat} {current : PhaseId}
    {visited path : List PhaseId} (h : walkPhases chain none 0 fuel current visited = .ok path)
    {p : PhaseId} (hp : p ∈ path) : p = current ∨ ∃ c ∈ chain, c.toPhase = p := by
  obtain ⟨hhead, -, hchain⟩ := walkPhases_steps h
  obtain ⟨i, hi, rfl⟩ := List.mem_iff_getElem.mp hp
  cases i with
  | zero =>
    left
    rw [List.head?_eq_getElem?, List.getElem?_eq_getElem hi] at hhead
    exact Option.some.inj hhead
  | succ i =>
    right
    rw [List.isChain_iff_getElem] at hchain
    obtain ⟨c, hc, -, hct⟩ := hchain i hi
    exact ⟨c, hc, hct⟩

theorem entryPhase_mem {chain : List PhaseConnection} (h : chain ≠ []) :
    ∃ c ∈ chain, c.fromPhase = entryPhase chain := by
  unfold entryPhase
  cases hf : chain.find? fun c => !chain.any fun c' => c'.toPhase = c.fromPhase with
  | some c => exact ⟨c, List.mem_of_find?_eq_some hf, rfl⟩
  | none =>
    cases chain with
    | nil => exact absurd rfl h
    | cons c cs => exact ⟨c, by simp, rfl⟩

theorem mem_of_mem_repeatIn {rep : Option PhaseId} {path : List PhaseId} {p : PhaseId}
    (h : p ∈ repeatIn rep n path) : p ∈ path := by
  obtain ⟨q, hq, hp⟩ := List.mem_flatMap.mp h
  rcases List.mem_cons.mp hp with rfl | hp
  · exact hq
  · split at hp
    · rw [List.eq_of_mem_replicate hp]
      exact hq
    · simp at hp

/-- Every phase of a sequence is one that a connection names. -/
theorem named_of_mem_phaseSequence {seq : List PhaseId} (h : s.phaseSequence = .ok seq) {p : PhaseId}
    (hp : p ∈ seq) : ∃ c ∈ s.connections, c.fromPhase = p ∨ c.toPhase = p := by
  simp only [phaseSequence, bind_eq_ok, throwIf_eq_ok] at h
  obtain ⟨_, -, _, hc, _, -, _, -, _, -, h⟩ := h
  split at h
  · next hnil =>
    cases h
    -- All connections are self-connections, and the sequence repeats the first one's phase.
    obtain ⟨c, hcon⟩ := List.exists_mem_of_ne_nil _ hc
    have hself : s.selfLoops ≠ [] := by
      intro hs
      have hself' : c.isSelf = true := by
        by_contra hn
        have : c ∈ s.chain := List.mem_filter.mpr ⟨hcon, by simpa using hn⟩
        rw [hnil] at this
        exact List.not_mem_nil this
      have : c.fromPhase ∈ s.selfLoops :=
        List.mem_map.mpr ⟨c, List.mem_filter.mpr ⟨hcon, hself'⟩, rfl⟩
      rw [hs] at this
      exact List.not_mem_nil this
    obtain ⟨rep, loops, hl⟩ := List.exists_cons_of_ne_nil hself
    have hpr : p = rep := by
      have := List.eq_of_mem_replicate hp
      rwa [hl] at this
    have hmem : rep ∈ s.selfLoops := by simp [hl]
    obtain ⟨c', hc', he⟩ := List.mem_map.mp hmem
    exact ⟨c', (List.mem_filter.mp hc').1, .inl (by rw [hpr]; exact he)⟩
  · next hne =>
    simp only [chainSequence, bind_eq_ok] at h
    obtain ⟨_, -, _, -, seq', hwalk, _, -, hok⟩ := h
    obtain rfl : seq' = seq := Except.ok.inj hok
    rw [walkPhases_eq] at hwalk
    cases hw : walkPhases s.chain none 0 (s.chain.length + 1) (entryPhase s.chain) [] with
    | error e =>
      rw [hw] at hwalk
      cases hwalk
    | ok path =>
      rw [hw] at hwalk
      obtain rfl := Except.ok.inj hwalk
      rcases mem_walkPhases hw (mem_of_mem_repeatIn hp) with rfl | ⟨c, hc', hct⟩
      · obtain ⟨c, hc', hcf⟩ := entryPhase_mem hne
        exact ⟨c, (List.mem_filter.mp hc').1, .inl hcf⟩
      · exact ⟨c, (List.mem_filter.mp hc').1, .inr hct⟩

theorem exists_getPhase (hval : s.validate = .ok ()) {p : PhaseId}
    (hp : ∃ c ∈ s.connections, c.fromPhase = p ∨ c.toPhase = p) :
    ∃ e, s.phases.find? (fun e => e.id = p) = some e ∧ s.getPhase p = .ok e.spec := by
  simp only [validate, bind_eq_ok, forM_eq_ok, checkNamed, throwIf_eq_ok] at hval
  obtain ⟨_, -, _, -, _, -, _, -, _, -, _, hnamed, -⟩ := hval
  obtain ⟨c, hc, hcp⟩ := hp
  obtain ⟨_, h1, h2⟩ := hnamed c hc
  have hany : (s.phases.any fun e => e.id = p) = true := by
    rcases hcp with rfl | rfl
    · simpa using h1
    · simpa using h2
  cases hf : s.phases.find? fun e => e.id = p with
  | none =>
    rw [List.find?_eq_none] at hf
    obtain ⟨e, he, hid⟩ := List.any_eq_true.mp hany
    exact absurd hid (hf e he)
  | some e =>
    refine ⟨e, rfl, ?_⟩
    rw [getPhase, hf]

end DemChunksSpec

end CudaqQec
