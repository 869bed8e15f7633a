import CudaqQec.ExtendedDem.Compact

/-!
# The observable map in chunk form

`dem_chunks_to_o_chunked` keeps one entry for each distinct chunk of a compact chain, and
`for_each_flip` walks the repeating one once for each round it stands for. The walk advances over the
columns of the expanded chain (`exists_chunked`), so it visits what `dem_chunks_to_o_sparse` lists.

* `compactObservables_iff`: when the map walks what the expanded chain lists.
-/

namespace CudaqQec

open Checked SparseBinaryMatrix ExtendedDem

variable {spec : DemChunksSpec} {rep : PhaseId} {n : Nat} {chunks : List ExtendedDem}

/-! ## The chunk-form observable map -/

/-- `chunked_observable_map`: one `O` for each distinct chunk, the one at `repeating` standing for
`repeatCount` rounds. -/
structure ChunkedObservableMap where
  columns : List SparseBinaryMatrix
  repeating : Nat
  repeatCount : Nat

namespace ChunkedObservableMap

variable (m : ChunkedObservableMap)

def visits (entry : Nat) : Nat := if entry = m.repeating then m.repeatCount else 1

/-- One visit: every column of the entry, advancing past it whether or not it flips anything. -/
def visit (set : Nat → Bool) (chunk : SparseBinaryMatrix) (st : Nat × List (Nat × Nat)) :
    Nat × List (Nat × Nat) :=
  (st.1 + chunk.numCols, st.2 ++ flipColumns set st.1 chunk.groups)

/-- `for_each_flip`: the calls of `on_flip`, in order. Columns past `numColumns` count as unset. -/
def forEachFlip (numColumns : Nat) (isSet : Nat → Bool) : List (Nat × Nat) :=
  ((List.range m.columns.length).foldl (fun st entry =>
    (visit (fun j => decide (j < numColumns) && isSet j)
      (m.columns.getD entry .empty))^[m.visits entry] st) (0, [])).2

def numErrorColumns : Nat :=
  ((List.range m.columns.length).map fun entry =>
    (m.columns.getD entry .empty).numCols * m.visits entry).sum

def walked : List (List Nat) :=
  (List.range m.columns.length).flatMap fun entry =>
    (List.replicate (m.visits entry) (m.columns.getD entry .empty).groups).flatten

variable {m}

/-! ## The walk over the entries -/

theorem iterate_visit {set : Nat → Bool} {chunk : SparseBinaryMatrix} (hl : chunk.layout = .csc)
    (k : Nat) (st : Nat × List (Nat × Nat)) :
    (visit set chunk)^[k] st = (st.1 + (List.replicate k chunk.groups).flatten.length,
      st.2 ++ flipColumns set st.1 (List.replicate k chunk.groups).flatten) := by
  induction k generalizing st with
  | zero => simp [flipColumns]
  | succ k ih =>
    rw [Function.iterate_succ_apply, ih, visit, List.replicate_succ, List.flatten_cons,
      flipColumns_append, List.length_append, chunk.length_groups_csc hl, List.append_assoc,
      Nat.add_assoc]

/-- Walking entry by entry walks their columns one after another. -/
theorem foldl_visit {set : Nat → Bool} (hl : ∀ c ∈ m.columns, c.layout = .csc)
    {entries : List Nat} (hentries : ∀ e ∈ entries, e < m.columns.length)
    (st : Nat × List (Nat × Nat)) :
    (entries.foldl (fun st entry =>
      (visit set (m.columns.getD entry .empty))^[m.visits entry] st) st).2 =
      st.2 ++ flipColumns set st.1 (entries.flatMap fun entry =>
        (List.replicate (m.visits entry) (m.columns.getD entry .empty).groups).flatten) := by
  induction entries generalizing st with
  | nil => simp [flipColumns]
  | cons e es ih =>
    have he : e < m.columns.length := hentries e (by simp)
    have hcsc : (m.columns.getD e .empty).layout = .csc := by
      rw [List.getD_eq_getElem?_getD, List.getElem?_eq_getElem he]
      exact hl _ (List.getElem_mem he)
    rw [List.foldl_cons, ih (fun e he => hentries e (by simp [he])), iterate_visit hcsc,
      List.flatMap_cons, flipColumns_append, List.append_assoc]

theorem forEachFlip_eq (hl : ∀ c ∈ m.columns, c.layout = .csc) (numColumns : Nat)
    (isSet : Nat → Bool) :
    m.forEachFlip numColumns isSet =
      flipColumns (fun j => decide (j < numColumns) && isSet j) 0 m.walked := by
  unfold forEachFlip walked
  rw [foldl_visit hl (fun e he => List.mem_range.mp he)]
  rfl

theorem numErrorColumns_eq (hl : ∀ c ∈ m.columns, c.layout = .csc) :
    m.numErrorColumns = m.walked.length := by
  unfold numErrorColumns walked
  rw [List.length_flatMap]
  congr 1
  apply List.map_congr_left
  intro e he
  have he' : e < m.columns.length := List.mem_range.mp he
  have hcsc : (m.columns.getD e .empty).layout = .csc := by
    rw [List.getD_eq_getElem?_getD, List.getElem?_eq_getElem he']
    exact hl _ (List.getElem_mem he')
  rw [List.length_flatten, List.map_replicate, List.sum_replicate_nat,
    (m.columns.getD e .empty).length_groups_csc hcsc, Nat.mul_comm]

theorem groups_getD (m : ChunkedObservableMap) (e : Nat) :
    (m.columns.getD e .empty).groups = (m.columns.map (·.groups)).getD e [] := by
  rw [List.getD_eq_getElem?_getD, List.getD_eq_getElem?_getD, List.getElem?_map]
  cases m.columns[e]? <;> rfl

/-! ## The walk by its parts -/

/-- With one entry repeating, the walk is the entries before it, its visits and the entries after
it. -/
theorem walked_of_split {l r : List (List (List Nat))} {c : List (List Nat)}
    (h : m.columns.map (·.groups) = l ++ c :: r) (hrep : m.repeating = l.length) :
    m.walked = l.flatten ++ (List.replicate m.repeatCount c).flatten ++ r.flatten := by
  have hlen : m.columns.length = l.length + 1 + r.length := by
    have := congrArg List.length h
    rw [List.length_map, List.length_append, List.length_cons] at this
    omega
  have hl : ∀ e ∈ List.range l.length, (List.replicate (m.visits e)
      (m.columns.getD e .empty).groups).flatten = l.getD e [] := by
    intro e he
    have he' := List.mem_range.mp he
    have hv : m.visits e = 1 := if_neg (by omega)
    rw [hv, groups_getD, h, getD_append_ite, if_pos he', List.replicate_one, List.flatten_singleton]
  have hr : ∀ e ∈ List.range r.length, (List.replicate (m.visits (l.length + 1 + e))
      (m.columns.getD (l.length + 1 + e) .empty).groups).flatten = r.getD e [] := by
    intro e he
    have hv : m.visits (l.length + 1 + e) = 1 := if_neg (by omega)
    have hsub : l.length + 1 + e - l.length = e + 1 := by omega
    rw [hv, groups_getD, h, getD_append_ite, if_neg (by omega), hsub, List.getD_cons_succ,
      List.replicate_one, List.flatten_singleton]
  have hc : m.visits l.length = m.repeatCount := if_pos hrep.symm
  unfold walked
  rw [hlen, List.range_add, List.range_succ, List.flatMap_append, List.flatMap_append,
    List.flatMap_congr hl, List.flatMap_map, List.flatMap_congr hr, List.flatMap_singleton, hc,
    groups_getD, h, getD_append_ite, if_neg (lt_irrefl _), Nat.sub_self, List.getD_cons_zero,
    List.flatMap_def, List.flatMap_def, map_getD_range, map_getD_range]

/-- With no entry repeating, the walk is the entries in order. -/
theorem walked_of_le (h : m.columns.length ≤ m.repeating) :
    m.walked = (m.columns.map (·.groups)).flatten := by
  have hl : ∀ e ∈ List.range m.columns.length, (List.replicate (m.visits e)
      (m.columns.getD e .empty).groups).flatten = (m.columns.map (·.groups)).getD e [] := by
    intro e he
    have he' := List.mem_range.mp he
    have hv : m.visits e = 1 := if_neg (by omega)
    rw [hv, groups_getD, List.replicate_one, List.flatten_singleton]
  have hrange := map_getD_range (m.columns.map (·.groups)) []
  rw [List.length_map] at hrange
  unfold walked
  rw [List.flatMap_congr hl, List.flatMap_def, hrange]

end ChunkedObservableMap

/-! ## Building the map -/

/-- One entry of the map. A chunk flipping no observable may carry a default-constructed `O`; it
still owns its fault columns, so it gets an empty `O` of the right width. -/
def observableEntry (kObs : Nat) (c : ExtendedDem) : Except Error SparseBinaryMatrix :=
  if c.O.numCols = 0 then fromNestedCsc kObs c.numFaults (List.replicate c.numFaults [])
  else .ok c.O.toCsc

/-- `dem_chunks_to_o_chunked` of a chain: the first copy of the repeating chunk is kept and the rest
are dropped. -/
def chainToOChunked (chain : List ExtendedDem) (repeating repeatedCopies repeatRounds : Nat) :
    Except Error ChunkedObservableMap := do
  throwIf (chain = [])
    (.invalidArgument "dem_chunks_to_o_chunked: chain must be non-empty")
  let kObs := (chain.headD .empty).numObservables
  forM (List.range (chain.length - 1)) fun i =>
    throwIf ((chain.getD (i + 1) .empty).numObservables ≠ kObs)
      (.invalidArgument ("dem_chunks_to_o_chunked: observable count mismatch at chunk " ++
        toString (i + 1)))
  throwIf (repeatedCopies = 0)
    (.invalidArgument "dem_chunks_to_o_chunked: repeated_copies must be at least 1")
  throwIf (repeating < chain.length ∧ chain.length < repeating + repeatedCopies)
    (.invalidArgument ("dem_chunks_to_o_chunked: the repeating chunk's copies run past the " ++
      "end of the chain"))
  throwIf (chain.length < repeating)
    (.invalidArgument ("dem_chunks_to_o_chunked: repeating must index the chain, or equal " ++
      "its size when nothing repeats"))
  throwIf (repeatRounds < repeatedCopies)
    (.invalidArgument ("dem_chunks_to_o_chunked: the repeating chunk cannot stand for fewer " ++
      "rounds than the copies the chain carries"))
  let kept := (List.range chain.length).filter fun i =>
    ¬ (1 < repeatedCopies ∧ repeating < i ∧ i < repeating + repeatedCopies)
  let columns ← kept.mapM fun i => observableEntry kObs (chain.getD i .empty)
  return ⟨columns, repeating, repeatRounds⟩

/-- `dem_chunks_to_o_chunked` of a spec. -/
def demChunksToOChunked (spec : DemChunksSpec) : Except Error ChunkedObservableMap := do
  let chain ← demChunksToCompactChain spec
  chainToOChunked chain.chunks chain.repeating chain.repeatedCopies chain.repeatRounds

/-! ## The map of a chain -/

/-- An entry holds the chunk's observable columns, one for each fault. -/
theorem exists_observableEntry {kObs : Nat} {c : ExtendedDem} (hk : kObs < 2 ^ 32)
    (hO : c.O.numCols = c.numFaults) :
    ∃ m, observableEntry kObs c = .ok m ∧ m.layout = .csc ∧ m.groups = chunkOColumns c := by
  unfold observableEntry chunkOColumns
  split
  · next hzero =>
    have hfaults : c.numFaults < uint32Max := by
      rw [← hO, hzero]
      decide
    have hidx : ∀ g ∈ List.replicate c.numFaults ([] : List Nat), ∀ i ∈ g, i < kObs := by
      intro g hg i hi
      rw [List.eq_of_mem_replicate hg] at hi
      cases hi
    obtain ⟨m, hm⟩ := exists_fromNestedCsc hk hfaults (List.length_replicate)
      (by simp) hidx
    obtain ⟨-, hl, -, -, hg⟩ := fromNestedCsc_eq_ok.mp hm
    exact ⟨m, hm, hl, hg⟩
  · refine ⟨c.O.toCsc, rfl, ?_, ?_⟩
    · unfold toCsc
      split
      · next h => exact h
      · rfl
    · rw [groups_toCsc, toNestedCsc_toCsc]

/-- Dropping the indices between `b` and `b + k` keeps what is before and after them. -/
theorem map_kept (l : List ExtendedDem) {b k : Nat} (hk : 1 ≤ k) (h : b + k ≤ l.length) :
    ((List.range l.length).filter fun i => ¬ (1 < k ∧ b < i ∧ i < b + k)).map
      (fun i => l.getD i .empty) = l.take (b + 1) ++ l.drop (b + k) := by
  have hsplit : l.length = b + 1 + (k - 1) + (l.length - (b + k)) := by omega
  have hfirst : (List.range (b + 1)).filter (fun i => ¬ (1 < k ∧ b < i ∧ i < b + k)) =
      List.range (b + 1) := by
    rw [List.filter_eq_self]
    intro i hi
    have := List.mem_range.mp hi
    simp only [decide_eq_true_eq]
    omega
  have hmid : ((List.range (k - 1)).map (b + 1 + ·)).filter
      (fun i => ¬ (1 < k ∧ b < i ∧ i < b + k)) = [] := by
    rw [List.filter_eq_nil_iff]
    intro i hi
    obtain ⟨j, hj, rfl⟩ := List.mem_map.mp hi
    have := List.mem_range.mp hj
    simp only [decide_eq_true_eq, not_not]
    omega
  have hlast : ((List.range (l.length - (b + k))).map (b + 1 + (k - 1) + ·)).filter
      (fun i => ¬ (1 < k ∧ b < i ∧ i < b + k)) =
        (List.range (l.length - (b + k))).map (b + 1 + (k - 1) + ·) := by
    rw [List.filter_eq_self]
    intro i hi
    obtain ⟨j, -, rfl⟩ := List.mem_map.mp hi
    simp only [decide_eq_true_eq]
    omega
  rw [hsplit, List.range_add, List.range_add, List.filter_append, List.filter_append, hfirst, hmid,
    hlast, List.append_nil, List.map_append, List.map_map]
  congr 1
  · apply List.ext_getElem?
    intro i
    rw [List.getElem?_map, List.getElem?_take]
    by_cases hi : i < b + 1
    · have hil : i < l.length := by omega
      rw [List.getElem?_range hi, if_pos hi, Option.map_some, List.getD_eq_getElem?_getD,
        List.getElem?_eq_getElem hil, Option.getD_some]
    · rw [if_neg hi, List.getElem?_eq_none (by simpa using hi), Option.map_none]
  · apply List.ext_getElem?
    intro i
    rw [List.getElem?_map, List.getElem?_drop]
    by_cases hi : i < l.length - (b + k)
    · have hil : b + k + i < l.length := by omega
      have he : b + 1 + (k - 1) + i = b + k + i := by omega
      rw [List.getElem?_range hi, Option.map_some, Function.comp_apply, he,
        List.getD_eq_getElem?_getD, List.getElem?_eq_getElem hil, Option.getD_some]
    · rw [List.getElem?_eq_none (by simpa using hi), List.getElem?_eq_none (by omega),
        Option.map_none]

/-- What the map of a chain keeps of its chunks, when the copies to drop lie in the chain. -/
theorem exists_chainToOChunked {chain : List ExtendedDem} {b k len : Nat} (hs : SameObservables chain)
    (hO : ∀ c ∈ chain, c.O.numCols = c.numFaults) (hk : 1 ≤ k) (hlen : k ≤ len)
    (hb : b = chain.length ∧ k = 1 ∨ b + k ≤ chain.length) :
    ∃ m, chainToOChunked chain b k len = .ok m ∧ (∀ c ∈ m.columns, c.layout = .csc) ∧
      m.repeating = b ∧ m.repeatCount = len ∧
      m.columns.map (·.groups) =
        (chain.take (b + 1) ++ chain.drop (b + k)).map chunkOColumns := by
  have hkObs : (chain.headD .empty).numObservables < 2 ^ 32 := (chain.headD .empty).O.rows_lt
  -- the chunks that are kept are those up to the repeated one and those behind its copies
  have hkept : ((List.range chain.length).filter fun i => ¬ (1 < k ∧ b < i ∧ i < b + k)).map
      (fun i => chain.getD i .empty) = chain.take (b + 1) ++ chain.drop (b + k) := by
    rcases hb with ⟨rfl, rfl⟩ | hb
    · have hall : (List.range chain.length).filter
          (fun i => ¬ (1 < 1 ∧ chain.length < i ∧ i < chain.length + 1)) =
            List.range chain.length := by
        rw [List.filter_eq_self]
        simp
      rw [hall, map_getD_range, List.take_append_drop]
    · exact map_kept chain hk hb
  obtain ⟨columns, hcols, hall⟩ := exists_mapM
    (l := (List.range chain.length).filter fun i => ¬ (1 < k ∧ b < i ∧ i < b + k))
    (f := fun i => observableEntry (chain.headD .empty).numObservables (chain.getD i .empty))
    (P := fun i (e : SparseBinaryMatrix) => e.layout = .csc ∧
      e.groups = chunkOColumns (chain.getD i .empty))
    fun i hi => by
      have hi' : i < chain.length := List.mem_range.mp (List.mem_of_mem_filter hi)
      apply exists_observableEntry hkObs
      rw [List.getD_eq_getElem _ _ hi']
      exact hO _ (List.getElem_mem hi')
  obtain ⟨hlen', hget⟩ := List.forall₂_iff_get.mp hall
  refine ⟨⟨columns, b, len⟩, ?_, ?_, rfl, rfl, ?_⟩
  · have hobs : ∀ i ∈ List.range (chain.length - 1),
        (chain.getD (i + 1) .empty).numObservables = (chain.headD .empty).numObservables := by
      intro i hi
      have hi' : i + 1 < chain.length := by
        have := List.mem_range.mp hi
        omega
      rw [List.getD_eq_getElem?_getD, List.getElem?_eq_getElem hi', Option.getD_some]
      exact hs.obs _ (List.getElem_mem hi')
    simp only [chainToOChunked, bind_eq_ok, forM_eq_ok, throwIf_eq_ok, ne_eq, not_not]
    exact ⟨(), hs.ne_nil, (), hobs, (), by omega, (), by omega, (), by omega, (), by omega, columns,
      hcols, rfl⟩
  · intro c hc
    obtain ⟨i, hi, rfl⟩ := List.mem_iff_getElem.mp hc
    exact (hget i (hlen' ▸ hi) hi).1
  · rw [← hkept, List.map_map]
    apply List.ext_getElem (by simpa using hlen'.symm)
    intro i hi hi'
    rw [List.length_map] at hi
    rw [List.getElem_map, List.getElem_map]
    exact (hget i (hlen' ▸ hi) hi).2

/-! ## The map against the expanded chain -/

theorem SameObservables.standsFor {chain : CompactChain} (h : SameObservables chunks)
    (hchain : StandsFor chain chunks) : SameObservables chain.chunks where
  ne_nil := hchain.ne_nil h.ne_nil
  valid c hc := h.valid c ((hchain.mem_iff h.ne_nil).mpr hc)
  obs c hc := by
    rw [← hchain.headD h.ne_nil]
    exact h.obs c ((hchain.mem_iff h.ne_nil).mpr hc)

theorem flatten_map_chunkOColumns (cs : List ExtendedDem) :
    (cs.map chunkOColumns).flatten = chainOColumns cs := (List.flatMap_def ..).symm

theorem chainOColumns_append (cs cs' : List ExtendedDem) :
    chainOColumns (cs ++ cs') = chainOColumns cs ++ chainOColumns cs' := List.flatMap_append

theorem chainOColumns_replicate (k : Nat) (c : ExtendedDem) :
    chainOColumns (List.replicate k c) = (List.replicate k (chunkOColumns c)).flatten := by
  rw [← flatten_map_chunkOColumns, List.map_replicate]

/-- The walk over the map of a stand-in advances over the columns of the chain it stands for. -/
theorem exists_chainToOChunked_of_standsFor {chain : CompactChain} (hchain : StandsFor chain chunks)
    (hs : SameObservables chunks) (hO : ∀ c ∈ chunks, c.O.numCols = c.numFaults) :
    ∃ m, chainToOChunked chain.chunks chain.repeating chain.repeatedCopies chain.repeatRounds =
        .ok m ∧ (∀ c ∈ m.columns, c.layout = .csc) ∧ m.walked = chainOColumns chunks := by
  obtain ⟨hc1, hc2, hc3, hc4⟩ := copiesOf_spec hchain.rounds
  have hs' := hs.standsFor hchain
  have hO' : ∀ c ∈ chain.chunks, c.O.numCols = c.numFaults :=
    fun c hc => hO c ((hchain.mem_iff hs.ne_nil).mpr hc)
  obtain ⟨cs, b, len⟩ := chain
  obtain ⟨-, hindex, rfl, hsame⟩ := hchain
  simp only [CompactChain.repeatedCopies, CompactChain.elidedRounds] at *
  rcases hindex with ⟨rfl, rfl⟩ | hb
  · -- Nothing repeats: the stand-in is the chain itself.
    obtain ⟨m, hm, hcsc, hmr, -, hall⟩ := exists_chainToOChunked hs' hO' (le_refl 1) (le_refl 1)
      (.inl ⟨rfl, rfl⟩)
    rw [List.take_append_drop] at hall
    have hmlen : m.columns.length = cs.length := by simpa using congrArg List.length hall
    refine ⟨m, hm, hcsc, ?_⟩
    rw [ChunkedObservableMap.walked_of_le (by omega), hall, flatten_map_chunkOColumns]
    exact congrArg chainOColumns (insertCopies_zero _ _).symm
  · have hbl : b < cs.length := by omega
    obtain ⟨m, hm, hcsc, hmr, hmc, hall⟩ := exists_chainToOChunked hs' hO' hc1 hc3 (.inr hb)
    refine ⟨m, hm, hcsc, ?_⟩
    have htake : (cs.take (b + 1)) = cs.take b ++ [cs.getD b .empty] := by
      rw [List.take_succ_eq_append_getElem hbl, List.getD_eq_getElem _ _ hbl]
    -- After the first copy come the other ones and the rounds behind them.
    have hrest : chainOColumns (cs.drop (b + 1)) =
        (List.replicate (copiesOf len - 1) (chunkOColumns (cs.getD b .empty))).flatten ++
          chainOColumns (cs.drop (b + copiesOf len)) := by
      rcases (show copiesOf len = 1 ∨ copiesOf len = 2 by omega) with h1 | h2
      · rw [h1]
        rfl
      · have hb1 : b + 1 < cs.length := by omega
        rw [h2, List.drop_eq_getElem_cons hb1, chainOColumns_cons, ← hsame h2,
          List.getD_eq_getElem _ _ hb1]
        simp
    have hmb : m.repeating = ((cs.take b).map chunkOColumns).length := by
      rw [hmr, List.length_map, List.length_take]
      omega
    have hcount : len = (len - copiesOf len) + (copiesOf len - 1) + 1 := by omega
    rw [htake, List.append_assoc, List.map_append, List.singleton_append, List.map_cons] at hall
    rw [ChunkedObservableMap.walked_of_split hall hmb, hmc, flatten_map_chunkOColumns,
      flatten_map_chunkOColumns, insertCopies, chainOColumns_append, chainOColumns_append, htake,
      chainOColumns_append, hrest, chainOColumns_replicate]
    have hone : chainOColumns [cs.getD b .empty] = chunkOColumns (cs.getD b .empty) :=
      List.append_nil _
    have hvisits : ∀ x : List (List Nat), (List.replicate len x).flatten =
        x ++ ((List.replicate (len - copiesOf len) x).flatten ++
          (List.replicate (copiesOf len - 1) x).flatten) := by
      intro x
      conv_lhs => rw [hcount, List.replicate_succ, List.replicate_add]
      rw [List.flatten_cons, List.flatten_append]
    rw [hone, hvisits]
    simp only [List.append_assoc]

/-- The walk over the map of a chain that visits its repeating phase advances over the columns of the
expanded chain. -/
theorem exists_chunked (hon : spec.OnChain) (hnum : spec.numRounds = some n)
    (h : demChunksFromSpec spec = .ok chunks) :
    ∃ m, demChunksToOChunked spec = .ok m ∧ (∀ c ∈ m.columns, c.layout = .csc) ∧
      m.walked = chainOColumns chunks := by
  obtain ⟨chain, hok, hchain⟩ := exists_compactChain hon hnum h
  obtain ⟨m, hm, hrest⟩ := exists_chainToOChunked_of_standsFor hchain
    (sameObservables_of_spec h (demChunksFromSpec_ne_nil hnum h)) (numCols_O_of_spec h)
  refine ⟨m, ?_, hrest⟩
  rw [demChunksToOChunked, hok]
  exact hm

/-! ## When the flips are those of the chain -/

/-- The map of a spec is faithful to its expanded chain: it describes as many columns, and for every
error frame its walk visits, in column order, the flips that the expanded chain lists for the set
columns. -/
def FaithfulObservables (spec : DemChunksSpec) (chunks : List ExtendedDem) : Prop :=
  ∃ m, demChunksToOChunked spec = .ok m ∧ m.numErrorColumns = chainFaults chunks ∧
    ∀ o, demChunksToOSparse chunks = .ok o → ∀ (numColumns : Nat) (isSet : Nat → Bool),
      (m.forEachFlip numColumns isSet).Pairwise (fun p q => p.1 ≤ q.1) ∧
      ∀ k, flipsOf k (m.forEachFlip numColumns isSet) =
        (o.getD k []).filter fun j => decide (j < numColumns) && isSet j

theorem length_chainOColumns {cs : List ExtendedDem} (h : ∀ c ∈ cs, c.Valid) :
    (chainOColumns cs).length = chainFaults cs := by
  induction cs with
  | nil => rfl
  | cons c cs ih =>
    have hc := Valid.length_chunkOColumns (h c (by simp))
    have hcs := ih fun x hx => h x (by simp [hx])
    unfold chainFaults at hcs ⊢
    rw [chainOColumns_cons, List.length_append, hc, hcs, List.map_cons, List.sum_cons]

/-- The compact map is faithful exactly when the chain visits the self-connected phase. The expanded
map it is compared with exists as long as its columns are `uint32_t`. -/
theorem compactObservables_iff (spec : DemChunksSpec) (n : Nat) (chunks : List ExtendedDem)
    (hnum : spec.numRounds = some n) (h : demChunksFromSpec spec = .ok chunks) :
    (FaithfulObservables spec chunks ↔ spec.OnChain) ∧
      ((∃ o, demChunksToOSparse chunks = .ok o) ↔ chainFaults chunks ≤ 2 ^ 32) := by
  have hs := sameObservables_of_spec h (demChunksFromSpec_ne_nil hnum h)
  refine ⟨⟨?_, ?_⟩, ?_⟩
  · rintro ⟨m, hm, -⟩
    by_contra hoff
    rw [demChunksToOChunked, bind_eq_ok] at hm
    obtain ⟨chain, hchain, -⟩ := hm
    exact compactChain_offChain hoff hnum chain hchain
  · intro hon
    obtain ⟨m, hm, hcsc, hwalk⟩ := exists_chunked hon hnum h
    refine ⟨m, hm, ?_, ?_⟩
    · rw [ChunkedObservableMap.numErrorColumns_eq hcsc, hwalk, length_chainOColumns hs.valid]
    · intro o ho numColumns isSet
      obtain ⟨-, -, rfl⟩ := demChunksToOSparse_eq_ok.mp ho
      rw [ChunkedObservableMap.forEachFlip_eq hcsc, hwalk]
      refine ⟨pairwise_flipColumns _ _, fun k => ?_⟩
      rw [flipsOf_flipColumns, getD_flipLists hs]
  · constructor
    · rintro ⟨o, ho⟩
      exact (demChunksToOSparse_eq_ok.mp ho).2.1
    · intro hle
      exact ⟨_, demChunksToOSparse_eq_ok.mpr ⟨hs, hle, rfl⟩⟩

example : flippingSpec.hasRepeatingPhase = true := by decide +kernel

theorem compactObservables_iff_flipping :
    flippingSpec.numRounds = some 5 ∧ ∃ chunks, demChunksFromSpec flippingSpec = .ok chunks ∧
      FaithfulObservables flippingSpec chunks := by
  have hok : (demChunksFromSpec flippingSpec).isOk = true := by decide +kernel
  obtain ⟨chunks, h⟩ := exists_eq_ok hok
  exact ⟨rfl, chunks, h,
    (compactObservables_iff flippingSpec 5 chunks rfl h).1.mpr (by decide +kernel)⟩

/-- The chain has one length, and the stand-in asks for another: the expanded chain is built and the
map is not. -/
theorem unvisitedSpec_not_faithful : ∃ chunks, demChunksFromSpec unvisitedSpec = .ok chunks ∧
    demChunksToOSparse chunks = .ok [[0, 1]] ∧ (demChunksToOChunked unvisitedSpec).isOk = false ∧
    ¬ FaithfulObservables unvisitedSpec chunks := by
  have hok : (demChunksFromSpec unvisitedSpec).toOption.map demChunksToOSparse =
      some (.ok [[0, 1]]) := by decide +kernel
  have herr : (demChunksToOChunked unvisitedSpec).isOk = false := by decide +kernel
  cases h : demChunksFromSpec unvisitedSpec with
  | error e =>
    rw [h] at hok
    cases hok
  | ok chunks =>
    rw [h] at hok
    refine ⟨chunks, rfl, Option.some.inj hok, herr, ?_⟩
    rintro ⟨m, hm, -⟩
    rw [hm] at herr
    cases herr

end CudaqQec
