import CudaqQec.Sparse.Construction
import CudaqQec.Sparse.Text

/-!
# The canonical form of a storage

`canonicalize` walks the groups of a storage, sorts each one and collapses its runs; `to_dense` marks
the entries of a storage in a tensor. Both are followed here on the arrays, and are those of the matrix
that the arrays store.

* `canonicalize_normalForm`: `canonicalize` is a normal form over GF(2), for every storage that keeps
  the representation; and a binary matrix that is stored and made dense again is the same matrix.
-/

namespace CudaqQec

open Checked Buckets

/-! ## Runs -/

/-- The loop over the runs of a sorted group: a value stays if its run is of odd length. -/
@[grind =] def collapseRuns : List Nat → List Nat
  | [] => []
  | val :: rest =>
    let run := val :: rest.takeWhile (· = val)
    if run.length % 2 = 1 then val :: collapseRuns (rest.dropWhile (· = val))
    else collapseRuns (rest.dropWhile (· = val))
  termination_by l => l.length
  decreasing_by
    all_goals exact Nat.lt_succ_of_le (List.length_dropWhile_le _ _)

/-- After the first run come larger values. -/
theorem lt_of_mem_dropWhile {val : Nat} {rest : List Nat} (h : (val :: rest).Pairwise (· ≤ ·)) :
    ∀ x ∈ rest.dropWhile (· = val), val < x := by
  induction rest with
  | nil => simp
  | cons y rest ih =>
    rw [List.pairwise_cons, List.pairwise_cons] at h
    obtain ⟨hle, hy, hrest⟩ := h
    by_cases hval : y = val
    · rw [List.dropWhile_cons, if_pos (by simpa using hval)]
      exact ih (List.pairwise_cons.mpr ⟨fun x hx => hle x (by simp [hx]), hrest⟩)
    · rw [List.dropWhile_cons, if_neg (by simpa using hval)]
      have hlt : val < y := lt_of_le_of_ne (hle y (by simp)) (Ne.symm hval)
      intro x hx
      rcases List.mem_cons.mp hx with rfl | hx
      · exact hlt
      · exact lt_of_lt_of_le hlt (hy x hx)

/-- The first run holds all of its value. -/
theorem count_run {val : Nat} {rest : List Nat} (h : (val :: rest).Pairwise (· ≤ ·)) (i : Nat) :
    (val :: rest).count i = if i = val then (val :: rest.takeWhile (· = val)).length
      else (rest.dropWhile (· = val)).count i := by
  have hrun : rest.takeWhile (· = val) = List.replicate (rest.takeWhile (· = val)).length val := by
    rw [List.eq_replicate_iff]
    exact ⟨rfl, fun x hx => by simpa using List.mem_takeWhile_imp hx⟩
  have hcut : rest.count i = (rest.takeWhile (· = val)).count i + (rest.dropWhile (· = val)).count i := by
    rw [← List.count_append, List.takeWhile_append_dropWhile]
  split
  next heq =>
    subst heq
    have hafter : (rest.dropWhile (· = i)).count i = 0 := by
      rw [List.count_eq_zero]
      exact fun hmem => lt_irrefl i (lt_of_mem_dropWhile h i hmem)
    rw [List.count_cons_self, hcut, hafter, Nat.add_zero, List.length_cons]
    conv_lhs => rw [hrun, List.count_replicate_self]
  next hne =>
    have hzero : (rest.takeWhile (· = val)).count i = 0 := by
      rw [hrun, List.count_replicate, if_neg (by simpa using fun h => hne h.symm)]
    rw [List.count_cons_of_ne (Ne.symm hne), hcut, hzero, Nat.zero_add]

/-- What is left is in increasing order, and has the values that occur an odd number of times. -/
theorem collapseRuns_spec {l : List Nat} (h : l.Pairwise (· ≤ ·)) :
    (collapseRuns l).Pairwise (· < ·) ∧ ∀ i, i ∈ collapseRuns l ↔ l.count i % 2 = 1 := by
  fun_induction collapseRuns l with
  | case1 => simp
  | case2 val rest run hodd ih =>
    have hafter := (List.pairwise_cons.mp h).2.sublist (List.dropWhile_sublist (· = val))
    obtain ⟨hlt, hmem⟩ := ih hafter
    have hgt := lt_of_mem_dropWhile h
    constructor
    · refine List.pairwise_cons.mpr ⟨fun x hx => hgt x ?_, hlt⟩
      have hcount := (hmem x).mp hx
      exact List.count_pos_iff.mp (by omega)
    · intro i
      rw [List.mem_cons, count_run h]
      split
      next heq => exact ⟨fun _ => hodd, fun _ => .inl heq⟩
      next hne => simp [hne, hmem]
  | case3 val rest run heven ih =>
    have hafter := (List.pairwise_cons.mp h).2.sublist (List.dropWhile_sublist (· = val))
    obtain ⟨hlt, hmem⟩ := ih hafter
    refine ⟨hlt, fun i => ?_⟩
    rw [count_run h, hmem]
    split
    next heq =>
      subst heq
      have hzero : (rest.dropWhile (· = i)).count i = 0 := by
        rw [List.count_eq_zero]
        exact fun hi => lt_irrefl i (lt_of_mem_dropWhile h i hi)
      rw [hzero]
      exact ⟨fun h => absurd h (by decide), fun h => absurd h heven⟩
    next => rfl

theorem collapseRuns_insertionSort (g : List Nat) :
    collapseRuns (g.insertionSort (· ≤ ·)) = canonicalGroup g := by
  obtain ⟨hlt, hmem⟩ := collapseRuns_spec (List.pairwise_insertionSort (· ≤ ·) g)
  apply hlt.sortedLT.eq_of_mem_iff (sortedLT_canonicalGroup g)
  intro i
  rw [hmem, mem_canonicalGroup, (List.perm_insertionSort (· ≤ ·) g).count_eq]

namespace CompressedMatrix

variable (m : CompressedMatrix)

/-- One group of the loop of `canonicalize`: what stays of it is appended, and its end written. -/
def collapseGroup (st : List Nat × List Nat) (g : Nat) : Except Fault (List Nat × List Nat) := do
  let scratch ← m.readGroup g
  let newIdx := st.2 ++ collapseRuns (scratch.insertionSort (· ≤ ·))
  let newPtr ← writeAt st.1 (g + 1) (u32 newIdx.length)
  return (newPtr, newIdx)

def canonicalizeGroups : Except Fault CompressedMatrix := do
  let newPtr := List.replicate (m.numGroups + 1) 0
  let st ← if m.ptr.length = m.numGroups + 1 then
      (List.range m.numGroups).foldlM m.collapseGroup (newPtr, [])
    else .ok (newPtr, [])
  fromCompressed m.layout m.numRows m.numCols st.1 st.2

def toDense : Except Fault Tensor := do
  let dense := Tensor.zeros m.numRows m.numCols
  if m.numCols = 0 then return dense
  let entries ← m.walk
  entries.foldlM (fun dense e =>
    let p := m.layout.position e.2 e.1
    thrown (dense.mark p.1 p.2)) dense

/-! ## Canonical storage -/

/-- The checks of `from_csc` and `from_csr` accept a storage. -/
theorem fromCompressed_compressed (s : SparseBinaryMatrix) :
    fromCompressed s.layout s.numRows s.numCols s.compressed.ptr s.compressed.indices =
      .ok s.compressed := by
  have hrep := rep_compressed s
  have hgroups : s.layout.groupCount (u32 s.numRows) (u32 s.numCols) = s.compressed.numGroups := by
    rw [u32_of_lt s.rows_lt, u32_of_lt s.cols_lt]
    rfl
  have hbound : s.layout.indexBound (u32 s.numRows) (u32 s.numCols) = s.compressed.indexBound := by
    rw [u32_of_lt s.rows_lt, u32_of_lt s.cols_lt]
    rfl
  have hmono : ¬ ((List.range s.compressed.numGroups).any fun j =>
      s.compressed.ptr.getD (j + 1) 0 < s.compressed.ptr.getD j 0) = true := by
    simp only [List.any_eq_true, List.mem_range, decide_eq_true_eq, not_exists, not_and, not_lt]
    intro j hj
    have hlen := hrep.ptr_length
    rw [List.getD_eq_getElem _ _ (by omega), List.getD_eq_getElem _ _ (by omega)]
    exact List.pairwise_iff_getElem.mp hrep.ptr_mono j (j + 1) (by omega) (by omega) (by omega)
  have hnnz : ¬ uint32Max < s.compressed.indices.length := by
    have := s.nnz_lt
    rw [length_indices_compressed, uint32Max]
    omega
  have hlast : s.compressed.ptr.getLastD 0 = s.compressed.indices.length := by
    rw [List.getLastD_eq_getLast?, hrep.ptr_last]
    rfl
  have hhead : s.compressed.ptr.headD 0 = 0 := by
    rw [List.headD_eq_head?_getD, hrep.ptr_head]
    rfl
  have hidx : ¬ (s.compressed.indices.any fun i => s.compressed.indexBound ≤ i) = true := by
    simpa using hrep.index_lt
  simp only [fromCompressed, hgroups, hbound]
  rw [throwIf_of_not (by simpa using hrep.ptr_length), ok_bind, throwIf_of_not (by simpa using hhead),
    ok_bind, throwIf_of_not hmono, ok_bind, throwIf_of_not hnnz, ok_bind,
    throwIf_of_not (by simpa using hlast), ok_bind, throwIf_of_not hidx, ok_bind,
    u32_of_lt s.rows_lt, u32_of_lt s.cols_lt]
  rfl

theorem getD_canonicalize (s : SparseBinaryMatrix) {g : Nat} (hg : g < s.groups.length) :
    s.canonicalize.groups.getD g [] = canonicalGroup (s.groups.getD g []) := by
  simp [SparseBinaryMatrix.canonicalize, List.getD_eq_getElem?_getD, hg]

/-- One group of the loop on a storage. -/
theorem collapseGroup_compressed (s : SparseBinaryMatrix) {g : Nat} (hg : g < s.groups.length) :
    s.compressed.collapseGroup
        (nestedPtr s.canonicalize.groups g, (s.canonicalize.groups.take g).flatten) g =
      .ok (nestedPtr s.canonicalize.groups (g + 1), (s.canonicalize.groups.take (g + 1)).flatten) := by
  have hkept : g < s.canonicalize.groups.length := by
    rw [s.canonicalize.length_groups]
    exact s.length_groups ▸ hg
  have hflat : (s.canonicalize.groups.take g).flatten ++ canonicalGroup (s.groups.getD g []) =
      (s.canonicalize.groups.take (g + 1)).flatten := by
    rw [← getD_canonicalize s hg, flatten_take_succ hkept]
  have hend : (s.canonicalize.groups.take (g + 1)).flatten.length =
      start s.canonicalize.groups (g + 1) := (start_eq_length_flatten _ _).symm
  have hsmall : start s.canonicalize.groups (g + 1) < 2 ^ 32 := by
    refine lt_of_le_of_lt (start_le _ _) ?_
    rw [List.length_flatten]
    exact s.canonicalize.nnz_lt
  have hroom : g + 1 < (nestedPtr s.canonicalize.groups g).length := by
    simp only [nestedPtr, List.length_map, List.length_range]
    omega
  rw [collapseGroup, readGroup_compressed s hg, ok_bind, collapseRuns_insertionSort]
  simp only [hflat, hend, u32_of_lt hsmall, writeAt_of_lt hroom, nestedPtr_set, ok_bind]
  rfl

theorem canonicalizeGroups_compressed (s : SparseBinaryMatrix) :
    s.compressed.canonicalizeGroups = .ok s.canonicalize.compressed := by
  have hlen : s.compressed.ptr.length = s.compressed.numGroups + 1 := (rep_compressed s).ptr_length
  have hkept : s.canonicalize.groups.length = s.compressed.numGroups :=
    s.canonicalize.length_groups
  have hloop := foldlM_range_cases (P := fun _ => False) (n := s.compressed.numGroups)
    (f := s.compressed.collapseGroup)
    (s := fun g => (nestedPtr s.canonicalize.groups g, (s.canonicalize.groups.take g).flatten))
    fun g hg => .inl (collapseGroup_compressed s (numGroups_compressed s ▸ hg))
  rcases hloop with hok | ⟨_, hfalse, -⟩
  · rw [← hkept, nestedPtr_length, List.take_length, nestedPtr_zero, List.take_zero, List.flatten_nil,
      List.set_replicate_self] at hok
    rw [canonicalizeGroups, if_pos hlen, ← hkept, hok, ok_bind]
    exact fromCompressed_compressed s.canonicalize
  · exact hfalse.elim

/-- On a storage the loop does what `canonicalize` does with whole groups. -/
theorem canonicalize_eq_canonicalizeGroups (s : SparseBinaryMatrix) :
    s.compressed.canonicalize = s.compressed.canonicalizeGroups := by
  have hlen : s.compressed.ptr.length = s.compressed.numGroups + 1 := (rep_compressed s).ptr_length
  have hfit : 0 + (s.canonicalize.groups.map List.length).sum < 2 ^ 32 := by
    rw [Nat.zero_add]
    exact s.canonicalize.nnz_lt
  have hptr := scanl_u32 _ 0 hfit
  rw [canonicalizeGroups_compressed, canonicalize, if_pos hlen, mapM_readGroup_compressed, ok_bind]
  refine Eq.trans ?_ (fromCompressed_compressed s.canonicalize)
  exact congrArg (fun ptr => fromCompressed s.layout s.numRows s.numCols ptr
    s.canonicalize.groups.flatten) hptr

end CompressedMatrix

/-! ## Canonical matrices -/

namespace SparseBinaryMatrix

theorem count_group (s : SparseBinaryMatrix) (g i : Nat) :
    (s.groups.getD g []).count i = s.count (s.layout.position g i).1 (s.layout.position g i).2 := by
  unfold count SparseLayout.position
  cases s.layout <;> rfl

/-- Matrices with groups in increasing order are told apart by their entries. -/
theorem eq_of_entry {s t : SparseBinaryMatrix} (hlayout : s.layout = t.layout)
    (hrows : s.numRows = t.numRows) (hcols : s.numCols = t.numCols)
    (hs : ∀ g ∈ s.groups, g.Pairwise (· < ·)) (ht : ∀ g ∈ t.groups, g.Pairwise (· < ·))
    (h : ∀ r c, s.entry r c = t.entry r c) : s = t := by
  have hlen : s.groups.length = t.groups.length := by
    rw [s.length_groups, t.length_groups, hlayout, hrows, hcols]
  apply SparseBinaryMatrix.ext hlayout hrows hcols
  apply List.ext_getElem hlen
  intro g hg hg'
  have hs' := hs _ (List.getElem_mem hg)
  have ht' := ht _ (List.getElem_mem hg')
  -- an index occurs at most once, so its parity says whether it occurs
  have hmem : ∀ {l : List Nat}, l.Pairwise (· < ·) → ∀ i, i ∈ l ↔ l.count i % 2 = 1 := by
    intro l hl i
    have hone := List.nodup_iff_count_le_one.mp (hl.imp fun hab => Nat.ne_of_lt hab) i
    rw [← List.count_pos_iff]
    omega
  apply hs'.sortedLT.eq_of_mem_iff ht'.sortedLT
  intro i
  have hsg := s.count_group g i
  have htg := t.count_group g i
  rw [List.getD_eq_getElem _ _ hg] at hsg
  rw [List.getD_eq_getElem _ _ hg', ← hlayout] at htg
  have hentry := h (s.layout.position g i).1 (s.layout.position g i).2
  rw [entry, entry, decide_eq_decide] at hentry
  rw [hmem hs', hmem ht', hsg, htg, hentry]

theorem pairwise_lt_groups_canonicalize (s : SparseBinaryMatrix) :
    ∀ g ∈ s.canonicalize.groups, g.Pairwise (· < ·) := by
  intro g hg
  obtain ⟨g', -, rfl⟩ := List.mem_map.mp hg
  exact (sortedLT_canonicalGroup g').pairwise

/-- Canonical groups stay in increasing order when they are transposed. -/
theorem pairwise_lt_groups_toCsc (s : SparseBinaryMatrix) :
    ∀ g ∈ s.canonicalize.toCsc.groups, g.Pairwise (· < ·) := by
  intro g hg
  rw [groups_toCsc] at hg
  obtain ⟨c, hc, rfl⟩ := List.getElem_of_mem hg
  have h := s.pairwise_lt_canonicalize c
  rwa [List.getD_eq_getElem _ _ hc] at h

theorem pairwise_lt_groups_toCsr (s : SparseBinaryMatrix) :
    ∀ g ∈ s.canonicalize.toCsr.groups, g.Pairwise (· < ·) := by
  intro g hg
  rw [groups_toCsr] at hg
  exact s.pairwise_lt_canonicalize_rows hg

theorem entry_toCsc (s : SparseBinaryMatrix) (r c : Nat) : s.toCsc.entry r c = s.entry r c := by
  rw [entry, entry, CompressedMatrix.count_toCsc]

theorem entry_toCsr (s : SparseBinaryMatrix) (r c : Nat) : s.toCsr.entry r c = s.entry r c := by
  rw [entry, entry, CompressedMatrix.count_toCsr]

theorem canonicalize_of_increasing {s : SparseBinaryMatrix}
    (h : ∀ g ∈ s.groups, g.Pairwise (· < ·)) : s.canonicalize = s :=
  eq_of_entry rfl rfl rfl (pairwise_lt_groups_canonicalize s) h fun r c => entry_canonicalize s r c

theorem canonicalize_canonicalize (s : SparseBinaryMatrix) :
    s.canonicalize.canonicalize = s.canonicalize :=
  eq_of_entry rfl rfl rfl (pairwise_lt_groups_canonicalize _) (pairwise_lt_groups_canonicalize s)
    fun r c => entry_canonicalize _ r c

theorem canonicalize_toCsc (s : SparseBinaryMatrix) : s.toCsc.canonicalize = s.canonicalize.toCsc := by
  apply eq_of_entry (by simp) (by simp) (by simp) (pairwise_lt_groups_canonicalize _)
    (pairwise_lt_groups_toCsc s)
  intro r c
  rw [entry_canonicalize, entry_toCsc, entry_toCsc, entry_canonicalize]

theorem canonicalize_toCsr (s : SparseBinaryMatrix) : s.toCsr.canonicalize = s.canonicalize.toCsr := by
  apply eq_of_entry (by simp) (by simp) (by simp) (pairwise_lt_groups_canonicalize _)
    (pairwise_lt_groups_toCsr s)
  intro r c
  rw [entry_canonicalize, entry_toCsr, entry_toCsr, entry_canonicalize]

end SparseBinaryMatrix

namespace CompressedMatrix

/-! ## Dense matrices -/

theorem foldlM_mark {t : Tensor} (ht : t.shape.length = 2) {ps : List (Nat × Nat)}
    (h : ∀ p ∈ ps, p.1 < t.rows ∧ p.2 < t.cols) :
    ∃ t', ps.foldlM (fun t p => thrown (t.mark p.1 p.2)) t = .ok t' ∧ t'.shape = t.shape ∧
      ∀ i < t.rows, ∀ j < t.cols, t'.entry i j = if (i, j) ∈ ps then 1 else t.entry i j := by
  induction ps generalizing t with
  | nil => exact ⟨t, rfl, rfl, by simp⟩
  | cons p ps ih =>
    obtain ⟨⟨hr, hc⟩, hrest⟩ := List.forall_mem_cons.mp h
    obtain ⟨t₁, hmark, hshape, hentry⟩ := Tensor.exists_mark ht hr hc
    have hrows : t₁.rows = t.rows := by rw [Tensor.rows, Tensor.rows, hshape]
    have hcols : t₁.cols = t.cols := by rw [Tensor.cols, Tensor.cols, hshape]
    obtain ⟨t', hfold, hshape', hentry'⟩ := ih (t := t₁) (by rw [hshape, ht]) (by rwa [hrows, hcols])
    refine ⟨t', ?_, hshape'.trans hshape, fun i hi j hj => ?_⟩
    · rw [List.foldlM_cons, thrown_eq_ok.mpr hmark, ok_bind]
      exact hfold
    · rw [hentry' i (hrows ▸ hi) j (hcols ▸ hj), hentry i hi j hj]
      by_cases hmem : (i, j) ∈ ps
      · simp [hmem]
      · by_cases hp : (i, j) = p
        · subst hp
          simp [hmem]
        · have hne : ¬ (i = p.1 ∧ j = p.2) := fun heq => hp (Prod.ext heq.1 heq.2)
          rw [if_neg hmem, if_neg hne, if_neg]
          simp [hp, hmem]

/-- `to_dense` sets the entries that the matrix lists. -/
theorem toDense_compressed (s : SparseBinaryMatrix) :
    ∃ t, s.compressed.toDense = .ok t ∧ t.shape = [s.numRows, s.numCols] ∧
      ∀ r < s.numRows, ∀ c < s.numCols, t.entry r c = if s.count r c ≠ 0 then 1 else 0 := by
  by_cases hcols : s.numCols = 0
  · refine ⟨.zeros s.numRows s.numCols, if_pos hcols, rfl, fun r _ c hc => ?_⟩
    omega
  have hfold : s.compressed.toDense =
      (nestedPositions s.layout s.groups).foldlM (fun t p => thrown (t.mark p.1 p.2))
        (Tensor.zeros s.numRows s.numCols) := by
    have hpositions : nestedPositions s.layout s.groups =
        (groupEntries s.groups).map fun e => s.layout.position e.2 e.1 := by
      rw [nestedPositions, groupEntries, List.map_flatMap]
      apply List.flatMap_congr
      intro p _
      rw [List.map_map]
      rfl
    rw [toDense, walk_compressed, ok_bind, hpositions, List.foldlM_map]
    exact if_neg hcols
  have hcount : ∀ r c, (r, c) ∈ nestedPositions s.layout s.groups ↔ s.count r c ≠ 0 := by
    intro r c
    rw [← count_positions_compressed, positions_compressed, ← List.count_pos_iff, Nat.pos_iff_ne_zero]
  have hbounds : ∀ p ∈ nestedPositions s.layout s.groups, p.1 < s.numRows ∧ p.2 < s.numCols := by
    rintro ⟨r, c⟩ hp
    have hne := (hcount r c).mp hp
    constructor
    · by_contra hr
      exact hne (s.count_eq_zero_of_row_le c (Nat.le_of_not_lt hr))
    · by_contra hc
      exact hne (s.count_eq_zero_of_col_le r (Nat.le_of_not_lt hc))
  obtain ⟨t, ht, hshape, hentry⟩ := foldlM_mark (t := .zeros s.numRows s.numCols) rfl hbounds
  refine ⟨t, hfold.trans ht, hshape, fun r hr c hc => ?_⟩
  rw [hentry r hr c hc]
  by_cases hmem : s.count r c ≠ 0
  · rw [if_pos ((hcount r c).mpr hmem), if_pos hmem]
  · rw [if_neg (fun h => hmem ((hcount r c).mp h)), if_neg hmem]
    exact Tensor.entry_ofEntries _ _ _ hr hc

/-- A dense matrix lists each element that is set once. -/
theorem mem_denseEntries_iff {t : Tensor} {layout : SparseLayout} {g i : Nat} :
    (g, i) ∈ denseEntries t layout t.rows t.cols ↔ (layout.position g i).1 < t.rows ∧
      (layout.position g i).2 < t.cols ∧ t.entry (layout.position g i).1 (layout.position g i).2 ≠ 0 := by
  simp only [denseEntries, List.mem_flatMap, List.mem_map, List.mem_filter, List.mem_range,
    decide_eq_true_eq, SparseLayout.position, Tensor.entry]
  cases layout with
  | csc =>
    constructor
    · rintro ⟨r, hr, c, ⟨hc, hne⟩, heq⟩
      cases heq
      exact ⟨hr, hc, hne⟩
    · rintro ⟨hr, hc, hne⟩
      exact ⟨i, hr, g, ⟨hc, hne⟩, rfl⟩
  | csr =>
    constructor
    · rintro ⟨r, hr, c, ⟨hc, hne⟩, heq⟩
      cases heq
      exact ⟨hr, hc, hne⟩
    · rintro ⟨hr, hc, hne⟩
      exact ⟨g, hr, i, ⟨hc, hne⟩, rfl⟩

/-- What is stored of a binary matrix is the matrix. -/
theorem toDense_fromDense {t : Tensor} {layout : SparseLayout} {m : CompressedMatrix}
    (h : ∀ x ∈ t.data, x = 0 ∨ x = 1) (hm : fromDense t layout = .ok m) : m.toDense = .ok t := by
  have hrank : t.shape.length = 2 := by
    simp only [fromDense, bind_eq_ok, throwIf_eq_ok, not_not] at hm
    exact hm.choose_spec.1
  rcases fromDense_cases t layout with ⟨s, hs, rfl, hrows, hcols, hgroups⟩ | ⟨e, he⟩
  · obtain rfl := Except.ok.inj (hm.symm.trans hs)
    have hrows' : s.numRows = t.rows := hrows
    have hcols' : s.numCols = t.cols := hcols
    obtain ⟨t', ht', hshape, hentry⟩ := toDense_compressed s
    rw [ht']
    congr 1
    have hrows'' : t'.rows = t.rows := by rw [Tensor.rows, hshape, ← hrows']; rfl
    have hcols'' : t'.cols = t.cols := by rw [Tensor.cols, hshape, ← hcols']; rfl
    apply Tensor.eq_of_entry (by rw [hshape]; rfl) hrank hrows'' hcols''
    intro r hr c hc
    rw [hentry r (hrows' ▸ hr) c (hcols' ▸ hc)]
    -- the group and the index of the entry
    obtain ⟨g, i, hg, hpos⟩ : ∃ g i, g < s.layout.groupCount s.numRows s.numCols ∧
        s.layout.position g i = (r, c) := by
      cases s.layout with
      | csc => exact ⟨c, r, hcols' ▸ hc, rfl⟩
      | csr => exact ⟨r, c, hrows' ▸ hr, rfl⟩
    have hcount := s.count_group g i
    rw [hpos] at hcount
    have hmem := @mem_denseEntries_iff t s.layout g i
    rw [hpos] at hmem
    rw [hgroups, getD_buckets _ hg, count_bucket, hrows', hcols'] at hcount
    have hne : s.count r c ≠ 0 ↔ t.entry r c ≠ 0 := by
      rw [← hcount, ← Nat.pos_iff_ne_zero, List.count_pos_iff, hmem]
      exact ⟨fun h => h.2.2, fun h => ⟨hr, hc, h⟩⟩
    rcases Tensor.entry_cases h r c with h0 | h1
    · rw [h0, if_neg fun hc => hne.mp hc h0]
    · rw [h1, if_pos (hne.mpr (by rw [h1]; decide))]
  · rw [hm] at he
    cases he

/-! ## The normal form -/

/-- The representation, with every field within its type. -/
structure Valid (m : CompressedMatrix) : Prop extends Rep m where
  rows_lt : m.numRows < 2 ^ 32
  cols_lt : m.numCols < 2 ^ 32
  ptr_lt : ∀ p ∈ m.ptr, p < 2 ^ 32

/-- `sparse_binary_matrix()`, which has no pointer array. -/
def blank : CompressedMatrix := ⟨.csc, 0, 0, [], []⟩

/-- The arrays of a matrix, or a default-constructed one. -/
def Stores (m : CompressedMatrix) (s : SparseBinaryMatrix) : Prop :=
  m = s.compressed ∨ m = blank ∧ s = .empty

theorem Valid.stores {m : CompressedMatrix} (h : Valid m) :
    ∃ s : SparseBinaryMatrix, m = s.compressed := by
  have hlast := h.ptr_last
  have hnnz : m.indices.length < 2 ^ 32 := h.ptr_lt _ (List.mem_of_getLast? hlast)
  have hmono : ∀ j < m.layout.groupCount m.numRows m.numCols, m.ptr.getD j 0 ≤ m.ptr.getD (j + 1) 0 := by
    intro j hj
    have hlen : m.ptr.length = m.layout.groupCount m.numRows m.numCols + 1 := h.ptr_length
    rw [List.getD_eq_getElem _ _ (by omega), List.getD_eq_getElem _ _ (by omega)]
    exact List.pairwise_iff_getElem.mp h.ptr_mono j (j + 1) (by omega) (by omega) (by omega)
  exact exists_compressed h.rows_lt h.cols_lt h.ptr_length
    (by rw [List.headD_eq_head?_getD, h.ptr_head]; rfl) hmono hnnz
    (by rw [List.getLastD_eq_getLast?, hlast]; rfl) h.index_lt

section

variable {m m' : CompressedMatrix} {s : SparseBinaryMatrix}

/-! ## Matrices that are stored -/

theorem Stores.canonicalize (h : Stores m s) :
    m.canonicalizeGroups = .ok s.canonicalize.compressed := by
  rcases h with rfl | ⟨rfl, rfl⟩
  · exact canonicalizeGroups_compressed s
  · rfl

theorem Stores.count_positions (h : Stores m s) (r c : Nat) : m.positions.count (r, c) = s.count r c := by
  rcases h with rfl | ⟨rfl, rfl⟩
  · exact count_positions_compressed s r c
  · rfl

theorem Stores.toCsc (h : Stores m s) : ∃ a, m.toCsc = .ok a ∧ Stores a s.toCsc := by
  rcases h with rfl | ⟨rfl, rfl⟩
  · exact ⟨_, toCsc_compressed s, .inl rfl⟩
  · exact ⟨blank, rfl, .inr ⟨rfl, rfl⟩⟩

theorem Stores.toCsr (h : Stores m s) : ∃ a, m.toCsr = .ok a ∧ Stores a s.toCsr := by
  rcases h with rfl | ⟨rfl, rfl⟩
  · exact ⟨_, toCsr_compressed s, .inl rfl⟩
  · exact ⟨_, toCsr_compressed .empty, .inl rfl⟩

theorem Stores.layout (h : Stores m s) :
    m.layout = s.layout ∧ m.numRows = s.numRows ∧ m.numCols = s.numCols := by
  rcases h with rfl | ⟨rfl, rfl⟩ <;> exact ⟨rfl, rfl, rfl⟩

/-- `m'` is the normal form of `m` over GF(2). -/
structure NormalForm (m m' : CompressedMatrix) : Prop where
  shape : m'.layout = m.layout ∧ m'.numRows = m.numRows ∧ m'.numCols = m.numCols
  idempotent : m'.canonicalizeGroups = .ok m'
  increasing : ∀ g < m'.numGroups, ∃ group, m'.readGroup g = .ok group ∧ group.Pairwise (· < ·)
  odd : ∀ r c, (r, c) ∈ m'.positions ↔ m.positions.count (r, c) % 2 = 1
  toCsc : ∃ a b, m.toCsc = .ok a ∧ m'.toCsc = .ok b ∧ a.canonicalizeGroups = .ok b
  toCsr : ∃ a b, m.toCsr = .ok a ∧ m'.toCsr = .ok b ∧ a.canonicalizeGroups = .ok b
  unique : ∀ n, n = blank ∨ Valid n → n.layout = m.layout → n.numRows = m.numRows →
    n.numCols = m.numCols → (n.canonicalizeGroups = .ok m' ↔
      ∀ r c, n.positions.count (r, c) % 2 = m.positions.count (r, c) % 2)

theorem exists_stores (h : m = blank ∨ Valid m) : ∃ s, Stores m s := by
  rcases h with rfl | h
  · exact ⟨.empty, .inr ⟨rfl, rfl⟩⟩
  · obtain ⟨s, hs⟩ := h.stores
    exact ⟨s, .inl hs⟩

/-! ## Every matrix has one -/

theorem Stores.normalForm (h : Stores m s) : NormalForm m s.canonicalize.compressed where
  shape := by
    obtain ⟨hl, hr, hc⟩ := h.layout
    exact ⟨hl.symm, hr.symm, hc.symm⟩
  idempotent := by rw [canonicalizeGroups_compressed, s.canonicalize_canonicalize]
  increasing := by
    intro g hg
    rw [numGroups_compressed] at hg
    refine ⟨_, readGroup_compressed _ hg, ?_⟩
    rw [List.getD_eq_getElem _ _ hg]
    exact s.pairwise_lt_groups_canonicalize _ (List.getElem_mem hg)
  -- an element is stored once where it was listed an odd number of times
  odd := by
    intro r c
    rw [h.count_positions, ← List.count_pos_iff, count_positions_compressed, s.count_canonicalize]
    omega
  toCsc := by
    obtain ⟨a, ha, hstores⟩ := h.toCsc
    refine ⟨a, _, ha, toCsc_compressed _, ?_⟩
    rw [hstores.canonicalize, s.canonicalize_toCsc]
  toCsr := by
    obtain ⟨a, ha, hstores⟩ := h.toCsr
    refine ⟨a, _, ha, toCsr_compressed _, ?_⟩
    rw [hstores.canonicalize, s.canonicalize_toCsr]
  -- two normal forms of one layout with the same elements are stored alike
  unique := by
    intro n hn hlayout hrows hcols
    obtain ⟨t, ht⟩ := exists_stores hn
    rw [ht.canonicalize, Except.ok.injEq]
    obtain ⟨hl, hr, hc⟩ := h.layout
    obtain ⟨hl', hr', hc'⟩ := ht.layout
    constructor
    · intro heq r c
      have hcount := congrArg (fun m => m.positions.count (r, c)) heq
      simp only [count_positions_compressed, SparseBinaryMatrix.count_canonicalize] at hcount
      rw [ht.count_positions, h.count_positions, hcount]
    · intro hparity
      congr 1
      apply SparseBinaryMatrix.eq_of_entry (s := t.canonicalize) (t := s.canonicalize) (hl'.symm.trans (hlayout.trans hl))
        (hr'.symm.trans (hrows.trans hr)) (hc'.symm.trans (hcols.trans hc))
        t.pairwise_lt_groups_canonicalize s.pairwise_lt_groups_canonicalize
      intro r c
      have h' := hparity r c
      rw [ht.count_positions, h.count_positions] at h'
      rw [SparseBinaryMatrix.entry_canonicalize, SparseBinaryMatrix.entry_canonicalize,
        SparseBinaryMatrix.entry, SparseBinaryMatrix.entry, h']

end

/-- `canonicalize` is a normal form over GF(2), and a binary matrix is what its storage is made dense
to. -/
theorem canonicalize_normalForm :
    (∀ m : CompressedMatrix, m = blank ∨ Valid m → ∃ m', m.canonicalizeGroups = .ok m' ∧ NormalForm m m') ∧
      ∀ (t : Tensor) (layout : SparseLayout) (m : CompressedMatrix), (∀ x ∈ t.data, x = 0 ∨ x = 1) →
        fromDense t layout = .ok m → m.toDense = .ok t := by
  constructor
  · intro m hm
    obtain ⟨s, hs⟩ := exists_stores hm
    exact ⟨_, hs.canonicalize, hs.normalForm⟩
  · intro t layout m h hm
    exact toDense_fromDense h hm

/-- Two columns with repeats, out of order. -/
theorem canonicalize_normalForm_repeats :
    (∃ m', (⟨.csc, 3, 2, [0, 3, 5], [2, 0, 2, 1, 1]⟩ : CompressedMatrix).canonicalizeGroups = .ok m' ∧
      (0, 0) ∈ m'.positions ∧ (2, 0) ∉ m'.positions ∧ (1, 1) ∉ m'.positions) ∧
    ∃ m, fromDense ⟨[2, 2], [1, 0, 1, 1], rfl⟩ .csc = .ok m ∧
      m.toDense = .ok ⟨[2, 2], [1, 0, 1, 1], rfl⟩ := by
  constructor
  · obtain ⟨m', hm', hform⟩ := canonicalize_normalForm.1 ⟨.csc, 3, 2, [0, 3, 5], [2, 0, 2, 1, 1]⟩
      (.inr ⟨⟨by decide, by decide, by decide, by decide, by decide⟩, by decide, by decide, by decide⟩)
    exact ⟨m', hm', (hform.odd 0 0).mpr (by decide), fun h => absurd ((hform.odd 2 0).mp h) (by decide),
      fun h => absurd ((hform.odd 1 1).mp h) (by decide)⟩
  · obtain ⟨m, hm⟩ := exists_eq_ok
      (show (fromDense ⟨[2, 2], [1, 0, 1, 1], rfl⟩ .csc).isOk = true by decide +kernel)
    exact ⟨m, hm, canonicalize_normalForm.2 _ _ _ (by simp) hm⟩

end CompressedMatrix

end CudaqQec
