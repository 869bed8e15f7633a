import CudaqQec.Sparse.Matrix
import Mathlib.Data.List.GetD

/-!
# Sparse matrices by their entries

The layout a matrix happens to be stored in never matters to the code that reads it through
`toNestedCsc` or `toNestedCsr`: both list each entry as often as the matrix does
(`count_toNestedCsc`, `count_toNestedCsr`). Over GF(2) only the parity is left, and `canonicalize`
is the normal form of that: matrices of one shape and layout with the same entries have the same
canonical form (`canonicalize_eq_of_entry`).
-/

namespace CudaqQec

open Checked

/-! ## Canonical groups -/

theorem mem_canonicalGroup {g : List Nat} {i : Nat} :
    i ∈ canonicalGroup g ↔ g.count i % 2 = 1 := by
  simp only [canonicalGroup, List.mem_filter, List.mem_dedup, List.mem_insertionSort,
    decide_eq_true_eq, and_iff_right_iff_imp]
  intro h
  by_contra hn
  rw [List.count_eq_zero_of_not_mem hn] at h
  simp at h

theorem nodup_canonicalGroup (g : List Nat) : (canonicalGroup g).Nodup :=
  (List.nodup_dedup _).filter _

theorem sortedLT_canonicalGroup (g : List Nat) : (canonicalGroup g).SortedLT := by
  have hsub : (canonicalGroup g).Sublist (g.insertionSort (· ≤ ·)) :=
    List.filter_sublist.trans (List.dedup_sublist _)
  have hle : (canonicalGroup g).Pairwise (· ≤ ·) :=
    (List.pairwise_insertionSort (· ≤ ·) g).sublist hsub
  have hlt : (canonicalGroup g).Pairwise (· < ·) :=
    (hle.and (nodup_canonicalGroup g)).imp fun h => lt_of_le_of_ne h.1 h.2
  exact hlt.sortedLT

theorem count_canonicalGroup (g : List Nat) (i : Nat) :
    (canonicalGroup g).count i = g.count i % 2 := by
  rcases Nat.mod_two_eq_zero_or_one (g.count i) with h | h
  · rw [h, List.count_eq_zero_of_not_mem]
    rw [mem_canonicalGroup]
    omega
  · rw [h, List.count_eq_one_of_mem (nodup_canonicalGroup g) (mem_canonicalGroup.mpr h)]

theorem canonicalGroup_eq_of_parity {g g' : List Nat}
    (h : ∀ i, g.count i % 2 = g'.count i % 2) : canonicalGroup g = canonicalGroup g' := by
  apply (sortedLT_canonicalGroup g).eq_of_mem_iff (sortedLT_canonicalGroup g')
  intro i
  rw [mem_canonicalGroup, mem_canonicalGroup, h i]

namespace SparseBinaryMatrix

/-! ## What the constructors return -/

/-- The pointer array of fewer than `2 ^ 32 - 1` groups has the size it needs. -/
theorem u32_succ_ne_zero {n : Nat} (h : n < uint32Max) : u32 (n + 1) ≠ 0 := by
  rw [u32_of_lt (by unfold uint32Max at h; omega)]
  exact Nat.succ_ne_zero n

theorem lt_uint32Max_of_u32_succ {n : Nat} (hn : n < 2 ^ 32) (h : u32 (n + 1) ≠ 0) :
    n < uint32Max := by
  by_contra hle
  have hmax : n = uint32Max := by unfold uint32Max at hle ⊢; omega
  exact h (by rw [hmax]; decide)

/-- `from_nested_csc` returns the matrix that stores its groups, when there is one and its pointer
array has room for the first pointer. -/
theorem fromNestedCsc_eq_ok {r c : Nat} {nested : List (List Nat)} {m : SparseBinaryMatrix} :
    fromNestedCsc r c nested = .ok m ↔ m.numCols < uint32Max ∧
      m.layout = .csc ∧ m.numRows = u32 r ∧ m.numCols = u32 c ∧ m.groups = nested := by
  constructor
  · intro h
    unfold fromNestedCsc fromNested at h
    split_ifs at h with _ hptr
    cases h
    exact ⟨lt_uint32Max_of_u32_succ (u32_lt c) hptr, rfl, rfl, rfl, rfl⟩
  · obtain ⟨l, nr, nc, gs, h1, h2, h3, h4, h5⟩ := m
    rintro ⟨hmax, rfl, rfl, rfl, rfl⟩
    have hptr : u32 (SparseLayout.csc.groupCount (u32 r) (u32 c) + 1) ≠ 0 := u32_succ_ne_zero hmax
    unfold fromNestedCsc fromNested
    rw [dif_pos h3, if_neg hptr, dif_pos h5, dif_pos h4]

theorem fromNestedCsr_eq_ok {r c : Nat} {nested : List (List Nat)} {m : SparseBinaryMatrix} :
    fromNestedCsr r c nested = .ok m ↔ m.numRows < uint32Max ∧
      m.layout = .csr ∧ m.numRows = u32 r ∧ m.numCols = u32 c ∧ m.groups = nested := by
  constructor
  · intro h
    unfold fromNestedCsr fromNested at h
    split_ifs at h with _ hptr
    cases h
    exact ⟨lt_uint32Max_of_u32_succ (u32_lt r) hptr, rfl, rfl, rfl, rfl⟩
  · obtain ⟨l, nr, nc, gs, h1, h2, h3, h4, h5⟩ := m
    rintro ⟨hmax, rfl, rfl, rfl, rfl⟩
    have hptr : u32 (SparseLayout.csr.groupCount (u32 r) (u32 c) + 1) ≠ 0 := u32_succ_ne_zero hmax
    unfold fromNestedCsr fromNested
    rw [dif_pos h3, if_neg hptr, dif_pos h5, dif_pos h4]

/-- With `2 ^ 32 - 1` groups there is no pointer array to write to. -/
theorem fromNestedCsc_outOfBounds {r c : Nat} {nested : List (List Nat)} (hc : u32 c = uint32Max)
    (hlen : nested.length = u32 c) : fromNestedCsc r c nested = .error .outOfBounds := by
  have hlen' : nested.length = SparseLayout.csc.groupCount (u32 r) (u32 c) := hlen
  have hptr : u32 (SparseLayout.csc.groupCount (u32 r) (u32 c) + 1) = 0 := by
    show u32 (u32 c + 1) = 0
    rw [hc]
    decide
  unfold fromNestedCsc fromNested
  rw [dif_pos hlen', if_pos hptr]

/-- The checks of `from_nested_csc`, as the conditions under which it returns. -/
theorem exists_fromNestedCsc {r c : Nat} {nested : List (List Nat)} (hr : r < 2 ^ 32)
    (hc : c < uint32Max) (hlen : nested.length = c) (hnnz : storedCount nested < 2 ^ 32)
    (hidx : ∀ g ∈ nested, ∀ i ∈ g, i < r) :
    ∃ m, fromNestedCsc r c nested = .ok m := by
  have hc' := lt_two_pow_of_lt_uint32Max hc
  exact ⟨⟨.csc, r, c, nested, hr, hc', hlen, hidx, hnnz⟩,
    fromNestedCsc_eq_ok.mpr ⟨hc, rfl, (u32_of_lt hr).symm, (u32_of_lt hc').symm, rfl⟩⟩

theorem exists_fromNestedCsr {r c : Nat} {nested : List (List Nat)} (hr : r < uint32Max)
    (hc : c < 2 ^ 32) (hlen : nested.length = r) (hnnz : storedCount nested < 2 ^ 32)
    (hidx : ∀ g ∈ nested, ∀ i ∈ g, i < c) :
    ∃ m, fromNestedCsr r c nested = .ok m := by
  have hr' := lt_two_pow_of_lt_uint32Max hr
  exact ⟨⟨.csr, r, c, nested, hr', hc, hlen, hidx, hnnz⟩,
    fromNestedCsr_eq_ok.mpr ⟨hr, rfl, (u32_of_lt hr').symm, (u32_of_lt hc).symm, rfl⟩⟩

/-! ## Entries through the nested forms -/

variable (m : SparseBinaryMatrix)

theorem count_toNestedCsc (r c : Nat) : (m.toNestedCsc.getD c []).count r = m.count r c := by
  unfold toNestedCsc count
  cases hl : m.layout with
  | csc => rfl
  | csr =>
    by_cases hc : c < m.numCols
    · exact count_transposeGroups _ _ _ _ hc
    · have hz : (transposeGroups m.numCols m.groups).getD c [] = [] := by
        rw [transposeGroups, getD_map_range, if_neg hc]
      rw [hz, List.count_nil]
      symm
      apply List.count_eq_zero_of_not_mem
      intro hmem
      exact hc (m.index_lt_csr hl _ (getD_mem hmem) _ hmem)

theorem count_toNestedCsr (r c : Nat) : (m.toNestedCsr.getD r []).count c = m.count r c := by
  unfold toNestedCsr count
  cases hl : m.layout with
  | csr => rfl
  | csc =>
    by_cases hr : r < m.numRows
    · exact count_transposeGroups _ _ _ _ hr
    · have hz : (transposeGroups m.numRows m.groups).getD r [] = [] := by
        rw [transposeGroups, getD_map_range, if_neg hr]
      rw [hz, List.count_nil]
      symm
      apply List.count_eq_zero_of_not_mem
      intro hmem
      exact hr (m.index_lt_csc hl _ (getD_mem hmem) _ hmem)

@[simp] theorem length_toNestedCsc : m.toNestedCsc.length = m.numCols := by
  unfold toNestedCsc
  cases hl : m.layout with
  | csc => exact m.length_groups_csc hl
  | csr => exact length_transposeGroups _ _

@[simp] theorem length_toNestedCsr : m.toNestedCsr.length = m.numRows := by
  unfold toNestedCsr
  cases hl : m.layout with
  | csc => exact length_transposeGroups _ _
  | csr => exact m.length_groups_csr hl

theorem storedCount_toNestedCsc : storedCount m.toNestedCsc = m.numNnz := by
  unfold toNestedCsc numNnz
  cases hl : m.layout with
  | csc => rfl
  | csr => exact storedCount_transposeGroups _ _ (m.index_lt_csr hl)

theorem storedCount_toNestedCsr : storedCount m.toNestedCsr = m.numNnz := by
  unfold toNestedCsr numNnz
  cases hl : m.layout with
  | csc => exact storedCount_transposeGroups _ _ (m.index_lt_csc hl)
  | csr => rfl

theorem mem_toNestedCsc_lt {g : List Nat} (hg : g ∈ m.toNestedCsc) {r : Nat} (hr : r ∈ g) :
    r < m.numRows := by
  unfold toNestedCsc at hg
  cases hl : m.layout with
  | csc => rw [hl] at hg; exact m.index_lt_csc hl g hg r hr
  | csr => rw [hl] at hg; exact m.length_groups_csr hl ▸ mem_transposeGroups_lt hg hr

theorem mem_toNestedCsr_lt {g : List Nat} (hg : g ∈ m.toNestedCsr) {c : Nat} (hc : c ∈ g) :
    c < m.numCols := by
  unfold toNestedCsr at hg
  cases hl : m.layout with
  | csc => rw [hl] at hg; exact m.length_groups_csc hl ▸ mem_transposeGroups_lt hg hc
  | csr => rw [hl] at hg; exact m.index_lt_csr hl g hg c hc

theorem count_eq_zero_of_row_le {r : Nat} (c : Nat) (h : m.numRows ≤ r) : m.count r c = 0 := by
  rw [← count_toNestedCsr, List.getD_eq_getElem?_getD, List.getElem?_eq_none (by simpa using h)]
  rfl

theorem count_eq_zero_of_col_le (r : Nat) {c : Nat} (h : m.numCols ≤ c) : m.count r c = 0 := by
  rw [← count_toNestedCsc, List.getD_eq_getElem?_getD, List.getElem?_eq_none (by simpa using h)]
  rfl

theorem entry_eq_false_of_row_le {r : Nat} (c : Nat) (h : m.numRows ≤ r) : m.entry r c = false := by
  simp [entry, count_eq_zero_of_row_le m c h]

theorem entry_eq_false_of_col_le (r : Nat) {c : Nat} (h : m.numCols ≤ c) : m.entry r c = false := by
  simp [entry, count_eq_zero_of_col_le m r h]

/-- Converting the layout first lists the same columns. -/
theorem toNestedCsc_toCsc : m.toCsc.toNestedCsc = m.toNestedCsc := by
  unfold toCsc
  split
  · rfl
  · next h => simp [toNestedCsc, h]

theorem groups_toCsc : m.toCsc.groups = m.toNestedCsc := by
  unfold toCsc
  split
  · next h => simp [toNestedCsc, h]
  · next h => simp [toNestedCsc, h]

theorem toNestedCsr_toCsr : m.toCsr.toNestedCsr = m.toNestedCsr := by
  unfold toCsr
  split
  · rfl
  · next h => simp [toNestedCsr, h]

theorem groups_toCsr : m.toCsr.groups = m.toNestedCsr := by
  unfold toCsr
  split
  · next h => simp [toNestedCsr, h]
  · next h => simp [toNestedCsr, h]

/-! ## The canonical form -/

theorem count_canonicalize (r c : Nat) : m.canonicalize.count r c = m.count r c % 2 := by
  cases hl : m.layout with
  | csc =>
    simp only [count, canonicalize, hl, List.getD_eq_getElem?_getD, List.getElem?_map]
    cases m.groups[c]? with
    | none => simp
    | some g => simpa using count_canonicalGroup g r
  | csr =>
    simp only [count, canonicalize, hl, List.getD_eq_getElem?_getD, List.getElem?_map]
    cases m.groups[r]? with
    | none => simp
    | some g => simpa using count_canonicalGroup g c

@[simp] theorem entry_canonicalize (r c : Nat) : m.canonicalize.entry r c = m.entry r c := by
  simp [entry, count_canonicalize]

@[simp] theorem canonicalize_numRows : m.canonicalize.numRows = m.numRows := rfl
@[simp] theorem canonicalize_numCols : m.canonicalize.numCols = m.numCols := rfl
@[simp] theorem canonicalize_layout : m.canonicalize.layout = m.layout := rfl

@[simp] theorem toCsc_layout : m.toCsc.layout = .csc := by
  unfold toCsc
  split
  · assumption
  · rfl

@[simp] theorem toCsc_numRows : m.toCsc.numRows = m.numRows := by
  unfold toCsc
  split <;> rfl

@[simp] theorem toCsc_numCols : m.toCsc.numCols = m.numCols := by
  unfold toCsc
  split <;> rfl

@[simp] theorem toCsr_layout : m.toCsr.layout = .csr := by
  unfold toCsr
  split
  · assumption
  · rfl

@[simp] theorem toCsr_numRows : m.toCsr.numRows = m.numRows := by
  unfold toCsr
  split <;> rfl

@[simp] theorem toCsr_numCols : m.toCsr.numCols = m.numCols := by
  unfold toCsr
  split <;> rfl

/-- Transposing groups without repeats lists each column's rows in increasing order. -/
theorem pairwise_lt_transposeGroups {n : Nat} {groups : List (List Nat)}
    (h : ∀ g ∈ groups, g.Nodup) {t : List Nat} (ht : t ∈ transposeGroups n groups) :
    t.Pairwise (· < ·) := by
  obtain ⟨j, -, rfl⟩ := List.mem_map.mp ht
  rw [List.pairwise_flatMap]
  constructor
  · rintro ⟨g, i⟩ hg
    have hle := List.nodup_iff_count_le_one.mp (h g (List.fst_mem_of_mem_zipIdx hg)) j
    rw [List.pairwise_replicate]
    exact .inl hle
  · have hidx : (groups.zipIdx.map Prod.snd).Pairwise (· < ·) := by
      rw [List.zipIdx_map_snd]
      exact List.pairwise_lt_range'
    refine (List.pairwise_map.mp hidx).imp fun hlt x hx y hy => ?_
    rw [List.eq_of_mem_replicate hx, List.eq_of_mem_replicate hy]
    exact hlt

/-- The columns of a canonical matrix list their rows in increasing order, whichever way the matrix
was compressed. -/
theorem pairwise_lt_canonicalize (c : Nat) :
    (m.canonicalize.toNestedCsc.getD c []).Pairwise (· < ·) := by
  by_cases hc : c < m.canonicalize.toNestedCsc.length
  · rw [List.getD_eq_getElem _ _ hc]
    have hmem := List.getElem_mem hc
    revert hmem
    generalize m.canonicalize.toNestedCsc[c] = g
    intro hmem
    unfold toNestedCsc at hmem
    split at hmem
    · obtain ⟨g', -, rfl⟩ := List.mem_map.mp hmem
      exact (sortedLT_canonicalGroup g').pairwise
    · refine pairwise_lt_transposeGroups (fun g hg => ?_) hmem
      obtain ⟨g', -, rfl⟩ := List.mem_map.mp hg
      exact nodup_canonicalGroup g'
  · rw [getD_of_length_le (by omega)]
    exact .nil

/-- Nor does it matter for the rows. -/
theorem pairwise_lt_canonicalize_rows {g : List Nat} (h : g ∈ m.canonicalize.toNestedCsr) :
    g.Pairwise (· < ·) := by
  unfold toNestedCsr at h
  split at h
  · obtain ⟨g', -, rfl⟩ := List.mem_map.mp h
    exact (sortedLT_canonicalGroup g').pairwise
  · refine pairwise_lt_transposeGroups (fun g hg => ?_) h
    obtain ⟨g', -, rfl⟩ := List.mem_map.mp hg
    exact nodup_canonicalGroup g'

/-- Two column-compressed matrices of one shape with the same entries have one canonical form. -/
theorem canonicalize_eq_of_entry {m n : SparseBinaryMatrix} (hm : m.layout = .csc)
    (hn : n.layout = .csc) (hr : m.numRows = n.numRows) (hc : m.numCols = n.numCols)
    (h : ∀ r < m.numRows, ∀ c < m.numCols, m.entry r c = n.entry r c) :
    m.canonicalize = n.canonicalize := by
  have hlen : m.groups.length = n.groups.length := by
    rw [m.length_groups_csc hm, n.length_groups_csc hn, hc]
  apply SparseBinaryMatrix.ext
  · exact hm.trans hn.symm
  · exact hr
  · exact hc
  apply List.ext_getElem (by simpa [canonicalize] using hlen)
  intro c hcm hcn
  have hcm' : c < m.groups.length := by simpa [canonicalize] using hcm
  have hcn' : c < n.groups.length := by simpa [canonicalize] using hcn
  simp only [canonicalize, List.getElem_map]
  apply canonicalGroup_eq_of_parity
  intro r
  have hmc : (m.groups[c]).count r = m.count r c := by
    simp [count, hm, List.getD_eq_getElem?_getD, hcm']
  have hnc : (n.groups[c]).count r = n.count r c := by
    simp [count, hn, List.getD_eq_getElem?_getD, hcn']
  rw [hmc, hnc]
  by_cases hrow : r < m.numRows
  · have := h r hrow c (m.length_groups_csc hm ▸ hcm')
    simp only [entry, decide_eq_decide] at this
    clear * - this
    omega
  · rw [count_eq_zero_of_row_le m c (by omega), count_eq_zero_of_row_le n c (by omega)]

end SparseBinaryMatrix

end CudaqQec
