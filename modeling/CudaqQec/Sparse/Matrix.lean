import CudaqQec.Basic
import CudaqQec.Lib.BitMatrix
import CudaqQec.Lib.Lists
import Mathlib.Data.List.Sort
import Mathlib.Data.List.Dedup
import Mathlib.Data.List.Count
import Mathlib.Algebra.BigOperators.Group.List.Lemmas
import Mathlib.Algebra.Order.BigOperators.Group.List
import Mathlib.Algebra.Order.Ring.Nat

/-!
# Sparse binary matrices

`sparse_binary_matrix`: a matrix over GF(2) stored as the index list of each compressed group — a
column under `csc`, a row under `csr`. The groups that `ptr()` delimits in `indices()` are kept as a
list of lists. Index lists are stored as given: neither sorted nor free of repeats, and an index
listed `k` times stands for the entry `k mod 2`.

The class hands out no matrix that breaks its representation, so neither does the structure: one
group for each column (row), every index inside the other dimension, dimensions and the number of
stored indices within `uint32_t`.
-/

namespace CudaqQec

open Checked

/-- Compressed columns, or compressed rows. -/
inductive SparseLayout where
  | csc
  | csr
  deriving DecidableEq, Repr

def SparseLayout.groupCount : SparseLayout → Nat → Nat → Nat
  | .csc, _, cols => cols
  | .csr, rows, _ => rows

/-- The dimension the indices of a group run over. -/
def SparseLayout.indexBound : SparseLayout → Nat → Nat → Nat
  | .csc, rows, _ => rows
  | .csr, _, cols => cols

def storedCount (groups : List (List Nat)) : Nat := (groups.map List.length).sum

@[ext] structure SparseBinaryMatrix where
  layout : SparseLayout
  numRows : Nat
  numCols : Nat
  groups : List (List Nat)
  rows_lt : numRows < 2 ^ 32
  cols_lt : numCols < 2 ^ 32
  length_groups : groups.length = layout.groupCount numRows numCols
  index_lt : ∀ g ∈ groups, ∀ i ∈ g, i < layout.indexBound numRows numCols
  nnz_lt : storedCount groups < 2 ^ 32
  deriving DecidableEq

/-- The transpose of a list of groups whose indices lie below `n`: index `i` is appended to group
`j` once for each `j` that group `i` lists, for `i` in increasing order. -/
def transposeGroups (n : Nat) (groups : List (List Nat)) : List (List Nat) :=
  (List.range n).map fun j =>
    groups.zipIdx.flatMap fun p => List.replicate (p.1.count j) p.2

def canonicalGroup (g : List Nat) : List Nat :=
  (g.insertionSort (· ≤ ·)).dedup.filter fun i => g.count i % 2 = 1

theorem mem_of_mem_canonicalGroup {g : List Nat} {i : Nat} (h : i ∈ canonicalGroup g) : i ∈ g := by
  simp only [canonicalGroup, List.mem_filter, List.mem_dedup, List.mem_insertionSort] at h
  exact h.1

theorem length_canonicalGroup_le (g : List Nat) : (canonicalGroup g).length ≤ g.length :=
  calc (canonicalGroup g).length ≤ (g.insertionSort (· ≤ ·)).dedup.length := List.length_filter_le _ _
    _ ≤ (g.insertionSort (· ≤ ·)).length := (List.dedup_sublist _).length_le
    _ = g.length := List.length_insertionSort _ _

/-! ## Counting through a transpose -/

private theorem sum_zipIdx_count (groups : List (List Nat)) (i j k : Nat) :
    ((groups.zipIdx k).map fun p => (List.replicate (p.1.count j) p.2).count i).sum =
      if k ≤ i then (groups.getD (i - k) []).count j else 0 := by
  induction groups generalizing k with
  | nil => simp
  | cons g gs ih =>
    rw [List.zipIdx_cons, List.map_cons, List.sum_cons, ih, List.count_replicate]
    rcases Nat.lt_trichotomy k i with h | h | h
    · obtain ⟨d, rfl⟩ : ∃ d, i = k + 1 + d := ⟨i - (k + 1), by omega⟩
      have h1 : k + 1 + d - k = d + 1 := by omega
      have h2 : k + 1 + d - (k + 1) = d := by omega
      have h3 : ¬ k = k + 1 + d := by omega
      have h4 : k ≤ k + 1 + d := by omega
      simp [h1, h3, h4]
    · subst h
      simp
    · have h1 : ¬ k ≤ i := by omega
      have h2 : ¬ k + 1 ≤ i := by omega
      have h3 : ¬ k = i := by omega
      simp [h1, h2, h3]

/-- Group `j` of the transpose lists `i` as often as group `i` lists `j`. -/
theorem count_transposeGroups (n : Nat) (groups : List (List Nat)) (i j : Nat) (hj : j < n) :
    ((transposeGroups n groups).getD j []).count i = (groups.getD i []).count j := by
  rw [transposeGroups, getD_map_range, if_pos hj, List.count_flatMap]
  simpa [Function.comp_def] using sum_zipIdx_count groups i j 0

theorem length_transposeGroups (n : Nat) (groups : List (List Nat)) :
    (transposeGroups n groups).length = n := by
  simp [transposeGroups]

theorem mem_transposeGroups_lt {n : Nat} {groups : List (List Nat)} {g : List Nat}
    (hg : g ∈ transposeGroups n groups) {i : Nat} (hi : i ∈ g) : i < groups.length := by
  obtain ⟨j, -, rfl⟩ := List.mem_map.mp hg
  obtain ⟨p, hp, hi⟩ := List.mem_flatMap.mp hi
  rw [List.eq_of_mem_replicate hi]
  obtain ⟨_, h2, _⟩ := List.mem_zipIdx hp
  simpa using h2

private theorem sum_ite_eq_count (l : List Nat) (a : Nat) :
    (l.map fun j => if a = j then 1 else 0).sum = l.count a := by
  induction l with
  | nil => rfl
  | cons b l ih =>
    rw [List.map_cons, List.sum_cons, ih, List.count_cons]
    by_cases h : a = b
    · simp [h, Nat.add_comm]
    · simp [h, Ne.symm h]

private theorem sum_count_range (n : Nat) (g : List Nat) (h : ∀ i ∈ g, i < n) :
    ((List.range n).map fun j => g.count j).sum = g.length := by
  induction g with
  | nil => simp
  | cons a g ih =>
    have ha : a < n := h a (by simp)
    have hsplit : ((List.range n).map fun j => (a :: g).count j).sum =
        ((List.range n).map fun j => g.count j).sum +
          ((List.range n).map fun j => if a = j then 1 else 0).sum := by
      rw [← List.sum_map_add]
      congr 1
      apply List.map_congr_left
      intro j _
      simp [List.count_cons]
    have hone : ((List.range n).map fun j => if a = j then 1 else 0).sum = 1 := by
      rw [sum_ite_eq_count, List.count_eq_one_of_mem List.nodup_range (List.mem_range.mpr ha)]
    rw [hsplit, ih fun i hi => h i (by simp [hi]), hone, List.length_cons]

/-- Transposing keeps the number of stored indices. -/
theorem storedCount_transposeGroups (n : Nat) (groups : List (List Nat))
    (h : ∀ g ∈ groups, ∀ i ∈ g, i < n) :
    storedCount (transposeGroups n groups) = storedCount groups := by
  have hlen : storedCount (transposeGroups n groups) =
      ((List.range n).map fun j => (groups.map fun g => g.count j).sum).sum := by
    rw [storedCount, transposeGroups, List.map_map]
    congr 1
    apply List.map_congr_left
    intro j _
    have hz : groups.zipIdx.map (fun p => p.1.count j) = groups.map fun g => g.count j := by
      conv_rhs => rw [← List.zipIdx_map_fst 0 groups, List.map_map]
      rfl
    simp [List.length_flatMap, hz]
  rw [hlen]
  clear hlen
  induction groups with
  | nil => simp [storedCount]
  | cons g gs ih =>
    have hg := sum_count_range n g (h g (by simp))
    have hgs := ih fun g' hg' => h g' (by simp [hg'])
    simp only [List.map_cons, List.sum_cons]
    rw [List.sum_map_add, hg, hgs]
    simp [storedCount]

namespace SparseBinaryMatrix

/-! ## Construction -/

/-- `sparse_binary_matrix()`: the `0 × 0` matrix. -/
def empty : SparseBinaryMatrix where
  layout := .csc
  numRows := 0
  numCols := 0
  groups := []
  rows_lt := by decide
  cols_lt := by decide
  length_groups := rfl
  index_lt := by simp
  nnz_lt := by decide

def ofGroups (layout : SparseLayout) (numRows numCols : Nat) (groups : List (List Nat)) :
    SparseBinaryMatrix :=
  if h : (numRows < 2 ^ 32 ∧ numCols < 2 ^ 32) ∧ groups.length = layout.groupCount numRows numCols ∧
      (∀ g ∈ groups, ∀ i ∈ g, i < layout.indexBound numRows numCols) ∧
      storedCount groups < 2 ^ 32 then
    ⟨layout, numRows, numCols, groups, h.1.1, h.1.2, h.2.1, h.2.2.1, h.2.2.2⟩
  else empty

/-- `from_nested_csc` and `from_nested_csr`: store the groups as given, after checking their number,
how many indices they hold and that each lies inside the other dimension. `group` and `index` name
the two dimensions in the error texts. -/
def fromNested (layout : SparseLayout) (fn group index : String) (numRows numCols : Nat)
    (nested : List (List Nat)) : Except Error SparseBinaryMatrix :=
  if hlen : nested.length = layout.groupCount (u32 numRows) (u32 numCols) then
    -- the size of the pointer array is a `uint32_t`, and its first element is written
    if u32 (layout.groupCount (u32 numRows) (u32 numCols) + 1) = 0 then .error .outOfBounds
    else if hnnz : storedCount nested < 2 ^ 32 then
      if hidx : ∀ g ∈ nested, ∀ i ∈ g, i < layout.indexBound (u32 numRows) (u32 numCols) then
        .ok
          { layout := layout
            numRows := u32 numRows
            numCols := u32 numCols
            groups := nested
            rows_lt := u32_lt _
            cols_lt := u32_lt _
            length_groups := hlen
            index_lt := hidx
            nnz_lt := hnnz }
      else .error (.invalidArgument (fn ++ ": " ++ index ++ " index out of range"))
    else .error (.invalidArgument (fn ++ ": nnz exceeds index_type (uint32_t) range"))
  else .error (.invalidArgument (fn ++ ": nested.size() must equal " ++ group))

def fromNestedCsc : Nat → Nat → List (List Nat) → Except Error SparseBinaryMatrix :=
  fromNested .csc "sparse_binary_matrix::from_nested_csc" "num_cols" "row"

def fromNestedCsr : Nat → Nat → List (List Nat) → Except Error SparseBinaryMatrix :=
  fromNested .csr "sparse_binary_matrix::from_nested_csr" "num_rows" "column"

/-! ## The representation, layout by layout -/

variable (m : SparseBinaryMatrix)

theorem length_groups_csc (h : m.layout = .csc) : m.groups.length = m.numCols := by
  have := m.length_groups
  rw [h] at this
  exact this

theorem length_groups_csr (h : m.layout = .csr) : m.groups.length = m.numRows := by
  have := m.length_groups
  rw [h] at this
  exact this

theorem index_lt_csc (h : m.layout = .csc) : ∀ g ∈ m.groups, ∀ i ∈ g, i < m.numRows := by
  have := m.index_lt
  rw [h] at this
  exact this

theorem index_lt_csr (h : m.layout = .csr) : ∀ g ∈ m.groups, ∀ i ∈ g, i < m.numCols := by
  have := m.index_lt
  rw [h] at this
  exact this

/-! ## Conversion -/

/-- Each column's row indices, with repeats. -/
def toNestedCsc : List (List Nat) :=
  match m.layout with
  | .csc => m.groups
  | .csr => transposeGroups m.numCols m.groups

def toNestedCsr : List (List Nat) :=
  match m.layout with
  | .csr => m.groups
  | .csc => transposeGroups m.numRows m.groups

/-- The same entries in `csc` layout. -/
def toCsc : SparseBinaryMatrix :=
  match h : m.layout with
  | .csc => m
  | .csr =>
    { layout := .csc
      numRows := m.numRows
      numCols := m.numCols
      groups := transposeGroups m.numCols m.groups
      rows_lt := m.rows_lt
      cols_lt := m.cols_lt
      length_groups := length_transposeGroups _ _
      index_lt := by
        intro g hg i hi
        exact m.length_groups_csr h ▸ mem_transposeGroups_lt hg hi
      nnz_lt := by
        rw [storedCount_transposeGroups _ _ (m.index_lt_csr h)]
        exact m.nnz_lt }

/-- The same entries in `csr` layout. -/
def toCsr : SparseBinaryMatrix :=
  match h : m.layout with
  | .csr => m
  | .csc =>
    { layout := .csr
      numRows := m.numRows
      numCols := m.numCols
      groups := transposeGroups m.numRows m.groups
      rows_lt := m.rows_lt
      cols_lt := m.cols_lt
      length_groups := length_transposeGroups _ _
      index_lt := by
        intro g hg i hi
        exact m.length_groups_csc h ▸ mem_transposeGroups_lt hg hi
      nnz_lt := by
        rw [storedCount_transposeGroups _ _ (m.index_lt_csc h)]
        exact m.nnz_lt }

/-- Sort every group and collapse repeats over GF(2), in the layout the matrix has. -/
def canonicalize : SparseBinaryMatrix where
  layout := m.layout
  numRows := m.numRows
  numCols := m.numCols
  groups := m.groups.map canonicalGroup
  rows_lt := m.rows_lt
  cols_lt := m.cols_lt
  length_groups := by rw [List.length_map, m.length_groups]
  index_lt := by
    intro g hg i hi
    obtain ⟨g', hg', rfl⟩ := List.mem_map.mp hg
    exact m.index_lt g' hg' i (mem_of_mem_canonicalGroup hi)
  nnz_lt := by
    refine lt_of_le_of_lt ?_ m.nnz_lt
    rw [storedCount, List.map_map]
    exact List.sum_le_sum fun g _ => length_canonicalGroup_le g

/-- How often the matrix lists the entry at row `r`, column `c`. -/
def count (r c : Nat) : Nat :=
  match m.layout with
  | .csc => (m.groups.getD c []).count r
  | .csr => (m.groups.getD r []).count c

def entry (r c : Nat) : Bool := m.count r c % 2 = 1

def numNnz : Nat := storedCount m.groups

end SparseBinaryMatrix

end CudaqQec
