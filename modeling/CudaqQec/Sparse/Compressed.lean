import CudaqQec.Dem.Columns
import CudaqQec.Lib.Buckets
import CudaqQec.Sparse.Entries

/-!
# Compressed storage

How `sparse_binary_matrix` stores its groups: one array of indices and an array of pointers that
delimits the groups in it. Pointers and indices are `uint32_t`, so sums of them wrap around, and an
access outside an array is no exception but undefined behaviour (`Fault.outOfBounds`).

The constructors count, sum and place entries in the manner of a counting sort. What they return is
the storage of a `SparseBinaryMatrix` (`SparseBinaryMatrix.compressed`), with one exception: the
nested constructors compute the size of their pointer array in 32 bits, which is 0 for `2 ^ 32 - 1`
groups.
-/

namespace CudaqQec

open Checked Buckets

/-! ## Storage -/

/-- The members of a `sparse_binary_matrix`. -/
@[ext] structure CompressedMatrix where
  layout : SparseLayout
  numRows : Nat
  numCols : Nat
  ptr : List Nat
  indices : List Nat
  deriving DecidableEq

def readAt (l : List Nat) (i : Nat) : Except Fault Nat :=
  match l[i]? with
  | some x => .ok x
  | none => .error .outOfBounds

def writeAt (l : List Nat) (i x : Nat) : Except Fault (List Nat) :=
  if i < l.length then .ok (l.set i x) else .error .outOfBounds

namespace CompressedMatrix

def numGroups (m : CompressedMatrix) : Nat := m.layout.groupCount m.numRows m.numCols

def indexBound (m : CompressedMatrix) : Nat := m.layout.indexBound m.numRows m.numCols

structure Names where
  layout : String
  pointers : String
  pointer : String
  groups : String
  indices : String
  index : String

def names : SparseLayout → Names
  | .csc => ⟨"csc", "col_ptrs", "col_ptr", "num_cols", "row_indices", "row"⟩
  | .csr => ⟨"csr", "row_ptrs", "row_ptr", "num_rows", "col_indices", "column"⟩

def reject (what : String) : Fault := .thrown (.invalidArgument ("sparse_binary_matrix" ++ what))

/-! ## Construction -/

/-- `from_csc` and `from_csr`. -/
def fromCompressed (layout : SparseLayout) (numRows numCols : Nat) (ptr indices : List Nat) :
    Except Fault CompressedMatrix := do
  let n := names layout
  let fn := "::from_" ++ n.layout
  let groups := layout.groupCount (u32 numRows) (u32 numCols)
  throwIf (ptr.length ≠ groups + 1)
    (reject (fn ++ ": " ++ n.pointers ++ " must have size " ++ n.groups ++ " + 1"))
  throwIf (ptr.headD 0 ≠ 0) (reject (fn ++ ": " ++ n.pointers ++ "[0] must be zero"))
  throwIf ((List.range groups).any fun j => ptr.getD (j + 1) 0 < ptr.getD j 0)
    (reject (fn ++ ": " ++ n.pointers ++ " must be non-decreasing"))
  throwIf (uint32Max < indices.length)
    (reject (fn ++ ": nnz exceeds index_type (uint32_t) range"))
  throwIf (ptr.getLastD 0 ≠ indices.length)
    (reject (fn ++ ": last " ++ n.pointer ++ " must equal nnz (" ++ n.indices ++ ".size())"))
  throwIf (indices.any fun i => layout.indexBound (u32 numRows) (u32 numCols) ≤ i)
    (reject (fn ++ ": " ++ n.index ++ " index out of range"))
  return ⟨layout, u32 numRows, u32 numCols, ptr, indices⟩

/-- One group of the nested constructors' loop: its indices are appended and their end is written to
the pointer after the group's. -/
def appendGroup (layout : SparseLayout) (bound : Nat) (nested : List (List Nat))
    (st : List Nat × List Nat) (j : Nat) : Except Fault (List Nat × List Nat) := do
  let n := names layout
  let group := nested.getD j []
  throwIf (group.any fun i => bound ≤ i)
    (reject ("::from_nested_" ++ n.layout ++ ": " ++ n.index ++ " index out of range"))
  let indices := st.2 ++ group
  let ptr ← writeAt st.1 (j + 1) (u32 indices.length)
  return (ptr, indices)

/-- `from_nested_csc` and `from_nested_csr`. The size of the pointer array is a `uint32_t`. -/
def fromNestedLists (layout : SparseLayout) (numRows numCols : Nat) (nested : List (List Nat)) :
    Except Fault CompressedMatrix := do
  let n := names layout
  let fn := "::from_nested_" ++ n.layout
  let groups := layout.groupCount (u32 numRows) (u32 numCols)
  throwIf (nested.length ≠ groups) (reject (fn ++ ": nested.size() must equal " ++ n.groups))
  let ptr ← writeAt (List.replicate (u32 (groups + 1)) 0) 0 0
  throwIf (uint32Max < storedCount nested)
    (reject (fn ++ ": nnz exceeds index_type (uint32_t) range"))
  let st ← (List.range groups).foldlM
    (appendGroup layout (layout.indexBound (u32 numRows) (u32 numCols)) nested) (ptr, [])
  return ⟨layout, u32 numRows, u32 numCols, st.1, st.2⟩

/-! ## Counting, summing and placing -/

def countEntry (nnz : List Nat) (key : Nat) : Except Fault (List Nat) := do
  let k ← readAt nnz key
  writeAt nnz key (u32 (k + 1))

def countPass (n : Nat) (entries : List (Nat × Nat)) : Except Fault (List Nat) :=
  entries.foldlM (fun nnz e => countEntry nnz e.1) (List.replicate n 0)

def sumPass (nnz : List Nat) : List Nat := nnz.scanl (fun p k => u32 (p + k)) 0

def placeEntry (ptr : List Nat) (st : List Nat × List Nat) (e : Nat × Nat) :
    Except Fault (List Nat × List Nat) := do
  let p ← readAt ptr e.1
  let k ← readAt st.2 e.1
  let out ← writeAt st.1 (u32 (p + k)) e.2
  let nnz ← countEntry st.2 e.1
  return (out, nnz)

def placePass (ptr : List Nat) (n size : Nat) (entries : List (Nat × Nat)) :
    Except Fault (List Nat) := do
  let st ← entries.foldlM (placeEntry ptr) (List.replicate size 0, List.replicate n 0)
  return st.1

/-! ## Conversion -/

variable (m : CompressedMatrix)

def readGroup (g : Nat) : Except Fault (List Nat) := do
  let first ← readAt m.ptr g
  let stop ← readAt m.ptr (g + 1)
  (List.range' first (stop - first)).mapM (readAt m.indices)

/-- Every entry, group by group: its index is the key and its group the value. -/
def walk : Except Fault (List (Nat × Nat)) := do
  let groups ← (List.range m.numGroups).mapM m.readGroup
  return groups.zipIdx.flatMap fun p => p.1.map fun i => (i, p.2)

def transposed (layout : SparseLayout) : Except Fault CompressedMatrix := do
  let entries ← m.walk
  let nnz ← countPass m.indexBound entries
  let ptr := sumPass nnz
  let indices ← placePass ptr m.indexBound m.indices.length entries
  return ⟨layout, m.numRows, m.numCols, ptr, indices⟩

def toCsc : Except Fault CompressedMatrix :=
  match m.layout with
  | .csc => .ok m
  | .csr => m.transposed .csc

def toCsr : Except Fault CompressedMatrix :=
  match m.layout with
  | .csr => .ok m
  | .csc => m.transposed .csr

/-- `out[key].push_back(value)`. -/
def pushEntry (out : List (List Nat)) (e : Nat × Nat) : Except Fault (List (List Nat)) :=
  if e.1 < out.length then .ok (out.modify e.1 (· ++ [e.2])) else .error .outOfBounds

/-- `to_nested_csc` and `to_nested_csr`: the groups of the matrix in its own layout, and its entries
pushed one by one in the other. -/
def toNested (layout : SparseLayout) : Except Fault (List (List Nat)) :=
  if m.layout = layout then (List.range m.numGroups).mapM m.readGroup
  else do
    let entries ← m.walk
    entries.foldlM pushEntry (List.replicate m.indexBound [])

/-- `canonicalize`. A pointer array of another size counts as one without entries. -/
def canonicalize : Except Fault CompressedMatrix := do
  let groups ← if m.ptr.length = m.numGroups + 1 then
      (List.range m.numGroups).mapM m.readGroup
    else .ok (List.replicate m.numGroups [])
  let kept := groups.map canonicalGroup
  fromCompressed m.layout m.numRows m.numCols
    ((kept.map List.length).scanl (fun p k => u32 (p + k)) 0) kept.flatten

/-! ## Dense matrices -/

def denseEntries (dense : Tensor) (layout : SparseLayout) (rows cols : Nat) : List (Nat × Nat) :=
  (List.range rows).flatMap fun r =>
    ((List.range cols).filter fun c => dense.data.getD (r * cols + c) 0 ≠ 0).map fun c =>
      match layout with
      | .csc => (c, r)
      | .csr => (r, c)

/-- The constructor from a dense tensor. -/
def fromDense (dense : Tensor) (layout : SparseLayout) : Except Fault CompressedMatrix := do
  throwIf (dense.shape.length ≠ 2) (reject ": dense PCM tensor must have rank 2")
  let rows := dense.shape.getD 0 0
  let cols := dense.shape.getD 1 0
  throwIf (uint32Max < rows ∨ uint32Max < cols)
    (reject ": dense PCM dimensions exceed index_type range")
  let groups := layout.groupCount rows cols
  if rows = 0 ∨ cols = 0 then return ⟨layout, rows, cols, List.replicate (groups + 1) 0, []⟩
  let entries := denseEntries dense layout rows cols
  let nnz ← countPass groups entries
  throwIf (uint32Max < nnz.sum)
    (reject ((match layout with | .csc => "(dense,to CSC)" | .csr => "(dense,to CSR)") ++
      ": nnz exceeds index_type (uint32_t) range"))
  let ptr := sumPass nnz
  let indices ← placePass ptr groups (ptr.getLastD 0) entries
  return ⟨layout, rows, cols, ptr, indices⟩

end CompressedMatrix

end CudaqQec
