import CudaqQec.Sparse.Storage

/-!
# Every way to build a sparse matrix

A `sparse_binary_matrix` comes out of a constructor and a sequence of operations on its result.
`Construction` lists them, and `eval` runs them on the storage. Whatever is built keeps the
representation, and its conversions keep its entries (`Sound`), unless it starts with a nested
constructor of `2 ^ 32 - 1` groups.
-/

namespace CudaqQec

open Checked Buckets CompressedMatrix

/-- The constructors of `sparse_binary_matrix` and the operations that return one. -/
inductive Construction where
  | fromCsc (numRows numCols : Nat) (colPtrs rowIndices : List Nat)
  | fromCsr (numRows numCols : Nat) (rowPtrs colIndices : List Nat)
  | fromNestedCsc (numRows numCols : Nat) (nested : List (List Nat))
  | fromNestedCsr (numRows numCols : Nat) (nested : List (List Nat))
  | dense (dense : Tensor) (layout : SparseLayout)
  | toCsc (of : Construction)
  | toCsr (of : Construction)
  | canonicalize (of : Construction)

namespace Construction

def eval : Construction → Except Fault CompressedMatrix
  | .fromCsc r c ptr indices => fromCompressed .csc r c ptr indices
  | .fromCsr r c ptr indices => fromCompressed .csr r c ptr indices
  | .fromNestedCsc r c nested => fromNestedLists .csc r c nested
  | .fromNestedCsr r c nested => fromNestedLists .csr r c nested
  | .dense t layout => fromDense t layout
  | .toCsc x => x.eval >>= CompressedMatrix.toCsc
  | .toCsr x => x.eval >>= CompressedMatrix.toCsr
  | .canonicalize x => x.eval >>= CompressedMatrix.canonicalize

/-- Not built from the lists of `2 ^ 32 - 1` groups. -/
def InRange : Construction → Prop
  | .fromNestedCsc _ c nested => ¬ (u32 c = uint32Max ∧ nested.length = uint32Max)
  | .fromNestedCsr r _ nested => ¬ (u32 r = uint32Max ∧ nested.length = uint32Max)
  | .toCsc x | .toCsr x | .canonicalize x => x.InRange
  | .fromCsc .. | .fromCsr .. | .dense .. => True

end Construction

/-! ## Entries -/

/-- Where an index of a group stands. -/
def SparseLayout.position : SparseLayout → Nat → Nat → Nat × Nat
  | .csc, g, i => (i, g)
  | .csr, g, i => (g, i)

def nestedPositions (layout : SparseLayout) (nested : List (List Nat)) : List (Nat × Nat) :=
  nested.zipIdx.flatMap fun p => p.1.map (layout.position p.2)

namespace CompressedMatrix

def positions (m : CompressedMatrix) : List (Nat × Nat) :=
  (List.range m.numGroups).flatMap fun g =>
    ((m.indices.take (m.ptr.getD (g + 1) 0)).drop (m.ptr.getD g 0)).map (m.layout.position g)

/-- The conversions return, with the entries of the matrix. -/
structure Converts (m : CompressedMatrix) : Prop where
  toCsc : ∃ m', m.toCsc = .ok m' ∧ m'.positions.Perm m.positions
  toCsr : ∃ m', m.toCsr = .ok m' ∧ m'.positions.Perm m.positions
  toNested : ∀ layout, ∃ nested, m.toNested layout = .ok nested ∧
    (nestedPositions layout nested).Perm m.positions

/-- A result that is no matrix with a broken representation: it throws, or its matrix keeps the
representation and its conversions keep its entries. -/
def Sound : Except Fault CompressedMatrix → Prop
  | .ok m => Rep m ∧ Converts m
  | .error (.thrown _) => True
  | .error .outOfBounds => False

/-! ## Entries of the storage -/

/-- Nested columns list the entry at row `r`, column `c` as often as column `c` lists `r`. -/
theorem count_nestedPositions_csc (nested : List (List Nat)) (r c : Nat) :
    (nestedPositions .csc nested).count (r, c) = (nested.getD c []).count r := by
  have hentries : nestedPositions .csc nested = groupEntries nested := rfl
  have hbucket : bucket (groupEntries nested) r = (transposeGroups (r + 1) nested).getD r [] := by
    rw [← buckets_groupEntries, getD_buckets _ (Nat.lt_succ_self r)]
  rw [hentries, ← count_bucket, hbucket, count_transposeGroups _ _ _ _ (Nat.lt_succ_self r)]

theorem count_nestedPositions_csr (nested : List (List Nat)) (r c : Nat) :
    (nestedPositions .csr nested).count (r, c) = (nested.getD r []).count c := by
  have hswap : nestedPositions .csr nested = (nestedPositions .csc nested).map Prod.swap := by
    rw [nestedPositions, nestedPositions, List.map_flatMap]
    apply List.flatMap_congr
    intro p _
    rw [List.map_map]
    rfl
  have hpair : (r, c) = Prod.swap (c, r) := rfl
  rw [hswap, hpair, List.count_map_of_injective _ _ Prod.swap_injective, count_nestedPositions_csc]

theorem count_nestedOf (s : SparseBinaryMatrix) (layout : SparseLayout) (r c : Nat) :
    (nestedPositions layout (nestedOf s layout)).count (r, c) = s.count r c := by
  cases layout with
  | csc => exact (count_nestedPositions_csc _ r c).trans (s.count_toNestedCsc r c)
  | csr => exact (count_nestedPositions_csr _ r c).trans (s.count_toNestedCsr r c)

theorem nestedOf_layout (s : SparseBinaryMatrix) : nestedOf s s.layout = s.groups := by
  unfold nestedOf SparseBinaryMatrix.toNestedCsc SparseBinaryMatrix.toNestedCsr
  cases s.layout <;> rfl

theorem positions_compressed (s : SparseBinaryMatrix) :
    s.compressed.positions = nestedPositions s.layout s.groups := by
  have hptr : ∀ g ≤ s.groups.length, s.compressed.ptr.getD g 0 = start s.groups g := by
    intro g hg
    rw [List.getD_eq_getElem?_getD]
    exact congrArg (Option.getD · 0) (getElem?_scanl_length s.groups hg)
  have hzip : s.groups.zipIdx =
      (List.range s.groups.length).map fun g => (s.groups.getD g [], g) := by
    apply List.ext_getElem (by simp)
    intro g hg _
    have hg' : g < s.groups.length := by simpa using hg
    simp [hg']
  rw [positions, numGroups_compressed, nestedPositions, hzip, List.flatMap_map]
  apply List.flatMap_congr
  intro g hg
  have hg' : g < s.groups.length := List.mem_range.mp hg
  rw [hptr g hg'.le, hptr (g + 1) hg']
  exact congrArg (List.map _) (drop_take_flatten s.groups hg')

/-- The storage lists each entry as often as the matrix does. -/
theorem count_positions_compressed (s : SparseBinaryMatrix) (r c : Nat) :
    s.compressed.positions.count (r, c) = s.count r c := by
  rw [positions_compressed, ← nestedOf_layout, count_nestedOf]

theorem positions_perm {s t : SparseBinaryMatrix} (h : ∀ r c, t.count r c = s.count r c) :
    t.compressed.positions.Perm s.compressed.positions := by
  rw [List.perm_iff_count]
  rintro ⟨r, c⟩
  rw [count_positions_compressed, count_positions_compressed, h]

theorem count_toCsc (s : SparseBinaryMatrix) (r c : Nat) : s.toCsc.count r c = s.count r c := by
  rw [← s.toCsc.count_toNestedCsc, s.toNestedCsc_toCsc, s.count_toNestedCsc]

theorem count_toCsr (s : SparseBinaryMatrix) (r c : Nat) : s.toCsr.count r c = s.count r c := by
  rw [← s.toCsr.count_toNestedCsr, s.toNestedCsr_toCsr, s.count_toNestedCsr]

theorem converts_compressed (s : SparseBinaryMatrix) : Converts s.compressed where
  toCsc := ⟨_, toCsc_compressed s, positions_perm (count_toCsc s)⟩
  toCsr := ⟨_, toCsr_compressed s, positions_perm (count_toCsr s)⟩
  toNested := by
    intro layout
    refine ⟨_, toNested_compressed s layout, ?_⟩
    rw [List.perm_iff_count]
    rintro ⟨r, c⟩
    rw [count_nestedOf, count_positions_compressed]

theorem Stored.sound {x : Except Fault CompressedMatrix} (h : Stored x) : Sound x := by
  rcases h with ⟨s, rfl⟩ | ⟨e, rfl⟩
  · exact ⟨rep_compressed s, converts_compressed s⟩
  · trivial

/-- An operation on stored matrices keeps results stored. -/
theorem Stored.bind {x : Except Fault CompressedMatrix}
    {f : CompressedMatrix → Except Fault CompressedMatrix} (h : Stored x)
    (hf : ∀ s : SparseBinaryMatrix, Stored (f s.compressed)) : Stored (x >>= f) := by
  rcases h with ⟨s, rfl⟩ | ⟨e, rfl⟩
  · rw [ok_bind]
    exact hf s
  · rw [error_bind]
    exact .inr ⟨e, rfl⟩

end CompressedMatrix

/-! ## Every construction -/

namespace Construction

theorem stored_eval (x : Construction) (h : x.InRange) : Stored x.eval := by
  induction x with
  | fromCsc r c ptr indices => exact stored_fromCompressed .csc r c ptr indices
  | fromCsr r c ptr indices => exact stored_fromCompressed .csr r c ptr indices
  | fromNestedCsc r c nested => exact stored_fromNestedLists .csc r c nested h
  | fromNestedCsr r c nested => exact stored_fromNestedLists .csr r c nested h
  | dense t layout => exact stored_fromDense t layout
  | toCsc x ih => exact (ih h).bind fun s => .inl ⟨_, toCsc_compressed s⟩
  | toCsr x ih => exact (ih h).bind fun s => .inl ⟨_, toCsr_compressed s⟩
  | canonicalize x ih => exact (ih h).bind stored_canonicalize

theorem eval_not_inRange (x : Construction) (h : ¬ x.InRange) : x.eval = .error .outOfBounds := by
  induction x with
  | fromCsc r c ptr indices => exact absurd trivial h
  | fromCsr r c ptr indices => exact absurd trivial h
  | fromNestedCsc r c nested =>
    obtain ⟨hc, hlen⟩ := not_not.mp h
    exact fromNestedLists_uint32Max .csc r c nested hlen hc
  | fromNestedCsr r c nested =>
    obtain ⟨hr, hlen⟩ := not_not.mp h
    exact fromNestedLists_uint32Max .csr r c nested hlen hr
  | dense t layout => exact absurd trivial h
  | toCsc x ih => rw [eval, ih h, error_bind]
  | toCsr x ih => rw [eval, ih h, error_bind]
  | canonicalize x ih => rw [eval, ih h, error_bind]

/-- What is built is sound exactly when it does not start with a nested constructor of
`2 ^ 32 - 1` groups. -/
theorem sound_iff_inRange (x : Construction) : Sound x.eval ↔ x.InRange := by
  constructor
  · intro h
    by_contra hout
    rw [eval_not_inRange x hout] at h
    exact h
  · intro h
    exact (stored_eval x h).sound

/-- Four billion empty columns. -/
theorem not_sound_fromNestedCsc :
    ¬ Sound (fromNestedCsc 0 uint32Max (List.replicate uint32Max [])).eval := by
  have hlen : (List.replicate uint32Max ([] : List Nat)).length = uint32Max := List.length_replicate
  -- the list itself is never unfolded
  generalize List.replicate uint32Max ([] : List Nat) = nested at hlen ⊢
  have hout : ¬ (fromNestedCsc 0 uint32Max nested).InRange := fun h => h ⟨by decide, hlen⟩
  rw [eval_not_inRange _ hout]
  exact not_false

end Construction

end CudaqQec
