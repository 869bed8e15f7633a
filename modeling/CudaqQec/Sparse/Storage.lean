import CudaqQec.Sparse.Compressed

/-!
# What the storage holds

Every matrix that the constructors and operations of `sparse_binary_matrix` return is the storage of
a `SparseBinaryMatrix`, and the operations on the storage are those on its groups.
-/

namespace CudaqQec

open Checked Buckets

/-- The storage of a list of groups: where each one starts, and all of their indices. -/
def SparseBinaryMatrix.compressed (s : SparseBinaryMatrix) : CompressedMatrix where
  layout := s.layout
  numRows := s.numRows
  numCols := s.numCols
  ptr := (s.groups.map List.length).scanl (· + ·) 0
  indices := s.groups.flatten

namespace CompressedMatrix

variable {m : CompressedMatrix} {s : SparseBinaryMatrix}

/-- The representation invariant. -/
structure Rep (m : CompressedMatrix) : Prop where
  ptr_length : m.ptr.length = m.numGroups + 1
  ptr_head : m.ptr.head? = some 0
  ptr_mono : m.ptr.Pairwise (· ≤ ·)
  ptr_last : m.ptr.getLast? = some m.indices.length
  index_lt : ∀ i ∈ m.indices, i < m.indexBound

/-! ## Running sums -/

theorem getElem?_scanl_length (groups : List (List Nat)) {j : Nat} (hj : j ≤ groups.length) :
    ((groups.map List.length).scanl (· + ·) 0)[j]? = some (start groups j) := by
  have hlen : j < ((groups.map List.length).scanl (· + ·) 0).length := by
    simp only [List.length_scanl, List.length_map]
    omega
  have hget := getD_scanl_add (groups.map List.length) 0
    (show j ≤ (groups.map List.length).length by simpa using hj)
  rw [List.getD_eq_getElem?_getD, List.getElem?_eq_getElem hlen, Option.getD_some] at hget
  rw [List.getElem?_eq_getElem hlen, hget, Nat.zero_add, ← List.map_take]
  rfl

/-- Sums that fit do not wrap around. -/
theorem scanl_u32 (counts : List Nat) (a : Nat) (h : a + counts.sum < 2 ^ 32) :
    counts.scanl (fun p k => u32 (p + k)) a = counts.scanl (· + ·) a := by
  induction counts generalizing a with
  | nil => rfl
  | cons k counts ih =>
    rw [List.sum_cons] at h
    rw [List.scanl_cons, List.scanl_cons, u32_of_lt (by omega), ih _ (by omega)]

theorem rep_compressed (s : SparseBinaryMatrix) : Rep s.compressed where
  ptr_length := by
    simp only [SparseBinaryMatrix.compressed, List.length_scanl, List.length_map, s.length_groups]
    rfl
  ptr_head := by
    have := getElem?_scanl_length s.groups (Nat.zero_le _)
    rw [List.head?_eq_getElem?]
    exact this
  ptr_mono := by
    rw [List.pairwise_iff_getElem]
    intro i j hi hj hij
    have hlen : s.compressed.ptr.length = s.groups.length + 1 := by
      simp [SparseBinaryMatrix.compressed]
    have hi' := getElem?_scanl_length s.groups (show i ≤ s.groups.length by omega)
    have hj' := getElem?_scanl_length s.groups (show j ≤ s.groups.length by omega)
    change s.compressed.ptr[i]? = _ at hi'
    change s.compressed.ptr[j]? = _ at hj'
    rw [List.getElem?_eq_getElem hi, Option.some.injEq] at hi'
    rw [List.getElem?_eq_getElem hj, Option.some.injEq] at hj'
    rw [hi', hj', start_eq_length_flatten, start_eq_length_flatten]
    exact (List.Sublist.flatten (List.take_sublist_take_left hij.le)).length_le
  ptr_last := by
    have hlen : s.compressed.ptr.length = s.groups.length + 1 := by
      simp [SparseBinaryMatrix.compressed]
    have hget := getElem?_scanl_length s.groups le_rfl
    rw [List.getLast?_eq_getElem?, hlen, Nat.add_sub_cancel]
    refine hget.trans ?_
    rw [start_eq_length_flatten, List.take_length]
    rfl
  index_lt := by
    intro i hi
    obtain ⟨g, hg, hi⟩ := List.mem_flatten.mp hi
    exact s.index_lt g hg i hi

/-! ## Reading the groups back -/

theorem readAt_eq_ok {l : List Nat} {i x : Nat} : readAt l i = .ok x ↔ l[i]? = some x := by
  unfold readAt
  split
  · next h => simp [h]
  · next h => simp [h]

theorem readAt_of_lt {l : List Nat} {i : Nat} (h : i < l.length) : readAt l i = .ok (l.getD i 0) := by
  rw [readAt_eq_ok, List.getD_eq_getElem _ _ h, List.getElem?_eq_getElem h]

theorem writeAt_of_lt {l : List Nat} {i : Nat} (h : i < l.length) (x : Nat) :
    writeAt l i x = .ok (l.set i x) := by
  rw [writeAt, if_pos h]

theorem readGroup_compressed (s : SparseBinaryMatrix) {g : Nat} (hg : g < s.groups.length) :
    s.compressed.readGroup g = .ok (s.groups.getD g []) := by
  have hfirst : readAt s.compressed.ptr g = .ok (start s.groups g) :=
    readAt_eq_ok.mpr (getElem?_scanl_length s.groups hg.le)
  have hstop : readAt s.compressed.ptr (g + 1) = .ok (start s.groups (g + 1)) :=
    readAt_eq_ok.mpr (getElem?_scanl_length s.groups hg)
  have hspan : start s.groups (g + 1) - start s.groups g = (s.groups.getD g []).length := by
    rw [start_succ _ hg, Nat.add_sub_cancel_left]
  rw [readGroup, hfirst, ok_bind, hstop, ok_bind, hspan, mapM_eq_ok, List.forall₂_iff_get]
  refine ⟨by simp, ?_⟩
  intro k hk hk'
  simp only [List.get_eq_getElem, List.getElem_range', Nat.one_mul]
  rw [readAt_eq_ok]
  refine (getElem?_flatten_start s.groups hk').trans ?_
  exact List.getElem?_eq_getElem hk'

theorem numGroups_compressed (s : SparseBinaryMatrix) :
    s.compressed.numGroups = s.groups.length := s.length_groups.symm

theorem mapM_readGroup_compressed (s : SparseBinaryMatrix) :
    (List.range s.compressed.numGroups).mapM s.compressed.readGroup = .ok s.groups := by
  have hmap : (List.range s.compressed.numGroups).mapM s.compressed.readGroup =
      .ok ((List.range s.compressed.numGroups).map fun g => s.groups.getD g []) := by
    apply mapM_eq_ok_map
    intro g hg
    rw [numGroups_compressed] at hg
    exact readGroup_compressed s (List.mem_range.mp hg)
  rw [hmap, numGroups_compressed, map_getD_range]

def groupEntries (groups : List (List Nat)) : List (Nat × Nat) :=
  groups.zipIdx.flatMap fun p => p.1.map fun i => (i, p.2)

theorem walk_compressed (s : SparseBinaryMatrix) : s.compressed.walk = .ok (groupEntries s.groups) := by
  rw [walk, mapM_readGroup_compressed, ok_bind]
  rfl

theorem length_groupEntries (groups : List (List Nat)) :
    (groupEntries groups).length = storedCount groups := by
  rw [groupEntries, List.length_flatMap, storedCount]
  conv_rhs => rw [← List.zipIdx_map_fst 0 groups, List.map_map]
  congr 1
  apply List.map_congr_left
  intro p _
  simp

theorem groupEntries_lt {groups : List (List Nat)} {n : Nat} (h : ∀ g ∈ groups, ∀ i ∈ g, i < n) :
    ∀ e ∈ groupEntries groups, e.1 < n := by
  intro e he
  obtain ⟨p, hp, he⟩ := List.mem_flatMap.mp he
  obtain ⟨i, hi, rfl⟩ := List.mem_map.mp he
  exact h _ (List.fst_mem_of_mem_zipIdx hp) i hi

theorem buckets_groupEntries (n : Nat) (groups : List (List Nat)) :
    buckets n (groupEntries groups) = transposeGroups n groups := by
  apply List.map_congr_left
  intro j _
  rw [bucket, groupEntries, List.filter_flatMap, List.map_flatMap]
  apply List.flatMap_congr
  intro p _
  rw [List.filter_map, List.map_map, List.count_eq_length_filter]
  have hconst : ∀ l : List Nat, l.map (Prod.snd ∘ fun i => (i, p.2)) = List.replicate l.length p.2 := by
    intro l
    rw [← List.map_const']
    rfl
  rw [hconst]
  congr 2

/-! ## The counting sort -/

section CountingSort

variable {n : Nat} {entries : List (Nat × Nat)}

theorem countEntry_buckets {key : Nat} (hkey : key < n) (done : List (Nat × Nat)) (v : Nat)
    (hfit : (bucket done key).length + 1 < 2 ^ 32) :
    countEntry ((buckets n done).map List.length) key =
      .ok ((buckets n (done ++ [(key, v)])).map List.length) := by
  have hlen : key < ((buckets n done).map List.length).length := by simpa using hkey
  have hread : readAt ((buckets n done).map List.length) key = .ok (bucket done key).length := by
    rw [readAt_eq_ok, List.getElem?_eq_getElem hlen]
    simp [buckets]
  rw [countEntry, hread, ok_bind, writeAt_of_lt hlen, u32_of_lt hfit, map_length_buckets_append]

/-- A bucket still has room for the next entry that goes into it. -/
theorem length_bucket_done_lt {done rest : List (Nat × Nat)} {e : Nat × Nat}
    (hfit : (bucket entries e.1).length < 2 ^ 32) (h : entries = done ++ e :: rest) :
    (bucket done e.1).length + 1 < 2 ^ 32 := by
  have hone : bucket (e :: rest) e.1 = bucket [e] e.1 ++ bucket rest e.1 := bucket_append [e] rest _
  rw [h, bucket_append, hone, bucket_singleton, if_pos rfl, List.length_append, List.length_append,
    List.length_singleton] at hfit
  omega

theorem map_length_buckets_nil (n : Nat) :
    (buckets n ([] : List (Nat × Nat))).map List.length = List.replicate n 0 := by
  simp [buckets, Function.comp_def]

theorem countPass_eq (hkeys : ∀ e ∈ entries, e.1 < n)
    (hfit : ∀ j, (bucket entries j).length < 2 ^ 32) :
    countPass n entries = .ok ((buckets n entries).map List.length) := by
  rw [countPass, ← map_length_buckets_nil]
  apply foldlM_eq_ok_of_step (s := fun done => (buckets n done).map List.length)
  intro done e rest h
  exact countEntry_buckets (hkeys e (by simp [h])) done e.2 (length_bucket_done_lt (hfit e.1) h)

theorem sumPass_eq (hkeys : ∀ e ∈ entries, e.1 < n) (hfit : entries.length < 2 ^ 32) :
    sumPass ((buckets n entries).map List.length) =
      ((buckets n entries).map List.length).scanl (· + ·) 0 := by
  apply scanl_u32
  rw [Nat.zero_add, ← List.length_flatten, length_flatten_buckets hkeys]
  exact hfit

/-- The second pass places each entry in its bucket. -/
theorem placePass_eq (hkeys : ∀ e ∈ entries, e.1 < n) (hfit : entries.length < 2 ^ 32) :
    placePass (((buckets n entries).map List.length).scanl (· + ·) 0) n entries.length entries =
      .ok (buckets n entries).flatten := by
  have hinit : (List.replicate entries.length 0, List.replicate n 0) =
      ((filled 0 n [] entries).flatten,
        (buckets n ([] : List (Nat × Nat))).map List.length) := by
    rw [filled_nil, length_flatten_buckets hkeys, map_length_buckets_nil]
  have hfold : entries.foldlM (placeEntry (((buckets n entries).map List.length).scanl (· + ·) 0))
      (List.replicate entries.length 0, List.replicate n 0) =
        .ok ((filled 0 n entries entries).flatten, (buckets n entries).map List.length) := by
    rw [hinit]
    apply foldlM_eq_ok_of_step (s := fun done =>
      ((filled 0 n done entries).flatten, (buckets n done).map List.length))
    intro done e rest h
    have he : e.1 < n := hkeys e (by simp [h])
    have hstart : readAt (((buckets n entries).map List.length).scanl (· + ·) 0) e.1 =
        .ok (start (buckets n entries) e.1) :=
      readAt_eq_ok.mpr (getElem?_scanl_length _ (by simpa using he.le))
    have hcount : readAt ((buckets n done).map List.length) e.1 = .ok (bucket done e.1).length := by
      rw [readAt_eq_ok, List.getElem?_eq_getElem (by simpa using he)]
      simp [buckets]
    obtain ⟨hset, hlt⟩ : (filled 0 n done entries).flatten.set _ e.2 = _ ∧ _ := filled_append h he
    have hsmall : start (buckets n entries) e.1 + (bucket done e.1).length < 2 ^ 32 := by
      refine lt_trans hlt ?_
      rw [length_flatten_filled h, length_flatten_buckets hkeys]
      exact hfit
    have hbucket := length_bucket_done_lt (lt_of_le_of_lt (length_bucket_le entries e.1) hfit) h
    rw [placeEntry, hstart, ok_bind, hcount, ok_bind, u32_of_lt hsmall, writeAt_of_lt hlt, ok_bind,
      hset, countEntry_buckets he done e.2 hbucket, ok_bind]
    rfl
  rw [placePass, hfold, ok_bind, filled_all]
  rfl

end CountingSort

/-! ## Conversion -/

theorem length_indices_compressed (s : SparseBinaryMatrix) :
    s.compressed.indices.length = storedCount s.groups := List.length_flatten

/-- A conversion to the other layout stores the transposed groups. -/
theorem transposed_compressed (s t : SparseBinaryMatrix) (hrows : t.numRows = s.numRows)
    (hcols : t.numCols = s.numCols)
    (hgroups : t.groups = transposeGroups s.compressed.indexBound s.groups) :
    s.compressed.transposed t.layout = .ok t.compressed := by
  have hkeys : ∀ e ∈ groupEntries s.groups, e.1 < s.compressed.indexBound :=
    groupEntries_lt s.index_lt
  have hfit : (groupEntries s.groups).length < 2 ^ 32 := by
    rw [length_groupEntries]
    exact s.nnz_lt
  have hsize : s.compressed.indices.length = (groupEntries s.groups).length := by
    rw [length_indices_compressed, length_groupEntries]
  have hbuckets : ∀ j, (bucket (groupEntries s.groups) j).length < 2 ^ 32 :=
    fun j => lt_of_le_of_lt (length_bucket_le _ j) hfit
  rw [transposed, walk_compressed, ok_bind, countPass_eq hkeys hbuckets, ok_bind]
  simp only [sumPass_eq hkeys hfit, hsize, placePass_eq hkeys hfit, ok_bind]
  rw [buckets_groupEntries, ← hgroups]
  simp only [SparseBinaryMatrix.compressed, hrows, hcols]
  rfl

theorem toCsc_compressed (s : SparseBinaryMatrix) : s.compressed.toCsc = .ok s.toCsc.compressed := by
  cases hl : s.layout with
  | csc =>
    have hself : s.toCsc = s := by
      unfold SparseBinaryMatrix.toCsc
      split
      · rfl
      · next h => rw [hl] at h; cases h
    have hlayout : s.compressed.layout = .csc := hl
    rw [toCsc, hlayout, hself]
  | csr =>
    have hlayout : s.compressed.layout = .csr := hl
    have hbound : s.compressed.indexBound = s.numCols := by
      simp [indexBound, SparseBinaryMatrix.compressed, hl, SparseLayout.indexBound]
    have hgroups : s.toCsc.groups = transposeGroups s.compressed.indexBound s.groups := by
      rw [s.groups_toCsc, SparseBinaryMatrix.toNestedCsc, hl, hbound]
    have h := transposed_compressed s s.toCsc s.toCsc_numRows s.toCsc_numCols hgroups
    rw [toCsc, hlayout]
    rw [s.toCsc_layout] at h
    exact h

theorem toCsr_compressed (s : SparseBinaryMatrix) : s.compressed.toCsr = .ok s.toCsr.compressed := by
  cases hl : s.layout with
  | csr =>
    have hself : s.toCsr = s := by
      unfold SparseBinaryMatrix.toCsr
      split
      · rfl
      · next h => rw [hl] at h; cases h
    have hlayout : s.compressed.layout = .csr := hl
    rw [toCsr, hlayout, hself]
  | csc =>
    have hlayout : s.compressed.layout = .csc := hl
    have hbound : s.compressed.indexBound = s.numRows := by
      simp [indexBound, SparseBinaryMatrix.compressed, hl, SparseLayout.indexBound]
    have hgroups : s.toCsr.groups = transposeGroups s.compressed.indexBound s.groups := by
      rw [s.groups_toCsr, SparseBinaryMatrix.toNestedCsr, hl, hbound]
    have h := transposed_compressed s s.toCsr s.toCsr_numRows s.toCsr_numCols hgroups
    rw [toCsr, hlayout]
    rw [s.toCsr_layout] at h
    exact h

theorem foldlM_pushEntry {n : Nat} {entries : List (Nat × Nat)} (hkeys : ∀ e ∈ entries, e.1 < n) :
    entries.foldlM pushEntry (List.replicate n []) = .ok (buckets n entries) := by
  have hinit : List.replicate n ([] : List Nat) = buckets n [] := by
    apply List.ext_getElem (by simp)
    intro j _ _
    simp [buckets]
  rw [hinit]
  apply foldlM_eq_ok_of_step (s := fun done => buckets n done)
  intro done e rest h
  have he : e.1 < (buckets n done).length := by
    rw [length_buckets]
    exact hkeys e (by simp [h])
  rw [pushEntry, if_pos he, buckets_append_singleton]

def nestedOf (s : SparseBinaryMatrix) : SparseLayout → List (List Nat)
  | .csc => s.toNestedCsc
  | .csr => s.toNestedCsr

theorem toNested_compressed (s : SparseBinaryMatrix) (layout : SparseLayout) :
    s.compressed.toNested layout = .ok (nestedOf s layout) := by
  have hwalk : (do
      let entries ← s.compressed.walk
      entries.foldlM pushEntry (List.replicate s.compressed.indexBound [])) =
        .ok (transposeGroups s.compressed.indexBound s.groups) := by
    have hkeys : ∀ e ∈ groupEntries s.groups, e.1 < s.compressed.indexBound :=
      groupEntries_lt s.index_lt
    rw [walk_compressed, ok_bind, foldlM_pushEntry hkeys, buckets_groupEntries]
  unfold toNested
  split
  · next h =>
    rw [mapM_readGroup_compressed]
    have hl : s.layout = layout := h
    subst hl
    unfold nestedOf SparseBinaryMatrix.toNestedCsc SparseBinaryMatrix.toNestedCsr
    cases s.layout <;> rfl
  · next h =>
    rw [hwalk]
    have hl : s.layout ≠ layout := h
    unfold nestedOf SparseBinaryMatrix.toNestedCsc SparseBinaryMatrix.toNestedCsr
    cases hs : s.layout <;> cases layout <;>
      simp_all [indexBound, SparseBinaryMatrix.compressed, SparseLayout.indexBound]

/-! ## The constructors -/

/-- What a constructor may do: return the storage of a matrix, or throw. -/
def Stored (r : Except Fault CompressedMatrix) : Prop :=
  (∃ s : SparseBinaryMatrix, r = .ok s.compressed) ∨ ∃ e, r = .error (.thrown e)

/-- A check that throws leaves what follows it to be looked at. -/
theorem Stored.throwIf {c : Prop} [Decidable c] {what : String} {r : Except Fault CompressedMatrix}
    (h : ¬ c → Stored r) : Stored (throwIf c (reject what) >>= fun _ => r) := by
  by_cases hc : c
  · rw [throwIf_of hc, error_bind]
    exact .inr ⟨_, rfl⟩
  · rw [throwIf_of_not hc, ok_bind]
    exact h hc

/-- The groups that a pointer array delimits. -/
@[grind =] def split (indices : List Nat) : List Nat → List (List Nat)
  | [] => []
  | k :: ks => indices.take k :: split (indices.drop k) ks

theorem flatten_split (lengths : List Nat) (indices : List Nat) (h : lengths.sum = indices.length) :
    (split indices lengths).flatten = indices ∧ (split indices lengths).map List.length = lengths := by
  induction lengths generalizing indices with
  | nil =>
    have : indices = [] := List.eq_nil_of_length_eq_zero h.symm
    simp [split, this]
  | cons k ks ih =>
    rw [List.sum_cons] at h
    obtain ⟨hflat, hlen⟩ := ih (indices.drop k) (by rw [List.length_drop]; omega)
    simp only [split, List.flatten_cons, List.map_cons, hflat, hlen, List.take_append_drop,
      List.length_take, true_and]
    congr 1
    omega

/-- A pointer array that never decreases is made of running sums. -/
theorem exists_scanl_eq (ptr : List Nat) (a : Nat) (h : (a :: ptr).IsChain (· ≤ ·)) :
    ∃ lengths : List Nat, lengths.length = ptr.length ∧ lengths.scanl (· + ·) a = a :: ptr ∧
      (a :: ptr).getLastD 0 = a + lengths.sum := by
  induction ptr generalizing a with
  | nil => exact ⟨[], rfl, rfl, rfl⟩
  | cons b ptr ih =>
    obtain ⟨hab, hrest⟩ := List.isChain_cons_cons.mp h
    obtain ⟨lengths, hlen, hscan, hlast⟩ := ih b hrest
    refine ⟨(b - a) :: lengths, by simp [hlen], ?_, ?_⟩
    · rw [List.scanl_cons, Nat.add_sub_cancel' hab, hscan]
    · rw [List.sum_cons, ← Nat.add_assoc, Nat.add_sub_cancel' hab, ← hlast]
      simp [List.getLastD]

/-- An array of pointers and an array of indices that pass the checks are the storage of a
matrix. -/
theorem exists_compressed {layout : SparseLayout} {rows cols : Nat} {ptr indices : List Nat}
    (hrows : rows < 2 ^ 32) (hcols : cols < 2 ^ 32)
    (hlen : ptr.length = layout.groupCount rows cols + 1) (hhead : ptr.headD 0 = 0)
    (hmono : ∀ j < layout.groupCount rows cols, ptr.getD j 0 ≤ ptr.getD (j + 1) 0)
    (hnnz : indices.length < 2 ^ 32) (hlast : ptr.getLastD 0 = indices.length)
    (hidx : ∀ i ∈ indices, i < layout.indexBound rows cols) :
    ∃ s : SparseBinaryMatrix, (⟨layout, rows, cols, ptr, indices⟩ : CompressedMatrix) =
      s.compressed := by
  obtain ⟨a, ptr, rfl⟩ : ∃ a rest, ptr = a :: rest := by
    cases ptr with
    | nil => simp at hlen
    | cons a rest => exact ⟨a, rest, rfl⟩
  simp only [List.headD_cons] at hhead
  subst hhead
  -- pointers that ascend are running sums of the lengths of the groups
  have hchain : (0 :: ptr).IsChain (· ≤ ·) := by
    rw [List.isChain_iff_getElem]
    intro j hj
    have := hmono j (by rw [hlen] at hj; omega)
    rwa [List.getD_eq_getElem _ _ (by omega), List.getD_eq_getElem _ _ hj] at this
  obtain ⟨lengths, hcount, hscan, hsum⟩ := exists_scanl_eq ptr 0 hchain
  have htotal : lengths.sum = indices.length := by
    rw [← hlast, hsum, Nat.zero_add]
  obtain ⟨hflat, hmap⟩ := flatten_split lengths indices htotal
  -- the indices cut by these lengths are the groups
  have hgroups : (split indices lengths).length = layout.groupCount rows cols := by
    have := congrArg List.length hmap
    rw [List.length_map] at this
    rw [this, hcount]
    simpa using hlen
  have hmem : ∀ g ∈ split indices lengths, ∀ i ∈ g, i < layout.indexBound rows cols := by
    intro g hg i hi
    apply hidx
    rw [← hflat]
    exact List.mem_flatten_of_mem hg hi
  have hstored : storedCount (split indices lengths) < 2 ^ 32 := by
    rw [storedCount, hmap, htotal]
    exact hnnz
  refine ⟨⟨layout, rows, cols, split indices lengths, hrows, hcols, hgroups, hmem, hstored⟩, ?_⟩
  simp only [SparseBinaryMatrix.compressed, hmap, hscan, hflat]

theorem stored_fromCompressed (layout : SparseLayout) (numRows numCols : Nat)
    (ptr indices : List Nat) : Stored (fromCompressed layout numRows numCols ptr indices) := by
  unfold fromCompressed
  apply Stored.throwIf
  intro hlen
  apply Stored.throwIf
  intro hhead
  apply Stored.throwIf
  intro hmono
  apply Stored.throwIf
  intro hnnz
  apply Stored.throwIf
  intro hlast
  apply Stored.throwIf
  intro hidx
  left
  have hmono' : ∀ j < layout.groupCount (u32 numRows) (u32 numCols),
      ptr.getD j 0 ≤ ptr.getD (j + 1) 0 := by
    simpa using hmono
  obtain ⟨s, hs⟩ := exists_compressed (u32_lt numRows) (u32_lt numCols) (not_not.mp hlen)
    (not_not.mp hhead) hmono' (by unfold uint32Max at hnnz; omega) (not_not.mp hlast)
    (by simpa using hidx)
  exact ⟨s, congrArg Except.ok hs⟩

theorem stored_canonicalize (s : SparseBinaryMatrix) : Stored s.compressed.canonicalize := by
  have hlen : s.compressed.ptr.length = s.compressed.numGroups + 1 := (rep_compressed s).ptr_length
  rw [canonicalize, if_pos hlen, mapM_readGroup_compressed, ok_bind]
  exact stored_fromCompressed _ _ _ _ _

/-! ### The nested constructors -/

def nestedPtr (nested : List (List Nat)) (j : Nat) : List Nat :=
  (List.range (nested.length + 1)).map fun i => if i ≤ j then start nested i else 0

theorem nestedPtr_set {nested : List (List Nat)} {j : Nat} :
    (nestedPtr nested j).set (j + 1) (start nested (j + 1)) = nestedPtr nested (j + 1) := by
  apply List.ext_getElem (by simp [nestedPtr])
  intro i _ _
  rw [List.getElem_set]
  simp only [nestedPtr, List.getElem_map, List.getElem_range]
  rcases Nat.lt_trichotomy i (j + 1) with h | h | h
  · rw [if_neg (by omega), if_pos (by omega), if_pos (by omega)]
  · rw [if_pos h.symm, if_pos h.le, h]
  · rw [if_neg (by omega), if_neg (by omega), if_neg (by omega)]

theorem nestedPtr_zero (nested : List (List Nat)) :
    nestedPtr nested 0 = (List.replicate (nested.length + 1) 0).set 0 0 := by
  apply List.ext_getElem (by simp [nestedPtr])
  intro i _ _
  simp only [nestedPtr, List.getElem_map, List.getElem_range, List.set_replicate_self,
    List.getElem_replicate, Nat.le_zero_eq]
  split
  · next h =>
    rw [h]
    rfl
  · rfl

theorem nestedPtr_length (nested : List (List Nat)) :
    nestedPtr nested nested.length = (nested.map List.length).scanl (· + ·) 0 := by
  apply List.ext_getElem? 
  intro i
  by_cases hi : i ≤ nested.length
  · rw [getElem?_scanl_length nested hi, nestedPtr, List.getElem?_map,
      List.getElem?_range (by omega)]
    simp [hi]
  · rw [List.getElem?_eq_none (by simp [nestedPtr]; omega),
      List.getElem?_eq_none (by simp; omega)]

theorem flatten_take_succ {nested : List (List Nat)} {j : Nat} (hj : j < nested.length) :
    (nested.take j).flatten ++ nested.getD j [] = (nested.take (j + 1)).flatten := by
  rw [List.take_add_one, List.getElem?_eq_getElem hj, List.getD_eq_getElem _ _ hj]
  simp only [Option.toList_some, List.flatten_append, List.flatten_cons, List.flatten_nil,
    List.append_nil]

/-- One group appended, or an index of it rejected. -/
theorem appendGroup_cases (layout : SparseLayout) (bound : Nat) {nested : List (List Nat)} {j : Nat}
    (hj : j < nested.length) (hfit : storedCount nested < 2 ^ 32) :
    appendGroup layout bound nested (nestedPtr nested j, (nested.take j).flatten) j =
        .ok (nestedPtr nested (j + 1), (nested.take (j + 1)).flatten) ∨
      ∃ e, (e = reject ("::from_nested_" ++ (names layout).layout ++ ": " ++ (names layout).index ++
          " index out of range") ∧ ¬ ∀ g ∈ nested, ∀ i ∈ g, i < bound) ∧
        appendGroup layout bound nested (nestedPtr nested j, (nested.take j).flatten) j =
          .error e := by
  have hflat := flatten_take_succ hj
  have hend : ((nested.take (j + 1)).flatten).length = start nested (j + 1) :=
    (start_eq_length_flatten nested (j + 1)).symm
  have hsmall : start nested (j + 1) < 2 ^ 32 := by
    have := start_le nested (j + 1)
    rw [List.length_flatten] at this
    exact lt_of_le_of_lt this hfit
  have hroom : j + 1 < (nestedPtr nested j).length := by
    simp only [nestedPtr, List.length_map, List.length_range]
    omega
  simp only [appendGroup]
  by_cases hbad : ((nested.getD j []).any fun i => bound ≤ i) = true
  · right
    rw [throwIf_of hbad, error_bind]
    refine ⟨_, ⟨rfl, fun hall => ?_⟩, rfl⟩
    obtain ⟨i, hi, hle⟩ := List.any_eq_true.mp hbad
    rw [List.getD_eq_getElem _ _ hj] at hi
    have hlt := hall _ (List.getElem_mem hj) i hi
    exact absurd (of_decide_eq_true hle) (not_le.mpr hlt)
  · left
    rw [throwIf_of_not hbad, ok_bind]
    simp only [hflat, hend, u32_of_lt hsmall, writeAt_of_lt hroom, nestedPtr_set, ok_bind]
    rfl

/-- The nested constructors on the arrays are those on the groups: they throw the same, leave the
pointer array on the same lists, and return the storage of the same matrix. -/
theorem fromNestedLists_eq (layout : SparseLayout) (numRows numCols : Nat)
    (nested : List (List Nat)) :
    fromNestedLists layout numRows numCols nested =
      (thrown (SparseBinaryMatrix.fromNested layout
        ("sparse_binary_matrix" ++ ("::from_nested_" ++ (names layout).layout)) (names layout).groups
        (names layout).index numRows numCols nested)).map SparseBinaryMatrix.compressed := by
  unfold fromNestedLists SparseBinaryMatrix.fromNested
  by_cases hlen : nested.length = layout.groupCount (u32 numRows) (u32 numCols)
  · simp only []
    rw [throwIf_of_not (not_not.mpr hlen), ok_bind, dif_pos hlen]
    -- the pointer array of 2^32 groups and one has no element to write to
    by_cases hptr : u32 (layout.groupCount (u32 numRows) (u32 numCols) + 1) = 0
    · rw [if_pos hptr, hptr]
      rfl
    have hgroups : nested.length + 1 < 2 ^ 32 := by
      have hlt : layout.groupCount (u32 numRows) (u32 numCols) < 2 ^ 32 := by
        cases layout <;> exact u32_lt _
      have hmax := SparseBinaryMatrix.lt_uint32Max_of_u32_succ hlt hptr
      unfold uint32Max at hmax
      omega
    rw [if_neg hptr, ← hlen, u32_of_lt hgroups, writeAt_of_lt (by simp), ok_bind, ← nestedPtr_zero]
    -- too many elements are refused before any is copied
    by_cases hnnz : storedCount nested < 2 ^ 32
    · have hfit : ¬ uint32Max < storedCount nested := by
        unfold uint32Max
        omega
      rw [throwIf_of_not hfit, ok_bind, dif_pos hnnz]
      have hloop := foldlM_range_cases (s := fun j => (nestedPtr nested j, (nested.take j).flatten))
        fun j hj => appendGroup_cases layout (layout.indexBound (u32 numRows) (u32 numCols)) hj hnnz
      simp only [List.take_zero, List.flatten_nil] at hloop
      rcases hloop with hok | ⟨e, ⟨rfl, hbad⟩, herr⟩
      -- the loop over the groups went through, so every index passed its check
      · have hidx : ∀ g ∈ nested, ∀ i ∈ g, i < layout.indexBound (u32 numRows) (u32 numCols) := by
          intro g hg i hi
          obtain ⟨j, hj, rfl⟩ := List.getElem_of_mem hg
          obtain ⟨st, st', hstep⟩ := exists_of_foldlM_eq_ok hok (List.mem_range.mpr hj)
          simp only [appendGroup] at hstep
          obtain ⟨_, hcheck, -⟩ := bind_eq_ok.mp hstep
          rw [throwIf_eq_ok, List.getD_eq_getElem _ _ hj] at hcheck
          simp only [List.any_eq_true, decide_eq_true_eq, not_exists, not_and, not_le] at hcheck
          exact hcheck i hi
        rw [hok, ok_bind, dif_pos hidx, nestedPtr_length, List.take_length]
        rfl
      · rw [herr, error_bind, dif_neg hbad]
        simp only [reject, thrown, Except.mapError, Except.map, Error.fault,
          Error.invalidArgument, reduceCtorEq, if_false, String.append_assoc]
    · have hmany : uint32Max < storedCount nested := by
        unfold uint32Max
        omega
      rw [throwIf_of hmany, error_bind, dif_neg hnnz, reject, ← String.append_assoc]
      rfl
  · simp only []
    rw [throwIf_of hlen, error_bind, dif_neg hlen]
    simp only [reject, thrown, Except.mapError, Except.map, Error.fault,
      Error.invalidArgument, reduceCtorEq, if_false, String.append_assoc]

/-- With fewer than `2 ^ 32 - 1` groups the pointer array has the size it needs. -/
theorem stored_fromNestedLists (layout : SparseLayout) (numRows numCols : Nat)
    (nested : List (List Nat))
    (h : ¬ (layout.groupCount (u32 numRows) (u32 numCols) = uint32Max ∧ nested.length = uint32Max)) :
    Stored (fromNestedLists layout numRows numCols nested) := by
  have hptr : nested.length = layout.groupCount (u32 numRows) (u32 numCols) →
      u32 (layout.groupCount (u32 numRows) (u32 numCols) + 1) ≠ 0 := by
    intro hlen hzero
    have hlt : layout.groupCount (u32 numRows) (u32 numCols) < 2 ^ 32 := by
      cases layout <;> exact u32_lt _
    by_cases hmax : layout.groupCount (u32 numRows) (u32 numCols) < uint32Max
    · exact SparseBinaryMatrix.u32_succ_ne_zero hmax hzero
    · have heq : layout.groupCount (u32 numRows) (u32 numCols) = uint32Max := by
        unfold uint32Max at hmax ⊢
        omega
      exact h ⟨heq, hlen.trans heq⟩
  rw [fromNestedLists_eq]
  unfold SparseBinaryMatrix.fromNested
  split_ifs with hlen hzero
  · exact absurd hzero (hptr hlen)
  · exact .inl ⟨_, rfl⟩
  · exact .inr ⟨_, rfl⟩
  · exact .inr ⟨_, rfl⟩
  · exact .inr ⟨_, rfl⟩

/-- With `2 ^ 32 - 1` groups it has none, and its first write is outside of it. -/
theorem fromNestedLists_uint32Max (layout : SparseLayout) (numRows numCols : Nat)
    (nested : List (List Nat)) (h : nested.length = uint32Max)
    (hgroups : layout.groupCount (u32 numRows) (u32 numCols) = uint32Max) :
    fromNestedLists layout numRows numCols nested = .error .outOfBounds := by
  have hwrap : u32 (uint32Max + 1) = 0 := by decide
  unfold fromNestedLists
  simp only [hgroups, h, hwrap]
  rw [throwIf_of_not (by simp), ok_bind]
  rfl

/-! ### The dense constructor -/

theorem exists_buckets {layout : SparseLayout} {rows cols : Nat} {entries : List (Nat × Nat)}
    (hrows : rows < 2 ^ 32) (hcols : cols < 2 ^ 32)
    (hkeys : ∀ e ∈ entries, e.1 < layout.groupCount rows cols)
    (hvalues : ∀ e ∈ entries, e.2 < layout.indexBound rows cols) (hfit : entries.length < 2 ^ 32) :
    ∃ s : SparseBinaryMatrix, s.layout = layout ∧ s.numRows = rows ∧ s.numCols = cols ∧
      s.groups = buckets (layout.groupCount rows cols) entries := by
  have hmem : ∀ g ∈ buckets (layout.groupCount rows cols) entries, ∀ i ∈ g,
      i < layout.indexBound rows cols := by
    intro g hg i hi
    obtain ⟨j, -, rfl⟩ := List.mem_map.mp hg
    obtain ⟨e, he, rfl⟩ := List.mem_map.mp hi
    exact hvalues e (List.mem_of_mem_filter he)
  have hstored : storedCount (buckets (layout.groupCount rows cols) entries) < 2 ^ 32 := by
    rw [storedCount, ← List.length_flatten, length_flatten_buckets hkeys]
    exact hfit
  exact ⟨⟨layout, rows, cols, _, hrows, hcols, length_buckets _ _, hmem, hstored⟩, rfl, rfl, rfl, rfl⟩

theorem mem_denseEntries {dense : Tensor} {layout : SparseLayout} {rows cols : Nat} {e : Nat × Nat}
    (he : e ∈ denseEntries dense layout rows cols) :
    e.1 < layout.groupCount rows cols ∧ e.2 < layout.indexBound rows cols := by
  obtain ⟨r, hr, he⟩ := List.mem_flatMap.mp he
  obtain ⟨c, hc, rfl⟩ := List.mem_map.mp he
  have hr' := List.mem_range.mp hr
  have hc' := List.mem_range.mp (List.mem_of_mem_filter hc)
  cases layout with
  | csc => exact ⟨hc', hr'⟩
  | csr => exact ⟨hr', hc'⟩

theorem nodup_denseEntries (dense : Tensor) (layout : SparseLayout) (rows cols : Nat) :
    (denseEntries dense layout rows cols).Nodup := by
  rw [denseEntries, List.nodup_flatMap]
  constructor
  · intro r _
    apply List.Nodup.map_on _ (List.nodup_range.filter _)
    intro c _ c' _ h
    cases layout <;> simp_all
  · apply List.nodup_range.imp
    intro r r' hne e he he'
    obtain ⟨c, -, rfl⟩ := List.mem_map.mp he
    obtain ⟨c', -, h⟩ := List.mem_map.mp he'
    cases layout <;> simp_all

theorem length_bucket_denseEntries (dense : Tensor) (layout : SparseLayout) (rows cols j : Nat) :
    (bucket (denseEntries dense layout rows cols) j).length ≤ layout.indexBound rows cols := by
  have hsub : bucket (denseEntries dense layout rows cols) j ⊆
      List.range (layout.indexBound rows cols) := by
    intro i hi
    obtain ⟨e, he, rfl⟩ := List.mem_map.mp hi
    exact List.mem_range.mpr (mem_denseEntries (List.mem_of_mem_filter he)).2
  have hnodup := nodup_bucket (nodup_denseEntries dense layout rows cols) j
  calc (bucket (denseEntries dense layout rows cols) j).length
      ≤ (List.range (layout.indexBound rows cols)).length :=
        (List.subperm_of_subset hnodup hsub).length_le
    _ = layout.indexBound rows cols := List.length_range

theorem getLastD_scanl_length (groups : List (List Nat)) :
    ((groups.map List.length).scanl (· + ·) 0).getLastD 0 = groups.flatten.length := by
  have hget := getElem?_scanl_length groups le_rfl
  rw [List.getLastD_eq_getLast?, List.getLast?_eq_getElem?]
  simp only [List.length_scanl, List.length_map, Nat.add_sub_cancel]
  rw [hget, start_eq_length_flatten, List.take_length]
  rfl

/-- No entries leave every pointer at zero. -/
theorem scanl_replicate_zero (n : Nat) :
    (List.replicate n 0).scanl (· + ·) 0 = List.replicate (n + 1) 0 := by
  induction n with
  | zero => rfl
  | succ n ih =>
    rw [List.replicate_succ, List.scanl_cons, Nat.add_zero, ih]
    rfl

/-- What the constructor from a dense tensor may do: store the entries that are set, by group, or
throw. -/
theorem fromDense_cases (dense : Tensor) (layout : SparseLayout) :
    (∃ s : SparseBinaryMatrix, fromDense dense layout = .ok s.compressed ∧ s.layout = layout ∧
      s.numRows = dense.shape.getD 0 0 ∧ s.numCols = dense.shape.getD 1 0 ∧
      s.groups = buckets (layout.groupCount s.numRows s.numCols)
        (denseEntries dense layout s.numRows s.numCols)) ∨
      ∃ e, fromDense dense layout = .error (.thrown e) := by
  unfold fromDense
  by_cases hrank : dense.shape.length ≠ 2
  · rw [throwIf_of hrank, error_bind]
    exact .inr ⟨_, rfl⟩
  rw [throwIf_of_not hrank, ok_bind]
  generalize dense.shape.getD 0 0 = rows
  generalize dense.shape.getD 1 0 = cols
  dsimp only
  by_cases hdims : uint32Max < rows ∨ uint32Max < cols
  · rw [throwIf_of hdims, error_bind]
    exact .inr ⟨_, rfl⟩
  rw [throwIf_of_not hdims, ok_bind]
  have hrows : rows < 2 ^ 32 := by
    unfold uint32Max at hdims
    omega
  have hcols : cols < 2 ^ 32 := by
    unfold uint32Max at hdims
    omega
  have hkeys : ∀ e ∈ denseEntries dense layout rows cols, e.1 < layout.groupCount rows cols :=
    fun e he => (mem_denseEntries he).1
  have hvalues : ∀ e ∈ denseEntries dense layout rows cols, e.2 < layout.indexBound rows cols :=
    fun e he => (mem_denseEntries he).2
  -- without rows or columns the pointers are all zero and nothing is counted
  by_cases hempty : rows = 0 ∨ cols = 0
  · have hnone : denseEntries dense layout rows cols = [] := by
      rcases hempty with rfl | rfl
      · rfl
      · simp [denseEntries]
    obtain ⟨s, rfl, rfl, rfl, hgroups⟩ := exists_buckets hrows hcols hkeys hvalues (by simp [hnone])
    refine .inl ⟨s, ?_, rfl, rfl, rfl, hgroups⟩
    rw [if_pos hempty]
    have hlengths := congrArg (List.map List.length) hgroups
    rw [hnone, map_length_buckets_nil] at hlengths
    have hflat : s.groups.flatten = [] := by
      rw [← List.length_eq_zero_iff, List.length_flatten, hlengths]
      simp
    simp only [SparseBinaryMatrix.compressed, hlengths, hflat, scanl_replicate_zero]
    rfl
  -- otherwise the entries are counted, summed up and placed, unless they are too many
  · have hbound : layout.indexBound rows cols < 2 ^ 32 := by
      cases layout <;> assumption
    have hbuckets : ∀ j, (bucket (denseEntries dense layout rows cols) j).length < 2 ^ 32 :=
      fun j => lt_of_le_of_lt (length_bucket_denseEntries dense layout rows cols j) hbound
    simp only [if_neg hempty, countPass_eq hkeys hbuckets, ok_bind]
    by_cases hnnz : uint32Max <
        ((buckets (layout.groupCount rows cols) (denseEntries dense layout rows cols)).map
          List.length).sum
    · rw [throwIf_of hnnz, error_bind]
      exact .inr ⟨_, rfl⟩
    · rw [throwIf_of_not hnnz, ok_bind]
      have hfit : (denseEntries dense layout rows cols).length < 2 ^ 32 := by
        rw [← List.length_flatten, length_flatten_buckets hkeys] at hnnz
        unfold uint32Max at hnnz
        omega
      obtain ⟨s, rfl, rfl, rfl, hgroups⟩ := exists_buckets hrows hcols hkeys hvalues hfit
      refine .inl ⟨s, ?_, rfl, rfl, rfl, hgroups⟩
      simp only [sumPass_eq hkeys hfit, getLastD_scanl_length, length_flatten_buckets hkeys,
        placePass_eq hkeys hfit, ok_bind, SparseBinaryMatrix.compressed, hgroups]
      rfl

theorem stored_fromDense (dense : Tensor) (layout : SparseLayout) :
    Stored (fromDense dense layout) := by
  rcases fromDense_cases dense layout with ⟨s, hok, -⟩ | herr
  · exact .inl ⟨s, hok⟩
  · exact .inr herr

end CompressedMatrix

end CudaqQec
