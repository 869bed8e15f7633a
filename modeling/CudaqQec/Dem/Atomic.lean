import CudaqQec.Dem.Canonicalize

/-!
# Canonicalization in place

The model as the calls of `canonicalize_for_rounds` leave it, with what they throw. Everything is
computed before the first field is replaced, except for the two matrices: the observables are
reordered last, when rates, ids and detectors are the new ones already, and reordering checks the
rank and the columns by itself.

* `canonicalizeForRounds_atomic_iff`: exactly when a call that throws leaves the model as it was.
-/

namespace CudaqQec.Dem

open Checked

/-! ## The model -/

/-- A call on a model: the model it leaves, and what it threw. -/
structure InPlace where
  left : DetectorErrorModel
  thrown : Option Error

def InPlace.step {α : Type} (m : DetectorErrorModel) (x : Except Error α) (rest : α → InPlace) :
    InPlace :=
  match x with
  | .error e => ⟨m, some e⟩
  | .ok a => rest a

def InPlace.result (call : InPlace) : Except Error DetectorErrorModel :=
  match call.thrown with
  | some e => .error e
  | none => .ok call.left

/-- A call that throws leaves the model as it was. -/
def InPlace.Atomic (m : DetectorErrorModel) (call : InPlace) : Prop :=
  ∀ e, call.thrown = some e → call.left = m

namespace DetectorErrorModel

variable (m : DetectorErrorModel)

/-- `canonicalize_for_rounds_impl` up to the point where all columns are merged. -/
def mergeColumns (rowIndices : List (List Nat)) (columnOrder : List Nat)
    (removeZeroSyndromeErrors : Bool) : Except Error Merge := do
  throwIf (m.errorRates.length < rowIndices.length)
    (.runtimeError ("canonicalize_for_rounds: row_indices size (" ++ toString rowIndices.length ++
      ") is greater than the number of error rates (" ++ toString m.errorRates.length ++
      "). This likely means either 'error_rates' was populated incorrectly or the " ++
      "detector_error_matrix  was computed incorrectly."))
  columnOrder.foldlM (m.mergeColumn rowIndices removeZeroSyndromeErrors) .empty

def swapIn (st : Merge) : DetectorErrorModel :=
  { m with
    errorRates := st.outExclusive.map combinedRate
    errorIds := if m.hasErrorIds then some (List.range st.outExclusive.length) else m.errorIds }

/-- `canonicalize_for_rounds_impl`, in place. -/
def canonicalizeForRoundsImplInPlace (rowIndices : List (List Nat)) (columnOrder : List Nat)
    (removeZeroSyndromeErrors : Bool) : InPlace :=
  .step m (m.mergeColumns rowIndices columnOrder removeZeroSyndromeErrors) fun st =>
  let swapped := m.swapIn st
  .step swapped
    (reorderPcmColumns swapped.detectorErrorMatrix st.finalColumnOrder 0 uint32Max) fun detectors =>
  let reordered := { swapped with detectorErrorMatrix := detectors }
  .step reordered
    (reorderPcmColumns reordered.observablesFlipsMatrix st.finalColumnOrder 0 uint32Max)
    fun observables => ⟨{ reordered with observablesFlipsMatrix := observables }, none⟩

/-- `canonicalize_for_rounds`, in place. -/
def canonicalizeForRoundsInPlace (numSyndromesPerRound : Nat) (removeZeroSyndromeErrors : Bool) :
    InPlace :=
  .step m (denseToSparse m.detectorErrorMatrix) fun rowIndices =>
  m.canonicalizeForRoundsImplInPlace rowIndices
    (getSortedPcmColumnIndicesForRounds rowIndices numSyndromesPerRound) removeZeroSyndromeErrors

/-- `canonicalize_for_rounds_with_boundary`, in place. -/
def canonicalizeForRoundsWithBoundaryInPlace (numSyndromesPerRound numBoundarySyndromes : Nat)
    (removeZeroSyndromeErrors : Bool) : InPlace :=
  .step m (throwIf (numSyndromesPerRound < numBoundarySyndromes)
    (.invalidArgument ("canonicalize_for_rounds_with_boundary: num_boundary_syndromes (" ++
      toString numBoundarySyndromes ++ ") must be <= num_syndromes_per_round (" ++
      toString numSyndromesPerRound ++ ")"))) fun _ =>
  .step m (denseToSparse m.detectorErrorMatrix) fun rowIndices =>
  .step m (getSortedPcmColumnIndices rowIndices numSyndromesPerRound numBoundarySyndromes)
    fun columnOrder =>
  m.canonicalizeForRoundsImplInPlace rowIndices columnOrder removeZeroSyndromeErrors

/-! ## What decides it -/

/-- The rows of a column, as `uint32_t`. -/
def readRows (column : Nat) : List Nat := (columnRows m.detectorErrorMatrix column).map u32

/-- The rows of every column, as `dense_to_sparse` returns them. -/
def readColumns : List (List Nat) := (List.range m.detectorErrorMatrix.cols).map m.readRows

/-- A column that can occur and flips a detector, the first one by number with its rows. -/
def LeadsRows (column : Nat) : Prop :=
  m.errorRates.getD column 0 ≠ 0 ∧ m.readRows column ≠ [] ∧
    ∀ c < column, m.errorRates.getD c 0 ≠ 0 → m.readRows c ≠ m.readRows column

/-- The columns that are ever looked at: a `uint32_t` numbers them. -/
def colsListed : Nat := min m.detectorErrorMatrix.cols (2 ^ 32)

/-- Shapes that are found out before anything is replaced. -/
def ThrowsEarly : Prop :=
  m.detectorErrorMatrix.shape.length ≠ 2 ∨
    (0 < m.detectorErrorMatrix.rows ∧ m.detectorErrorMatrix.cols = 0) ∨
    m.errorRates.length < m.detectorErrorMatrix.cols ∨
    (0 < m.numObservables ∧ m.observablesFlipsMatrix.cols < m.colsListed)

/-- An observables matrix that can be reordered: with no rows, its columns have not been looked at. -/
def ObservablesReorder : Prop :=
  m.observablesFlipsMatrix.shape.length = 2 ∧
    (0 < m.observablesFlipsMatrix.rows ∨
      ∀ c < m.colsListed, m.LeadsRows c → c < m.observablesFlipsMatrix.cols)

def order (useRounds : Bool) (roundOf : Nat → Nat) : List Nat :=
  sortedPcmColumnIndicesImpl m.readColumns useRounds roundOf

/-- A model whose rates, ids and detectors are what they are replaced by. -/
structure InForm (useRounds : Bool) (roundOf : Nat → Nat) : Prop where
  rows_lt : m.detectorErrorMatrix.rows < 2 ^ 32
  length_rates : m.errorRates.length = m.detectorErrorMatrix.cols
  leads : ∀ c < m.detectorErrorMatrix.cols, m.LeadsRows c
  sorted : m.order useRounds roundOf = List.range m.detectorErrorMatrix.cols
  ids : m.hasErrorIds = true → m.errorIds = some (List.range m.detectorErrorMatrix.cols)

/-! ## In place and by value -/

theorem result_step {α : Type} (x : Except Error α) (rest : α → InPlace) :
    (InPlace.step m x rest).result = x >>= fun a => (rest a).result := by
  cases x <;> rfl

variable {m} in
theorem atomic_step {α : Type} {x : Except Error α} {rest : α → InPlace} :
    (InPlace.step m x rest).Atomic m ↔ ∀ a, x = .ok a → (rest a).Atomic m := by
  cases x with
  | error e => simp [InPlace.step, InPlace.Atomic]
  | ok a => simp [InPlace.step]

/-- What is returned is what `canonicalizeForRoundsImpl` returns. -/
theorem result_canonicalizeForRoundsImplInPlace (rowIndices : List (List Nat))
    (columnOrder : List Nat) (remove : Bool) :
    (m.canonicalizeForRoundsImplInPlace rowIndices columnOrder remove).result =
      m.canonicalizeForRoundsImpl rowIndices columnOrder remove := by
  simp only [canonicalizeForRoundsImplInPlace, canonicalizeForRoundsImpl, result_step, mergeColumns,
    bind_assoc]
  rfl

/-- The two overloads throw what they throw by value, and leave what they return. -/
theorem result_inPlace (S : Nat) (remove : Bool) :
    (m.canonicalizeForRoundsInPlace S remove).result = m.canonicalizeForRounds S remove ∧
      ∀ B, (m.canonicalizeForRoundsWithBoundaryInPlace S B remove).result =
        m.canonicalizeForRoundsWithBoundary S B remove := by
  constructor
  · simp only [canonicalizeForRoundsInPlace, canonicalizeForRounds, result_step,
      result_canonicalizeForRoundsImplInPlace]
  · intro B
    simp only [canonicalizeForRoundsWithBoundaryInPlace, canonicalizeForRoundsWithBoundary,
      result_step, result_canonicalizeForRoundsImplInPlace]

/-! ## Reordering a whole matrix -/

/-- The rows that are copied: a `uint32_t` counts them. -/
def rowsCopied (rows : Nat) : Nat := if rows < 2 ^ 32 then rows else 0

theorem validateReorderPcmColumnsRows_whole (rows : Nat) :
    validateReorderPcmColumnsRows rows 0 uint32Max = .ok (rowsCopied rows) := by
  unfold validateReorderPcmColumnsRows rowsCopied
  rw [throwIf_of_not (Nat.not_lt_zero _), ok_bind]
  split
  · next h =>
    rw [throwIf_of_not (by simp), ok_bind, h]
    rfl
  · next h =>
    rw [throwIf_of_not (by omega), ok_bind]
    apply congrArg Except.ok
    unfold u32 uint32Max
    split <;> omega

theorem reorderPcmColumns_whole {pcm : Tensor} {columnOrder : List Nat}
    (hrank : pcm.shape.length = 2) (horder : ∀ c ∈ columnOrder, c < pcm.cols) :
    reorderPcmColumns pcm columnOrder 0 uint32Max =
      .ok (.ofEntries (rowsCopied pcm.rows) columnOrder.length
        fun r j => pcm.entry r (columnOrder.getD j 0)) := by
  have hcols : ¬ ((columnOrder.any fun c => pcm.cols ≤ c) = true) := by simpa using horder
  rw [reorderPcmColumns, throwIf_of_not (not_not.mpr hrank), ok_bind,
    validateReorderPcmColumnsRows_whole, ok_bind, throwIf_of_not hcols, ok_bind]
  simp only [Nat.zero_add]
  rfl

theorem exists_reorderPcmColumns_iff {pcm : Tensor} {columnOrder : List Nat} :
    (∃ t, reorderPcmColumns pcm columnOrder 0 uint32Max = .ok t) ↔
      pcm.shape.length = 2 ∧ ∀ c ∈ columnOrder, c < pcm.cols := by
  constructor
  · rintro ⟨t, h⟩
    obtain ⟨_, hrank, h⟩ := bind_eq_ok.mp h
    obtain ⟨_, _, h⟩ := bind_eq_ok.mp h
    obtain ⟨_, hcols, h⟩ := bind_eq_ok.mp h
    rw [throwIf_eq_ok] at hrank hcols
    exact ⟨not_not.mp hrank, by simpa using hcols⟩
  · rintro ⟨hrank, horder⟩
    exact ⟨_, reorderPcmColumns_whole hrank horder⟩

/-! ## The march with no observables -/

section March

variable {m}

/-- A column that the merge does not skip. -/
def Occurs (m : DetectorErrorModel) (column : Nat) : Prop :=
  m.errorRates.getD column 0 ≠ 0 ∧ m.readRows column ≠ []

instance (column : Nat) : Decidable (m.Occurs column) := instDecidableAnd

/-- `mergeColumn` of a model with no observables. -/
def march (m : DetectorErrorModel) (st : Merge) (column : Nat) : Merge :=
  if m.Occurs column then
    match st.sigToOut.lookup (m.readRows column, []) with
    | some i =>
      { st with
        outExclusive :=
          st.outExclusive.modify i (addMass (m.exclusiveKey column) (m.errorRates.getD column 0)) }
    | none =>
      { sigToOut := ((m.readRows column, []), st.outExclusive.length) :: st.sigToOut
        finalColumnOrder := st.finalColumnOrder ++ [column]
        outExclusive :=
          st.outExclusive ++ [[(m.exclusiveKey column, m.errorRates.getD column 0)]] }
  else st

theorem getD_readColumns {column : Nat} (h : column < m.detectorErrorMatrix.cols) :
    m.readColumns.getD column [] = m.readRows column := by
  rw [readColumns, getD_map_range, if_pos h]

theorem mergeColumn_eq_march (hobs : m.numObservables = 0) {column : Nat}
    (h : column < m.detectorErrorMatrix.cols) (remove : Bool) (st : Merge) :
    m.mergeColumn m.readColumns remove st column = .ok (m.march st column) := by
  have hindices : m.obsIndices column = .ok [] := by
    rw [obsIndices, throwIf_of_not (by omega), ok_bind, hobs]
    rfl
  rw [mergeColumn, hindices, ok_bind, getD_readColumns h]
  simp only [march, Occurs, and_true, ← not_or]
  by_cases hskip : m.errorRates.getD column 0 = 0 ∨ m.readRows column = []
  · have hskip' : m.errorRates.getD column 0 = 0 ∨ m.readRows column = [] ∨
        remove = true ∧ m.readRows column = [] := by tauto
    rw [if_pos hskip', if_neg (not_not.mpr hskip)]
    rfl
  · have hskip' : ¬ (m.errorRates.getD column 0 = 0 ∨ m.readRows column = [] ∨
        remove = true ∧ m.readRows column = []) := by tauto
    rw [if_neg hskip', if_pos hskip]
    generalize st.sigToOut.lookup (m.readRows column, []) = found
    cases found <;> rfl

theorem foldlM_mergeColumn_eq_march (hobs : m.numObservables = 0) {columns : List Nat}
    (hlt : ∀ c ∈ columns, c < m.detectorErrorMatrix.cols) (remove : Bool) :
    columns.foldlM (m.mergeColumn m.readColumns remove) .empty =
      .ok (columns.foldl m.march .empty) := by
  apply foldlM_eq_ok_of_step (s := fun done => done.foldl m.march .empty)
  intro done column rest hcolumns
  rw [mergeColumn_eq_march hobs (hlt column (by simp [hcolumns])), List.foldl_append]
  rfl

/-! ## What the march has kept -/

/-- The columns `done` have been marched through. -/
structure Marched (m : DetectorErrorModel) (done : List Nat) (st : Merge) : Prop where
  length_eq : st.finalColumnOrder.length = st.outExclusive.length
  sublist : st.finalColumnOrder.Sublist done
  nodup : st.finalColumnOrder.Nodup
  occurs : ∀ c ∈ st.finalColumnOrder, m.Occurs c
  lookup : ∀ rows, (st.sigToOut.lookup (rows, [])).isSome ↔
    ∃ c ∈ st.finalColumnOrder, m.readRows c = rows
  covers : ∀ c ∈ done, m.Occurs c → ∃ c' ∈ st.finalColumnOrder, m.readRows c' = m.readRows c
  least : ∀ c ∈ st.finalColumnOrder, ∀ c' ∈ done, m.Occurs c' → m.readRows c' = m.readRows c → c ≤ c'
  alone : st.finalColumnOrder = done →
    st.outExclusive = done.map fun c => [(m.exclusiveKey c, m.errorRates.getD c 0)]

theorem marched_empty (m : DetectorErrorModel) : m.Marched [] .empty where
  length_eq := rfl
  sublist := .refl _
  nodup := List.nodup_nil
  occurs := by simp [Merge.empty]
  lookup := by simp [Merge.empty]
  covers := by simp
  least := by simp
  alone := by simp [Merge.empty]

variable {done : List Nat} {st : Merge} {column : Nat}

/-- Columns that are kept are fewer than those marched through, once one is not kept. -/
theorem Marched.ne_concat (inv : m.Marched done st) (column : Nat) :
    st.finalColumnOrder ≠ done ++ [column] := by
  intro heq
  have hle := inv.sublist.length_le
  rw [heq, List.length_append, List.length_singleton] at hle
  omega

theorem Marched.skip (inv : m.Marched done st) (hskip : ¬ m.Occurs column) :
    m.Marched (done ++ [column]) st where
  length_eq := inv.length_eq
  sublist := inv.sublist.trans (List.sublist_append_left _ _)
  nodup := inv.nodup
  occurs := inv.occurs
  lookup := inv.lookup
  covers := by
    intro c hc hoccurs
    rcases List.mem_append.mp hc with hc | hc
    · exact inv.covers c hc hoccurs
    · rw [List.mem_singleton.mp hc] at hoccurs
      exact absurd hoccurs hskip
  least := by
    intro c hc c' hc' hoccurs
    rcases List.mem_append.mp hc' with hc' | hc'
    · exact inv.least c hc c' hc' hoccurs
    · rw [List.mem_singleton.mp hc'] at hoccurs
      exact absurd hoccurs hskip
  alone := fun heq => absurd heq (inv.ne_concat column)

theorem Marched.join (inv : m.Marched done st)
    (hle : ∀ c ∈ done, m.readRows c = m.readRows column → c ≤ column) {i : Nat}
    (hi : st.sigToOut.lookup (m.readRows column, []) = some i) (f : List (Nat × ℚ) → List (Nat × ℚ)) :
    m.Marched (done ++ [column]) { st with outExclusive := st.outExclusive.modify i f } where
  length_eq := by
    rw [List.length_modify]
    exact inv.length_eq
  sublist := inv.sublist.trans (List.sublist_append_left _ _)
  nodup := inv.nodup
  occurs := inv.occurs
  lookup := inv.lookup
  covers := by
    intro c hc hoccurs
    rcases List.mem_append.mp hc with hc | hc
    · exact inv.covers c hc hoccurs
    · rw [List.mem_singleton.mp hc]
      exact (inv.lookup _).mp (by rw [hi]; rfl)
  least := by
    intro c hc c' hc' hoccurs hrows
    rcases List.mem_append.mp hc' with hc' | hc'
    · exact inv.least c hc c' hc' hoccurs hrows
    · rw [List.mem_singleton.mp hc'] at hrows ⊢
      exact hle c (inv.sublist.subset hc) hrows.symm
  alone := fun heq => absurd heq (inv.ne_concat column)

theorem Marched.fresh (inv : m.Marched done st) (hoccurs : m.Occurs column)
    (hnone : st.sigToOut.lookup (m.readRows column, []) = none) :
    m.Marched (done ++ [column])
      { sigToOut := ((m.readRows column, []), st.outExclusive.length) :: st.sigToOut
        finalColumnOrder := st.finalColumnOrder ++ [column]
        outExclusive :=
          st.outExclusive ++ [[(m.exclusiveKey column, m.errorRates.getD column 0)]] } := by
  -- rows that were never looked up are those of no earlier column
  have hnew : ∀ c ∈ st.finalColumnOrder, m.readRows c ≠ m.readRows column := by
    intro c hc hrows
    have hsome := (inv.lookup (m.readRows column)).mpr ⟨c, hc, hrows⟩
    rw [hnone] at hsome
    cases hsome
  refine ⟨?_, inv.sublist.append (.refl _), ?_, ?_, ?_, ?_, ?_, ?_⟩
  · simp [inv.length_eq]
  · exact inv.nodup.append (List.nodup_singleton _) fun c hc hc' =>
      hnew c hc (congrArg m.readRows (List.mem_singleton.mp hc'))
  · intro c hc
    rcases List.mem_append.mp hc with hc | hc
    · exact inv.occurs c hc
    · rw [List.mem_singleton.mp hc]
      exact hoccurs
  · intro rows
    rw [List.lookup_cons]
    by_cases hrows : rows = m.readRows column
    · subst hrows
      simp
    · have hne : ((rows, ([] : List Nat)) == (m.readRows column, [])) = false := by simpa using hrows
      rw [hne]
      simp only [inv.lookup, List.mem_append, List.mem_singleton]
      constructor
      · rintro ⟨c, hc, heq⟩
        exact ⟨c, .inl hc, heq⟩
      · rintro ⟨c, hc | rfl, heq⟩
        · exact ⟨c, hc, heq⟩
        · exact absurd heq.symm hrows
  · intro c hc hc'
    rcases List.mem_append.mp hc with hc | hc
    · obtain ⟨d, hd, heq⟩ := inv.covers c hc hc'
      exact ⟨d, List.mem_append_left _ hd, heq⟩
    · exact ⟨c, List.mem_append_right _ hc, rfl⟩
  · intro c hc c' hc' hoccurs' hrows
    rcases List.mem_append.mp hc with hc | hc
    · rcases List.mem_append.mp hc' with hc' | hc'
      · exact inv.least c hc c' hc' hoccurs' hrows
      · rw [List.mem_singleton.mp hc'] at hrows
        exact absurd hrows.symm (hnew c hc)
    · rw [List.mem_singleton.mp hc] at hrows ⊢
      rcases List.mem_append.mp hc' with hc' | hc'
      · obtain ⟨d, hd, heq⟩ := inv.covers c' hc' hoccurs'
        exact absurd (heq.trans hrows) (hnew d hd)
      · exact (List.mem_singleton.mp hc').ge
  · intro heq
    rw [inv.alone (List.append_cancel_right heq), List.map_append]
    rfl

theorem Marched.step (inv : m.Marched done st)
    (hle : ∀ c ∈ done, m.readRows c = m.readRows column → c ≤ column) :
    m.Marched (done ++ [column]) (m.march st column) := by
  unfold march
  split
  · next hoccurs =>
    split
    · next i hi => exact inv.join hle hi _
    · next hnone => exact inv.fresh hoccurs hnone
  · next hskip => exact inv.skip hskip

/-- A march in which columns with the same rows come in increasing order. -/
theorem marched_foldl (m : DetectorErrorModel) {columns : List Nat}
    (hle : columns.Pairwise fun a b => m.readRows a = m.readRows b → a ≤ b) :
    m.Marched columns (columns.foldl m.march .empty) := by
  induction columns using List.reverseRecOn with
  | nil => exact marched_empty m
  | append_singleton columns column ih =>
    rw [List.pairwise_append] at hle
    rw [List.foldl_append]
    exact (ih hle.1).step fun c hc hrows => hle.2.2 c hc column (by simp) hrows

theorem Marched.mem_final {columns : List Nat} (inv : m.Marched columns st)
    (hmem : ∀ c, c ∈ columns ↔ c < m.colsListed) (c : Nat) :
    c ∈ st.finalColumnOrder ↔ c < m.colsListed ∧ m.LeadsRows c := by
  constructor
  · intro hc
    have hlt := (hmem c).mp (inv.sublist.subset hc)
    obtain ⟨hrate, hrows⟩ := inv.occurs c hc
    refine ⟨hlt, hrate, hrows, fun c' hc' hrate' heq => ?_⟩
    have hle := inv.least c hc c' ((hmem c').mpr (hc'.trans hlt)) ⟨hrate', heq ▸ hrows⟩ heq
    omega
  · rintro ⟨hlt, hrate, hrows, hfirst⟩
    have hc := (hmem c).mpr hlt
    obtain ⟨c', hc', heq⟩ := inv.covers c hc ⟨hrate, hrows⟩
    have hle := inv.least c' hc' c hc ⟨hrate, hrows⟩ heq.symm
    rcases lt_or_eq_of_le hle with hlt' | rfl
    · exact absurd heq (hfirst c' hlt' (inv.occurs c' hc').1)
    · exact hc'

end March

/-! ## The sorted order -/

section Sorted

variable {m} (useRounds : Bool) (roundOf : Nat → Nat)

theorem length_readColumns : m.readColumns.length = m.detectorErrorMatrix.cols := by
  rw [readColumns, List.length_map, List.length_range]

theorem colsListed_le : m.colsListed ≤ m.detectorErrorMatrix.cols := Nat.min_le_left ..

theorem mem_order (c : Nat) : c ∈ m.order useRounds roundOf ↔ c < m.colsListed := by
  rw [order, mem_sortedPcmColumnIndicesImpl_iff, length_readColumns, colsListed, lt_min_iff]

theorem length_order : (m.order useRounds roundOf).length = m.detectorErrorMatrix.cols := by
  rw [order, length_sortedPcmColumnIndicesImpl, length_readColumns]

theorem pairwise_order :
    (m.order useRounds roundOf).Pairwise fun a b => m.readRows a = m.readRows b → a ≤ b := by
  have hrank := pairwise_columnRank m.readColumns (roundKey useRounds roundOf)
    ((List.range m.readColumns.length).map u32)
  rw [← sortedPcmColumnIndicesImpl_eq_insertionSort] at hrank
  refine hrank.imp_of_mem fun ha hb hle heq => ?_
  have ha := ((mem_order useRounds roundOf _).mp ha).trans_le colsListed_le
  have hb := ((mem_order useRounds roundOf _).mp hb).trans_le colsListed_le
  rw [columnRank, columnRank, Prod.Lex.toLex_le_toLex, getD_readColumns ha, getD_readColumns hb,
    heq] at hle
  rcases hle with hlt | hle
  · exact absurd hlt (lt_irrefl _)
  · exact hle.2

end Sorted

/-! ## When the call is atomic -/

section Main

variable {m} {useRounds : Bool} {roundOf : Nat → Nat} {st : Merge}

theorem mergeColumns_eq (hobs : m.numObservables = 0)
    (hrates : m.detectorErrorMatrix.cols ≤ m.errorRates.length) (remove : Bool) :
    m.mergeColumns m.readColumns (m.order useRounds roundOf) remove =
      .ok ((m.order useRounds roundOf).foldl m.march .empty) := by
  rw [mergeColumns, throwIf_of_not (by rw [length_readColumns]; omega), ok_bind]
  exact foldlM_mergeColumn_eq_march hobs
    (fun c hc => ((mem_order useRounds roundOf c).mp hc).trans_le colsListed_le) remove

/-- Whatever is merged, only columns of the march are kept. -/
theorem subset_of_mergeColumns {rowIndices : List (List Nat)} {columnOrder : List Nat}
    {remove : Bool} (h : m.mergeColumns rowIndices columnOrder remove = .ok st) :
    ∀ c ∈ st.finalColumnOrder, c ∈ columnOrder := by
  obtain ⟨_, -, h⟩ := bind_eq_ok.mp h
  have hfold : ∀ (columns : List Nat) (st₀ st₁ : Merge),
      columns.foldlM (m.mergeColumn rowIndices remove) st₀ = .ok st₁ →
        ∀ c ∈ st₁.finalColumnOrder, c ∈ st₀.finalColumnOrder ∨ c ∈ columns := by
    intro columns
    induction columns with
    | nil =>
      intro st₀ st₁ h c hc
      cases h
      exact .inl hc
    | cons column columns ih =>
      intro st₀ st₁ h c hc
      rw [List.foldlM_cons, bind_eq_ok] at h
      obtain ⟨st', hstep, h⟩ := h
      rcases ih st' st₁ h c hc with hc | hc
      · obtain ⟨obs, -, hstep⟩ := bind_eq_ok.mp hstep
        split at hstep
        · cases hstep
          exact .inl hc
        · split at hstep
          · cases hstep
            exact .inl hc
          · cases hstep
            rcases List.mem_append.mp hc with hc | hc
            · exact .inl hc
            · rw [List.mem_singleton.mp hc]
              exact .inr (by simp)
      · exact .inr (List.mem_cons_of_mem _ hc)
  intro c hc
  rcases hfold _ _ _ h c hc with hc | hc
  · cases hc
  · exact hc

/-! ## With observables -/

/-- With observables, their columns have been looked up in the merge. -/
theorem atomic_of_observables (hobs : 0 < m.numObservables)
    (hcols : m.colsListed ≤ m.observablesFlipsMatrix.cols)
    (hrank : m.detectorErrorMatrix.shape.length = 2) (remove : Bool) :
    (m.canonicalizeForRoundsImplInPlace m.readColumns (m.order useRounds roundOf) remove).Atomic m := by
  have hrank' : m.observablesFlipsMatrix.shape.length = 2 := by
    by_contra hne
    rw [numObservables, if_neg hne] at hobs
    cases hobs
  rw [canonicalizeForRoundsImplInPlace, atomic_step]
  intro st hst
  have hlt : ∀ c ∈ st.finalColumnOrder, c < m.colsListed :=
    fun c hc => (mem_order useRounds roundOf c).mp (subset_of_mergeColumns hst c hc)
  intro e he
  simp only [swapIn, reorderPcmColumns_whole hrank fun c hc => (hlt c hc).trans_le colsListed_le,
    reorderPcmColumns_whole hrank' fun c hc => (hlt c hc).trans_le hcols, InPlace.step] at he
  cases he

theorem LeadsRows.eq_of_readRows {c c' : Nat} (h : m.LeadsRows c) (h' : m.LeadsRows c')
    (heq : m.readRows c = m.readRows c') : c = c' := by
  rcases lt_trichotomy c c' with hlt | rfl | hlt
  · exact absurd heq (h'.2.2 c hlt h.1)
  · rfl
  · exact absurd heq.symm (h.2.2 c' hlt h'.1)

/-! ## Without observables -/

def leftAtObservables (m : DetectorErrorModel) (st : Merge) : DetectorErrorModel :=
  { m.swapIn st with
    detectorErrorMatrix := .ofEntries (rowsCopied m.detectorErrorMatrix.rows)
      st.finalColumnOrder.length
      fun r j => m.detectorErrorMatrix.entry r (st.finalColumnOrder.getD j 0) }

theorem inForm_of_left_eq (inv : m.Marched (m.order useRounds roundOf) st)
    (heq : m.leftAtObservables st = m) : m.InForm useRounds roundOf := by
  have hdet := congrArg detectorErrorMatrix heq
  have hrates := congrArg errorRates heq
  have hids := congrArg errorIds heq
  simp only [leftAtObservables, swapIn] at hdet hrates hids
  have hrows : rowsCopied m.detectorErrorMatrix.rows = m.detectorErrorMatrix.rows :=
    congrArg Tensor.rows hdet
  have hcols : st.finalColumnOrder.length = m.detectorErrorMatrix.cols := congrArg Tensor.cols hdet
  have hmem := inv.mem_final (mem_order useRounds roundOf)
  have hfinal : st.finalColumnOrder = m.order useRounds roundOf :=
    inv.sublist.eq_of_length (hcols.trans (length_order useRounds roundOf).symm)
  -- the columns that are kept are distinct, and all of them are listed
  have hlisted : m.colsListed = m.detectorErrorMatrix.cols := by
    apply le_antisymm colsListed_le
    have hsub : st.finalColumnOrder ⊆ List.range m.colsListed :=
      fun c hc => List.mem_range.mpr ((hmem c).mp hc).1
    have hle := (List.subperm_of_subset inv.nodup hsub).length_le
    rwa [hcols, List.length_range] at hle
  have hleads : ∀ c < m.detectorErrorMatrix.cols, m.LeadsRows c := by
    intro c hc
    apply ((hmem c).mp _).2
    rw [hfinal]
    exact (mem_order useRounds roundOf c).mpr (hlisted ▸ hc)
  refine ⟨?_, ?_, hleads, ?_, ?_⟩
  · unfold rowsCopied at hrows
    split at hrows
    · assumption
    · omega
  · rw [← hcols, inv.length_eq, ← hrates, List.length_map]
  · rw [← hfinal]
    apply List.ext_getElem
    · rw [hcols, List.length_range]
    · intro j hj hj'
      rw [List.length_range] at hj'
      rw [List.getElem_range]
      have hlt := ((hmem _).mp (List.getElem_mem hj)).1.trans_le colsListed_le
      apply (hleads _ hlt).eq_of_readRows (hleads j hj')
      -- column `j` of the new detectors is the one it was taken from, and the one that was there
      have hcolumn := @columnRows_reorder m.detectorErrorMatrix _ _ hj
      rw [List.getD_eq_getElem _ _ hj] at hcolumn
      rw [hrows] at hdet
      rw [readRows, readRows, ← hcolumn, hdet]
  · intro hhas
    rw [if_pos hhas, ← inv.length_eq, hcols] at hids
    exact hids.symm

theorem left_eq_of_inForm (inv : m.Marched (m.order useRounds roundOf) st)
    (hrank : m.detectorErrorMatrix.shape.length = 2) (h : m.InForm useRounds roundOf) :
    m.leftAtObservables st = m := by
  have hfinal : st.finalColumnOrder = m.order useRounds roundOf := by
    apply inv.sublist.eq_of_length_le
    have hnodup : (m.order useRounds roundOf).Nodup := by
      rw [h.sorted]
      exact List.nodup_range
    apply (List.subperm_of_subset hnodup _).length_le
    intro c hc
    have hlt := (mem_order useRounds roundOf c).mp hc
    exact (inv.mem_final (mem_order useRounds roundOf) c).mpr
      ⟨hlt, h.leads c (hlt.trans_le colsListed_le)⟩
  have hrange := hfinal.trans h.sorted
  have hlen : st.outExclusive.length = m.detectorErrorMatrix.cols := by
    rw [← inv.length_eq, hrange, List.length_range]
  have hdet : Tensor.ofEntries (rowsCopied m.detectorErrorMatrix.rows) st.finalColumnOrder.length
      (fun r j => m.detectorErrorMatrix.entry r (st.finalColumnOrder.getD j 0)) =
        m.detectorErrorMatrix := by
    rw [rowsCopied, if_pos h.rows_lt, hrange, List.length_range]
    refine Eq.trans ?_ (Tensor.ofEntries_entry hrank)
    apply Tensor.ofEntries_congr
    intro r _ j hj
    rw [List.getD_eq_getElem _ _ (by rwa [List.length_range]), List.getElem_range]
  have hrates : st.outExclusive.map combinedRate = m.errorRates := by
    rw [inv.alone hfinal, h.sorted, List.map_map, ← h.length_rates]
    refine Eq.trans ?_ (map_getD_range m.errorRates 0)
    apply List.map_congr_left
    intro c _
    simp [combinedRate]
  have hids : (if m.hasErrorIds then some (List.range st.outExclusive.length) else m.errorIds) =
      m.errorIds := by
    split
    · next hhas => rw [hlen, h.ids hhas]
    · rfl
  rw [leftAtObservables, swapIn, hdet, hrates, hids]

/-- With no observables, it is the last step that decides. -/
theorem atomic_of_no_observables_iff (hobs : m.numObservables = 0)
    (hrates : m.detectorErrorMatrix.cols ≤ m.errorRates.length)
    (hrank : m.detectorErrorMatrix.shape.length = 2) (remove : Bool) :
    (m.canonicalizeForRoundsImplInPlace m.readColumns (m.order useRounds roundOf) remove).Atomic m ↔ m.ObservablesReorder ∨ m.InForm useRounds roundOf := by
  have inv := marched_foldl m (@pairwise_order m useRounds roundOf)
  have hmerge : m.mergeColumns m.readColumns (m.order useRounds roundOf) remove =
      .ok ((m.order useRounds roundOf).foldl m.march .empty) :=
    mergeColumns_eq hobs hrates remove
  generalize (m.order useRounds roundOf).foldl m.march .empty = st at inv hmerge
  have hfinal := inv.mem_final (mem_order useRounds roundOf)
  have hdet := reorderPcmColumns_whole hrank
    fun c hc => ((hfinal c).mp hc).1.trans_le colsListed_le
  have hreorder : m.ObservablesReorder ↔
      ∃ t, reorderPcmColumns m.observablesFlipsMatrix st.finalColumnOrder 0 uint32Max = .ok t := by
    rw [exists_reorderPcmColumns_iff, ObservablesReorder]
    refine and_congr_right fun hrank' => ?_
    have hempty : ¬ 0 < m.observablesFlipsMatrix.rows := by
      rw [numObservables, if_pos hrank'] at hobs
      omega
    simp only [hempty, false_or, hfinal, and_imp]
  rw [hreorder, canonicalizeForRoundsImplInPlace, hmerge]
  simp only [InPlace.step, swapIn, hdet]
  cases hout : reorderPcmColumns m.observablesFlipsMatrix st.finalColumnOrder 0 uint32Max with
  | ok t => simp [InPlace.Atomic]
  | error e =>
    simp only [InPlace.Atomic, Option.some.injEq, reduceCtorEq, exists_false, false_or,
      forall_eq']
    exact ⟨inForm_of_left_eq inv, left_eq_of_inForm inv hrank⟩

/-- The march of either overload, once the rows of the columns are read. -/
theorem canonicalizeForRoundsImpl_atomic_iff (hrank : m.detectorErrorMatrix.shape.length = 2)
    (hcols : ¬ (0 < m.detectorErrorMatrix.rows ∧ m.detectorErrorMatrix.cols = 0)) (remove : Bool) :
    (m.canonicalizeForRoundsImplInPlace m.readColumns (m.order useRounds roundOf) remove).Atomic m ↔ m.ThrowsEarly ∨ m.ObservablesReorder ∨ m.InForm useRounds roundOf := by
  have hearly : m.ThrowsEarly ↔ m.errorRates.length < m.detectorErrorMatrix.cols ∨
      (0 < m.numObservables ∧ m.observablesFlipsMatrix.cols < m.colsListed) := by
    simp only [ThrowsEarly, ne_eq, hrank, not_true_eq_false, hcols, false_or]
  rw [hearly]
  by_cases hrates : m.errorRates.length < m.detectorErrorMatrix.cols
  · simp only [hrates, true_or, iff_true]
    rw [canonicalizeForRoundsImplInPlace, mergeColumns,
      throwIf_of (by rwa [length_readColumns]), error_bind]
    intro e _
    rfl
  by_cases hobs : m.numObservables = 0
  · simp only [hrates, hobs, lt_irrefl, false_and, false_or]
    exact atomic_of_no_observables_iff hobs (not_lt.mp hrates) hrank remove
  · have hpos : 0 < m.numObservables := Nat.pos_of_ne_zero hobs
    have hrank' : m.observablesFlipsMatrix.shape.length = 2 ∧ 0 < m.observablesFlipsMatrix.rows := by
      rw [numObservables] at hpos
      split at hpos
      · exact ⟨‹_›, hpos⟩
      · exact absurd hpos (lt_irrefl 0)
    by_cases hwide : m.observablesFlipsMatrix.cols < m.colsListed
    · simp only [hpos, hwide, and_self, or_true, true_or, iff_true]
      rw [canonicalizeForRoundsImplInPlace, atomic_step]
      intro st hst
      -- column `F.cols` is looked up, and there is none
      obtain ⟨_, -, hst⟩ := bind_eq_ok.mp hst
      obtain ⟨_, _, hcolumn⟩ := exists_of_foldlM_eq_ok hst ((mem_order useRounds roundOf _).mpr hwide)
      obtain ⟨_, hlookup, -⟩ := bind_eq_ok.mp hcolumn
      obtain ⟨_, hcheck, -⟩ := bind_eq_ok.mp hlookup
      exact absurd ⟨hpos, le_rfl⟩ (throwIf_eq_ok.mp hcheck)
    · have hreorder : m.ObservablesReorder := ⟨hrank'.1, .inl hrank'.2⟩
      simp only [hreorder, true_or, or_true, iff_true]
      exact atomic_of_observables hpos (not_lt.mp hwide) hrank remove

/-- `dense_to_sparse` reads the columns, or throws. -/
theorem denseToSparse_cases (t : Tensor) :
    (t.shape.length = 2 ∧ ¬ (0 < t.rows ∧ t.cols = 0) ∧
      denseToSparse t = .ok ((List.range t.cols).map fun c => (columnRows t c).map u32)) ∨
    ((t.shape.length ≠ 2 ∨ 0 < t.rows ∧ t.cols = 0) ∧ ∃ e, denseToSparse t = .error e) := by
  by_cases hrank : t.shape.length = 2
  · by_cases hcols : 0 < t.rows ∧ t.cols = 0
    · right
      refine ⟨.inr hcols, .runtimeError "Invalid constant tensor indices: 0, 0", ?_⟩
      rw [denseToSparse, throwIf_of_not (not_not.mpr hrank), ok_bind, throwIf_of hcols]
      rfl
    · left
      refine ⟨hrank, hcols, ?_⟩
      rw [denseToSparse, throwIf_of_not (not_not.mpr hrank), ok_bind, throwIf_of_not hcols]
      rfl
  · right
    refine ⟨.inl hrank, .invalidArgument "dense_to_sparse: PCM must be a 2D tensor", ?_⟩
    rw [denseToSparse, throwIf_of hrank]
    rfl

theorem atomic_read_iff (sorted : List (List Nat) → InPlace) {remove : Bool}
    (hsorted : sorted m.readColumns = m.canonicalizeForRoundsImplInPlace m.readColumns
      (m.order useRounds roundOf) remove) :
    (InPlace.step m (denseToSparse m.detectorErrorMatrix) sorted).Atomic m ↔
      m.ThrowsEarly ∨ m.ObservablesReorder ∨ m.InForm useRounds roundOf := by
  rcases denseToSparse_cases m.detectorErrorMatrix with ⟨hrank, hcols, hok⟩ | ⟨hbad, e, herr⟩
  · rw [hok]
    change (sorted m.readColumns).Atomic m ↔ _
    rw [hsorted]
    exact canonicalizeForRoundsImpl_atomic_iff hrank hcols remove
  · have hearly : m.ThrowsEarly := by
      rcases hbad with hrank | hcols
      · exact .inl hrank
      · exact .inr (.inl hcols)
    rw [herr]
    simp only [hearly, true_or, iff_true]
    intro _ _
    rfl

/-! ## The calls -/

/-- A call that throws leaves the model as it was exactly when it throws before anything is replaced,
the observables can be reordered, or what is replaced is the same as before. -/
theorem canonicalizeForRounds_atomic_iff (m : DetectorErrorModel) (S : Nat) (remove : Bool) :
    ((m.canonicalizeForRoundsInPlace S remove).Atomic m ↔
      m.ThrowsEarly ∨ m.ObservablesReorder ∨ m.InForm (0 < S) (· / S)) ∧
    ∀ B, (m.canonicalizeForRoundsWithBoundaryInPlace S B remove).Atomic m ↔
      (S < B ∨ S = 0) ∨ m.ThrowsEarly ∨ m.ObservablesReorder ∨ m.InForm true (CudaqQec.roundOf S B) := by
  refine ⟨atomic_read_iff _ rfl, fun B => ?_⟩
  by_cases hB : S < B
  · simp only [hB, true_or, iff_true]
    rw [canonicalizeForRoundsWithBoundaryInPlace, throwIf_of hB]
    intro _ _
    rfl
  rw [canonicalizeForRoundsWithBoundaryInPlace, throwIf_of_not hB]
  by_cases hS : S = 0
  · simp only [hS, or_true, true_or, iff_true]
    rw [InPlace.step, atomic_step]
    intro rowIndices _
    rw [getSortedPcmColumnIndices, throwIf_of rfl]
    intro _ _
    rfl
  · simp only [hB, hS, or_self, false_or]
    refine @atomic_read_iff m true (CudaqQec.roundOf S B) _ remove ?_
    rw [getSortedPcmColumnIndices_eq hS hB]
    rfl

end Main

def noObservables : DetectorErrorModel where
  detectorErrorMatrix := .ofEntries 1 2 fun _ _ => 1
  errorRates := [1 / 10, 1 / 5]
  observablesFlipsMatrix := ⟨[], [0], rfl⟩
  errorIds := none

/-- The two errors are merged, and then the observables have no columns to reorder. -/
theorem canonicalizeForRounds_not_atomic :
    ¬ ∀ (m : DetectorErrorModel) (S : Nat) (remove : Bool),
      (m.canonicalizeForRoundsInPlace S remove).Atomic m ∧
        ∀ B, (m.canonicalizeForRoundsWithBoundaryInPlace S B remove).Atomic m := by
  intro h
  obtain ⟨e, he⟩ : ∃ e, (noObservables.canonicalizeForRoundsInPlace 1 false).thrown = some e := by
    rw [← Option.isSome_iff_exists]
    decide +kernel
  have hrates := congrArg (fun m => m.errorRates.length) ((h noObservables 1 false).1 e he)
  revert hrates
  decide +kernel

end DetectorErrorModel

end CudaqQec.Dem
