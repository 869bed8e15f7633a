import CudaqQec.Dem.ColumnOrder
import CudaqQec.Lib.Mechanisms
import Mathlib.Algebra.Field.Rat
import Mathlib.Data.Fintype.Pi
import Mathlib.Algebra.Field.ZMod

/-!
# Canonical form for rounds

`canonicalize_for_rounds` sorts the columns of a detector error model and merges those with the same
detectors and the same observables. Columns that cannot occur or that flip nothing are dropped. The
rates of merged columns are combined by XOR, so the distribution of detectors and observables stays
what it was.

* `canonicalizeForRounds_model`: what the result is, for both overloads.
-/

namespace CudaqQec.Dem

open Checked Mechanisms

/-! ## The model -/

/-- `detector_error_model`, with its matrices as the tensors they are. -/
structure DetectorErrorModel where
  detectorErrorMatrix : Tensor
  errorRates : List ℚ
  observablesFlipsMatrix : Tensor
  errorIds : Option (List Nat)

abbrev Signature := List Nat × List Nat

/-- The maps of the merge: where each signature went, the column that stands for it, and the rates of
its columns by exclusive set, in increasing order of the key. -/
structure Merge where
  sigToOut : List (Signature × Nat)
  finalColumnOrder : List Nat
  outExclusive : List (List (Nat × ℚ))

def Merge.empty : Merge := ⟨[], [], []⟩

@[grind =] def addMass (key : Nat) (rate : ℚ) : List (Nat × ℚ) → List (Nat × ℚ)
  | [] => [(key, rate)]
  | (k, p) :: entries =>
    if key < k then (key, rate) :: (k, p) :: entries
    else if key = k then (k, p + rate) :: entries
    else (k, p) :: addMass key rate entries

/-- One output column's rate: exclusive sets are independent of each other. -/
def combinedRate (entries : List (Nat × ℚ)) : ℚ :=
  entries.foldl (fun weight e => weight + e.2 - 2 * weight * e.2) 0

namespace DetectorErrorModel

variable (m : DetectorErrorModel)

def numObservables : Nat :=
  if m.observablesFlipsMatrix.shape.length = 2 then m.observablesFlipsMatrix.rows else 0

def hasErrorIds : Bool :=
  match m.errorIds with
  | some ids => ids.length = m.errorRates.length
  | none => false

def obsIndices (column : Nat) : Except Error (List Nat) := do
  throwIf (0 < m.numObservables ∧ m.observablesFlipsMatrix.cols ≤ column)
    (.runtimeError ("Invalid tensor indices: 0, " ++ toString column))
  return ((List.range m.numObservables).filter fun r =>
    m.observablesFlipsMatrix.entry r column ≠ 0).map u32

/-- The exclusive set of a column: its error id, or the column itself. -/
def exclusiveKey (column : Nat) : Nat :=
  if m.hasErrorIds then (m.errorIds.getD []).getD column 0 else column

/-- One column of the march through the columns. -/
def mergeColumn (rowIndices : List (List Nat)) (removeZeroSyndromeErrors : Bool) (st : Merge)
    (column : Nat) : Except Error Merge := do
  let rows := rowIndices.getD column []
  let rate := m.errorRates.getD column 0
  let obs ← m.obsIndices column
  if rate = 0 ∨ rows = [] ∧ obs = [] ∨ removeZeroSyndromeErrors ∧ rows = [] then return st
  else
    match st.sigToOut.lookup (rows, obs) with
    | some i =>
      return { st with
        outExclusive := st.outExclusive.modify i (addMass (m.exclusiveKey column) rate) }
    | none =>
      return {
        sigToOut := ((rows, obs), st.outExclusive.length) :: st.sigToOut
        finalColumnOrder := st.finalColumnOrder ++ [column]
        outExclusive := st.outExclusive ++ [addMass (m.exclusiveKey column) rate []] }

def canonicalizeForRoundsImpl (rowIndices : List (List Nat)) (columnOrder : List Nat)
    (removeZeroSyndromeErrors : Bool) : Except Error DetectorErrorModel := do
  throwIf (m.errorRates.length < rowIndices.length)
    (.runtimeError ("canonicalize_for_rounds: row_indices size (" ++ toString rowIndices.length ++
      ") is greater than the number of error rates (" ++ toString m.errorRates.length ++
      "). This likely means either 'error_rates' was populated incorrectly or the " ++
      "detector_error_matrix  was computed incorrectly."))
  let st ← columnOrder.foldlM (m.mergeColumn rowIndices removeZeroSyndromeErrors) .empty
  let detectors ← reorderPcmColumns m.detectorErrorMatrix st.finalColumnOrder 0 uint32Max
  let observables ← reorderPcmColumns m.observablesFlipsMatrix st.finalColumnOrder 0 uint32Max
  return {
    detectorErrorMatrix := detectors
    errorRates := st.outExclusive.map combinedRate
    observablesFlipsMatrix := observables
    errorIds := if m.hasErrorIds then some (List.range st.outExclusive.length) else m.errorIds }

def canonicalizeForRounds (numSyndromesPerRound : Nat) (removeZeroSyndromeErrors : Bool) :
    Except Error DetectorErrorModel := do
  let rowIndices ← denseToSparse m.detectorErrorMatrix
  m.canonicalizeForRoundsImpl rowIndices
    (getSortedPcmColumnIndicesForRounds rowIndices numSyndromesPerRound) removeZeroSyndromeErrors

def canonicalizeForRoundsWithBoundary (numSyndromesPerRound numBoundarySyndromes : Nat)
    (removeZeroSyndromeErrors : Bool) : Except Error DetectorErrorModel := do
  throwIf (numSyndromesPerRound < numBoundarySyndromes)
    (.invalidArgument ("canonicalize_for_rounds_with_boundary: num_boundary_syndromes (" ++
      toString numBoundarySyndromes ++ ") must be <= num_syndromes_per_round (" ++
      toString numSyndromesPerRound ++ ")"))
  let rowIndices ← denseToSparse m.detectorErrorMatrix
  let columnOrder ← getSortedPcmColumnIndices rowIndices numSyndromesPerRound numBoundarySyndromes
  m.canonicalizeForRoundsImpl rowIndices columnOrder removeZeroSyndromeErrors

/-! ## What the model says -/

abbrev Outcome (detectors observables : Nat) : Type :=
  (Fin detectors → ZMod 2) × (Fin observables → ZMod 2)

def effect (detectors observables column : Nat) : Outcome detectors observables :=
  (fun r => if m.detectorErrorMatrix.entry r column ≠ 0 then 1 else 0,
    fun r => if m.observablesFlipsMatrix.entry r column ≠ 0 then 1 else 0)

def jointProbability (detectors observables : Nat) (x : Outcome detectors observables) : ℚ :=
  outcomeProbability m.errorRates.length (fun i => m.errorRates.getD i 0)
    (m.effect detectors observables) x

def signature (column : Nat) : Signature :=
  (columnRows m.detectorErrorMatrix column, columnRows m.observablesFlipsMatrix column)

/-- One column for each error rate, and sizes that fit the `uint32_t` of row and column numbers. The
first row of a detector matrix is looked up, so it has a column unless there are no rows. -/
structure OneColumnPerRate : Prop where
  rank_detectors : m.detectorErrorMatrix.shape.length = 2
  rank_observables : m.observablesFlipsMatrix.shape.length = 2
  cols_detectors : m.detectorErrorMatrix.cols = m.errorRates.length
  cols_observables : m.observablesFlipsMatrix.cols = m.errorRates.length
  rows_detectors : m.detectorErrorMatrix.rows < 2 ^ 32
  rows_observables : m.observablesFlipsMatrix.rows < 2 ^ 32
  cols_le : m.errorRates.length ≤ 2 ^ 32
  cols_pos : m.detectorErrorMatrix.rows = 0 ∨ 0 < m.errorRates.length

/-! ## Rates -/

theorem combinedRate_eq (entries : List (Nat × ℚ)) :
    combinedRate entries = xorRates (entries.map Prod.snd) := by
  rw [combinedRate, xorRates, List.foldl_map]
  rfl

theorem addMass_perm {key : Nat} {entries : List (Nat × ℚ)} (h : key ∉ entries.map Prod.fst)
    (rate : ℚ) : (addMass key rate entries).Perm ((key, rate) :: entries) := by
  induction entries with
  | nil => exact .refl _
  | cons e entries ih =>
    obtain ⟨k, p⟩ := e
    simp only [List.map_cons, List.mem_cons, not_or] at h
    simp only [addMass]
    split
    · exact .refl _
    · rw [if_neg h.1]
      exact (List.Perm.cons _ (ih h.2)).trans (.swap _ _ _)

/-- A new exclusive set is XORed into the rate. -/
theorem combinedRate_addMass {key : Nat} {entries : List (Nat × ℚ)}
    (h : key ∉ entries.map Prod.fst) (rate : ℚ) :
    combinedRate (addMass key rate entries) = xorRate (combinedRate entries) rate := by
  have hperm : ((addMass key rate entries).map Prod.snd).Perm (entries.map Prod.snd ++ [rate]) := by
    refine ((addMass_perm h rate).map Prod.snd).trans ?_
    exact (List.perm_append_singleton _ _).symm
  rw [combinedRate_eq, xorRates_perm two_ne_zero hperm, xorRates_concat, ← combinedRate_eq]

theorem mem_keys_addMass {key k : Nat} {rate : ℚ} {entries : List (Nat × ℚ)}
    (h : k ∈ (addMass key rate entries).map Prod.fst) : k = key ∨ k ∈ entries.map Prod.fst := by
  induction entries with
  | nil => simpa [addMass] using h
  | cons e entries ih =>
    obtain ⟨k', p⟩ := e
    simp only [addMass] at h
    split at h
    · simpa using h
    · split at h
      · next heq =>
        right
        simpa using h
      · simp only [List.map_cons, List.mem_cons] at h ⊢
        rcases h with rfl | h
        · exact .inr (.inl rfl)
        · rcases ih h with h | h
          · exact .inl h
          · exact .inr (.inr h)

/-! ## Signatures -/

variable {m}

theorem effect_eq_iff_mem {column : Nat} :
    m.effect m.detectorErrorMatrix.rows m.observablesFlipsMatrix.rows column =
      (fun r => if r.val ∈ (m.signature column).1 then 1 else 0,
        fun r => if r.val ∈ (m.signature column).2 then 1 else 0) := by
  simp only [effect, signature, mem_columnRows, Fin.is_lt, true_and]

theorem effect_congr {c c' : Nat} (h : m.signature c = m.signature c') :
    m.effect m.detectorErrorMatrix.rows m.observablesFlipsMatrix.rows c =
      m.effect m.detectorErrorMatrix.rows m.observablesFlipsMatrix.rows c' := by
  rw [effect_eq_iff_mem, effect_eq_iff_mem, h]

theorem effect_eq_zero {c : Nat} (h : m.signature c = ([], [])) :
    m.effect m.detectorErrorMatrix.rows m.observablesFlipsMatrix.rows c = 0 := by
  rw [effect_eq_iff_mem, h]
  rfl

theorem effect_add_self (detectors observables column : Nat) :
    m.effect detectors observables column + m.effect detectors observables column = 0 := by
  have htwo : ∀ x : ZMod 2, x + x = 0 := by decide
  apply Prod.ext
  · funext r
    exact htwo _
  · funext r
    exact htwo _

/-! ## One column -/

section Merging

variable (h : m.OneColumnPerRate) (hids : m.errorIds = none)

def sparseRows (m : DetectorErrorModel) : List (List Nat) :=
  (List.range m.detectorErrorMatrix.cols).map (columnRows m.detectorErrorMatrix)

theorem getD_sparseRows {c : Nat} (hc : c < m.detectorErrorMatrix.cols) :
    m.sparseRows.getD c [] = columnRows m.detectorErrorMatrix c := by
  rw [sparseRows, getD_map_range, if_pos hc]

/-- What a column does to the merge. -/
def merged (m : DetectorErrorModel) (st : Merge) (column : Nat) : Merge :=
  if m.errorRates.getD column 0 = 0 ∨ m.signature column = ([], []) then st
  else
    match st.sigToOut.lookup (m.signature column) with
    | some i =>
      { st with
        outExclusive := st.outExclusive.modify i (addMass column (m.errorRates.getD column 0)) }
    | none =>
      { sigToOut := (m.signature column, st.outExclusive.length) :: st.sigToOut
        finalColumnOrder := st.finalColumnOrder ++ [column]
        outExclusive := st.outExclusive ++ [[(column, m.errorRates.getD column 0)]] }

include h hids in
theorem mergeColumn_eq {column : Nat} (hc : column < m.errorRates.length) (st : Merge) :
    m.mergeColumn m.sparseRows false st column = .ok (m.merged st column) := by
  have hrows : m.sparseRows.getD column [] = columnRows m.detectorErrorMatrix column :=
    getD_sparseRows (by rw [h.cols_detectors]; exact hc)
  have hobs : m.obsIndices column = .ok (columnRows m.observablesFlipsMatrix column) := by
    have hnum : m.numObservables = m.observablesFlipsMatrix.rows := by
      rw [numObservables, if_pos h.rank_observables]
    have hcheck : ¬ (0 < m.numObservables ∧ m.observablesFlipsMatrix.cols ≤ column) := by
      rw [h.cols_observables]
      omega
    rw [obsIndices, throwIf_of_not hcheck, ok_bind, hnum]
    apply congrArg Except.ok
    conv_rhs => rw [← List.map_id (columnRows m.observablesFlipsMatrix column)]
    apply List.map_congr_left
    intro r hr
    have := (mem_columnRows.mp hr).1
    exact u32_of_lt (lt_trans this h.rows_observables)
  have hkey : m.exclusiveKey column = column := by
    simp [exclusiveKey, hasErrorIds, hids]
  rw [mergeColumn, hobs, ok_bind, hrows]
  simp only [merged, signature, hkey, Prod.mk.injEq, Bool.false_eq_true, false_and, or_false]
  split
  · rfl
  · generalize st.sigToOut.lookup (columnRows m.detectorErrorMatrix column,
      columnRows m.observablesFlipsMatrix column) = found
    cases found <;> rfl

/-! ### The invariant -/

noncomputable def columnFactor (m : DetectorErrorModel) (rate : ℚ) (column : Nat) :
    AddMonoidAlgebra ℚ (Outcome m.detectorErrorMatrix.rows m.observablesFlipsMatrix.rows) :=
  factor rate (m.effect m.detectorErrorMatrix.rows m.observablesFlipsMatrix.rows column)

noncomputable def columnLaw (m : DetectorErrorModel) (columns : List Nat) :
    AddMonoidAlgebra ℚ (Outcome m.detectorErrorMatrix.rows m.observablesFlipsMatrix.rows) :=
  (columns.map fun c => m.columnFactor (m.errorRates.getD c 0) c).prod

/-- A merge of the columns `done`. -/
structure Merged (m : DetectorErrorModel) (done : List Nat) (st : Merge) : Prop where
  length_eq : st.finalColumnOrder.length = st.outExclusive.length
  sublist : st.finalColumnOrder.Sublist done
  keys : ∀ es ∈ st.outExclusive, ∀ k ∈ es.map Prod.fst, k ∈ done
  lookup : ∀ s i, st.sigToOut.lookup s = some i ↔
    ∃ c, st.finalColumnOrder[i]? = some c ∧ m.signature c = s
  nonempty : ∀ c ∈ st.finalColumnOrder, m.signature c ≠ ([], [])
  law_eq : m.columnLaw done = ∏ i ∈ Finset.range st.outExclusive.length,
    m.columnFactor (combinedRate (st.outExclusive.getD i [])) (st.finalColumnOrder.getD i 0)

theorem merged_empty (m : DetectorErrorModel) : m.Merged [] .empty where
  length_eq := rfl
  sublist := .refl _
  keys := by simp [Merge.empty]
  lookup := by simp [Merge.empty]
  nonempty := by simp [Merge.empty]
  law_eq := by simp [Merge.empty, columnLaw]

theorem columnLaw_concat (done : List Nat) (column : Nat) :
    m.columnLaw (done ++ [column]) =
      m.columnLaw done * m.columnFactor (m.errorRates.getD column 0) column := by
  simp [columnLaw]

variable {done : List Nat} {st : Merge} {column : Nat}

/-- A column that cannot occur, or that flips nothing. -/
theorem Merged.skip (inv : m.Merged done st)
    (hskip : m.errorRates.getD column 0 = 0 ∨ m.signature column = ([], [])) :
    m.Merged (done ++ [column]) st where
  length_eq := inv.length_eq
  sublist := inv.sublist.trans (List.sublist_append_left _ _)
  keys := fun es hes k hk => List.mem_append_left _ (inv.keys es hes k hk)
  lookup := inv.lookup
  nonempty := inv.nonempty
  law_eq := by
    have hone : m.columnFactor (m.errorRates.getD column 0) column = 1 := by
      rcases hskip with hrate | hsig
      · rw [hrate]
        exact factor_zero_rate _
      · rw [columnFactor, effect_eq_zero hsig]
        exact factor_zero_effect _
    rw [columnLaw_concat, hone, mul_one, inv.law_eq]

/-- A column whose signature is there already. -/
theorem Merged.join (inv : m.Merged done st) (hnew : column ∉ done) {i : Nat}
    (hi : st.sigToOut.lookup (m.signature column) = some i) :
    m.Merged (done ++ [column]) { st with
      outExclusive := st.outExclusive.modify i (addMass column (m.errorRates.getD column 0)) } where
  length_eq := by
    rw [List.length_modify]
    exact inv.length_eq
  sublist := inv.sublist.trans (List.sublist_append_left _ _)
  keys := by
    intro es hes k hk
    obtain ⟨j, hj, rfl⟩ := List.getElem_of_mem hes
    rw [List.length_modify] at hj
    rw [List.getElem_modify] at hk
    split at hk
    · rcases mem_keys_addMass hk with rfl | hk
      · simp
      · exact List.mem_append_left _ (inv.keys _ (List.getElem_mem hj) k hk)
    · exact List.mem_append_left _ (inv.keys _ (List.getElem_mem hj) k hk)
  lookup := inv.lookup
  nonempty := inv.nonempty
  law_eq := by
    obtain ⟨c, hc, hsig⟩ := (inv.lookup _ i).mp hi
    have hlt : i < st.outExclusive.length := by
      rw [← inv.length_eq]
      exact (List.getElem?_eq_some_iff.mp hc).1
    have hmem : i ∈ Finset.range st.outExclusive.length := Finset.mem_range.mpr hlt
    have hfinal : st.finalColumnOrder.getD i 0 = c := by
      rw [List.getD_eq_getElem?_getD, hc, Option.getD_some]
    -- the column was not merged before, so its mass is new to the class
    have hfresh : column ∉ (st.outExclusive.getD i []).map Prod.fst := by
      rw [List.getD_eq_getElem _ _ hlt]
      exact fun hk => hnew (inv.keys _ (List.getElem_mem hlt) column hk)
    have hself : (st.outExclusive.modify i (addMass column (m.errorRates.getD column 0))).getD i [] =
        addMass column (m.errorRates.getD column 0) (st.outExclusive.getD i []) := by
      rw [List.getD_eq_getElem _ _ (by rw [List.length_modify]; exact hlt), List.getElem_modify,
        if_pos rfl, List.getD_eq_getElem _ _ hlt]
    -- the factors of the other classes stay
    have hother : ∀ j ∈ (Finset.range st.outExclusive.length).erase i,
        m.columnFactor (combinedRate ((st.outExclusive.modify i
          (addMass column (m.errorRates.getD column 0))).getD j [])) (st.finalColumnOrder.getD j 0) =
        m.columnFactor (combinedRate (st.outExclusive.getD j [])) (st.finalColumnOrder.getD j 0) := by
      intro j hj
      obtain ⟨hne, hj⟩ := Finset.mem_erase.mp hj
      have hjlt := Finset.mem_range.mp hj
      rw [List.getD_eq_getElem _ _ (by rw [List.length_modify]; exact hjlt), List.getElem_modify,
        if_neg (Ne.symm hne), List.getD_eq_getElem _ _ hjlt]
    rw [columnLaw_concat, inv.law_eq, List.length_modify, ← Finset.mul_prod_erase _ _ hmem,
      ← Finset.mul_prod_erase _ _ hmem, Finset.prod_congr rfl hother, hself,
      combinedRate_addMass hfresh, hfinal]
    -- two columns of one signature act as one, at the rate at which exactly one of them fires
    have hmerge : m.columnFactor (xorRate (combinedRate (st.outExclusive.getD i []))
        (m.errorRates.getD column 0)) c =
          m.columnFactor (combinedRate (st.outExclusive.getD i [])) c *
            m.columnFactor (m.errorRates.getD column 0) column := by
      rw [columnFactor, columnFactor, columnFactor, effect_congr hsig.symm,
        factor_mul_factor (effect_add_self _ _ _)]
    rw [hmerge]
    ring

/-- A column with a new signature. -/
theorem Merged.fresh (inv : m.Merged done st) (hsig : m.signature column ≠ ([], []))
    (hnone : st.sigToOut.lookup (m.signature column) = none) :
    m.Merged (done ++ [column])
      { sigToOut := (m.signature column, st.outExclusive.length) :: st.sigToOut
        finalColumnOrder := st.finalColumnOrder ++ [column]
        outExclusive := st.outExclusive ++ [[(column, m.errorRates.getD column 0)]] } where
  -- the column is appended everywhere: the signature points at the last place
  length_eq := by simp [inv.length_eq]
  sublist := inv.sublist.append (.refl _)
  keys := by
    intro es hes k hk
    rcases List.mem_append.mp hes with hes | hes
    · exact List.mem_append_left _ (inv.keys es hes k hk)
    · rw [List.mem_singleton.mp hes] at hk
      simpa using Or.inr hk
  lookup := by
    intro s i
    rw [List.lookup_cons]
    by_cases hs : s = m.signature column
    · subst hs
      simp only [beq_self_eq_true, Option.some.injEq]
      constructor
      · rintro rfl
        exact ⟨column, by rw [← inv.length_eq, List.getElem?_concat_length], rfl⟩
      · rintro ⟨c, hc, hcs⟩
        by_contra hne
        have hold : st.finalColumnOrder[i]? = some c := by
          rw [List.getElem?_append] at hc
          split at hc
          · exact hc
          · have hlen := (List.getElem?_eq_some_iff.mp hc).1
            simp only [List.length_singleton] at hlen
            have := inv.length_eq
            omega
        have := (inv.lookup (m.signature column) i).mpr ⟨c, hold, hcs⟩
        rw [hnone] at this
        cases this
    · rw [beq_false_of_ne hs, inv.lookup]
      constructor
      · rintro ⟨c, hc, hcs⟩
        have hlt := (List.getElem?_eq_some_iff.mp hc).1
        exact ⟨c, by rw [List.getElem?_append_left hlt]; exact hc, hcs⟩
      · rintro ⟨c, hc, hcs⟩
        rw [List.getElem?_append] at hc
        split at hc
        · exact ⟨c, hc, hcs⟩
        · have hlast := List.mem_of_getElem? hc
          rw [List.mem_singleton] at hlast
          rw [hlast] at hcs
          exact absurd hcs.symm hs
  nonempty := by
    intro c hc
    rcases List.mem_append.mp hc with hc | hc
    · exact inv.nonempty c hc
    · rw [List.mem_singleton.mp hc]
      exact hsig
  -- the law gains one factor, that of the new column by itself
  law_eq := by
    have hold : ∀ i ∈ Finset.range st.outExclusive.length,
        m.columnFactor (combinedRate ((st.outExclusive ++
          [[(column, m.errorRates.getD column 0)]]).getD i []))
          ((st.finalColumnOrder ++ [column]).getD i 0) =
        m.columnFactor (combinedRate (st.outExclusive.getD i [])) (st.finalColumnOrder.getD i 0) := by
      intro i hi
      have hlt := Finset.mem_range.mp hi
      rw [getD_append_ite, if_pos hlt, getD_append_ite, if_pos (by rw [inv.length_eq]; exact hlt)]
    have hrate : combinedRate [(column, m.errorRates.getD column 0)] = m.errorRates.getD column 0 := by
      simp [combinedRate]
    rw [columnLaw_concat, List.length_append, List.length_singleton, Finset.prod_range_succ,
      Finset.prod_congr rfl hold, inv.law_eq, getD_append_ite, if_neg (lt_irrefl _), Nat.sub_self,
      getD_append_ite, if_neg (by rw [inv.length_eq]; exact lt_irrefl _), inv.length_eq, Nat.sub_self]
    simp only [List.getD_cons_zero, hrate]

theorem Merged.step (inv : m.Merged done st) (hnew : column ∉ done) :
    m.Merged (done ++ [column]) (m.merged st column) := by
  unfold merged
  split
  · next hskip => exact inv.skip hskip
  · next hkeep =>
    rw [not_or] at hkeep
    split
    · next i hi => exact inv.join hnew hi
    · next hnone => exact inv.fresh hkeep.2 hnone

theorem merged_foldl (m : DetectorErrorModel) {columns : List Nat} (hnodup : columns.Nodup) :
    m.Merged columns (columns.foldl m.merged .empty) := by
  induction columns using List.reverseRecOn with
  | nil => exact merged_empty m
  | append_singleton columns column ih =>
    rw [List.nodup_append] at hnodup
    have hnew : column ∉ columns := fun hmem => hnodup.2.2 column hmem column (by simp) rfl
    rw [List.foldl_append]
    exact (ih hnodup.1).step hnew

include h hids in
theorem foldlM_mergeColumn {columns : List Nat} (hlt : ∀ c ∈ columns, c < m.errorRates.length) :
    columns.foldlM (m.mergeColumn m.sparseRows false) .empty =
      .ok (columns.foldl m.merged .empty) := by
  apply foldlM_eq_ok_of_step (s := fun done => done.foldl m.merged .empty)
  intro done column rest hcolumns
  rw [mergeColumn_eq h hids (hlt column (by simp [hcolumns])), List.foldl_append]
  rfl

end Merging

/-! ## The canonical form -/

/-- The result of the canonicalization, with columns in the order that `sorted` returns. -/
structure Canonical (m m' : DetectorErrorModel)
    (sorted : List (List Nat) → Except Error (List Nat)) : Prop where
  rows_detectors : m'.detectorErrorMatrix.rows = m.detectorErrorMatrix.rows
  rows_observables : m'.observablesFlipsMatrix.rows = m.observablesFlipsMatrix.rows
  cols_detectors : m'.detectorErrorMatrix.cols = m'.errorRates.length
  cols_observables : m'.observablesFlipsMatrix.cols = m'.errorRates.length
  jointProbability_eq : ∀ x, m'.jointProbability m.detectorErrorMatrix.rows
      m.observablesFlipsMatrix.rows x =
    m.jointProbability m.detectorErrorMatrix.rows m.observablesFlipsMatrix.rows x
  nodup : ((List.range m'.errorRates.length).map m'.signature).Nodup
  nonempty : ∀ j < m'.errorRates.length, m'.signature j ≠ ([], [])
  sorted_eq : sorted m'.sparseRows = .ok (List.range m'.errorRates.length)

def ofMerge (m : DetectorErrorModel) (st : Merge) : DetectorErrorModel where
  detectorErrorMatrix := .ofEntries m.detectorErrorMatrix.rows st.finalColumnOrder.length
    fun r j => m.detectorErrorMatrix.entry r (st.finalColumnOrder.getD j 0)
  errorRates := st.outExclusive.map combinedRate
  observablesFlipsMatrix := .ofEntries m.observablesFlipsMatrix.rows st.finalColumnOrder.length
    fun r j => m.observablesFlipsMatrix.entry r (st.finalColumnOrder.getD j 0)
  errorIds := none

theorem signature_ofMerge {st : Merge} {j : Nat} (hj : j < st.finalColumnOrder.length) :
    (m.ofMerge st).signature j = m.signature (st.finalColumnOrder.getD j 0) := by
  rw [signature, signature]
  exact Prod.ext (columnRows_reorder hj) (columnRows_reorder hj)

/-- The distribution of a model, as a product. -/
theorem jointProbability_eq_coeff (m : DetectorErrorModel) (detectors observables : Nat)
    (x : Outcome detectors observables) :
    m.jointProbability detectors observables x =
      (∏ i ∈ Finset.range m.errorRates.length,
        factor (m.errorRates.getD i 0) (m.effect detectors observables i)).coeff x := by
  rw [← law_map_range, coeff_law, jointProbability]

variable {columns : List Nat} {st : Merge} {round : Nat → Nat}

theorem jointProbability_ofMerge (hperm : columns.Perm (List.range m.errorRates.length))
    (inv : m.Merged columns st)
    (x : Outcome m.detectorErrorMatrix.rows m.observablesFlipsMatrix.rows) :
    (m.ofMerge st).jointProbability m.detectorErrorMatrix.rows m.observablesFlipsMatrix.rows x =
      m.jointProbability m.detectorErrorMatrix.rows m.observablesFlipsMatrix.rows x := by
  have hlaw : m.columnLaw columns = ∏ i ∈ Finset.range m.errorRates.length,
      m.columnFactor (m.errorRates.getD i 0) i := by
    rw [columnLaw, (hperm.map _).prod_eq]
    rfl
  have hlen : (m.ofMerge st).errorRates.length = st.outExclusive.length := List.length_map _
  rw [jointProbability_eq_coeff, jointProbability_eq_coeff]
  congr 2
  refine Eq.trans ?_ hlaw
  rw [inv.law_eq, hlen]
  apply Finset.prod_congr rfl
  intro i hi
  have hi' := Finset.mem_range.mp hi
  have hcol : i < st.finalColumnOrder.length := by
    rw [inv.length_eq]
    exact hi'
  have hrate : (m.ofMerge st).errorRates.getD i 0 = combinedRate (st.outExclusive.getD i []) := by
    rw [ofMerge, List.getD_eq_getElem _ _ (by rw [List.length_map]; exact hi'), List.getElem_map,
      List.getD_eq_getElem _ _ hi']
  have heffect : (m.ofMerge st).effect m.detectorErrorMatrix.rows m.observablesFlipsMatrix.rows i =
      m.effect m.detectorErrorMatrix.rows m.observablesFlipsMatrix.rows
        (st.finalColumnOrder.getD i 0) := by
    apply Prod.ext
    · funext r
      simp only [effect, ofMerge, Tensor.entry_ofEntries _ _ _ r.isLt hcol]
    · funext r
      simp only [effect, ofMerge, Tensor.entry_ofEntries _ _ _ r.isLt hcol]
  rw [columnFactor, hrate, heffect]

theorem Merged.nodup_signature (inv : m.Merged columns st) :
    ((List.range st.finalColumnOrder.length).map fun j =>
      m.signature (st.finalColumnOrder.getD j 0)).Nodup := by
  apply List.Nodup.map_on _ List.nodup_range
  intro i hi j hj heq
  have hlookup : ∀ k, k ∈ List.range st.finalColumnOrder.length →
      st.sigToOut.lookup (m.signature (st.finalColumnOrder.getD k 0)) = some k := by
    intro k hk
    have hk' := List.mem_range.mp hk
    rw [inv.lookup]
    exact ⟨_, by rw [List.getElem?_eq_getElem hk', List.getD_eq_getElem _ _ hk'], rfl⟩
  have hi' := hlookup i hi
  rw [heq, hlookup j hj, Option.some.injEq] at hi'
  exact hi'.symm

/-- The kept columns come in the order they were marched through. -/
theorem sortedColumns_ofMerge (inv : m.Merged (sortedColumns m.sparseRows round) st)
    (hcols : ∀ c ∈ st.finalColumnOrder, c < m.detectorErrorMatrix.cols) :
    sortedColumns (m.ofMerge st).sparseRows round = List.range st.finalColumnOrder.length := by
  have hrows : (m.ofMerge st).sparseRows =
      st.finalColumnOrder.map fun c => m.sparseRows.getD c [] := by
    apply List.ext_getElem (by simp [sparseRows, ofMerge])
    intro j hj _
    have hj' : j < st.finalColumnOrder.length := by simpa [sparseRows, ofMerge] using hj
    have hrow : (m.ofMerge st).sparseRows[j] =
        columnRows m.detectorErrorMatrix (st.finalColumnOrder.getD j 0) := by
      simp only [sparseRows, List.getElem_map, List.getElem_range]
      exact columnRows_reorder hj'
    rw [hrow, List.getElem_map, getD_sparseRows (hcols _ (List.getElem_mem hj')),
      List.getD_eq_getElem _ _ hj']
  have hlen : (m.ofMerge st).sparseRows.length = st.finalColumnOrder.length := by
    rw [hrows, List.length_map]
  rw [← hlen]
  apply sortedColumns_eq_range
  rw [hrows, List.pairwise_map]
  exact (pairwise_sortedColumns m.sparseRows round).sublist inv.sublist

section Main

variable (h : m.OneColumnPerRate) (hids : m.errorIds = none)

include h hids

/-- Both overloads come down to an order of the columns. -/
theorem canonicalizeForRoundsImpl_eq {sorted : List (List Nat) → Except Error (List Nat)}
    {round : Nat → Nat}
    (hsorted : ∀ rows, rows.length ≤ 2 ^ 32 → sorted rows = .ok (sortedColumns rows round)) :
    ∃ m', m.canonicalizeForRoundsImpl m.sparseRows (sortedColumns m.sparseRows round) false =
        .ok m' ∧ Canonical m m' sorted := by
  have hlen : m.sparseRows.length = m.errorRates.length := by
    simp [sparseRows, h.cols_detectors]
  have hperm : (sortedColumns m.sparseRows round).Perm (List.range m.errorRates.length) := by
    rw [← hlen]
    exact sortedColumns_perm _ _
  have hlt : ∀ c ∈ sortedColumns m.sparseRows round, c < m.errorRates.length :=
    fun c hc => List.mem_range.mp (hperm.mem_iff.mp hc)
  have inv := merged_foldl m (hperm.nodup_iff.mpr List.nodup_range)
  -- the loop with its checks is the fold without them, as every column is in range
  have hmerge := foldlM_mergeColumn h hids hlt
  generalize (sortedColumns m.sparseRows round).foldl m.merged .empty = st at inv hmerge
  have hfinal : ∀ c ∈ st.finalColumnOrder, c < m.errorRates.length :=
    fun c hc => hlt c (inv.sublist.subset hc)
  have hdet := reorderPcmColumns_eq h.rank_detectors h.rows_detectors
    (fun c hc => by rw [h.cols_detectors]; exact hfinal c hc)
  have hobs := reorderPcmColumns_eq h.rank_observables h.rows_observables
    (fun c hc => by rw [h.cols_observables]; exact hfinal c hc)
  have hno : m.hasErrorIds = false := by simp [hasErrorIds, hids]
  refine ⟨m.ofMerge st, ?_, ?_⟩
  · rw [canonicalizeForRoundsImpl, throwIf_of_not (by omega), ok_bind, hmerge, ok_bind, hdet,
      ok_bind, hobs, ok_bind, hno, hids]
    rfl
  · have hrates : (m.ofMerge st).errorRates.length = st.finalColumnOrder.length := by
      rw [inv.length_eq]
      exact List.length_map _
    refine ⟨rfl, rfl, hrates.symm, hrates.symm, jointProbability_ofMerge hperm inv, ?_, ?_, ?_⟩
    · rw [hrates]
      -- no two columns that are kept have the same signature
      have hsig := inv.nodup_signature
      rwa [← List.map_congr_left fun j hj => signature_ofMerge (List.mem_range.mp hj)] at hsig
    · intro j hj
      rw [hrates] at hj
      rw [signature_ofMerge hj, List.getD_eq_getElem _ _ hj]
      exact inv.nonempty _ (List.getElem_mem hj)
    -- the order was one already, so sorting the kept columns again changes nothing
    · have hfits : (m.ofMerge st).sparseRows.length ≤ 2 ^ 32 := by
        have hkept : st.finalColumnOrder.length ≤ (sortedColumns m.sparseRows round).length :=
          inv.sublist.length_le
        have hcols := h.cols_le
        rw [hperm.length_eq, List.length_range] at hkept
        rw [sparseRows, List.length_map, List.length_range]
        exact hkept.trans hcols
      rw [hsorted _ hfits, hrates, sortedColumns_ofMerge inv]
      intro c hc
      rw [h.cols_detectors]
      exact hfinal c hc

/-- Canonicalization keeps the distribution, with distinct signatures in topological order. -/
theorem canonicalizeForRounds_model (S : Nat) :
    (∃ m', m.canonicalizeForRounds S false = .ok m' ∧
      Canonical m m' fun rows => .ok (getSortedPcmColumnIndicesForRounds rows S)) ∧
    ∀ B, 0 < S → B ≤ S →
      ∃ m', m.canonicalizeForRoundsWithBoundary S B false = .ok m' ∧
        Canonical m m' fun rows => getSortedPcmColumnIndices rows S B := by
  have hsparse : denseToSparse m.detectorErrorMatrix = .ok m.sparseRows := by
    apply denseToSparse_eq h.rank_detectors h.rows_detectors.le
    rw [h.cols_detectors]
    exact h.cols_pos
  have hfits : m.sparseRows.length ≤ 2 ^ 32 := by
    simpa [sparseRows, h.cols_detectors] using h.cols_le
  constructor
  · have horder : ∀ rows : List (List Nat), rows.length ≤ 2 ^ 32 →
        getSortedPcmColumnIndicesForRounds rows S =
          sortedColumns rows (roundKey (0 < S) (· / S)) := fun _ => sortedPcmColumnIndicesImpl_eq
    rw [canonicalizeForRounds, hsparse, ok_bind, horder _ hfits]
    exact canonicalizeForRoundsImpl_eq h hids fun rows hrows => congrArg _ (horder rows hrows)
  · intro B hS hB
    have horder : ∀ rows : List (List Nat), rows.length ≤ 2 ^ 32 →
        getSortedPcmColumnIndices rows S B =
          .ok (sortedColumns rows (roundKey true (roundOf S B))) := by
      intro rows hrows
      rw [getSortedPcmColumnIndices_eq (by omega) (by omega), sortedPcmColumnIndicesImpl_eq hrows]
    rw [canonicalizeForRoundsWithBoundary, throwIf_of_not (by omega), ok_bind, hsparse, ok_bind,
      horder _ hfits, ok_bind]
    exact canonicalizeForRoundsImpl_eq h hids horder

end Main

def twoErrors : DetectorErrorModel where
  detectorErrorMatrix := ⟨[1, 2], [1, 1], rfl⟩
  errorRates := [1 / 10, 1 / 5]
  observablesFlipsMatrix := ⟨[0, 2], [], rfl⟩
  errorIds := none

theorem oneColumnPerRate_twoErrors : twoErrors.OneColumnPerRate :=
  ⟨rfl, rfl, rfl, rfl, by decide, by decide, by decide, .inr (by decide)⟩

theorem canonicalizeForRounds_model_twoErrors :
    twoErrors.OneColumnPerRate ∧ twoErrors.errorIds = none ∧
      (∃ m', twoErrors.canonicalizeForRounds 1 false = .ok m' ∧
        Canonical twoErrors m' fun rows => .ok (getSortedPcmColumnIndicesForRounds rows 1)) ∧
      ∃ m', twoErrors.canonicalizeForRoundsWithBoundary 1 1 false = .ok m' ∧
        Canonical twoErrors m' fun rows => getSortedPcmColumnIndices rows 1 1 :=
  ⟨oneColumnPerRate_twoErrors, rfl,
    (canonicalizeForRounds_model oneColumnPerRate_twoErrors rfl 1).1,
    (canonicalizeForRounds_model oneColumnPerRate_twoErrors rfl 1).2 1 (by decide) (by decide)⟩

/-- With no syndromes per round the overload with a boundary throws, though a boundary of width 0 is
no wider. -/
theorem canonicalizeForRoundsWithBoundary_throws :
    twoErrors.OneColumnPerRate ∧ twoErrors.errorIds = none ∧
      ¬ ∃ m', twoErrors.canonicalizeForRoundsWithBoundary 0 0 false = .ok m' := by
  refine ⟨oneColumnPerRate_twoErrors, rfl, ?_⟩
  rintro ⟨m', hm⟩
  rw [canonicalizeForRoundsWithBoundary, throwIf_of_not (by decide), ok_bind, bind_eq_ok] at hm
  obtain ⟨rows, -, hm⟩ := hm
  rw [getSortedPcmColumnIndices, throwIf_of rfl, error_bind, error_bind] at hm
  cases hm

end DetectorErrorModel

end CudaqQec.Dem
