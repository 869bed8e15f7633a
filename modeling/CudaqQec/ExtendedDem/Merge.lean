import CudaqQec.ExtendedDem.Basic
import CudaqQec.Lib.Mechanisms
import CudaqQec.Lib.SortedMap
import Mathlib.Data.List.Lex
import Mathlib.Algebra.Field.Rat
import Mathlib.Data.Fintype.Pi
import Mathlib.Tactic.Linarith
import Mathlib.Algebra.Field.ZMod

/-!
# Merging duplicate columns

`dem_merge_duplicate_columns`: columns are told apart by their rows in `H` followed by their rows in `O`,
which are counted on from those of `H` as a `uint32_t`. As long as that tells all of them apart, the
merged chunk has the columns and the distribution of the chunk it comes from (`mergedFrom_iff`).
-/

namespace CudaqQec

open Checked

/-! ## The model -/

inductive PriorCombineMode where
  | orCombine
  | sumCombine
  deriving DecidableEq

/-- `canonical_columns`: the rows that each column sets. -/
def canonicalColumns (mat : SparseBinaryMatrix) : List (List Nat) :=
  match mat.layout with
  | .csc => mat.canonicalize.toNestedCsc
  | .csr => mat.toCsc.canonicalize.toNestedCsc

structure ColumnGroup where
  representative : Nat
  accumulator : ℚ
  members : Nat

def ColumnGroup.add (g : ColumnGroup) (mode : PriorCombineMode) (term : ℚ) : ColumnGroup :=
  { g with
    accumulator := match mode with
      | .orCombine => g.accumulator * term
      | .sumCombine => g.accumulator + term
    members := g.members + 1 }

namespace ExtendedDem

variable (d : ExtendedDem)

/-- `H_cols`. -/
def hColumns : List (List Nat) := canonicalColumns d.H

/-- `O_cols`: a chunk with no observables may have no columns in `O` at all. -/
def oColumns : List (List Nat) :=
  if canonicalColumns d.O = [] then List.replicate d.numFaults [] else canonicalColumns d.O

/-- The flat support of a column: its rows of `H`, then those of `O`. -/
def flatSupport (j : Nat) : List Nat :=
  d.hColumns.getD j [] ++ (d.oColumns.getD j []).map fun r => u32 (d.numRows + r)

def rateTerm (mode : PriorCombineMode) (j : Nat) : ℚ :=
  match mode with
  | .orCombine => 1 - 2 * d.errorRates.getD j 0
  | .sumCombine => d.errorRates.getD j 0

def supMap (mode : PriorCombineMode) : List (List Nat × ColumnGroup) :=
  SortedMap.group d.flatSupport (fun j => ⟨j, d.rateTerm mode j, 1⟩)
    (fun j g => g.add mode (d.rateTerm mode j)) (List.range d.numFaults)

def groupRate (mode : PriorCombineMode) (g : ColumnGroup) : ℚ :=
  if g.members = 1 then d.errorRates.getD g.representative 0
  else
    match mode with
    | .orCombine => 1 / 2 * (1 - g.accumulator)
    | .sumCombine => min 1 g.accumulator

def demMergeDuplicateColumns (mode : PriorCombineMode) : Except Error ExtendedDem := do
  d.validate "dem_merge_duplicate_columns"
  if d.numFaults = 0 then return d
  else do
    let groups := (d.supMap mode).map Prod.snd
    let H ← SparseBinaryMatrix.fromNestedCsc d.numRows groups.length
      (groups.map fun g => d.hColumns.getD g.representative [])
    let O ← SparseBinaryMatrix.fromNestedCsc d.numObservables groups.length
      (groups.map fun g => d.oColumns.getD g.representative [])
    return { d with H := H, O := O, errorRates := groups.map (d.groupRate mode) }

@[grind =] def allNew (seen : List (List Nat)) : List (List Nat) → Bool
  | [] => true
  | sup :: sups => if sup ∈ seen then false else allNew (sup :: seen) sups

def areDemColumnsUnique : Except Error Bool := do
  d.validate "are_dem_columns_unique"
  return allNew [] ((List.range d.numFaults).map d.flatSupport)

/-! ## What the model says -/

abbrev Flips (rows observables : Nat) : Type := (Fin rows → ZMod 2) × (Fin observables → ZMod 2)

def support (j : Nat) : (Nat → Bool) × (Nat → Bool) := (fun r => d.H.entry r j, fun r => d.O.entry r j)

def flips (rows observables j : Nat) : Flips rows observables :=
  (fun r => if d.H.entry r j then 1 else 0, fun r => if d.O.entry r j then 1 else 0)

def jointProbability (rows observables : Nat) (x : Flips rows observables) : ℚ :=
  Mechanisms.outcomeProbability d.numFaults (fun j => d.errorRates.getD j 0)
    (d.flips rows observables) x

/-- `m` is a merged form of `d`. -/
structure MergedFrom (d m : ExtendedDem) : Prop where
  numRows_eq : m.numRows = d.numRows
  jointProbability_eq : ∀ x, m.jointProbability d.numRows d.numObservables x =
    d.jointProbability d.numRows d.numObservables x
  unique : m.areDemColumnsUnique = .ok true
  supports : ∀ s, (∃ k < m.numFaults, m.support k = s) ↔ ∃ j < d.numFaults, d.support j = s
  seams : m.seams = d.seams
  tags : m.tags = d.tags
  again : m.demMergeDuplicateColumns .orCombine = .ok m

/-- Columns with different entries have different flat supports. -/
def TellsApart : Prop :=
  ∀ i < d.numFaults, ∀ j < d.numFaults, d.flatSupport i = d.flatSupport j → d.support i = d.support j

def flatSupports : List (List Nat) := ((List.range d.numFaults).map d.flatSupport).dedup

def FewSupports : Prop := d.flatSupports.length < uint32Max

instance : Decidable d.FewSupports := inferInstanceAs (Decidable (_ < _))

end ExtendedDem

/-! ## Canonical columns -/

theorem canonicalColumns_eq (mat : SparseBinaryMatrix) :
    canonicalColumns mat = mat.toNestedCsc.map canonicalGroup := by
  have hcsc : ∀ m : SparseBinaryMatrix, m.layout = .csc →
      m.canonicalize.toNestedCsc = m.groups.map canonicalGroup := by
    intro m hm
    unfold SparseBinaryMatrix.toNestedCsc
    rw [SparseBinaryMatrix.canonicalize_layout, hm]
    rfl
  unfold canonicalColumns
  split
  · next h =>
    rw [hcsc mat h, SparseBinaryMatrix.toNestedCsc, h]
  · next h =>
    rw [hcsc _ (SparseBinaryMatrix.toCsc_layout mat), SparseBinaryMatrix.groups_toCsc]

theorem getD_canonicalColumns (mat : SparseBinaryMatrix) (j : Nat) :
    (canonicalColumns mat).getD j [] = canonicalGroup (mat.toNestedCsc.getD j []) := by
  rw [canonicalColumns_eq, List.getD_eq_getElem?_getD, List.getElem?_map, List.getD_eq_getElem?_getD]
  cases mat.toNestedCsc[j]? <;> rfl

theorem mem_canonicalColumns {mat : SparseBinaryMatrix} {j r : Nat} :
    r ∈ (canonicalColumns mat).getD j [] ↔ mat.entry r j = true := by
  rw [getD_canonicalColumns, mem_canonicalGroup, SparseBinaryMatrix.count_toNestedCsc,
    SparseBinaryMatrix.entry, decide_eq_true_eq]

theorem canonicalGroup_of_sortedLT {g : List Nat} (h : g.SortedLT) : canonicalGroup g = g := by
  apply (sortedLT_canonicalGroup g).eq_of_mem_iff h
  intro i
  rw [mem_canonicalGroup]
  have hnodup : g.Nodup := h.pairwise.imp ne_of_lt
  by_cases hi : i ∈ g
  · simp [hi, List.count_eq_one_of_mem hnodup hi]
  · simp [hi, List.count_eq_zero_of_not_mem hi]

theorem getD_canonicalColumns_congr {mat mat' : SparseBinaryMatrix} {i j : Nat}
    (h : ∀ r, mat.entry r i = mat'.entry r j) :
    (canonicalColumns mat).getD i [] = (canonicalColumns mat').getD j [] := by
  rw [getD_canonicalColumns, getD_canonicalColumns]
  apply (sortedLT_canonicalGroup _).eq_of_mem_iff (sortedLT_canonicalGroup _)
  intro r
  rw [← getD_canonicalColumns, ← getD_canonicalColumns, mem_canonicalColumns, mem_canonicalColumns, h r]

/-- A matrix that stores its columns in canonical form. -/
theorem entry_of_groups {mat : SparseBinaryMatrix} (hlayout : mat.layout = .csc) {j : Nat}
    (hsorted : (mat.groups.getD j []).SortedLT) (r : Nat) :
    mat.entry r j = true ↔ r ∈ mat.groups.getD j [] := by
  have hcount : mat.count r j = (mat.groups.getD j []).count r := by
    rw [SparseBinaryMatrix.count, hlayout]
  rw [SparseBinaryMatrix.entry, decide_eq_true_eq, hcount, ← mem_canonicalGroup,
    canonicalGroup_of_sortedLT hsorted]

namespace ExtendedDem

variable (d : ExtendedDem)

theorem getD_oColumns (j : Nat) : d.oColumns.getD j [] = (canonicalColumns d.O).getD j [] := by
  unfold oColumns
  split
  · next h => rw [h, getD_replicate_self]; rfl
  · rfl

theorem mem_hColumns {j r : Nat} : r ∈ d.hColumns.getD j [] ↔ d.H.entry r j = true :=
  mem_canonicalColumns

theorem mem_oColumns {j r : Nat} : r ∈ d.oColumns.getD j [] ↔ d.O.entry r j = true := by
  rw [getD_oColumns]
  exact mem_canonicalColumns

theorem sortedLT_hColumns (j : Nat) : (d.hColumns.getD j []).SortedLT := by
  rw [hColumns, getD_canonicalColumns]
  exact sortedLT_canonicalGroup _

theorem sortedLT_oColumns (j : Nat) : (d.oColumns.getD j []).SortedLT := by
  rw [getD_oColumns, getD_canonicalColumns]
  exact sortedLT_canonicalGroup _

theorem flatSupport_congr {d m : ExtendedDem} {i j : Nat} (hrows : m.numRows = d.numRows)
    (h : m.support i = d.support j) : m.flatSupport i = d.flatSupport j := by
  have hH : ∀ r, m.H.entry r i = d.H.entry r j := congrFun (congrArg Prod.fst h)
  have hO : ∀ r, m.O.entry r i = d.O.entry r j := congrFun (congrArg Prod.snd h)
  rw [flatSupport, flatSupport, getD_oColumns, getD_oColumns, getD_canonicalColumns_congr hO, hrows]
  congr 1
  exact getD_canonicalColumns_congr hH

/-! ## The groups -/

section Groups

variable (mode : PriorCombineMode)

theorem foldl_add_members (rest : List Nat) (g : ColumnGroup) :
    (rest.foldl (fun g j => g.add mode (d.rateTerm mode j)) g).representative = g.representative ∧
      (rest.foldl (fun g j => g.add mode (d.rateTerm mode j)) g).members = g.members + rest.length := by
  induction rest generalizing g with
  | nil => exact ⟨rfl, rfl⟩
  | cons j rest ih =>
    obtain ⟨hrep, hmembers⟩ := ih (g.add mode (d.rateTerm mode j))
    refine ⟨hrep, hmembers.trans ?_⟩
    rw [List.length_cons]
    change g.members + 1 + rest.length = _
    omega

theorem foldl_add_accumulator (rest : List Nat) (g : ColumnGroup) :
    (rest.foldl (fun g j => g.add .orCombine (d.rateTerm .orCombine j)) g).accumulator =
      g.accumulator * (rest.map fun j => 1 - 2 * d.errorRates.getD j 0).prod := by
  induction rest generalizing g with
  | nil => rw [List.map_nil, List.prod_nil, mul_one]; rfl
  | cons j rest ih =>
    rw [List.foldl_cons, ih, List.map_cons, List.prod_cons, ← mul_assoc]
    rfl

variable {d mode}

/-- A group is the columns of one flat support, its representative the first of them. -/
theorem group_of_mem {k : List Nat} {g : ColumnGroup} (h : (k, g) ∈ d.supMap mode) :
    ∃ i rest, (List.range d.numFaults).filter (fun j => d.flatSupport j = k) = i :: rest ∧
      g = rest.foldl (fun g j => g.add mode (d.rateTerm mode j)) ⟨i, d.rateTerm mode i, 1⟩ := by
  have hlookup : SortedMap.fold (fun j => (⟨j, d.rateTerm mode j, 1⟩ : ColumnGroup))
      (fun j g => g.add mode (d.rateTerm mode j))
      ((List.range d.numFaults).filter fun j => d.flatSupport j = k) = some g := by
    have hmem := (SortedMap.sorted_group _ _ _ _).mem_iff.mp h
    rw [SortedMap.lookup_group] at hmem
    convert hmem
  cases hitems : (List.range d.numFaults).filter fun j => d.flatSupport j = k with
  | nil =>
    rw [hitems] at hlookup
    cases hlookup
  | cons i rest =>
    rw [hitems] at hlookup
    exact ⟨i, rest, rfl, (Option.some.inj hlookup).symm⟩

theorem representative_of_mem {k : List Nat} {g : ColumnGroup} (h : (k, g) ∈ d.supMap mode) :
    g.representative < d.numFaults ∧ d.flatSupport g.representative = k := by
  obtain ⟨i, rest, hitems, rfl⟩ := group_of_mem h
  have hi : i ∈ (List.range d.numFaults).filter fun j => d.flatSupport j = k := by
    rw [hitems]
    simp
  rw [(foldl_add_members d mode rest _).1]
  simpa using hi

theorem groupRate_of_mem {k : List Nat} {g : ColumnGroup} (h : (k, g) ∈ d.supMap .orCombine) :
    d.groupRate .orCombine g = Mechanisms.xorRates
      (((List.range d.numFaults).filter fun j => d.flatSupport j = k).map
        fun j => d.errorRates.getD j 0) := by
  obtain ⟨i, rest, hitems, rfl⟩ := group_of_mem h
  have hterm := Mechanisms.one_sub_two_mul_foldl
    (((i :: rest).map fun j => d.errorRates.getD j 0)) (0 : ℚ)
  rw [List.map_map, mul_zero, sub_zero, one_mul] at hterm
  rw [hitems, groupRate, (foldl_add_members d .orCombine rest _).1,
    (foldl_add_members d .orCombine rest _).2, foldl_add_accumulator]
  split
  · next hone =>
    have hrest : rest = [] := List.eq_nil_of_length_eq_zero (by simpa using hone)
    subst hrest
    change _ = Mechanisms.xorRate 0 _
    rw [Mechanisms.xorRate]
    ring
  · have hacc : d.rateTerm .orCombine i * (rest.map fun j => 1 - 2 * d.errorRates.getD j 0).prod =
        ((i :: rest).map ((fun q => 1 - 2 * q) ∘ fun j => d.errorRates.getD j 0)).prod := rfl
    simp only [hacc, ← hterm]
    change _ = List.foldl _ _ _
    ring

variable (d mode)

theorem nodup_keys : ((d.supMap mode).map Prod.fst).Nodup :=
  (SortedMap.sorted_group _ _ _ _).imp ne_of_lt

/-! ## The columns that are kept -/

def kept : List Nat := (d.supMap mode).map fun e => e.2.representative

theorem map_flatSupport_kept :
    (d.kept mode).map d.flatSupport = (d.supMap mode).map Prod.fst := by
  rw [kept, List.map_map]
  apply List.map_congr_left
  rintro ⟨k, g⟩ hkg
  exact (representative_of_mem hkg).2

theorem nodup_kept : (d.kept mode).Nodup := by
  have h := nodup_keys d mode
  rw [← map_flatSupport_kept] at h
  exact h.of_map _

theorem lt_of_mem_kept {j : Nat} (h : j ∈ d.kept mode) : j < d.numFaults := by
  obtain ⟨⟨k, g⟩, hkg, rfl⟩ := List.mem_map.mp h
  exact (representative_of_mem hkg).1

theorem exists_kept {j : Nat} (h : j < d.numFaults) :
    ∃ i ∈ d.kept mode, d.flatSupport i = d.flatSupport j := by
  have hkey : d.flatSupport j ∈ (d.supMap mode).map Prod.fst :=
    (SortedMap.mem_keys_group _ _ _ _).mpr ⟨j, List.mem_range.mpr h, rfl⟩
  rw [← map_flatSupport_kept] at hkey
  exact List.mem_map.mp hkey

theorem length_kept_le : (d.kept mode).length ≤ d.numFaults := by
  have hsub : d.kept mode ⊆ List.range d.numFaults :=
    fun j hj => List.mem_range.mpr (lt_of_mem_kept d mode hj)
  have hle := (List.subperm_of_subset (nodup_kept d mode) hsub).length_le
  rwa [List.length_range] at hle

theorem length_kept : (d.kept mode).length = d.flatSupports.length := by
  have hperm : ((d.supMap mode).map Prod.fst).Perm d.flatSupports := by
    rw [flatSupports, List.perm_ext_iff_of_nodup (nodup_keys d mode) (List.nodup_dedup _)]
    intro k
    rw [List.mem_dedup, List.mem_map (f := d.flatSupport)]
    exact SortedMap.mem_keys_group _ _ _ _
  rw [← hperm.length_eq, ← map_flatSupport_kept, List.length_map]

end Groups

/-! ## The merged chunk -/

/-- What a merge returns. -/
structure Result (d : ExtendedDem) (mode : PriorCombineMode) (m : ExtendedDem) : Prop where
  layout_H : m.H.layout = .csc
  rows_H : m.H.numRows = d.H.numRows
  cols_H : m.H.numCols = (d.kept mode).length
  groups_H : m.H.groups = (d.kept mode).map fun j => d.hColumns.getD j []
  layout_O : m.O.layout = .csc
  rows_O : m.O.numRows = d.O.numRows
  cols_O : m.O.numCols = (d.kept mode).length
  groups_O : m.O.groups = (d.kept mode).map fun j => d.oColumns.getD j []
  rates : m.errorRates = (d.supMap mode).map fun e => d.groupRate mode e.2
  seams : m.seams = d.seams
  tags : m.tags = d.tags

/-! ## Room for the merged chunk -/

theorem sum_length_getD_le (cs : List (List Nat)) (n : Nat) :
    ((List.range n).map fun j => (cs.getD j []).length).sum ≤ storedCount cs := by
  induction cs generalizing n with
  | nil => simp
  | cons c cs ih =>
    cases n with
    | zero => simp
    | succ n =>
      rw [List.range_succ_eq_map, List.map_cons, List.sum_cons, List.map_map, storedCount,
        List.map_cons, List.sum_cons]
      exact Nat.add_le_add_left (ih n) _

theorem storedCount_canonicalColumns_lt (mat : SparseBinaryMatrix) :
    storedCount (canonicalColumns mat) < 2 ^ 32 := by
  refine lt_of_le_of_lt ?_ mat.nnz_lt
  rw [canonicalColumns_eq, storedCount, List.map_map]
  refine le_trans (List.sum_le_sum fun g _ => length_canonicalGroup_le g) ?_
  exact (mat.storedCount_toNestedCsc).le

theorem storedCount_kept_lt (mode : PriorCombineMode) (mat : SparseBinaryMatrix) :
    storedCount ((d.kept mode).map fun j => (canonicalColumns mat).getD j []) < 2 ^ 32 := by
  have hsub : d.kept mode ⊆ List.range d.numFaults :=
    fun j hj => List.mem_range.mpr (lt_of_mem_kept d mode hj)
  obtain ⟨l, hperm, hl⟩ := List.subperm_of_subset (nodup_kept d mode) hsub
  refine lt_of_le_of_lt ?_ (storedCount_canonicalColumns_lt mat)
  refine le_trans ?_ (sum_length_getD_le (canonicalColumns mat) d.numFaults)
  rw [storedCount, List.map_map, ← (hperm.map _).sum_eq]
  exact (hl.map _).sum_le_sum fun _ _ => Nat.zero_le _

theorem length_groups (mode : PriorCombineMode) :
    ((d.supMap mode).map Prod.snd).length = (d.kept mode).length := by
  rw [kept, List.length_map, List.length_map]

theorem map_representative (mode : PriorCombineMode) (f : Nat → List Nat) :
    ((d.supMap mode).map Prod.snd).map (fun g => f g.representative) = (d.kept mode).map f := by
  rw [kept, List.map_map, List.map_map]
  rfl

theorem length_kept_lt (mode : PriorCombineMode) : (d.kept mode).length < 2 ^ 32 :=
  lt_of_le_of_lt (length_kept_le d mode) (u32_lt _)

variable {d}

/-- A valid chunk with faults has a merged chunk, if the pointer array has room for the columns that
are kept. -/
theorem demMergeDuplicateColumns_eq_ok (mode : PriorCombineMode) (h : d.Valid)
    (hn : d.numFaults ≠ 0) (hfew : d.FewSupports) :
    ∃ m, d.demMergeDuplicateColumns mode = .ok m ∧ d.Result mode m := by
  have hlen : (d.kept mode).length < uint32Max := (length_kept d mode).trans_lt hfew
  have hH := d.H.rows_lt
  have hO := d.O.rows_lt
  obtain ⟨H, hHok⟩ := SparseBinaryMatrix.exists_fromNestedCsc hH hlen (List.length_map _)
    (storedCount_kept_lt d mode d.H) (by
      intro g hg r hr
      obtain ⟨j, -, rfl⟩ := List.mem_map.mp hg
      by_contra hge
      rw [mem_canonicalColumns, SparseBinaryMatrix.entry_eq_false_of_row_le _ _ (not_lt.mp hge)] at hr
      cases hr)
  obtain ⟨O, hOok⟩ := SparseBinaryMatrix.exists_fromNestedCsc hO hlen (List.length_map _)
    (storedCount_kept_lt d mode d.O) (by
      intro g hg r hr
      obtain ⟨j, -, rfl⟩ := List.mem_map.mp hg
      by_contra hge
      rw [mem_canonicalColumns, SparseBinaryMatrix.entry_eq_false_of_row_le _ _ (not_lt.mp hge)] at hr
      cases hr)
  obtain ⟨-, hHlayout, hHrows, hHcols, hHgroups⟩ := SparseBinaryMatrix.fromNestedCsc_eq_ok.mp hHok
  obtain ⟨-, hOlayout, hOrows, hOcols, hOgroups⟩ := SparseBinaryMatrix.fromNestedCsc_eq_ok.mp hOok
  -- the observables of a group are those of the column that stands for it
  have hcolumns : (d.kept mode).map (fun j => d.oColumns.getD j []) =
      (d.kept mode).map fun j => (canonicalColumns d.O).getD j [] :=
    List.map_congr_left fun j _ => getD_oColumns d j
  refine ⟨{ d with
    H := H
    O := O
    errorRates := ((d.supMap mode).map Prod.snd).map (d.groupRate mode) }, ?_, ?_⟩
  · have hvalid : d.validate "dem_merge_duplicate_columns" = .ok () := d.validate_eq_ok.mpr h
    have hHok' : SparseBinaryMatrix.fromNestedCsc d.numRows ((d.supMap mode).map Prod.snd).length
        (((d.supMap mode).map Prod.snd).map fun g => d.hColumns.getD g.representative []) = .ok H := by
      rw [length_groups, map_representative d mode fun j => d.hColumns.getD j []]
      exact hHok
    have hOok' : SparseBinaryMatrix.fromNestedCsc d.numObservables
        ((d.supMap mode).map Prod.snd).length
        (((d.supMap mode).map Prod.snd).map fun g => d.oColumns.getD g.representative []) = .ok O := by
      rw [length_groups, map_representative d mode fun j => d.oColumns.getD j [], hcolumns]
      exact hOok
    rw [demMergeDuplicateColumns, hvalid, ok_bind, if_neg hn]
    dsimp only
    rw [hHok', ok_bind, hOok', ok_bind]
    rfl
  · have hcols := u32_of_lt (length_kept_lt d mode)
    refine ⟨hHlayout, hHrows.trans (u32_of_lt hH), hHcols.trans hcols, hHgroups, hOlayout,
      hOrows.trans (u32_of_lt hO), hOcols.trans hcols, hOgroups.trans hcolumns.symm, ?_, rfl, rfl⟩
    rw [List.map_map]
    rfl

theorem fewSupports_of_eq_ok {mode : PriorCombineMode} {m : ExtendedDem} (hn : d.numFaults ≠ 0)
    (hok : d.demMergeDuplicateColumns mode = .ok m) : d.FewSupports := by
  rw [demMergeDuplicateColumns, bind_eq_ok] at hok
  obtain ⟨_, -, hok⟩ := hok
  rw [if_neg hn, bind_eq_ok] at hok
  obtain ⟨H, hH, -⟩ := hok
  obtain ⟨hlt, -, -, hcols, -⟩ := SparseBinaryMatrix.fromNestedCsc_eq_ok.mp hH
  rw [hcols, length_groups, u32_of_lt (length_kept_lt d mode), length_kept] at hlt
  exact hlt

section Merged

variable {mode : PriorCombineMode} {m : ExtendedDem} (result : d.Result mode m)

include result

theorem Result.numFaults_eq : m.numFaults = (d.kept mode).length := by
  rw [numFaults, result.rates, List.length_map, kept, List.length_map]
  apply u32_of_lt
  have := length_kept_lt d mode
  rwa [kept, List.length_map] at this

/-- A column of the result has the entries of the column that is kept for it. -/
theorem Result.support_eq {k : Nat} (hk : k < (d.kept mode).length) :
    m.support k = d.support ((d.kept mode).getD k 0) := by
  have hgetD : ∀ f : Nat → List Nat,
      ((d.kept mode).map f).getD k [] = f ((d.kept mode).getD k 0) := by
    intro f
    rw [List.getD_eq_getElem _ _ (by rwa [List.length_map]), List.getElem_map,
      List.getD_eq_getElem _ _ hk]
  have hH : m.H.groups.getD k [] = d.hColumns.getD ((d.kept mode).getD k 0) [] := by
    rw [result.groups_H]
    exact hgetD fun j => d.hColumns.getD j []
  have hO : m.O.groups.getD k [] = d.oColumns.getD ((d.kept mode).getD k 0) [] := by
    rw [result.groups_O]
    exact hgetD fun j => d.oColumns.getD j []
  apply Prod.ext
  · funext r
    rw [Bool.eq_iff_iff]
    refine (entry_of_groups result.layout_H ?_ r).trans ?_
    · rw [hH]
      exact sortedLT_hColumns d _
    · rw [hH]
      exact mem_hColumns d
  · funext r
    rw [Bool.eq_iff_iff]
    refine (entry_of_groups result.layout_O ?_ r).trans ?_
    · rw [hO]
      exact sortedLT_oColumns d _
    · rw [hO]
      exact mem_oColumns d

theorem Result.flatSupport_eq {k : Nat} (hk : k < (d.kept mode).length) :
    m.flatSupport k = d.flatSupport ((d.kept mode).getD k 0) :=
  flatSupport_congr result.rows_H (result.support_eq hk)

theorem Result.map_flatSupport :
    (List.range m.numFaults).map m.flatSupport = (d.supMap mode).map Prod.fst := by
  rw [← map_flatSupport_kept, result.numFaults_eq]
  conv_rhs => rw [← map_getD_range (d.kept mode) 0, List.map_map]
  apply List.map_congr_left
  intro k hk
  exact result.flatSupport_eq (List.mem_range.mp hk)

theorem Result.valid (h : d.Valid) : m.Valid where
  cols := by rw [result.numFaults_eq, result.cols_H]
  obs := .inr (by rw [result.numFaults_eq, result.cols_O])
  bands := by
    rw [result.seams, result.rows_H]
    exact h.bands
  disjoint := by
    rw [result.seams]
    exact h.disjoint
  tags := by
    rw [result.tags, seamTotal, result.seams]
    exact h.tags

end Merged

/-! ## What the merge keeps -/

theorem allNew_iff {seen sups : List (List Nat)} :
    allNew seen sups = true ↔ sups.Nodup ∧ ∀ sup ∈ sups, sup ∉ seen := by
  induction sups generalizing seen with
  | nil => simp [allNew]
  | cons sup sups ih =>
    unfold allNew
    split
    · next hmem => simp [hmem]
    · next hnew =>
      rw [ih, List.nodup_cons]
      constructor
      · rintro ⟨hnodup, hseen⟩
        refine ⟨⟨fun hmem => hseen sup hmem (by simp), hnodup⟩, fun sup' hsup' => ?_⟩
        rcases List.mem_cons.mp hsup' with rfl | hsup'
        · exact hnew
        · exact fun hmem => hseen sup' hsup' (by simp [hmem])
      · rintro ⟨⟨hsup, hnodup⟩, hseen⟩
        refine ⟨hnodup, fun sup' hsup' hmem => ?_⟩
        rcases List.mem_cons.mp hmem with rfl | hmem
        · exact hsup hsup'
        · exact hseen sup' (by simp [hsup']) hmem

theorem areDemColumnsUnique_eq_ok {m : ExtendedDem} (h : m.Valid)
    (hnodup : ((List.range m.numFaults).map m.flatSupport).Nodup) :
    m.areDemColumnsUnique = .ok true := by
  have hvalid : m.validate "are_dem_columns_unique" = .ok () := m.validate_eq_ok.mpr h
  rw [areDemColumnsUnique, hvalid, ok_bind, allNew_iff.mpr ⟨hnodup, by simp⟩]
  rfl

/-! ## Merging again -/

/-- A chunk whose columns are stored in canonical form, in the order of their flat supports, is its own
merged chunk. -/
theorem Result.again (h : d.Valid) (hn : d.numFaults ≠ 0) (hfew : d.FewSupports) {m : ExtendedDem}
    (result : d.Result .orCombine m) : m.demMergeDuplicateColumns .orCombine = .ok m := by
  have hkept : d.kept .orCombine ≠ [] := by
    obtain ⟨i, hi, -⟩ := exists_kept d .orCombine (Nat.pos_of_ne_zero hn)
    exact List.ne_nil_of_mem hi
  have hm : m.numFaults ≠ 0 := by
    rw [result.numFaults_eq]
    exact mt List.eq_nil_of_length_eq_zero hkept
  have hfew' : m.FewSupports := by
    rw [FewSupports, flatSupports, result.map_flatSupport, (nodup_keys d _).dedup,
      ← map_flatSupport_kept, List.length_map, length_kept]
    exact hfew
  obtain ⟨m', hok, result'⟩ := demMergeDuplicateColumns_eq_ok .orCombine (result.valid h) hm hfew'
  have hpairwise : (List.range m.numFaults).Pairwise fun i j => m.flatSupport i < m.flatSupport j := by
    rw [← List.pairwise_map, result.map_flatSupport]
    exact SortedMap.sorted_group _ _ _ _
  have hgroups : m.supMap .orCombine = (List.range m.numFaults).map fun k =>
      (m.flatSupport k, ⟨k, m.rateTerm .orCombine k, 1⟩) :=
    SortedMap.group_of_pairwise _ _ _ _ hpairwise
  have hkept' : m.kept .orCombine = List.range m.numFaults := by
    rw [kept, hgroups, List.map_map]
    exact List.map_id _
  -- the columns that are stored are the canonical ones
  have hcolumns : ∀ (mat : SparseBinaryMatrix) (f : Nat → List Nat), mat.layout = .csc →
      mat.numCols = m.numFaults → mat.groups = (d.kept .orCombine).map f →
      (∀ j, (f j).SortedLT) →
      (List.range m.numFaults).map (fun k => (canonicalColumns mat).getD k []) = mat.groups := by
    intro mat f hlayout hcols hgroups hsorted
    have hcanonical : canonicalColumns mat = mat.groups := by
      rw [canonicalColumns_eq, SparseBinaryMatrix.toNestedCsc, hlayout]
      conv_rhs => rw [← List.map_id mat.groups]
      apply List.map_congr_left
      intro g hg
      rw [hgroups] at hg
      obtain ⟨j, -, rfl⟩ := List.mem_map.mp hg
      exact canonicalGroup_of_sortedLT (hsorted j)
    have hlen : mat.groups.length = m.numFaults := by
      rw [mat.length_groups_csc hlayout, hcols]
    rw [hcanonical, ← hlen, map_getD_range]
  have hfaults := result.numFaults_eq
  have heq : m' = m := by
    apply ExtendedDem.ext
    · apply SparseBinaryMatrix.ext
      · rw [result'.layout_H, result.layout_H]
      · exact result'.rows_H
      · rw [result'.cols_H, hkept', List.length_range, result.cols_H, hfaults]
      · rw [result'.groups_H, hkept']
        exact hcolumns m.H _ result.layout_H (result.cols_H.trans hfaults.symm) result.groups_H
          (sortedLT_hColumns d)
    · apply SparseBinaryMatrix.ext
      · rw [result'.layout_O, result.layout_O]
      · exact result'.rows_O
      · rw [result'.cols_O, hkept', List.length_range, result.cols_O, hfaults]
      · rw [result'.groups_O, hkept']
        refine Eq.trans (List.map_congr_left fun k _ => getD_oColumns m k) ?_
        exact hcolumns m.O _ result.layout_O (result.cols_O.trans hfaults.symm) result.groups_O
          (sortedLT_oColumns d)
    · have hlen : m.errorRates.length = m.numFaults := by
        rw [hfaults, result.rates, List.length_map, kept, List.length_map]
      rw [result'.rates, hgroups, List.map_map]
      conv_rhs => rw [← map_getD_range m.errorRates 0, hlen]
      rfl
    · exact result'.seams
    · exact result'.tags
  rw [hok, heq]

theorem flips_add_self (rows observables j : Nat) :
    d.flips rows observables j + d.flips rows observables j = 0 := by
  have htwo : ∀ x : ZMod 2, x + x = 0 := by decide
  apply Prod.ext
  · funext r
    exact htwo _
  · funext r
    exact htwo _

theorem flips_congr {m : ExtendedDem} {i j rows observables : Nat} (h : m.support i = d.support j) :
    m.flips rows observables i = d.flips rows observables j := by
  have hH : ∀ r, m.H.entry r i = d.H.entry r j := congrFun (congrArg Prod.fst h)
  have hO : ∀ r, m.O.entry r i = d.O.entry r j := congrFun (congrArg Prod.snd h)
  simp only [flips, hH, hO]

/-! ## The law of the flips -/

/-- Where columns are told apart, merging them does not change the distribution. -/
theorem Result.jointProbability_eq {m : ExtendedDem} (result : d.Result .orCombine m)
    (happart : d.TellsApart) (rows observables : Nat) (x : Flips rows observables) :
    m.jointProbability rows observables x = d.jointProbability rows observables x := by
  rw [jointProbability, jointProbability, ← Mechanisms.coeff_law, ← Mechanisms.coeff_law]
  congr 2
  rw [Mechanisms.law, Mechanisms.law, List.map_map, List.map_map]
  have hgroups := SortedMap.prod_group d.flatSupport
    (fun j => (⟨j, d.rateTerm .orCombine j, 1⟩ : ColumnGroup))
    (fun j g => g.add .orCombine (d.rateTerm .orCombine j)) (List.range d.numFaults)
    fun j => Mechanisms.factor (d.errorRates.getD j 0) (d.flips rows observables j)
  refine Eq.trans ?_ hgroups.symm
  -- each group of columns is one column of the result
  have hgroup : ∀ e ∈ d.supMap .orCombine,
      Mechanisms.factor (d.groupRate .orCombine e.2) (d.flips rows observables e.2.representative) =
        (((List.range d.numFaults).filter fun j => d.flatSupport j = e.1).map fun j =>
          Mechanisms.factor (d.errorRates.getD j 0) (d.flips rows observables j)).prod := by
    rintro ⟨k, g⟩ he
    obtain ⟨hlt, hkey⟩ := representative_of_mem he
    rw [groupRate_of_mem he, ← Mechanisms.prod_factor (flips_add_self rows observables _), List.map_map]
    congr 1
    apply List.map_congr_left
    intro j hj
    obtain ⟨hj, hflat⟩ := List.mem_filter.mp hj
    have hsame := happart _ hlt j (List.mem_range.mp hj) (hkey.trans (of_decide_eq_true hflat).symm)
    simp only [Function.comp_apply]
    rw [flips_congr hsame]
  have hcolumns : (List.range m.numFaults).map ((fun f => Mechanisms.factor f.1 f.2) ∘
      fun k => (m.errorRates.getD k 0, m.flips rows observables k)) =
      (d.supMap .orCombine).map fun e =>
        Mechanisms.factor (d.groupRate .orCombine e.2)
          (d.flips rows observables e.2.representative) := by
    have hlen : (d.supMap .orCombine).length = m.numFaults := by
      rw [result.numFaults_eq, kept, List.length_map]
    apply List.ext_getElem
    · rw [List.length_map, List.length_map, List.length_range, hlen]
    · intro k hk hk'
      rw [List.length_map] at hk'
      have hkkept : k < (d.kept .orCombine).length := by rwa [kept, List.length_map]
      have hkeep : (d.kept .orCombine).getD k 0 = (d.supMap .orCombine)[k].2.representative := by
        rw [List.getD_eq_getElem _ _ hkkept]
        simp only [kept, List.getElem_map]
      have hrate : m.errorRates.getD k 0 = d.groupRate .orCombine (d.supMap .orCombine)[k].2 := by
        rw [result.rates, List.getD_eq_getElem _ _ (by rwa [List.length_map]), List.getElem_map]
      simp only [List.getElem_map, List.getElem_range, Function.comp_apply]
      rw [hrate, flips_congr (result.support_eq hkkept), hkeep]
  rw [hcolumns]
  congr 1
  refine List.map_congr_left fun e he => (hgroup e he).trans ?_
  congr 2
  apply List.filter_congr
  intro j _
  exact decide_eq_decide.mpr .rfl

/-- Columns that are told apart all keep their supports, and a column that is not told apart loses
its own. -/
theorem Result.supports_iff {mode : PriorCombineMode} {m : ExtendedDem} (result : d.Result mode m) :
    (∀ s, (∃ k < m.numFaults, m.support k = s) ↔ ∃ j < d.numFaults, d.support j = s) ↔
      d.TellsApart := by
  constructor
  · intro h i hi j hj hflat
    obtain ⟨k, hk, hki⟩ := (h _).mpr ⟨i, hi, rfl⟩
    obtain ⟨k', hk', hkj⟩ := (h _).mpr ⟨j, hj, rfl⟩
    have hsame : m.flatSupport k = m.flatSupport k' := by
      rw [flatSupport_congr result.rows_H hki, flatSupport_congr result.rows_H hkj, hflat]
    have hnodup := nodup_keys d mode
    rw [← result.map_flatSupport] at hnodup
    have hkk' : k = k' :=
      List.inj_on_of_nodup_map hnodup (List.mem_range.mpr hk) (List.mem_range.mpr hk') hsame
    rw [← hki, ← hkj, hkk']
  · intro happart s
    constructor
    · rintro ⟨k, hk, rfl⟩
      rw [result.numFaults_eq] at hk
      refine ⟨(d.kept mode).getD k 0, ?_, (result.support_eq hk).symm⟩
      rw [List.getD_eq_getElem _ _ hk]
      exact lt_of_mem_kept d mode (List.getElem_mem hk)
    · rintro ⟨j, hj, rfl⟩
      obtain ⟨i, hi, hflat⟩ := exists_kept d mode hj
      obtain ⟨k, hk, rfl⟩ := List.getElem_of_mem hi
      refine ⟨k, by rwa [result.numFaults_eq], ?_⟩
      rw [result.support_eq hk, List.getD_eq_getElem _ _ hk]
      exact happart _ (lt_of_mem_kept d mode hi) j hj hflat

/-- A merge keeps the model exactly when flat supports tell the columns apart, and are few enough for
the merged matrices to have a pointer array. -/
theorem mergedFrom_iff (h : d.Valid) :
    (∃ m, d.demMergeDuplicateColumns .orCombine = .ok m ∧ d.MergedFrom m) ↔
      d.TellsApart ∧ d.FewSupports := by
  by_cases hn : d.numFaults = 0
  · have hvalid : d.validate "dem_merge_duplicate_columns" = .ok () := d.validate_eq_ok.mpr h
    have hself : d.demMergeDuplicateColumns .orCombine = .ok d := by
      rw [demMergeDuplicateColumns, hvalid, ok_bind, if_pos hn]
      rfl
    have hunique : d.areDemColumnsUnique = .ok true := by
      apply areDemColumnsUnique_eq_ok h
      rw [hn]
      exact List.nodup_nil
    refine iff_of_true ⟨d, hself, rfl, fun _ => rfl, hunique, fun _ => .rfl, rfl, rfl, hself⟩
      ⟨?_, ?_⟩
    · intro i hi
      omega
    · rw [FewSupports, flatSupports, hn, List.range_zero, List.map_nil, List.dedup_nil]
      decide
  constructor
  · rintro ⟨m', hok', merged⟩
    have hfew := fewSupports_of_eq_ok hn hok'
    obtain ⟨m, hok, result⟩ := demMergeDuplicateColumns_eq_ok .orCombine h hn hfew
    rw [hok, Except.ok.injEq] at hok'
    subst hok'
    exact ⟨result.supports_iff.mp merged.supports, hfew⟩
  · rintro ⟨happart, hfew⟩
    obtain ⟨m, hok, result⟩ := demMergeDuplicateColumns_eq_ok .orCombine h hn hfew
    have hunique : m.areDemColumnsUnique = .ok true := by
      apply areDemColumnsUnique_eq_ok (result.valid h)
      rw [result.map_flatSupport]
      exact nodup_keys d .orCombine
    exact ⟨m, hok, result.rows_H, result.jointProbability_eq happart _ _, hunique,
      result.supports_iff.mpr happart, result.seams, result.tags, result.again h hn hfew⟩

/-! ## Row numbers that do not fit -/

/-- Two faults in as many rows as there can be: one flips the first detector, the other the second
observable. -/
def tallDem : ExtendedDem where
  H := .ofGroups .csc (2 ^ 32 - 1) 2 [[0], []]
  O := .ofGroups .csc 2 2 [[], [1]]
  errorRates := [1 / 4, 1 / 4]
  seams := []
  tags := []

/-- The observable is numbered `2 ^ 32`, as the first detector is. -/
theorem not_mergedFrom_tallDem :
    ¬ ∀ d : ExtendedDem, d.Valid →
      ∃ m, d.demMergeDuplicateColumns .orCombine = .ok m ∧ d.MergedFrom m := by
  intro h
  have hvalid : tallDem.Valid := ⟨rfl, .inr rfl, by simp [tallDem], .nil, rfl⟩
  obtain ⟨m, hok, merged⟩ := h tallDem hvalid
  have hfew : tallDem.FewSupports := by decide +kernel
  obtain ⟨m', hok', result⟩ :=
    demMergeDuplicateColumns_eq_ok .orCombine hvalid (by decide) hfew
  rw [hok, Except.ok.injEq] at hok'
  subst hok'
  have happart := result.supports_iff.mp merged.supports
  have hflat : tallDem.flatSupport 0 = tallDem.flatSupport 1 := by decide +kernel
  have hsupport := happart 0 (by decide) 1 (by decide) hflat
  have hentry : tallDem.H.entry 0 0 = tallDem.H.entry 0 1 := congrFun (congrArg Prod.fst hsupport) 0
  revert hentry
  decide +kernel

/-- Two faults that flip the one detector. -/
def doubledDem : ExtendedDem where
  H := .ofGroups .csr 1 2 [[0, 1]]
  O := .empty
  errorRates := [1 / 4, 1 / 8]
  seams := []
  tags := []

theorem mergedFrom_doubledDem :
    doubledDem.Valid ∧
      ((∃ m, doubledDem.demMergeDuplicateColumns .orCombine = .ok m ∧ doubledDem.MergedFrom m) ↔
        doubledDem.TellsApart ∧ doubledDem.FewSupports) := by
  have hvalid : doubledDem.Valid := ⟨rfl, .inl ⟨rfl, rfl⟩, by simp [doubledDem], .nil, rfl⟩
  exact ⟨hvalid, mergedFrom_iff hvalid⟩

end ExtendedDem

end CudaqQec
