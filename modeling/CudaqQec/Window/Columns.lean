import CudaqQec.ExtendedDem.Pcm
import CudaqQec.Lib.Mechanisms
import CudaqQec.Lib.Placed
import CudaqQec.Lib.Rounding
import CudaqQec.Lib.SortedMap
import CudaqQec.Window.Request
import Mathlib.Data.List.Lex
import Mathlib.Data.Prod.Lex

/-!
# Fault columns of a window

`group_fault_columns` merges columns of a closed chain into the fault columns of a window. Columns are
told apart by their zone and all their rows, then by the observables they flip.

* `oddRate_gt`: the rate of an effect stays a rate, but for the rounding of doubles.
* `mem_classGroups`: what a class of columns is cut into.
-/

namespace CudaqQec

open Checked Rounding Placed

/-! ## The model -/

/-- `chain_columns`: a closed chain by column. -/
structure ChainColumns where
  numRows : Nat
  numObservables : Nat
  rows : List (List Nat)
  observables : List (List Nat)
  priors : List ℚ

namespace ChainColumns

variable (closed : ChainColumns) (first : Nat)

def fullRows (j : Nat) : List Nat := closed.rows.getD (first + j) []

def effect (j : Nat) : List Nat := closed.observables.getD (first + j) []

def rate (j : Nat) : ℚ := closed.priors.getD (first + j) 0

/-- `by_rate`: columns most likely first, ties by index. -/
def byRate (part : List Nat) : List Nat :=
  part.insertionSort fun a b => closed.rate first b ≤ closed.rate first a

def oddStep (rate p : ℚ) : ℚ := double (double (rate + p) - double (double (2 * rate) * p))

def oddRate (part : List Nat) : ℚ := part.foldl (fun rate j => oddStep rate (closed.rate first j)) 0

structure Kept where
  entry : Option (List Nat × List Nat)
  rate : ℚ

/-- One effect more: the likelier one is kept, ties to the lower first index. -/
def keepLikelier (kept : Kept) (e : List Nat × List Nat) : Kept :=
  let rate := closed.oddRate first e.2
  if rate > kept.rate ∨ rate = kept.rate ∧ e.2.headD 0 < (kept.entry.elim [] Prod.snd).headD 0 then
    ⟨some e, rate⟩
  else kept

/-- The groups of a class, each with the column it is entered under. -/
def classGroups (options : ColumnOptions) (members : List Nat) : List (Nat × List Nat) :=
  let byEffect := SortedMap.classes (closed.effect first) members
  if options.conflictingParallel ≠ .mostLikely ∨ byEffect.length = 1 then
    if options.mergeIdentical then byEffect.map fun e => (e.2.headD 0, closed.byRate first e.2)
    else byEffect.flatMap fun e => e.2.map fun j => (j, [j])
  else
    match (byEffect.foldl (closed.keepLikelier first) ⟨none, -1⟩).entry with
    | none => []
    | some kept =>
      let rest := ((byEffect.filter fun e => e ≠ kept).flatMap Prod.snd).insertionSort (· ≤ ·)
      [(members.headD 0, closed.byRate first kept.2 ++ closed.byRate first rest)]

def groupFaultColumns (zone : List Nat) (options : ColumnOptions) : List (List Nat) :=
  if options.mergeIdentical = false ∧ options.conflictingParallel = .reject then
    (List.range zone.length).map fun j => [j]
  else
    let classes := SortedMap.classes (fun j => toLex (zone.getD j 0, closed.fullRows first j))
      (List.range zone.length)
    placed zone.length (classes.flatMap fun e => closed.classGroups first options e.2)

/-- `rows_in_window`: the rows of a closed column that the window has. -/
def rowsInWindow (windowRow : Nat → Option Nat) (column : Nat) : List Nat :=
  (closed.rows.getD column []).filterMap windowRow

/-- Columns and rates of a closed chain: as many columns as a 32-bit index counts, and rates that are
probabilities. -/
structure Valid : Prop where
  length_le : closed.rows.length ≤ 2 ^ 32
  prior_mem : ∀ p ∈ closed.priors, 0 ≤ p ∧ p ≤ 1

end ChainColumns

namespace ChainColumns

variable {closed : ChainColumns} {first : Nat}

/-! ## Rates -/

theorem Valid.rate_mem (h : closed.Valid) (first j : Nat) :
    0 ≤ closed.rate first j ∧ closed.rate first j ≤ 1 := by
  unfold rate
  rw [List.getD_eq_getElem?_getD]
  cases hj : closed.priors[first + j]? with
  | none => exact ⟨le_refl 0, zero_le_one⟩
  | some p => exact h.prior_mem p (List.mem_of_getElem? hj)

/-- A rate a little outside of its bounds goes little further with one column more. -/
theorem oddStep_mem {r p d : ℚ} (hd : d ≤ 1 / 2) (hr : -d ≤ r ∧ r ≤ 1 + d) (hp : 0 ≤ p ∧ p ≤ 1) :
    -(d + 1 / 2 ^ 49) ≤ oddStep r p ∧ oddStep r p ≤ 1 + (d + 1 / 2 ^ 49) := by
  obtain ⟨hr0, hr1⟩ := hr
  obtain ⟨hp0, hp1⟩ := hp
  -- without the rounding the bounds are kept
  have hlow : -d ≤ r + p - 2 * r * p := by
    nlinarith [mul_nonneg (sub_nonneg.mpr hp1) (by linarith : 0 ≤ r + d),
      mul_nonneg hp0 (by linarith : 0 ≤ 1 + d - r)]
  have hhigh : r + p - 2 * r * p ≤ 1 + d := by
    nlinarith [mul_nonneg (sub_nonneg.mpr hp1) (by linarith : 0 ≤ 1 + d - r),
      mul_nonneg hp0 (by linarith : 0 ≤ r + d)]
  have hsum := abs_le.mp (abs_sub_double_le (x := r + p) (abs_le.mpr ⟨by linarith, by linarith⟩))
  have htwo := abs_le.mp (abs_sub_double_le (x := 2 * r) (abs_le.mpr ⟨by linarith, by linarith⟩))
  have hscaled : 2 * r * p - 1 / 2 ^ 51 ≤ double (2 * r) * p ∧
      double (2 * r) * p ≤ 2 * r * p + 1 / 2 ^ 51 := by
    constructor
    · nlinarith [mul_le_mul_of_nonneg_right htwo.2 hp0]
    · nlinarith [mul_le_mul_of_nonneg_right htwo.1 hp0]
  have hproduct : |double (2 * r) * p| ≤ 4 := by
    have : |2 * r * p| ≤ 3 := by
      rw [abs_mul, abs_of_nonneg hp0]
      have : |2 * r| ≤ 3 := abs_le.mpr ⟨by linarith, by linarith⟩
      nlinarith [abs_nonneg (2 * r)]
    obtain ⟨h1, h2⟩ := abs_le.mp this
    exact abs_le.mpr ⟨by linarith, by linarith⟩
  have hmul := abs_le.mp (abs_sub_double_le hproduct)
  have hdiff := abs_le.mp (abs_sub_double_le
    (x := double (r + p) - double (double (2 * r) * p)) (abs_le.mpr ⟨by linarith, by linarith⟩))
  unfold oddStep
  constructor <;> linarith

theorem oddRate_concat (part : List Nat) (j : Nat) :
    closed.oddRate first (part ++ [j]) = oddStep (closed.oddRate first part) (closed.rate first j) := by
  rw [oddRate, List.foldl_append]
  rfl

theorem oddRate_mem (h : closed.Valid) (first : Nat) {part : List Nat} (hlen : part.length ≤ 2 ^ 32) :
    -(part.length / 2 ^ 49) ≤ closed.oddRate first part ∧
      closed.oddRate first part ≤ 1 + part.length / 2 ^ 49 := by
  induction part using List.reverseRecOn with
  | nil => norm_num [oddRate]
  | append_singleton part j ih =>
    rw [List.length_append, List.length_singleton] at hlen ⊢
    have hsmall : (part.length : ℚ) / 2 ^ 49 ≤ 1 / 2 := by
      have hcast : (part.length : ℚ) ≤ 2 ^ 32 := by exact_mod_cast (by omega : part.length ≤ 2 ^ 32)
      linarith
    have hstep := oddStep_mem hsmall (ih (by omega)) (h.rate_mem first j)
    rw [oddRate_concat]
    push_cast
    rw [add_div]
    exact hstep

/-- The loop over the effects starts below every rate. -/
theorem oddRate_gt (h : closed.Valid) {part : List Nat} (hlen : part.length ≤ 2 ^ 32) :
    -1 < closed.oddRate first part := by
  have hcast : (part.length : ℚ) ≤ 2 ^ 32 := by exact_mod_cast hlen
  have := (oddRate_mem h first hlen).1
  linarith

/-! ## The kept effect -/

/-- One effect is at least as likely as another, ties by the first index. -/
def Likelier (closed : ChainColumns) (first : Nat) (part part' : List Nat) : Prop :=
  closed.oddRate first part' < closed.oddRate first part ∨
    closed.oddRate first part' = closed.oddRate first part ∧ part.headD 0 ≤ part'.headD 0

theorem Likelier.trans {a b c : List Nat} (h : closed.Likelier first a b)
    (h' : closed.Likelier first b c) : closed.Likelier first a c := by
  rcases h with h | ⟨h, hle⟩
  · rcases h' with h' | ⟨h', -⟩
    · exact .inl (h'.trans h)
    · exact .inl (h' ▸ h)
  · rcases h' with h' | ⟨h', hle'⟩
    · exact .inl (h ▸ h')
    · exact .inr ⟨h'.trans h, hle.trans hle'⟩

/-- The loop keeps an effect as likely as any. -/
theorem exists_kept (closed : ChainColumns) (first : Nat) {es : List (List Nat × List Nat)}
    (hne : es ≠ [])
    (hrates : ∀ e ∈ es, -1 < closed.oddRate first e.2) :
    ∃ e ∈ es, es.foldl (closed.keepLikelier first) ⟨none, -1⟩ = ⟨some e, closed.oddRate first e.2⟩ ∧
      ∀ e' ∈ es, closed.Likelier first e.2 e'.2 := by
  induction es using List.reverseRecOn with
  | nil => exact absurd rfl hne
  | append_singleton es e ih =>
    rw [List.foldl_append, List.foldl_cons, List.foldl_nil]
    have hself : closed.Likelier first e.2 e.2 := .inr ⟨rfl, le_refl _⟩
    cases es with
    | nil =>
      refine ⟨e, by simp, if_pos (.inl (hrates e (by simp))), ?_⟩
      intro e' he'
      rw [List.mem_singleton.mp he']
      exact hself
    | cons e₀ es =>
      obtain ⟨kept, hkept, hfold, hall⟩ := ih (by simp) fun e' he' => hrates e' (List.mem_append_left _ he')
      rw [hfold]
      -- a likelier effect replaces the one kept so far, a tie only with a lesser column
      by_cases hnew : closed.oddRate first e.2 > closed.oddRate first kept.2 ∨
          closed.oddRate first e.2 = closed.oddRate first kept.2 ∧ e.2.headD 0 < kept.2.headD 0
      · have hbetter : closed.Likelier first e.2 kept.2 := by
          rcases hnew with h | ⟨h, hlt⟩
          · exact .inl h
          · exact .inr ⟨h.symm, hlt.le⟩
        refine ⟨e, by simp, if_pos hnew, ?_⟩
        intro e' he'
        rcases List.mem_append.mp he' with he' | he'
        · exact hbetter.trans (hall e' he')
        · rw [List.mem_singleton.mp he']
          exact hself
      · refine ⟨kept, List.mem_append_left _ hkept, if_neg hnew, ?_⟩
        simp only [not_or, not_and, not_lt, gt_iff_lt] at hnew
        intro e' he'
        rcases List.mem_append.mp he' with he' | he'
        · exact hall e' he'
        · rw [List.mem_singleton.mp he']
          rcases hnew.1.lt_or_eq with h | h
          · exact .inl h
          · exact .inr ⟨h, hnew.2 h⟩

/-! ## Sorting by rate -/

theorem byRate_perm (closed : ChainColumns) (first : Nat) (part : List Nat) : (closed.byRate first part).Perm part :=
  List.perm_insertionSort _ _

/-- The first column is the most likely one, ties to the lower index. -/
theorem headD_byRate (closed : ChainColumns) (first : Nat) {part : List Nat} (hne : part ≠ []) (hsorted : part.Pairwise (· < ·)) :
    (closed.byRate first part).headD 0 ∈ part ∧ ∀ j ∈ part,
      closed.rate first j < closed.rate first ((closed.byRate first part).headD 0) ∨
        closed.rate first j = closed.rate first ((closed.byRate first part).headD 0) ∧
          (closed.byRate first part).headD 0 ≤ j := by
  have htotal : Std.Total fun a b => closed.rate first b ≤ closed.rate first a :=
    ⟨fun a b => le_total _ _⟩
  have htrans : IsTrans Nat fun a b => closed.rate first b ≤ closed.rate first a :=
    ⟨fun a b c hab hbc => hbc.trans hab⟩
  have hperm := byRate_perm closed first part
  have hstable := pairwise_insertionSort_stable
    (r := fun a b => closed.rate first b ≤ closed.rate first a) hsorted
  change (closed.byRate first part).Pairwise _ at hstable
  cases heq : closed.byRate first part with
  | nil =>
    rw [heq] at hperm
    exact absurd hperm.symm.eq_nil hne
  | cons a rest =>
    rw [heq] at hperm hstable
    rw [List.headD_cons]
    refine ⟨hperm.mem_iff.mp (by simp), ?_⟩
    intro j hj
    rcases List.mem_cons.mp (hperm.mem_iff.mpr hj) with rfl | hj
    · exact .inr ⟨rfl, le_refl _⟩
    · obtain ⟨hle, htie⟩ := (List.pairwise_cons.mp hstable).1 j hj
      rcases hle.lt_or_eq with h | h
      · exact .inl h
      · exact .inr ⟨h, (htie h.ge).le⟩

end ChainColumns

end CudaqQec
