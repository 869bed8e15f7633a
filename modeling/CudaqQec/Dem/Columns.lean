import CudaqQec.Basic
import CudaqQec.Lib.Lists
import Mathlib.Data.Prod.Lex
import Mathlib.Order.Lex
import Mathlib.Data.List.Sort
import Mathlib.Data.List.Lex
import Mathlib.Data.List.GetD
import Mathlib.Algebra.BigOperators.Group.List.Basic

/-!
# Columns of parity check matrices

Dense matrices (`cudaqx::tensor`), the rows that each column sets, and the topological order of
columns from `pcm_utils`. The comparison reads the rows of a column from both ends inward; it is the
lexicographic order of the rows in that order (`columnLess_iff`), so sorting by it has one result.
-/

namespace CudaqQec

open Checked

/-! ## Tensors -/

/-- A `tensor<uint8_t>`: the strides grow from right to left. -/
structure Tensor where
  shape : List Nat
  data : List UInt8
  length_data : data.length = shape.prod

namespace Tensor

variable (t : Tensor)

def rows : Nat := t.shape.getD 0 0

def cols : Nat := t.shape.getD 1 0

def entry (r c : Nat) : UInt8 := t.data.getD (r * t.cols + c) 0

def ofEntries (rows cols : Nat) (f : Nat → Nat → UInt8) : Tensor where
  shape := [rows, cols]
  data := (List.range rows).flatMap fun r => (List.range cols).map (f r)
  length_data := by simp [List.length_flatMap]

variable (rows' cols' : Nat) (f : Nat → Nat → UInt8)

@[simp] theorem rows_ofEntries : (ofEntries rows' cols' f).rows = rows' := rfl

@[simp] theorem cols_ofEntries : (ofEntries rows' cols' f).cols = cols' := rfl

theorem entry_ofEntries {r c : Nat} (hr : r < rows') (hc : c < cols') :
    (ofEntries rows' cols' f).entry r c = f r c := by
  change ((List.range rows').flatMap fun r => (List.range cols').map (f r)).getD (r * cols' + c) 0 = _
  induction rows' with
  | zero => omega
  | succ n ih =>
    have hlen : ((List.range n).flatMap fun r => (List.range cols').map (f r)).length =
        n * cols' := by simp [List.length_flatMap]
    rw [List.range_succ, List.flatMap_append, List.getD_eq_getElem?_getD]
    by_cases h : r < n
    · have hpos : r * cols' + c < n * cols' := by
        have := Nat.mul_le_mul_right cols' (show r + 1 ≤ n from h)
        rw [Nat.succ_mul] at this
        omega
      rw [List.getElem?_append_left (by rw [hlen]; exact hpos), ← List.getD_eq_getElem?_getD, ih h]
    · obtain rfl : r = n := by omega
      rw [List.getElem?_append_right (by rw [hlen]; omega), hlen, Nat.add_sub_cancel_left]
      simp [hc]

theorem ofEntries_entry {t : Tensor} (hrank : t.shape.length = 2) :
    ofEntries t.rows t.cols t.entry = t := by
  obtain ⟨shape, data, hlen⟩ := t
  obtain ⟨rows, cols, rfl⟩ := List.length_eq_two.mp hrank
  have hprod : data.length = rows * cols := by simpa using hlen
  have hdata : ((List.range rows).flatMap fun r => (List.range cols).map fun c =>
      data.getD (r * cols + c) 0) = data := by
    clear hrank hlen
    induction rows generalizing data with
    | zero => simpa [eq_comm] using hprod
    | succ rows ih =>
      have hcut : (data.take (rows * cols)).length = rows * cols := by
        rw [List.length_take, hprod, Nat.succ_mul]
        omega
      rw [List.range_succ, List.flatMap_append]
      conv_rhs => rw [← List.take_append_drop (rows * cols) data]
      congr 1
      · refine Eq.trans ?_ (ih _ hcut)
        apply List.flatMap_congr
        intro r hr
        apply List.map_congr_left
        intro c hc
        have hpos : r * cols + c < rows * cols := by
          have := Nat.mul_le_mul_right cols (show r + 1 ≤ rows from List.mem_range.mp hr)
          have := List.mem_range.mp hc
          rw [Nat.succ_mul] at *
          omega
        rw [List.getD_eq_getElem?_getD, List.getD_eq_getElem?_getD, List.getElem?_take_of_lt hpos]
      · rw [List.flatMap_singleton]
        apply List.ext_getElem
        · rw [List.length_map, List.length_range, List.length_drop, hprod, Nat.succ_mul]
          omega
        · intro c hc hc'
          rw [List.length_drop, hprod, Nat.succ_mul] at hc'
          rw [List.getElem_map, List.getElem_range, List.getElem_drop, List.getD_eq_getElem]
  exact Tensor.mk.injEq .. ▸ ⟨rfl, hdata⟩

theorem ofEntries_congr {rows cols : Nat} {f g : Nat → Nat → UInt8}
    (h : ∀ r < rows, ∀ c < cols, f r c = g r c) : ofEntries rows cols f = ofEntries rows cols g := by
  have hdata : ((List.range rows).flatMap fun r => (List.range cols).map (f r)) =
      (List.range rows).flatMap fun r => (List.range cols).map (g r) := by
    apply List.flatMap_congr
    intro r hr
    apply List.map_congr_left
    intro c hc
    exact h r (List.mem_range.mp hr) c (List.mem_range.mp hc)
  simp only [ofEntries, hdata]

/-- A matrix is known by its dimensions and its elements. -/
theorem eq_of_entry {s t : Tensor} (hs : s.shape.length = 2) (ht : t.shape.length = 2)
    (hrows : s.rows = t.rows) (hcols : s.cols = t.cols)
    (h : ∀ r < t.rows, ∀ c < t.cols, s.entry r c = t.entry r c) : s = t := by
  rw [← ofEntries_entry hs, ← ofEntries_entry ht, hrows, hcols]
  exact ofEntries_congr h

/-- Positions of two elements are the same only for the same element. -/
theorem position_inj {n r c r' c' : Nat} (hc : c < n) (hc' : c' < n) :
    r * n + c = r' * n + c' ↔ r = r' ∧ c = c' := by
  constructor
  · intro h
    have hdiv : ∀ a b : Nat, b < n → (a * n + b) / n = a := by
      intro a b hb
      rw [Nat.mul_comm, Nat.mul_add_div (by omega), Nat.div_eq_of_lt hb, Nat.add_zero]
    have hr : r = r' := by rw [← hdiv r c hc, h, hdiv r' c' hc']
    subst hr
    exact ⟨rfl, by omega⟩
  · rintro ⟨rfl, rfl⟩
    rfl

theorem position_lt {n m r c : Nat} (hr : r < m) (hc : c < n) : r * n + c < m * n := by
  have := Nat.mul_le_mul_right n (Nat.succ_le_of_lt hr)
  rw [Nat.succ_mul] at this
  omega

end Tensor

/-- `dense_to_sparse`: the rows that each column sets. The first element of a row is looked up with
its indices checked, so a matrix with rows and no columns throws. -/
def denseToSparse (pcm : Tensor) : Except Error (List (List Nat)) := do
  throwIf (pcm.shape.length ≠ 2) (.invalidArgument "dense_to_sparse: PCM must be a 2D tensor")
  throwIf (0 < pcm.rows ∧ pcm.cols = 0) (.runtimeError "Invalid constant tensor indices: 0, 0")
  return (List.range pcm.cols).map fun c =>
    ((List.range pcm.rows).filter fun r => pcm.entry r c ≠ 0).map u32

/-! ## The topological order -/

def roundOf (S B r : Nat) : Nat := if r < B then 0 else 1 + (r - B) / S

/-- The heads and the tails of two columns in turn, from the outside in; `tie` where they never
differ. Each turn takes both ends off both columns. -/
@[grind =] def pingPong (tie : Bool) : Nat → List Nat → List Nat → Bool
  | 0, _, _ => tie
  | fuel + 1, a, b =>
    if a.headD 0 ≠ b.headD 0 then a.headD 0 < b.headD 0
    else if a.length = 1 ∧ b.length ≠ 1 then true
    else if a.length ≠ 1 ∧ b.length = 1 then false
    else if a.length = 1 ∧ b.length = 1 then tie
    else if a.getLastD 0 ≠ b.getLastD 0 then a.getLastD 0 < b.getLastD 0
    else if a.tail.length = 1 ∧ b.tail.length ≠ 1 then true
    else if a.tail.length ≠ 1 ∧ b.tail.length = 1 then false
    else if a.tail.length = 1 ∧ b.tail.length = 1 then tie
    else pingPong tie fuel a.tail.dropLast b.tail.dropLast

/-- The comparison of `sorted_pcm_column_indices_impl`: empty columns first, then the first layer,
then the last layer, then the rows. -/
def columnLess (rowIndices : List (List Nat)) (roundOf : Nat → Nat) (a b : Nat) : Bool :=
  let aVec := rowIndices.getD a []
  let bVec := rowIndices.getD b []
  if aVec = [] ∧ bVec ≠ [] then true
  else if aVec ≠ [] ∧ bVec = [] then false
  else if aVec = [] ∧ bVec = [] then a < b
  else if roundOf (aVec.headD 0) ≠ roundOf (bVec.headD 0) then
    roundOf (aVec.headD 0) < roundOf (bVec.headD 0)
  else if roundOf (aVec.getLastD 0) ≠ roundOf (bVec.getLastD 0) then
    roundOf (aVec.getLastD 0) < roundOf (bVec.getLastD 0)
  else pingPong (a < b) aVec.length aVec bVec

/-! ### The order is lexicographic -/

def KeyLess (xs ys : List Nat) (a b : Nat) : Prop := xs < ys ∨ xs = ys ∧ a < b

theorem keyLess_cons {x y a b : Nat} {xs ys : List Nat} :
    KeyLess (x :: xs) (y :: ys) a b ↔ x < y ∨ x = y ∧ KeyLess xs ys a b := by
  simp only [KeyLess, List.cons_lt_cons_iff, List.cons.injEq]
  tauto

theorem keyLess_nil_cons {y a b : Nat} {ys : List Nat} : KeyLess [] (y :: ys) a b :=
  .inl (List.nil_lt_cons y ys)

theorem not_keyLess_cons_nil {x a b : Nat} {xs : List Nat} : ¬ KeyLess (x :: xs) [] a b := by
  rintro (h | h)
  · exact List.not_lt_nil _ h
  · cases h.1

theorem keyLess_nil {a b : Nat} : KeyLess [] [] a b ↔ a < b := by
  simp [KeyLess]

@[grind =] def zigzag : List Nat → List Nat
  | [] => []
  | [x] => [x]
  | x :: y :: v => x :: (y :: v).getLastD 0 :: zigzag (y :: v).dropLast
  termination_by v => v.length
  decreasing_by
    simp only [List.length_dropLast, List.length_cons]
    omega

theorem zigzag_eq_nil {v : List Nat} : zigzag v = [] ↔ v = [] := by
  fun_cases zigzag v <;> simp

theorem zigzag_dropLast_eq_nil {x : Nat} {v : List Nat} :
    zigzag (x :: v).dropLast = [] ↔ (x :: v).length = 1 := by
  rw [zigzag_eq_nil, ← List.length_eq_zero_iff, List.length_dropLast, List.length_cons]
  omega

/-- One comparison of the loop: the elements, then which list ends here. -/
theorem ite_keyLess_iff {x y a b : Nat} {xs ys : List Nat} {onlyX onlyY both : Prop}
    [Decidable onlyX] [Decidable onlyY] [Decidable both] {rest : Bool}
    (hx : onlyX ↔ xs = [] ∧ ys ≠ []) (hy : onlyY ↔ xs ≠ [] ∧ ys = [])
    (hboth : both ↔ xs = [] ∧ ys = [])
    (hrest : xs ≠ [] → ys ≠ [] → (rest = true ↔ KeyLess xs ys a b)) :
    (if x ≠ y then decide (x < y) else if onlyX then true else if onlyY then false
      else if both then decide (a < b) else rest) = true ↔ KeyLess (x :: xs) (y :: ys) a b := by
  rw [keyLess_cons]
  by_cases hxy : x = y
  · subst hxy
    simp only [ne_eq, not_true_eq_false, if_false, lt_irrefl, true_and, false_or]
    cases xs with
    | nil =>
      cases ys with
      | nil => simp [hx, hy, hboth, keyLess_nil]
      | cons y' ys => simp [hx, keyLess_nil_cons]
    | cons x' xs =>
      cases ys with
      | nil => simp [hx, hy, not_keyLess_cons_nil]
      | cons y' ys =>
        have := hrest (by simp) (by simp)
        simpa [hx, hy, hboth] using this
  · simp [hxy]

/-- A turn of the loop compares two elements of each list. -/
theorem pingPong_iff {a b : Nat} {aVec bVec : List Nat} {fuel : Nat} (ha : aVec ≠ [])
    (hb : bVec ≠ []) (hfuel : aVec.length ≤ fuel) :
    pingPong (a < b) fuel aVec bVec = true ↔ KeyLess (zigzag aVec) (zigzag bVec) a b := by
  induction fuel generalizing aVec bVec with
  | zero => exact absurd (List.eq_nil_of_length_eq_zero (by omega)) ha
  | succ fuel ih =>
    obtain ⟨x, xs, rfl⟩ := List.exists_cons_of_ne_nil ha
    obtain ⟨y, ys, rfl⟩ := List.exists_cons_of_ne_nil hb
    obtain ⟨zx, hzx, hx⟩ : ∃ zx, zigzag (x :: xs) = x :: zx ∧ (zx = [] ↔ xs = []) := by
      cases xs with
      | nil => exact ⟨[], by simp [zigzag], by simp⟩
      | cons x' xs => exact ⟨_, by rw [zigzag], by simp⟩
    obtain ⟨zy, hzy, hy⟩ : ∃ zy, zigzag (y :: ys) = y :: zy ∧ (zy = [] ↔ ys = []) := by
      cases ys with
      | nil => exact ⟨[], by simp [zigzag], by simp⟩
      | cons y' ys => exact ⟨_, by rw [zigzag], by simp⟩
    -- first the two front elements, then the two last ones, then what lies between
    rw [hzx, hzy, pingPong]
    apply ite_keyLess_iff
    · simp [hx, hy]
    · simp [hx, hy]
    · simp [hx, hy]
    intro hxne hyne
    obtain ⟨x', xs', rfl⟩ := List.exists_cons_of_ne_nil (mt hx.mpr hxne)
    obtain ⟨y', ys', rfl⟩ := List.exists_cons_of_ne_nil (mt hy.mpr hyne)
    rw [zigzag, List.cons.injEq] at hzx hzy
    rw [← hzx.2, ← hzy.2]
    apply ite_keyLess_iff
    · rw [ne_eq, ne_eq, zigzag_dropLast_eq_nil, zigzag_dropLast_eq_nil]
      rfl
    · rw [ne_eq, ne_eq, zigzag_dropLast_eq_nil, zigzag_dropLast_eq_nil]
      rfl
    · rw [zigzag_dropLast_eq_nil, zigzag_dropLast_eq_nil]
      rfl
    intro hxne' hyne'
    rw [ne_eq, zigzag_eq_nil] at hxne' hyne'
    apply ih hxne' hyne'
    simp only [List.length_dropLast, List.length_cons] at hfuel ⊢
    omega

/-- What columns are sorted by: the layers of the first and the last row, and the rows. -/
def columnKey (round : Nat → Nat) (v : List Nat) : List Nat :=
  if v = [] then [] else round (v.headD 0) :: round (v.getLastD 0) :: zigzag v

variable {rowIndices : List (List Nat)} {round : Nat → Nat}

theorem columnKey_nil : columnKey round [] = [] := rfl

theorem columnKey_of_ne {v : List Nat} (h : v ≠ []) :
    columnKey round v = round (v.headD 0) :: round (v.getLastD 0) :: zigzag v := by
  rw [columnKey, if_neg h]

theorem columnLess_iff {a b : Nat} :
    columnLess rowIndices round a b = true ↔
      KeyLess (columnKey round (rowIndices.getD a [])) (columnKey round (rowIndices.getD b [])) a
        b := by
  simp only [columnLess]
  generalize rowIndices.getD a [] = aVec
  generalize rowIndices.getD b [] = bVec
  by_cases ha : aVec = []
  · subst ha
    by_cases hb : bVec = []
    · subst hb
      simp [columnKey_nil, keyLess_nil]
    · simp [columnKey_nil, columnKey_of_ne hb, hb, keyLess_nil_cons]
  · by_cases hb : bVec = []
    · subst hb
      simp [columnKey_nil, columnKey_of_ne ha, ha, not_keyLess_cons_nil]
    · have hloop : pingPong (a < b) aVec.length aVec bVec = true ↔
          KeyLess (zigzag aVec) (zigzag bVec) a b := pingPong_iff ha hb le_rfl
      rw [columnKey_of_ne ha, columnKey_of_ne hb, keyLess_cons, keyLess_cons]
      simp only [ha, hb, ne_eq, not_false_eq_true, and_false, false_and, if_false]
      split
      · next h => simp only [h, false_and, or_false, decide_eq_true_eq]
      · next h =>
        rw [not_not] at h
        simp only [h, lt_irrefl, false_or, true_and]
        split
        · next h' => simp only [h', false_and, or_false, decide_eq_true_eq]
        · next h' =>
          rw [not_not] at h'
          simp only [h', lt_irrefl, false_or, true_and]
          exact hloop

/-! ### Sorting -/

def columnRank (rowIndices : List (List Nat)) (round : Nat → Nat) (a : Nat) : List Nat ×ₗ Nat :=
  toLex (columnKey round (rowIndices.getD a []), a)

theorem columnLess_eq_false_iff {a b : Nat} :
    columnLess rowIndices round b a = false ↔
      columnRank rowIndices round a ≤ columnRank rowIndices round b := by
  rw [← not_lt, ← Bool.not_eq_true, columnLess_iff]
  simp only [columnRank, KeyLess, Prod.Lex.toLex_lt_toLex]

/-- The columns in topological order. The order is strict and total, so that any sort returns the
same. -/
def sortedColumns (rowIndices : List (List Nat)) (round : Nat → Nat) : List Nat :=
  (List.range rowIndices.length).insertionSort fun a b => columnLess rowIndices round b a = false

variable (rowIndices round)

theorem sortedColumns_perm :
    (sortedColumns rowIndices round).Perm (List.range rowIndices.length) :=
  List.perm_insertionSort _ _

theorem pairwise_columnRank (columns : List Nat) :
    (columns.insertionSort fun a b => columnLess rowIndices round b a = false).Pairwise fun a b =>
      columnRank rowIndices round a ≤ columnRank rowIndices round b := by
  let r : Nat → Nat → Prop := fun a b => columnLess rowIndices round b a = false
  have : Std.Total r := ⟨fun a b => by
    simp only [r, columnLess_eq_false_iff]
    exact le_total _ _⟩
  have : IsTrans Nat r := ⟨fun a b c hab hbc => by
    simp only [r, columnLess_eq_false_iff] at hab hbc ⊢
    exact hab.trans hbc⟩
  have hsorted := List.pairwise_insertionSort r columns
  exact hsorted.imp columnLess_eq_false_iff.mp

theorem pairwise_sortedColumns :
    (sortedColumns rowIndices round).Pairwise fun a b =>
      columnKey round (rowIndices.getD a []) ≤ columnKey round (rowIndices.getD b []) := by
  refine (pairwise_columnRank rowIndices round _).imp fun hle => ?_
  rw [columnRank, columnRank, Prod.Lex.toLex_le_toLex] at hle
  rcases hle with hlt | heq
  · exact le_of_lt hlt
  · exact le_of_eq heq.1

variable {rowIndices round}

/-- Columns whose keys never decrease are in order already. -/
theorem sortedColumns_eq_range
    (h : rowIndices.Pairwise fun v w => columnKey round v ≤ columnKey round w) :
    sortedColumns rowIndices round = List.range rowIndices.length := by
  rw [sortedColumns]
  apply List.Pairwise.insertionSort_eq
  rw [List.pairwise_iff_getElem]
  intro i j hi hj hij
  rw [List.length_range] at hi hj
  rw [List.getElem_range, List.getElem_range, columnLess_eq_false_iff, columnRank, columnRank,
    Prod.Lex.toLex_le_toLex]
  simp only [List.getD_eq_getElem _ _ hi, List.getD_eq_getElem _ _ hj]
  rcases lt_or_eq_of_le (List.pairwise_iff_getElem.mp h i j hi hj hij) with hlt | heq
  · exact .inl hlt
  · exact .inr ⟨heq, hij.le⟩

/-! ## Reordering -/

/-- `validate_reorder_pcm_columns_rows`: how many rows are copied, as a `uint32_t`. -/
def validateReorderPcmColumnsRows (numRows rowBegin rowEnd : Nat) : Except Error Nat := do
  throwIf (rowEnd < rowBegin)
    (.invalidArgument ("reorder_pcm_columns: row_begin must be less than or equal to row_end"))
  if numRows = 0 then do
    throwIf (rowBegin ≠ 0)
      (.invalidArgument ("reorder_pcm_columns: row_begin is greater than the number of rows in PCM"))
    return 0
  else do
    throwIf (numRows ≤ rowBegin)
      (.invalidArgument ("reorder_pcm_columns: row_begin is greater than the number of rows in PCM"))
    return u32 (min rowEnd (min uint32Max (numRows - 1)) - rowBegin + 1)

def reorderPcmColumns (pcm : Tensor) (columnOrder : List Nat) (rowBegin rowEnd : Nat) :
    Except Error Tensor := do
  throwIf (pcm.shape.length ≠ 2)
    (.invalidArgument "reorder_pcm_columns: PCM must be a 2D tensor")
  let rows ← validateReorderPcmColumnsRows pcm.rows rowBegin rowEnd
  throwIf (columnOrder.any fun c => pcm.cols ≤ c)
    (.invalidArgument ("reorder_pcm_columns: column_order contains a column index that is " ++
      "greater than the number of columns in PCM"))
  return .ofEntries rows columnOrder.length fun r j => pcm.entry (rowBegin + r) (columnOrder.getD j 0)

/-! ## Rows of a column -/

def columnRows (pcm : Tensor) (c : Nat) : List Nat :=
  (List.range pcm.rows).filter fun r => pcm.entry r c ≠ 0

theorem mem_columnRows {pcm : Tensor} {c r : Nat} :
    r ∈ columnRows pcm c ↔ r < pcm.rows ∧ pcm.entry r c ≠ 0 := by
  simp [columnRows]

theorem denseToSparse_eq {pcm : Tensor} (hrank : pcm.shape.length = 2) (hrows : pcm.rows ≤ 2 ^ 32)
    (hcols : pcm.rows = 0 ∨ 0 < pcm.cols) :
    denseToSparse pcm = .ok ((List.range pcm.cols).map (columnRows pcm)) := by
  have hsome : ¬ (0 < pcm.rows ∧ pcm.cols = 0) := by omega
  rw [denseToSparse, throwIf_of_not (not_not.mpr hrank), ok_bind, throwIf_of_not hsome, ok_bind]
  apply congrArg Except.ok
  apply List.map_congr_left
  intro c _
  conv_rhs => rw [← List.map_id (columnRows pcm c)]
  apply List.map_congr_left
  intro r hr
  exact u32_of_lt (lt_of_lt_of_le (List.mem_range.mp (List.mem_of_mem_filter hr)) hrows)

theorem reorderPcmColumns_eq {pcm : Tensor} {columnOrder : List Nat} (hrank : pcm.shape.length = 2)
    (hrows : pcm.rows < 2 ^ 32) (horder : ∀ c ∈ columnOrder, c < pcm.cols) :
    reorderPcmColumns pcm columnOrder 0 uint32Max =
      .ok (.ofEntries pcm.rows columnOrder.length fun r j => pcm.entry r (columnOrder.getD j 0)) := by
  have hvalid : validateReorderPcmColumnsRows pcm.rows 0 uint32Max = .ok pcm.rows := by
    unfold validateReorderPcmColumnsRows
    rw [throwIf_of_not (by simp), ok_bind]
    split
    · next h => rw [throwIf_of_not (by simp), ok_bind, h]; rfl
    · next h =>
      have hmin : min uint32Max (min uint32Max (pcm.rows - 1)) - 0 + 1 = pcm.rows := by
        unfold uint32Max
        omega
      rw [throwIf_of_not (by omega), ok_bind, hmin, u32_of_lt hrows]
      rfl
  have hcols : ¬ ((columnOrder.any fun c => pcm.cols ≤ c) = true) := by
    simpa using horder
  rw [reorderPcmColumns, throwIf_of_not (not_not.mpr hrank), ok_bind, hvalid, ok_bind,
    throwIf_of_not hcols, ok_bind]
  simp only [Nat.zero_add]
  rfl

/-- A column of the reordered matrix sets the rows of the column it comes from. -/
theorem columnRows_reorder {pcm : Tensor} {columnOrder : List Nat} {j : Nat}
    (hj : j < columnOrder.length) :
    columnRows (.ofEntries pcm.rows columnOrder.length fun r j =>
      pcm.entry r (columnOrder.getD j 0)) j = columnRows pcm (columnOrder.getD j 0) := by
  unfold columnRows
  rw [Tensor.rows_ofEntries]
  apply List.filter_congr
  intro r hr
  rw [Tensor.entry_ofEntries _ _ _ (List.mem_range.mp hr) hj]

end CudaqQec
