import CudaqQec.Lib.Parity
import CudaqQec.Lib.Toggle
import CudaqQec.Sparse.Entries

/-!
# Products over GF(2)

The product of a sparse matrix with a vector of bits, and how the library computes it: by the rows of
each column that is set, or by the columns of each row. Repeated entries cancel either way.

* `mulVec_eq_flipAll`: the rows of the set columns, flipped one after the other.
* `foldl_row_eq`: the parity of a row's set columns.
* `mulVec_xorBits`: the product is linear.
-/

namespace CudaqQec.SparseBinaryMatrix

open Toggle

def mulVec (m : SparseBinaryMatrix) (e : List Bool) : List Bool :=
  (List.range m.numRows).map fun r =>
    decide (((List.range m.numCols).countP fun c => m.entry r c && e.getD c false) % 2 = 1)

variable (m : SparseBinaryMatrix)

@[simp] theorem length_mulVec (e : List Bool) : (m.mulVec e).length = m.numRows := by simp [mulVec]

theorem getD_mulVec {r : Nat} (hr : r < m.numRows) (e : List Bool) : (m.mulVec e).getD r false =
    decide (((List.range m.numCols).countP fun c => m.entry r c && e.getD c false) % 2 = 1) := by
  rw [mulVec, getD_map_range, if_pos hr]

/-! ## Sums of entries -/

theorem sum_mod_two {α : Type} (l : List α) (f : α → Nat) :
    (l.map f).sum % 2 = (l.countP fun x => f x % 2 = 1) % 2 := by
  induction l with
  | nil => rfl
  | cons x l ih =>
    rw [List.map_cons, List.sum_cons, List.countP_cons]
    rcases Nat.mod_two_eq_zero_or_one (f x) with h | h <;> simp [h] <;> omega

/-- The number of entries that the set columns list in row `r`. -/
theorem sum_entries (e : List Bool) (r : Nat) :
    ((List.range m.numCols).map fun c => if e.getD c false then m.count r c else 0).sum % 2 =
      ((List.range m.numCols).countP fun c => m.entry r c && e.getD c false) % 2 := by
  rw [sum_mod_two]
  congr 1
  apply List.countP_congr
  intro c _
  cases hc : e.getD c false <;> simp [entry]

/-! ## By columns -/

def columnFlips (e : List Bool) : List Nat :=
  (List.range m.numCols).flatMap fun c => if e.getD c false then m.toNestedCsc.getD c [] else []

theorem count_columnFlips (e : List Bool) (r : Nat) : (m.columnFlips e).count r =
    ((List.range m.numCols).map fun c => if e.getD c false then m.count r c else 0).sum := by
  rw [columnFlips, List.count_flatMap]
  congr 1
  apply List.map_congr_left
  intro c _
  dsimp only [Function.comp_apply]
  split
  · exact m.count_toNestedCsc r c
  · rfl

theorem mulVec_eq_flipAll (e : List Bool) :
    flipAll (List.replicate m.numRows false) (m.columnFlips e) = m.mulVec e := by
  apply List.ext_getElem?
  intro r
  rw [getElem?_flipAll, mulVec, List.getElem?_map, count_columnFlips, sum_entries]
  by_cases hr : r < m.numRows
  · simp [hr]
  · simp [hr]

/-! ## By rows -/

/-- How many of a row's columns are set. -/
theorem countP_row {row : List Nat} {n : Nat} (h : ∀ c ∈ row, c < n) (p : Nat → Bool) :
    row.countP p = ((List.range n).map fun c => if p c then row.count c else 0).sum := by
  rw [← (Parity.flatMap_replicate_count_perm h).countP_eq, List.countP_flatMap]
  congr 1
  apply List.map_congr_left
  intro c _
  simp only [Function.comp_apply, List.countP_replicate]

theorem foldl_xor_eq {α : Type} (row : List α) (f : α → Bool) (b : Bool) :
    row.foldl (fun parity c => parity ^^ f c) b = (b ^^ decide (row.countP f % 2 = 1)) := by
  induction row generalizing b with
  | nil => simp
  | cons c row ih =>
    rw [List.foldl_cons, ih, List.countP_cons]
    cases hc : f c with
    | false => simp
    | true =>
      rcases Nat.mod_two_eq_zero_or_one (row.countP f) with h | h <;>
        simp [h, Nat.add_mod]

theorem foldl_row_eq {r : Nat} (hr : r < m.numRows) (e : List Bool) :
    (m.toNestedCsr.getD r []).foldl (fun parity c => parity ^^ e.getD c false) false =
      (m.mulVec e).getD r false := by
  have hlt : ∀ c ∈ m.toNestedCsr.getD r [], c < m.numCols :=
    fun c hc => m.mem_toNestedCsr_lt (getD_mem hc) hc
  rw [foldl_xor_eq, Bool.false_xor, countP_row hlt, getD_mulVec m hr, ← sum_entries]
  simp only [count_toNestedCsr]

/-- The number of positions where exactly one of two bits is set, up to parity. -/
theorem odd_countP_xor {α : Type} (l : List α) (f g : α → Bool) :
    decide ((l.countP fun c => f c ^^ g c) % 2 = 1) =
      (decide (l.countP f % 2 = 1) ^^ decide (l.countP g % 2 = 1)) := by
  have hfold : ∀ a b : Bool, l.foldl (fun parity c => parity ^^ (f c ^^ g c)) (a ^^ b) =
      (l.foldl (fun parity c => parity ^^ f c) a ^^ l.foldl (fun parity c => parity ^^ g c) b) := by
    induction l with
    | nil => exact fun _ _ => rfl
    | cons c l ih =>
      intro a b
      rw [List.foldl_cons, List.foldl_cons, List.foldl_cons, ← ih]
      congr 1
      cases a <;> cases b <;> cases f c <;> cases g c <;> rfl
  have h := hfold false false
  simpa only [foldl_xor_eq, Bool.false_xor] using h

theorem mulVec_xorBits {e e' : List Bool} (h : e.length = e'.length) :
    m.mulVec (xorBits e e') = xorBits (m.mulVec e) (m.mulVec e') := by
  have hget : ∀ c, (xorBits e e').getD c false = (e.getD c false ^^ e'.getD c false) := by
    intro c
    simp only [xorBits, List.getD_eq_getElem?_getD, List.getElem?_zipWith]
    by_cases hc : c < e.length
    · simp [hc, h ▸ hc]
    · simp [hc, show ¬ c < e'.length by omega]
  have hlen : (xorBits (m.mulVec e) (m.mulVec e')).length = m.numRows := by
    rw [length_xorBits (by simp), length_mulVec]
  apply List.ext_getElem (by rw [length_mulVec, hlen])
  intro r hr hr'
  have hrow : r < m.numRows := by simpa using hr
  have hzip : (xorBits (m.mulVec e) (m.mulVec e'))[r] =
      ((m.mulVec e).getD r false ^^ (m.mulVec e').getD r false) := by
    simp [xorBits, List.getD_eq_getElem?_getD, hrow]
  rw [hzip, ← List.getD_eq_getElem _ false hr, getD_mulVec m hrow, getD_mulVec m hrow,
    getD_mulVec m hrow, ← odd_countP_xor]
  simp only [hget, Bool.and_xor_distrib_left]

end CudaqQec.SparseBinaryMatrix
