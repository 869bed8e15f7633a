import CudaqQec.Lib.Lists
import Mathlib.Tactic.Common

/-!
# Banded matrices

A matrix whose rows fall into three bands — a leading band shared with what comes before it, an
interior, and a trailing band shared with what comes after — is composed with the next one by
contracting the trailing band of the first against the leading band of the second: the two bands
become one band of joined rows, and every other row is padded with zeros.

* `stitch_assoc`: composition is associative, whatever the band widths are.
* `rowAt_stitch`: when the contracted bands have one width, the rows of a composition listed from
  top to bottom are those of the two parts, the second moved down by the first one's leading and
  interior rows and right by its columns.

Rows map a column to how often it is listed. Nothing in this file depends on what is counted.
-/

namespace CudaqQec

abbrev Row := Nat → Nat

def joinRows (n : Nat) (a b : Row) : Row := fun c => if c < n then a c else b (c - n)

def zeroRow : Row := fun _ => 0

@[simp] theorem zeroRow_apply (c : Nat) : zeroRow c = 0 := rfl

theorem joinRows_of_lt {n c : Nat} (a b : Row) (h : c < n) : joinRows n a b c = a c := if_pos h

theorem joinRows_of_le {n c : Nat} (a b : Row) (h : n ≤ c) : joinRows n a b c = b (c - n) :=
  if_neg (by omega)

@[simp] theorem joinRows_zero_zero (n : Nat) : joinRows n zeroRow zeroRow = zeroRow := by
  funext c
  simp [joinRows]

theorem joinRows_assoc (m n : Nat) (a b c : Row) :
    joinRows (m + n) (joinRows m a b) c = joinRows m a (joinRows n b c) := by
  funext k
  rcases Nat.lt_or_ge k m with h | h
  · rw [joinRows_of_lt _ _ (by omega : k < m + n), joinRows_of_lt _ _ h, joinRows_of_lt _ _ h]
  · rw [joinRows_of_le _ (joinRows n b c) h]
    rcases Nat.lt_or_ge k (m + n) with h' | h'
    · rw [joinRows_of_lt _ _ h', joinRows_of_le _ _ h, joinRows_of_lt _ _ (by omega)]
    · rw [joinRows_of_le _ _ h', joinRows_of_le _ _ (by omega)]
      congr 1
      omega

@[ext] structure Banded where
  width : Nat
  lead : List Row
  interior : List Row
  trail : List Row

namespace Banded

def stitch (a b : Banded) : Banded where
  width := a.width + b.width
  lead := a.lead.map fun r => joinRows a.width r zeroRow
  interior := a.interior.map (fun r => joinRows a.width r zeroRow) ++
    (List.zipWith (joinRows a.width) a.trail b.lead ++
      b.interior.map fun r => joinRows a.width zeroRow r)
  trail := b.trail.map fun r => joinRows a.width zeroRow r

def rows (a : Banded) : List Row := a.lead ++ (a.interior ++ a.trail)

/-- Row `i` from the top; nothing is listed past the last one. -/
def rowAt (a : Banded) (i : Nat) : Row := a.rows.getD i zeroRow

def trailRow (a : Banded) : Nat := a.lead.length + a.interior.length

theorem length_rows (a : Banded) : a.rows.length = a.trailRow + a.trail.length := by
  simp [rows, trailRow, Nat.add_assoc]

theorem stitch_assoc (a b c : Banded) : (a.stitch b).stitch c = a.stitch (b.stitch c) := by
  apply Banded.ext
  · exact Nat.add_assoc _ _ _
  · simp only [stitch, List.map_map]
    apply List.map_congr_left
    intro r _
    rw [Function.comp_apply, joinRows_assoc, joinRows_zero_zero]
  · simp only [stitch, List.map_append, List.map_map, List.append_assoc, List.map_zipWith,
      List.zipWith_map_left, List.zipWith_map_right, Function.comp_def, joinRows_assoc,
      joinRows_zero_zero]
    simp only [← joinRows_assoc, joinRows_zero_zero]
  · simp only [stitch, List.map_map, Function.comp_def, ← joinRows_assoc, joinRows_zero_zero]

/-! ## Rows of a composition -/

theorem getD_map_row (l : List Row) (f : Row → Row) (hf : f zeroRow = zeroRow) (i : Nat) :
    (l.map f).getD i zeroRow = f (l.getD i zeroRow) := by
  rw [List.getD_eq_getElem?_getD, List.getD_eq_getElem?_getD, List.getElem?_map]
  cases l[i]? with
  | none => exact hf.symm
  | some r => rfl

theorem getD_zipWith_row (f : Row → Row → Row) (l l' : List Row) (h : l.length = l'.length)
    (hf : f zeroRow zeroRow = zeroRow) (i : Nat) :
    (List.zipWith f l l').getD i zeroRow = f (l.getD i zeroRow) (l'.getD i zeroRow) := by
  rcases Nat.lt_or_ge i l.length with hi | hi
  · have hi' : i < l'.length := h ▸ hi
    simp [List.getD_eq_getElem?_getD, hi, hi']
  · have hi' : l'.length ≤ i := h ▸ hi
    simp [List.getD_eq_getElem?_getD, hi, hi', hf]

theorem rows_stitch (a b : Banded) :
    (a.stitch b).rows = (a.lead ++ a.interior).map (fun r => joinRows a.width r zeroRow) ++
      (List.zipWith (joinRows a.width) a.trail b.lead ++
        (b.interior ++ b.trail).map fun r => joinRows a.width zeroRow r) := by
  simp [rows, stitch]

theorem rowAt_stitch (a b : Banded) (h : a.trail.length = b.lead.length) (i : Nat) :
    (a.stitch b).rowAt i = joinRows a.width (a.rowAt i)
      (if i < a.trailRow then zeroRow else b.rowAt (i - a.trailRow)) := by
  have hl : ((a.lead ++ a.interior).map fun r => joinRows a.width r zeroRow).length =
      a.trailRow := by simp [trailRow]
  have hz : (List.zipWith (joinRows a.width) a.trail b.lead).length = b.lead.length := by
    simp [h]
  have ha : a.rowAt i = if i < a.trailRow then (a.lead ++ a.interior).getD i zeroRow
      else a.trail.getD (i - a.trailRow) zeroRow := by
    rw [rowAt, rows, ← List.append_assoc, getD_append_ite]
    simp [trailRow]
  rw [rowAt, rows_stitch, getD_append_ite, hl, getD_append_ite, hz, ha]
  split
  · exact getD_map_row _ _ (by simp) _
  · rw [rowAt, rows, getD_append_ite]
    split
    · exact getD_zipWith_row _ _ _ h (by simp) _
    · next hi =>
      rw [getD_of_length_le (by omega : a.trail.length ≤ i - a.trailRow)]
      exact getD_map_row _ (fun r => joinRows a.width zeroRow r) (by simp) _

end Banded

end CudaqQec
