import CudaqQec.SlidingWindow.Shots
import Mathlib.Data.Nat.Cast.Order.Ring
import Mathlib.Tactic.NormNum

/-!
# The loops over the columns, entry by entry

What committing and backing out do to one entry of the result and one row of the mods, and which rows of
the whole syndrome a window is given.
-/

namespace CudaqQec.SlidingWindow

variable {d : SlidingWindow}

/-! ## Committing -/

@[simp] theorem length_commitBits (first n : Nat) (bits : List Bool) (result : List ℚ) :
    (commitBits first n bits result).length = result.length := by
  induction n with
  | zero => rfl
  | succ n ih =>
    rw [commitBits, List.range_succ, List.foldl_append, List.foldl_cons, List.foldl_nil,
      List.length_set]
    exact ih

theorem getD_commitBits (first n : Nat) (bits : List Bool) {result : List ℚ} {i : Nat}
    (hi : i < result.length) :
    (commitBits first n bits result).getD i 0 =
      if first ≤ i ∧ i < first + n then bitValue (bits.getD (i - first) false)
      else result.getD i 0 := by
  induction n with
  | zero => rw [if_neg (by omega)]; rfl
  | succ n ih =>
    have hstep : commitBits first (n + 1) bits result =
        (commitBits first n bits result).set (n + first) (bitValue (bits.getD n false)) := by
      rw [commitBits, List.range_succ, List.foldl_append, List.foldl_cons, List.foldl_nil]
      rfl
    rw [hstep, List.getD_eq_getElem?_getD, List.getElem?_set]
    by_cases hn : n + first = i
    · rw [if_pos hn, if_pos (by rw [length_commitBits]; omega), if_pos (by omega), Option.getD_some,
        show i - first = n by omega]
    · rw [if_neg hn, ← List.getD_eq_getElem?_getD, ih]
      have : (first ≤ i ∧ i < first + (n + 1)) ↔ (first ≤ i ∧ i < first + n) := by omega
      simp only [this]

/-! ## Backing out -/

theorem length_foldl_modify (start stop : Nat) (col : List Nat) (mods : List Bool) :
    (col.foldl (fun mods r => if start ≤ r ∧ r ≤ stop then mods.modify r (!·) else mods) mods).length =
      mods.length := by
  induction col generalizing mods with
  | nil => rfl
  | cons a col ih =>
    rw [List.foldl_cons, ih]
    split <;> simp

/-- A row of the range is flipped by a column that has it. -/
theorem getD_foldl_modify {start stop : Nat} {col : List Nat} (hcol : col.Nodup) {mods : List Bool}
    {r : Nat} (hr : r < mods.length) :
    (col.foldl (fun mods r => if start ≤ r ∧ r ≤ stop then mods.modify r (!·) else mods) mods).getD r
      false = (mods.getD r false ^^ decide (start ≤ r ∧ r ≤ stop ∧ r ∈ col)) := by
  induction col generalizing mods with
  | nil => simp
  | cons a col ih =>
    obtain ⟨ha, hcol⟩ := List.nodup_cons.mp hcol
    rw [List.foldl_cons]
    by_cases hin : start ≤ a ∧ a ≤ stop
    · rw [if_pos hin, ih hcol (by simpa using hr), List.getD_eq_getElem?_getD, List.getElem?_modify]
      by_cases har : a = r
      · subst har
        simp [List.getD_eq_getElem?_getD, hr, hin, ha]
      · simp [List.getD_eq_getElem?_getD, har, Ne.symm har]
    · rw [if_neg hin, ih hcol hr]
      by_cases har : a = r
      · subst har
        simp only [List.mem_cons, true_or, and_true]
        have : ¬ (start ≤ a ∧ a ≤ stop ∧ a ∈ col) := fun h => hin ⟨h.1, h.2.1⟩
        simp [this, hin]
      · simp [Ne.symm har]

theorem backOut_succ (first n start stop : Nat) (result : List ℚ) (mods : List Bool) :
    d.backOut first (n + 1) start stop result mods =
      if result.getD (n + first) 0 ≠ 0 then
        (d.column (n + first)).foldl (fun mods r =>
          if start ≤ r ∧ r ≤ stop then mods.modify r (!·) else mods)
          (d.backOut first n start stop result mods)
      else d.backOut first n start stop result mods := by
  rw [backOut, List.range_succ, List.foldl_append, List.foldl_cons, List.foldl_nil]
  rfl

@[simp] theorem length_backOut (first n start stop : Nat) (result : List ℚ) (mods : List Bool) :
    (d.backOut first n start stop result mods).length = mods.length := by
  induction n with
  | zero => rfl
  | succ n ih =>
    rw [backOut_succ]
    split
    · rw [length_foldl_modify, ih]
    · exact ih

/-- A row of the range is flipped once for each committed column that is set and has it. -/
theorem getD_backOut (hcols : ∀ c, (d.column c).Nodup) (first n start stop : Nat) (result : List ℚ)
    {mods : List Bool} {r : Nat} (hr : r < mods.length) :
    (d.backOut first n start stop result mods).getD r false =
      (mods.getD r false ^^ decide ((start ≤ r ∧ r ≤ stop) ∧ ((List.range n).countP fun c =>
        decide (result.getD (first + c) 0 ≠ 0) && decide (r ∈ d.column (first + c))) % 2 = 1)) := by
  induction n with
  | zero => simp [backOut]
  | succ n ih =>
    have hr' : r < (d.backOut first n start stop result mods).length := by simpa using hr
    rw [backOut_succ, List.range_succ, List.countP_append, List.countP_singleton, Nat.add_comm n first]
    by_cases hset : result.getD (first + n) 0 ≠ 0
    · rw [if_pos hset, getD_foldl_modify (hcols _) hr', ih]
      by_cases hin : start ≤ r ∧ r ≤ stop
      · by_cases hmem : r ∈ d.column (first + n)
        · simp only [hin, hmem, hset, ne_eq, not_false_eq_true, decide_true, Bool.and_self, true_and,
            if_true, and_self]
          generalize (List.range n).countP _ = k
          rcases Nat.mod_two_eq_zero_or_one k with h | h <;> simp [Nat.add_mod, h]
        · simp [hin, hmem]
      · have : ¬ (start ≤ r ∧ r ≤ stop ∧ r ∈ d.column (first + n)) := fun h => hin ⟨h.1, h.2.1⟩
        simp [hin, this]
    · have h0 : decide (result.getD (first + n) 0 ≠ 0) = false := decide_eq_false hset
      simp only [if_neg hset, ih, h0, Bool.false_and, Bool.false_eq_true, if_false, Nat.add_zero]

/-! ## One element -/

section
variable {inner : Nat → List ℚ → DecoderResult} {layers : List (List ℚ)}

@[simp] theorem length_mods (w : Nat) :
    (d.elementState inner layers w).1.length = d.syndromeSize := by
  induction w with
  | zero => simp [elementState]
  | succ w ih =>
    rw [elementState]
    simp only [backOutWindow]
    split
    · rw [length_backOut, ih]
    · exact ih

@[simp] theorem length_result (w : Nat) :
    (d.elementState inner layers w).2.result.length = d.blockSize := by
  induction w with
  | zero => simp [elementState]
  | succ w ih =>
    rw [elementState]
    simp only [commitWindow, length_commitBits]
    exact ih

end

/-! ## What a window is given -/

theorem toUint8_xor (b m : Bool) : ((toUint8 (bitValue b) ^^^ m.toNat : Nat) : ℚ) = bitValue (b ^^ m) := by
  cases b <;> cases m <;> decide +kernel

section
variable (hd : d.Accepted) {syn : List ℚ} (hsyn : syn.length = d.syndromeSize)

include hd hsyn

omit hsyn in
/-- The first layers of a syndrome are its first rows. -/
theorem flatten_take_layersOf {r : Nat} (hr : r ≤ d.layout.numRounds) :
    ((d.layersOf syn).take r).flatten = syn.take (d.layout.roundStart r) := by
  induction r with
  | zero => simp [RoundLayout.Whole.roundStart_zero]
  | succ r ih =>
    have hlt : r < (d.layersOf syn).length := by simpa [layersOf] using Nat.lt_of_succ_le hr
    rw [List.take_add_one, List.getElem?_eq_getElem hlt, List.flatten_append, ih (by omega),
      ← hd.fits.roundStart_add_width (show r < d.layout.numRounds by omega), List.take_add]
    simp [layersOf]

theorem getD_flatten_window {p i : Nat} (hp : p + d.windowSize ≤ d.layout.numRounds)
    (hi : i < d.layout.roundStart (p + d.windowSize) - d.layout.roundStart p) :
    (((d.layersOf syn).drop p).take d.windowSize).flatten.getD i 0 =
      syn.getD (d.layout.roundStart p + i) 0 := by
  have hsplit := @flatten_take_layersOf d hd syn _ hp
  rw [List.take_add, List.flatten_append, flatten_take_layersOf hd (by omega)] at hsplit
  have hle := hd.fits.roundStart_le_numRows hp
  rw [syndromeSize, hd.numRows] at hsyn
  have hlen : (syn.take (d.layout.roundStart p)).length = d.layout.roundStart p := by
    rw [List.length_take]
    omega
  have hget := congrArg (fun l => l.getD (d.layout.roundStart p + i) 0) hsplit
  simp only [getD_append_ite, hlen] at hget
  rw [if_neg (by omega), Nat.add_sub_cancel_left] at hget
  rw [hget, List.getD_eq_getElem?_getD, List.getElem?_take_of_lt (by omega),
    ← List.getD_eq_getElem?_getD]

theorem length_flatten_window {p : Nat} (hp : p + d.windowSize ≤ d.layout.numRounds) :
    (((d.layersOf syn).drop p).take d.windowSize).flatten.length =
      d.layout.roundStart (p + d.windowSize) - d.layout.roundStart p := by
  have hsplit := @flatten_take_layersOf d hd syn _ hp
  rw [List.take_add, List.flatten_append, flatten_take_layersOf hd (by omega)] at hsplit
  have hle := hd.fits.roundStart_le_numRows hp
  have hle' := hd.fits.roundStart_mono (show p ≤ p + d.windowSize by omega) hp
  have hget := congrArg List.length hsplit
  rw [syndromeSize, hd.numRows] at hsyn
  simp only [List.length_append, List.length_take] at hget
  omega

end

end CudaqQec.SlidingWindow
