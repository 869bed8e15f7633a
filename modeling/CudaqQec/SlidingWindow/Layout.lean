import CudaqQec.Lib.Lists
import CudaqQec.Basic
import Mathlib.Tactic.Ring

/-!
# Detector layers

`round_layout`: detector rows in layers `[B | S | ... | S | B]`. The first and the last layer may be
narrower than the ones between them.

* `RoundLayout.Whole.rowToRound_eq_iff`: the layer of a row is the one whose rows it lies among.
-/

namespace CudaqQec

structure RoundLayout where
  S : Nat
  B : Nat
  numRows : Nat
  deriving DecidableEq, Repr

namespace RoundLayout

variable (l : RoundLayout)

def boundary : Bool := l.B ≠ 0 && l.B ≠ l.S

/-- The number of layers; a layout with fewer rows than its boundaries has none. -/
def numRounds : Nat :=
  if l.boundary = false then l.numRows / l.S
  else if size64 (2 * l.B) ≤ l.numRows then (l.numRows - size64 (2 * l.B)) / l.S + 2
  else 0

def roundStart (r : Nat) : Nat :=
  if l.boundary = false then r * l.S
  else if r = 0 then 0
  else if l.numRounds ≤ r then l.numRows
  else l.B + (r - 1) * l.S

def roundWidth (r : Nat) : Nat := l.roundStart (r + 1) - l.roundStart r

def rowToRound (row : Nat) : Nat :=
  if l.boundary = false then row / l.S
  else if row < l.B then 0
  else if l.numRows - l.B ≤ row then l.numRounds - 1
  else 1 + (row - l.B) / l.S

variable {l}

/-! ## Rows that fill the layers -/

/-- Rows that fill the layers, whichever width the boundaries have. -/
structure Whole (l : RoundLayout) : Prop where
  pos : 0 < l.S
  boundary_le : l.B ≤ l.S
  rows : (∃ k, l.numRows = 2 * l.B + k * l.S) ∨ ((l.B = 0 ∨ l.B = l.S) ∧ l.S ∣ l.numRows)
  rows_lt : l.numRows < 2 ^ 64

namespace Whole

variable (h : l.Whole)

include h

/-- The layers are all alike, or there are two boundaries and the layers between them. -/
theorem layers :
    (l.boundary = false ∧ ∃ m, l.numRows = m * l.S ∧ l.numRounds = m) ∨
    (l.boundary = true ∧ 0 < l.B ∧ l.B < l.S ∧
      ∃ k, l.numRows = 2 * l.B + k * l.S ∧ l.numRounds = k + 2) := by
  have hpos := h.pos
  have hle := h.boundary_le
  have hboundary : l.boundary = false ↔ l.B = 0 ∨ l.B = l.S := by
    simp [RoundLayout.boundary]
    omega
  cases hb : l.boundary with
  | false =>
    have hdvd : l.S ∣ l.numRows := by
      rcases h.rows with ⟨k, hk⟩ | ⟨-, hdvd⟩
      · rcases hboundary.mp hb with hB | hB
        · exact ⟨k, by rw [hk, hB]; ring⟩
        · exact ⟨k + 2, by rw [hk, hB]; ring⟩
      · exact hdvd
    obtain ⟨m, hm⟩ := hdvd
    refine .inl ⟨rfl, m, by rw [hm, Nat.mul_comm], ?_⟩
    rw [numRounds, if_pos hb, hm, Nat.mul_div_cancel_left _ hpos]
  | true =>
    have hne : ¬ (l.B = 0 ∨ l.B = l.S) := fun hB => by simp [hboundary.mpr hB] at hb
    obtain ⟨k, hk⟩ := h.rows.resolve_right fun hB => hne hB.1
    have hrows := h.rows_lt
    have htwice : size64 (2 * l.B) = 2 * l.B := size64_of_lt (by omega)
    refine .inr ⟨rfl, by omega, by omega, k, hk, ?_⟩
    rw [numRounds, if_neg (by simp [hb]), htwice, if_pos (by omega), hk, Nat.add_sub_cancel_left,
      Nat.mul_div_cancel _ hpos]

omit h in
theorem roundStart_zero : l.roundStart 0 = 0 := by
  unfold roundStart
  split <;> simp

theorem roundStart_numRounds : l.roundStart l.numRounds = l.numRows := by
  unfold roundStart
  rcases h.layers with ⟨hb, m, hrows, hm⟩ | ⟨hb, -, -, k, -, hk⟩
  · rw [if_pos hb, hm, hrows]
  · rw [if_neg (by simp [hb]), if_neg (by omega), if_pos (le_refl _)]

omit h in
theorem roundStart_succ (hb : l.boundary = true) (r : Nat) :
    l.roundStart (r + 1) = if l.numRounds ≤ r + 1 then l.numRows else l.B + r * l.S := by
  have hb' : ¬ l.boundary = false := by simp [hb]
  unfold roundStart
  rw [if_neg hb', if_neg (by omega), Nat.add_sub_cancel]

theorem roundStart_lt_succ {r : Nat} (hr : r < l.numRounds) :
    l.roundStart r < l.roundStart (r + 1) := by
  have hpos := h.pos
  rcases h.layers with ⟨hb, m, hrows, hm⟩ | ⟨hb, hB, hBS, k, hrows, hk⟩
  · unfold roundStart
    rw [if_pos hb, if_pos hb, Nat.succ_mul]
    omega
  · rw [roundStart_succ hb]
    cases r with
    | zero =>
      rw [roundStart_zero, if_neg (by omega)]
      omega
    | succ r =>
      rw [roundStart_succ hb, if_neg (by omega)]
      split
      · -- The last boundary begins behind the last layer between.
        obtain rfl : r = k := by omega
        omega
      · rw [Nat.succ_mul]
        omega

theorem roundStart_mono {r r' : Nat} (hle : r ≤ r') (hr : r' ≤ l.numRounds) :
    l.roundStart r ≤ l.roundStart r' := by
  induction r', hle using Nat.le_induction with
  | base => exact le_refl _
  | succ r' hle ih => exact (ih (by omega)).trans (h.roundStart_lt_succ hr).le

/-- A row lies in its layer. -/
theorem rowToRound_spec {row : Nat} (hrow : row < l.numRows) :
    l.rowToRound row < l.numRounds ∧ l.roundStart (l.rowToRound row) ≤ row ∧
      row < l.roundStart (l.rowToRound row + 1) := by
  have hpos := h.pos
  rcases h.layers with ⟨hb, m, hrows, hm⟩ | ⟨hb, hB, hBS, k, hrows, hk⟩
  · have hlt : row / l.S < m := Nat.div_lt_of_lt_mul (by rwa [Nat.mul_comm, ← hrows])
    have hmod := Nat.div_add_mod row l.S
    have hmodlt := Nat.mod_lt row hpos
    rw [Nat.mul_comm] at hmod
    simp only [rowToRound, roundStart, if_pos hb, Nat.succ_mul]
    omega
  · have hb' : ¬ l.boundary = false := by simp [hb]
    simp only [rowToRound, if_neg hb']
    split
    · rw [roundStart_zero, roundStart_succ hb, if_neg (by omega)]
      omega
    · split
      · rw [show l.numRounds - 1 = k + 1 by omega, roundStart_succ hb, roundStart_succ hb,
          if_neg (by omega), if_pos (by omega)]
        have : l.numRows - l.B = l.B + k * l.S := by omega
        omega
      · next hfront hback =>
        have hrest : row - l.B < k * l.S := by
          have : l.numRows - l.B = l.B + k * l.S := by omega
          omega
        have hlt : (row - l.B) / l.S < k := Nat.div_lt_of_lt_mul (by rwa [Nat.mul_comm])
        have hmod := Nat.div_add_mod (row - l.B) l.S
        have hmodlt := Nat.mod_lt (row - l.B) hpos
        rw [Nat.mul_comm] at hmod
        rw [Nat.add_comm 1, roundStart_succ hb, roundStart_succ hb, if_neg (by omega),
          Nat.succ_mul]
        split <;> omega

theorem rowToRound_eq_iff {row r : Nat} (hrow : row < l.numRows) (hr : r < l.numRounds) :
    l.rowToRound row = r ↔ l.roundStart r ≤ row ∧ row < l.roundStart (r + 1) := by
  obtain ⟨h1, h2, h3⟩ := h.rowToRound_spec hrow
  constructor
  · rintro rfl
    exact ⟨h2, h3⟩
  · rintro ⟨h4, h5⟩
    rcases Nat.lt_trichotomy (l.rowToRound row) r with hlt | heq | hgt
    · have := h.roundStart_mono (show l.rowToRound row + 1 ≤ r from hlt) (by omega)
      omega
    · exact heq
    · have := h.roundStart_mono (show r + 1 ≤ l.rowToRound row from hgt) (by omega)
      omega

end Whole

/-! ## Rows with boundaries, in 32 bits -/

/-- Rows that fill the layers: two boundaries and whole layers between them. -/
structure Fits (l : RoundLayout) : Prop where
  boundary_pos : 0 < l.B
  boundary_le : l.B ≤ l.S
  rows : ∃ k, l.numRows = 2 * l.B + k * l.S
  rows_lt : l.numRows < 2 ^ 32

namespace Fits

variable (h : l.Fits)

include h

theorem pos : 0 < l.S := h.boundary_pos.trans_le h.boundary_le

theorem whole : l.Whole :=
  ⟨h.pos, h.boundary_le, .inl h.rows, h.rows_lt.trans (by decide)⟩

theorem boundary_eq_false : l.boundary = false ↔ l.B = l.S := by
  have := h.boundary_pos
  simp [RoundLayout.boundary]
  omega

/-- The layers between the boundaries, counted. -/
theorem exists_interior : ∃ k, l.numRows = 2 * l.B + k * l.S ∧ l.numRounds = k + 2 := by
  obtain ⟨k, hk⟩ := h.rows
  refine ⟨k, hk, ?_⟩
  unfold numRounds
  split
  · next hb =>
    have hS : l.numRows = (k + 2) * l.S := by
      rw [hk, h.boundary_eq_false.mp hb]
      ring
    rw [hS, Nat.mul_div_cancel _ h.pos]
  · have htwice : size64 (2 * l.B) = 2 * l.B := size64_of_lt (by have := h.rows_lt; omega)
    rw [htwice, if_pos (by omega), hk, Nat.add_sub_cancel_left, Nat.mul_div_cancel _ h.pos]

theorem two_le_numRounds : 2 ≤ l.numRounds := by
  obtain ⟨k, -, hk⟩ := h.exists_interior
  omega

theorem numRounds_le_numRows : l.numRounds ≤ l.numRows := by
  obtain ⟨k, hk, hn⟩ := h.exists_interior
  have hB := h.boundary_pos
  have := Nat.le_mul_of_pos_right k h.pos
  omega

theorem roundStart_numRounds : l.roundStart l.numRounds = l.numRows := h.whole.roundStart_numRounds

/-- Where the layers after the first one and up to the last begin. -/
theorem roundStart_succ {r : Nat} (hr : r + 1 < l.numRounds) :
    l.roundStart (r + 1) = l.B + r * l.S := by
  unfold roundStart
  split
  · next hb =>
    rw [h.boundary_eq_false.mp hb]
    ring
  · rw [if_neg (by omega), if_neg (by omega), Nat.add_sub_cancel]

theorem roundStart_lt_succ {r : Nat} (hr : r < l.numRounds) :
    l.roundStart r < l.roundStart (r + 1) := h.whole.roundStart_lt_succ hr

theorem roundStart_mono {r r' : Nat} (hle : r ≤ r') (hr : r' ≤ l.numRounds) :
    l.roundStart r ≤ l.roundStart r' := h.whole.roundStart_mono hle hr

theorem roundStart_le_numRows {r : Nat} (hr : r ≤ l.numRounds) : l.roundStart r ≤ l.numRows := by
  rw [← h.roundStart_numRounds]
  exact h.roundStart_mono hr (le_refl _)

theorem roundStart_add_width {r : Nat} (hr : r < l.numRounds) :
    l.roundStart r + l.roundWidth r = l.roundStart (r + 1) := by
  have := h.roundStart_lt_succ hr
  unfold roundWidth
  omega

/-- A row lies in its layer. -/
theorem rowToRound_spec {row : Nat} (hrow : row < l.numRows) :
    l.rowToRound row < l.numRounds ∧ l.roundStart (l.rowToRound row) ≤ row ∧
      row < l.roundStart (l.rowToRound row + 1) := h.whole.rowToRound_spec hrow

theorem rowToRound_eq_iff {row r : Nat} (hrow : row < l.numRows) (hr : r < l.numRounds) :
    l.rowToRound row = r ↔ l.roundStart r ≤ row ∧ row < l.roundStart (r + 1) :=
  h.whole.rowToRound_eq_iff hrow hr

/-- Rows between the starts of two layers are those of the layers between. -/
theorem rowToRound_between {row r r' : Nat} (hrow : row < l.numRows) (hr : r ≤ l.numRounds)
    (hr' : r' ≤ l.numRounds) :
    (l.roundStart r ≤ row ∧ row < l.roundStart r') ↔ r ≤ l.rowToRound row ∧ l.rowToRound row < r' := by
  obtain ⟨h1, h2, h3⟩ := h.rowToRound_spec hrow
  constructor
  · rintro ⟨h4, h5⟩
    constructor
    · by_contra hlt
      have := h.roundStart_mono (show l.rowToRound row + 1 ≤ r by omega) hr
      omega
    · by_contra hge
      have := h.roundStart_mono (show r' ≤ l.rowToRound row by omega) (by omega)
      omega
  · rintro ⟨h4, h5⟩
    have h6 := h.roundStart_mono h4 (by omega)
    have h7 := h.roundStart_mono (show l.rowToRound row + 1 ≤ r' by omega) hr'
    omega

theorem rowToRound_mono {row row' : Nat} (hle : row ≤ row') (hrow : row' < l.numRows) :
    l.rowToRound row ≤ l.rowToRound row' := by
  obtain ⟨h1, h2, h3⟩ := h.rowToRound_spec (show row < l.numRows by omega)
  obtain ⟨h4, h5, h6⟩ := h.rowToRound_spec hrow
  by_contra hlt
  have := h.roundStart_mono (show l.rowToRound row' + 1 ≤ l.rowToRound row by omega) (by omega)
  omega

/-- Layers are told apart by where they begin, so two layouts that agree on that map rows alike. -/
theorem rowToRound_congr {l' : RoundLayout} (h' : l'.Fits) (hrows : l'.numRows = l.numRows)
    (hrounds : l'.numRounds = l.numRounds)
    (hstart : ∀ r ≤ l.numRounds, l'.roundStart r = l.roundStart r) {row : Nat}
    (hrow : row < l.numRows) : l'.rowToRound row = l.rowToRound row := by
  obtain ⟨h1, h2, h3⟩ := h.rowToRound_spec hrow
  rw [h'.rowToRound_eq_iff (by omega) (by omega), hstart _ (by omega), hstart _ (by omega)]
  exact ⟨h2, h3⟩

/-- With no layer between the boundaries the interior width is never read. -/
theorem eq_of_two_boundaries {l' : RoundLayout} (h' : l'.Fits) (hB : l'.B = l.B)
    (hrows : l'.numRows = l.numRows) (htwo : l.numRows = 2 * l.B) :
    l'.numRounds = l.numRounds ∧ ∀ r ≤ l.numRounds, l'.roundStart r = l.roundStart r := by
  have key : ∀ {m : RoundLayout}, m.Fits → m.numRows = 2 * m.B → m.numRounds = 2 := by
    intro m hm htwo
    obtain ⟨k, hk, hn⟩ := hm.exists_interior
    have := hm.pos
    have : k * m.S = 0 := by omega
    rcases Nat.mul_eq_zero.mp this with h0 | h0 <;> omega
  have hn := key h htwo
  have hn' := key h' (by omega)
  refine ⟨by omega, fun r hr => ?_⟩
  obtain rfl | rfl | rfl : r = 0 ∨ r = 1 ∨ r = 2 := by omega
  · rw [Whole.roundStart_zero, Whole.roundStart_zero]
  · rw [h.roundStart_succ (by omega), h'.roundStart_succ (by omega), hB]
    simp
  · have e := h.roundStart_numRounds
    have e' := h'.roundStart_numRounds
    rw [hn] at e
    rw [hn'] at e'
    omega

end Fits

end RoundLayout

end CudaqQec
