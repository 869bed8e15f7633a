import Mathlib.Data.List.Basic
import Mathlib.Tactic.Common

/-!
# Dense bit matrices

A dense matrix over GF(2), written by flipping one bit at a time. The shape is carried by the
structure, so two matrices of one shape are equal as soon as they agree bit by bit (`ext_get`), and
a sequence of flips is described by how often it hits each position (`get_toggleAll`): an even
number of hits cancels.
-/

namespace CudaqQec

structure BitMatrix where
  rows : Nat
  cols : Nat
  bits : List (List Bool)
  length_bits : bits.length = rows
  length_row : ∀ r ∈ bits, r.length = cols
  deriving DecidableEq

namespace BitMatrix

/-- The matrix with no bit set. -/
def zero (rows cols : Nat) : BitMatrix where
  rows := rows
  cols := cols
  bits := List.replicate rows (List.replicate cols false)
  length_bits := by simp
  length_row := by
    intro r hr
    rw [List.eq_of_mem_replicate hr]
    simp

/-- The matrix whose bits a function gives. -/
def ofFn (rows cols : Nat) (f : Nat → Nat → Bool) : BitMatrix where
  rows := rows
  cols := cols
  bits := (List.range rows).map fun i => (List.range cols).map fun j => f i j
  length_bits := by simp
  length_row := by
    intro r hr
    obtain ⟨i, -, rfl⟩ := List.mem_map.mp hr
    simp

def ofRows (cols : Nat) (rows : List (List Bool)) : BitMatrix :=
  ofFn rows.length cols fun i j => (rows.getD i []).getD j false

/-- The bit at row `i`, column `j`; `false` outside the matrix. -/
def get (m : BitMatrix) (i j : Nat) : Bool := (m.bits.getD i []).getD j false

def mulVec (m : BitMatrix) (e : List Bool) : List Bool :=
  (List.range m.rows).map fun r =>
    decide (((List.range m.cols).countP fun c => m.get r c && e.getD c false) % 2 = 1)

/-- Flip the bit at row `i`, column `j`. -/
def toggle (m : BitMatrix) (i j : Nat) : BitMatrix where
  rows := m.rows
  cols := m.cols
  bits := m.bits.modify i fun r => r.modify j (!·)
  length_bits := by simp [m.length_bits]
  length_row := by
    intro r hr
    obtain ⟨k, hk, rfl⟩ := List.mem_iff_getElem.mp hr
    rw [List.getElem_modify]
    have hk' : k < m.bits.length := by simpa using hk
    have := m.length_row _ (List.getElem_mem hk')
    split <;> simp [this]

def toggleAll (m : BitMatrix) (ps : List (Nat × Nat)) : BitMatrix :=
  ps.foldl (fun m p => m.toggle p.1 p.2) m

@[simp] theorem zero_rows (r c : Nat) : (zero r c).rows = r := rfl
@[simp] theorem zero_cols (r c : Nat) : (zero r c).cols = c := rfl
@[simp] theorem toggleAll_rows (m : BitMatrix) (ps : List (Nat × Nat)) :
    (m.toggleAll ps).rows = m.rows := by
  induction ps generalizing m with
  | nil => rfl
  | cons p ps ih => exact (ih (m.toggle p.1 p.2)).trans rfl

@[simp] theorem toggleAll_cols (m : BitMatrix) (ps : List (Nat × Nat)) :
    (m.toggleAll ps).cols = m.cols := by
  induction ps generalizing m with
  | nil => rfl
  | cons p ps ih => exact (ih (m.toggle p.1 p.2)).trans rfl

@[simp] theorem get_zero (r c i j : Nat) : (zero r c).get i j = false := by
  unfold get zero
  by_cases hi : i < r
  · by_cases hj : j < c <;> simp [List.getD_eq_getElem?_getD, hi, hj]
  · simp [List.getD_eq_getElem?_getD, hi]

theorem get_ofFn {rows cols : Nat} (f : Nat → Nat → Bool) {i j : Nat} (hi : i < rows)
    (hj : j < cols) : (ofFn rows cols f).get i j = f i j := by
  simp [get, ofFn, List.getD_eq_getElem?_getD, hi, hj]

theorem get_toggle (m : BitMatrix) {i j : Nat} (i' j' : Nat) (hi : i < m.rows) (hj : j < m.cols) :
    (m.toggle i j).get i' j' = (m.get i' j' ^^ decide (i = i' ∧ j = j')) := by
  have hi' : i < m.bits.length := m.length_bits ▸ hi
  have hrow : (m.bits[i]).length = m.cols := m.length_row _ (List.getElem_mem hi')
  unfold get toggle
  simp only [List.getD_eq_getElem?_getD, List.getElem?_modify]
  by_cases h : i = i'
  · subst h
    by_cases h' : j = j'
    · subst h'
      simp [hi', hrow, hj]
    · simp [hi', h']
  · simp [h]

/-- After a sequence of flips inside the matrix, a bit has changed exactly when its position was
hit an odd number of times. -/
theorem get_toggleAll (m : BitMatrix) (ps : List (Nat × Nat)) (i j : Nat)
    (h : ∀ p ∈ ps, p.1 < m.rows ∧ p.2 < m.cols) :
    (m.toggleAll ps).get i j = (m.get i j ^^ decide (ps.count (i, j) % 2 = 1)) := by
  induction ps generalizing m with
  | nil => simp [toggleAll]
  | cons p ps ih =>
    have hp := h p (by simp)
    have hps : ∀ q ∈ ps, q.1 < (m.toggle p.1 p.2).rows ∧ q.2 < (m.toggle p.1 p.2).cols :=
      fun q hq => h q (by simp [hq])
    have hfold : m.toggleAll (p :: ps) = (m.toggle p.1 p.2).toggleAll ps := rfl
    rw [hfold, ih _ hps, get_toggle m i j hp.1 hp.2, List.count_cons]
    by_cases hq : p = (i, j)
    · subst hq
      rcases Nat.mod_two_eq_zero_or_one (ps.count (i, j)) with h0 | h1
      · simp [h0, Nat.add_mod]
      · simp [h1, Nat.add_mod]
    · have hne : ¬ (p.1 = i ∧ p.2 = j) := fun he => hq (Prod.ext he.1 he.2)
      simp [hq, hne]

/-- Matrices of one shape that agree bit by bit are equal. -/
theorem ext_get {m n : BitMatrix} (hr : m.rows = n.rows) (hc : m.cols = n.cols)
    (h : ∀ i < m.rows, ∀ j < m.cols, m.get i j = n.get i j) : m = n := by
  obtain ⟨mr, mc, mb, hml, hmr⟩ := m
  obtain ⟨nr, nc, nb, hnl, hnr⟩ := n
  simp only at hr hc h
  subst hr hc
  congr 1
  apply List.ext_getElem (hml.trans hnl.symm)
  intro i hi hi'
  have hmi := hmr _ (List.getElem_mem hi)
  have hni := hnr _ (List.getElem_mem hi')
  apply List.ext_getElem (hmi.trans hni.symm)
  intro j hj hj'
  have := h i (by omega) j (by omega)
  simpa [get, List.getD_eq_getElem?_getD, hi, hi', hj, hj'] using this

/-! ## Adding a count matrix -/

/-- `n` is `m` with every bit flipped as often as `g` says. -/
structure Added (m n : BitMatrix) (g : Nat → Nat → Nat) : Prop where
  rows : n.rows = m.rows
  cols : n.cols = m.cols
  get : ∀ i j, n.get i j = (m.get i j ^^ decide (g i j % 2 = 1))

theorem Added.refl (m : BitMatrix) : Added m m fun _ _ => 0 := ⟨rfl, rfl, by simp⟩

theorem Added.trans {l m n : BitMatrix} {g g' : Nat → Nat → Nat} (h : Added l m g)
    (h' : Added m n g') : Added l n fun i j => g i j + g' i j := by
  refine ⟨h'.rows.trans h.rows, h'.cols.trans h.cols, ?_⟩
  intro i j
  rw [h'.get, h.get]
  rcases Nat.mod_two_eq_zero_or_one (g i j) with h1 | h1 <;>
    rcases Nat.mod_two_eq_zero_or_one (g' i j) with h2 | h2 <;> simp [Nat.add_mod, h1, h2]

theorem Added.congr {m n : BitMatrix} {g g' : Nat → Nat → Nat} (h : Added m n g)
    (hg : ∀ i j, g i j % 2 = g' i j % 2) : Added m n g' :=
  ⟨h.rows, h.cols, fun i j => by rw [h.get, hg]⟩

/-- Two matrices made from one by the same flips are equal. -/
theorem Added.unique {m n n' : BitMatrix} {g g' : Nat → Nat → Nat} (h : Added m n g)
    (h' : Added m n' g') (hg : ∀ i j, g i j % 2 = g' i j % 2) : n = n' := by
  apply ext_get (h.rows.trans h'.rows.symm) (h.cols.trans h'.cols.symm)
  intro i _ j _
  rw [h.get, h'.get, hg]

theorem added_toggleAll (m : BitMatrix) (ps : List (Nat × Nat))
    (h : ∀ p ∈ ps, p.1 < m.rows ∧ p.2 < m.cols) :
    Added m (m.toggleAll ps) fun i j => ps.count (i, j) :=
  ⟨toggleAll_rows m ps, toggleAll_cols m ps, fun i j => get_toggleAll m ps i j h⟩

end BitMatrix

end CudaqQec
