import CudaqQec.Dem.Columns
import CudaqQec.Lib.Toggle
import Mathlib.Algebra.BigOperators.Group.List.Basic

/-!
# Tensors filled by flips

A `tensor<uint8_t>` that is allocated as zeros and then changed by `^= 1` only, so that its elements are
bits. What is allocated is the product of the dimensions as a `size_t`, which may be less than the
dimensions say.

* `flipColumn_eq_ok`: what a column of flips leaves.
* `map_get_positions`: the elements of a row when every column has flipped its own.
* `times_eq_ok_iff`: when the tensor can be multiplied with a vector, and with what result.
-/

namespace CudaqQec

open Checked Toggle

structure BitTensor where
  shape : List Nat
  data : List Bool
  deriving DecidableEq

namespace BitTensor

/-- `tensor(shape)`. -/
def alloc (shape : List Nat) : BitTensor := ⟨shape, List.replicate (size64 shape.prod) false⟩

/-- `tensor()`. -/
def empty : BitTensor := ⟨[], []⟩

variable (t : BitTensor)

def rows : Nat := t.shape.getD 0 0

def cols : Nat := t.shape.getD 1 0

def get (i j : Nat) : Bool := t.data.getD (i * t.cols + j) false

/-- `at({i, j}) ^= 1`. -/
def flip (i j : Nat) : Except Fault BitTensor := do
  thrown (throwIf (t.shape.length ≠ 2) (.runtimeError
    "Invalid indices provided to tensor::at(), size must be equal to rank."))
  thrown (throwIf (¬ (i < t.rows ∧ j < t.cols)) (.runtimeError
    ("Invalid tensor indices: " ++ toString i ++ ", " ++ toString j)))
  throwIf (t.data.length ≤ i * t.cols + j) .outOfBounds
  return { t with data := flipAt t.data (i * t.cols + j) }

/-- `at({i, j})` for each row of a list. -/
def flipColumn (rows : List Nat) (j : Nat) : Except Fault BitTensor :=
  rows.foldlM (fun t i => t.flip i j) t

def read (i j : Nat) : Except Fault Bool :=
  match t.data[i * t.cols + j]? with
  | some bit => .ok bit
  | none => .error .outOfBounds

def times (e : List Bool) : Except Fault (List Bool) := do
  thrown (throwIf (t.shape.length ≠ 2)
    (.runtimeError "Matrix-vector product requires rank-2 matrix and rank-1 vector"))
  thrown (throwIf (t.cols ≠ e.length)
    (.runtimeError "Invalid dimensions for matrix-vector product"))
  (List.range t.rows).mapM fun i => do
    let row ← (List.range t.cols).mapM (t.read i)
    return decide ((row.zip e).countP (fun p => p.1 && p.2) % 2 = 1)

/-! ## Flips -/

variable {t} {t' : BitTensor} {i j : Nat}

theorem flip_eq_ok (h : t.flip i j = .ok t') :
    t' = { t with data := flipAt t.data (i * t.cols + j) } ∧ j < t.cols := by
  simp only [flip, bind_eq_ok, thrown_eq_ok, throwIf_eq_ok] at h
  obtain ⟨_, -, _, hbounds, _, -, hok⟩ := h
  cases hok
  rw [not_not] at hbounds
  exact ⟨rfl, hbounds.2⟩

theorem flipColumn_eq_ok {rows : List Nat} (h : t.flipColumn rows j = .ok t') :
    t' = { t with data := flipAll t.data (rows.map fun i => i * t.cols + j) } := by
  induction rows generalizing t with
  | nil =>
    cases h
    rfl
  | cons i rows ih =>
    rw [flipColumn, List.foldlM_cons, bind_eq_ok] at h
    obtain ⟨_, hflip, hrest⟩ := h
    obtain ⟨rfl, -⟩ := flip_eq_ok hflip
    exact ih hrest

/-! ## Flips in range -/

/-- A flip inside a tensor that is allocated whole. -/
theorem flip_of_lt (hrank : t.shape.length = 2) (hdata : t.rows * t.cols ≤ t.data.length)
    (hi : i < t.rows) (hj : j < t.cols) :
    t.flip i j = .ok { t with data := flipAt t.data (i * t.cols + j) } := by
  have hpos : i * t.cols + j < t.data.length := by
    have hle := Nat.mul_le_mul_right t.cols (show i + 1 ≤ t.rows from hi)
    rw [Nat.succ_mul] at hle
    omega
  rw [flip, throwIf_of_not (by simpa using hrank), throwIf_of_not (not_not.mpr ⟨hi, hj⟩),
    throwIf_of_not (not_le.mpr hpos)]
  rfl

theorem flipColumn_of_lt {rows : List Nat} (hrank : t.shape.length = 2)
    (hdata : t.rows * t.cols ≤ t.data.length) (hrows : ∀ i ∈ rows, i < t.rows) (hj : j < t.cols) :
    t.flipColumn rows j =
      .ok { t with data := flipAll t.data (rows.map fun i => i * t.cols + j) } := by
  induction rows generalizing t with
  | nil => rfl
  | cons i rows ih =>
    obtain ⟨hi, hrows⟩ := List.forall_mem_cons.mp hrows
    rw [flipColumn, List.foldlM_cons, flip_of_lt hrank hdata hi hj, ok_bind]
    refine (ih (t := { t with data := flipAt t.data (i * t.cols + j) }) hrank ?_ hrows hj).trans rfl
    rw [length_flipAt]
    exact hdata

def positions {α : Type} (rows : α → List Nat) (n start : Nat) (columns : List α) : List Nat :=
  (columns.zipIdx start).flatMap fun p => (rows p.1).map fun i => i * n + p.2

theorem positions_concat {α : Type} (rows : α → List Nat) (n start : Nat) (columns : List α) (c : α) :
    positions rows n start (columns ++ [c]) =
      positions rows n start columns ++ (rows c).map fun i => i * n + (start + columns.length) := by
  simp [positions, List.zipIdx_append]

/-- A position is flipped as often as its column lists its row. -/
theorem count_positions {α : Type} (rows : α → List Nat) {n start : Nat} {columns : List α}
    (h : start + columns.length ≤ n) (hj : j < n) :
    (positions rows n start columns).count (i * n + j) =
      if start ≤ j then ((columns[j - start]?.map fun c => (rows c).count i)).getD 0 else 0 := by
  have hone : ∀ (c : α) (k : Nat), k < n →
      ((rows c).map fun i => i * n + k).count (i * n + j) = if k = j then (rows c).count i else 0 := by
    intro c k hk
    rw [List.count, List.countP_map]
    split
    next heq =>
      subst heq
      apply List.countP_congr
      intro i' _
      have hpos := @Tensor.position_inj n i' k i k hj hj
      simp only [eq_self, and_true] at hpos
      simpa using hpos
    next hne =>
      rw [List.countP_eq_zero]
      intro i' _
      simpa [Tensor.position_inj hk hj] using fun _ => hne
  induction columns generalizing start with
  | nil => simp [positions]
  | cons c columns ih =>
    rw [List.length_cons] at h
    have hrest := @ih (start + 1) (by omega)
    rw [positions, List.zipIdx_cons, List.flatMap_cons, List.count_append, hone c start (by omega)]
    rw [positions] at hrest
    rw [hrest]
    rcases Nat.lt_trichotomy start j with hlt | heq | hgt
    · obtain ⟨k, rfl⟩ : ∃ k, j = start + 1 + k := ⟨j - (start + 1), by omega⟩
      have hsub : start + 1 + k - start = k + 1 := by omega
      have hsub' : start + 1 + k - (start + 1) = k := by omega
      rw [if_neg (by omega), if_pos (by omega), if_pos (by omega), hsub, hsub', List.getElem?_cons_succ,
        Nat.zero_add]
    · subst heq
      simp
    · rw [if_neg (by omega), if_neg (by omega), if_neg (by omega)]

/-- The elements of a row, when every column has flipped its own. -/
theorem map_get_positions {α : Type} (rows : α → List Nat) {columns : List α} {size : Nat}
    (hcols : t.cols = columns.length)
    (hdata : t.data = flipAll (List.replicate size false) (positions rows t.cols 0 columns))
    (hsize : i * t.cols + t.cols ≤ size) :
    (List.range t.cols).map (t.get i) = columns.map fun c => decide ((rows c).count i % 2 = 1) := by
  apply List.ext_getElem (by simp [hcols])
  intro j hj hj'
  have hlt : j < t.cols := by simpa using hj
  have hcol : j < columns.length := hcols ▸ hlt
  rw [List.getElem_map, List.getElem_range, List.getElem_map, get, List.getD_eq_getElem?_getD, hdata,
    getElem?_flipAll, List.getElem?_replicate, if_pos (by omega),
    count_positions rows (by omega) hlt, if_pos (Nat.zero_le j), Nat.sub_zero,
    List.getElem?_eq_getElem hcol]
  simp

/-! ## Products -/

/-- A computation on every element, when each returns one value or fails. -/
theorem mapM_eq_ok_of {ε α β : Type} {l : List α} {f : α → Except ε β} {P : α → Prop} {g : α → β}
    (h : ∀ x ∈ l, ∀ y, f x = .ok y ↔ P x ∧ g x = y) {ys : List β} :
    l.mapM f = .ok ys ↔ (∀ x ∈ l, P x) ∧ l.map g = ys := by
  induction l generalizing ys with
  | nil => simp [pure, Except.pure]
  | cons a l ih =>
    rw [List.mapM_cons, bind_eq_ok]
    constructor
    · rintro ⟨y, hy, hrest⟩
      obtain ⟨ys', hys, hok⟩ := bind_eq_ok.mp hrest
      cases hok
      obtain ⟨hP, rfl⟩ := (h a (by simp) y).mp hy
      obtain ⟨hall, rfl⟩ := (ih fun x hx => h x (by simp [hx])).mp hys
      exact ⟨List.forall_mem_cons.mpr ⟨hP, hall⟩, rfl⟩
    · rintro ⟨hall, rfl⟩
      obtain ⟨hP, hall⟩ := List.forall_mem_cons.mp hall
      refine ⟨g a, (h a (by simp) _).mpr ⟨hP, rfl⟩, ?_⟩
      rw [(ih fun x hx => h x (by simp [hx])).mpr ⟨hall, rfl⟩]
      rfl

theorem read_eq_ok {bit : Bool} :
    t.read i j = .ok bit ↔ i * t.cols + j < t.data.length ∧ t.get i j = bit := by
  rw [read, get, List.getD_eq_getElem?_getD]
  by_cases h : i * t.cols + j < t.data.length
  · simp [h]
  · simp [h]

/-- All elements are allocated when there are enough of them. -/
theorem positions_lt {rows cols size : Nat} :
    (∀ i ∈ List.range rows, ∀ j ∈ List.range cols, i * cols + j < size) ↔ rows * cols ≤ size := by
  simp only [List.mem_range]
  constructor
  · intro h
    rcases Nat.eq_zero_or_pos rows with rfl | hr
    · simp
    rcases Nat.eq_zero_or_pos cols with rfl | hc
    · simp
    have hend := h (rows - 1) (by omega) (cols - 1) (by omega)
    have hsucc : rows * cols = (rows - 1) * cols + cols := by
      rw [← Nat.succ_mul, Nat.succ_eq_add_one, Nat.sub_add_cancel hr]
    omega
  · intro h i hi j hj
    have hle := Nat.mul_le_mul_right cols (show i + 1 ≤ rows from hi)
    rw [Nat.succ_mul] at hle
    omega

/-- A tensor of rank 2 can be multiplied with a vector when the vector is as long as its rows, and all
elements are allocated. -/
theorem times_eq_ok_iff {rows cols : Nat} (hshape : t.shape = [rows, cols]) {e v : List Bool} :
    t.times e = .ok v ↔ cols = e.length ∧ rows * cols ≤ t.data.length ∧
      ((List.range rows).map fun i =>
        decide ((((List.range cols).map (t.get i)).zip e).countP (fun p => p.1 && p.2) % 2 = 1)) = v := by
  have hrows : t.rows = rows := by
    rw [BitTensor.rows, hshape]
    rfl
  have hcols : t.cols = cols := by
    rw [BitTensor.cols, hshape]
    rfl
  have hrow : ∀ i ∈ List.range rows, ∀ bit,
      (do
        let row ← (List.range t.cols).mapM (t.read i)
        return decide ((row.zip e).countP (fun p => p.1 && p.2) % 2 = 1) : Except Fault Bool) = .ok bit ↔
      (∀ j ∈ List.range cols, i * cols + j < t.data.length) ∧ decide
        ((((List.range cols).map (t.get i)).zip e).countP (fun p => p.1 && p.2) % 2 = 1) = bit := by
    intro i _ bit
    rw [bind_eq_ok, hcols]
    constructor
    · rintro ⟨row, hread, hok⟩
      cases hok
      obtain ⟨hdata, rfl⟩ := (mapM_eq_ok_of fun j _ _ => read_eq_ok).mp hread
      rw [hcols] at hdata
      exact ⟨hdata, rfl⟩
    · rintro ⟨hdata, rfl⟩
      refine ⟨_, (mapM_eq_ok_of fun j _ _ => read_eq_ok).mpr ⟨?_, rfl⟩, rfl⟩
      rwa [hcols]
  rw [← positions_lt, ← mapM_eq_ok_of hrow]
  simp [times, bind_eq_ok, hrows, hcols, hshape]

def selected {α : Type} (columns : List α) (e : List Bool) : List α :=
  ((columns.zip e).filter Prod.snd).map Prod.fst

theorem mem_of_mem_selected {α : Type} {columns : List α} {e : List Bool} {c : α}
    (h : c ∈ selected columns e) : c ∈ columns := by
  obtain ⟨p, hp, rfl⟩ := List.mem_map.mp h
  exact (List.of_mem_zip (List.mem_filter.mp hp).1).1

theorem countP_selected {α : Type} (columns : List α) (e : List Bool) (f : α → Bool) :
    ((columns.map f).zip e).countP (fun p => p.1 && p.2) = (selected columns e).countP f := by
  rw [selected, List.countP_map, List.countP_filter, List.zip_map_left, List.countP_map]
  rfl

/-- A product, when every column has flipped its own rows: row by row the parity of the selected columns
that have it. -/
theorem times_of_positions {α : Type} (rowsOf : α → List Nat) {columns : List α} {rows size : Nat}
    (hshape : t.shape = [rows, columns.length])
    (hdata : t.data = flipAll (List.replicate size false) (positions rowsOf columns.length 0 columns))
    (hsize : rows * columns.length ≤ size) {e : List Bool} (he : e.length = columns.length) :
    t.times e = .ok ((List.range rows).map fun i => decide
      ((selected columns e).countP (fun c => decide ((rowsOf c).count i % 2 = 1)) % 2 = 1)) := by
  have hcols : t.cols = columns.length := by
    rw [BitTensor.cols, hshape]
    rfl
  rw [times_eq_ok_iff hshape]
  refine ⟨he.symm, by rw [hdata, length_flipAll, List.length_replicate]; exact hsize, ?_⟩
  apply List.map_congr_left
  intro i hi
  have hle := Nat.mul_le_mul_right columns.length (show i + 1 ≤ rows from List.mem_range.mp hi)
  rw [Nat.succ_mul] at hle
  have hrow := map_get_positions rowsOf (i := i) hcols (hcols ▸ hdata) (by rw [hcols]; omega)
  rw [hcols] at hrow
  rw [hrow, countP_selected]

end BitTensor

end CudaqQec
