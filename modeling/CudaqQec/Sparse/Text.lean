import CudaqQec.Dem.Columns
import CudaqQec.Lib.Delimited
import CudaqQec.Sparse.Entries
import Mathlib.Data.List.TakeWhile

/-!
# Sparse text and vector forms

`pcm_to_sparse_string` and `pcm_to_sparse_vec` list the columns that each row of a matrix sets, with
`-1` after each row, and `pcm_from_sparse_string` and `pcm_from_sparse_vec` read such lists. A text is
a list of characters.

* `readEntries_rows`: what a reader marks, for either form.
* `textForms_iff`: a matrix goes through both forms and back exactly when it has a row and a column.
-/

namespace CudaqQec

open Checked

/-! ## Writing an element of a tensor -/

namespace Tensor

/-- `at(indices) = 1`, with the indices checked. -/
def mark (t : Tensor) (r c : Nat) : Except Error Tensor :=
  if r < t.rows ∧ c < t.cols then
    .ok
      { shape := t.shape
        data := t.data.set (r * t.cols + c) 1
        length_data := by rw [List.length_set, t.length_data] }
  else .error (.runtimeError ("Invalid tensor indices: " ++ toString r ++ ", " ++ toString c))

/-- A tensor as it is constructed: all zeros. -/
def zeros (rows cols : Nat) : Tensor := ofEntries rows cols fun _ _ => 0

variable {t : Tensor}

theorem shape_eq (h : t.shape.length = 2) : t.shape = [t.rows, t.cols] := by
  obtain ⟨a, b, hab⟩ := List.length_eq_two.mp h
  simp [rows, cols, hab]

theorem length_data_eq (h : t.shape.length = 2) : t.data.length = t.rows * t.cols := by
  rw [t.length_data, shape_eq h]
  simp

theorem exists_mark {r c : Nat} (h : t.shape.length = 2) (hr : r < t.rows) (hc : c < t.cols) :
    ∃ t', t.mark r c = .ok t' ∧ t'.shape = t.shape ∧
      ∀ i < t.rows, ∀ j < t.cols, t'.entry i j = if i = r ∧ j = c then 1 else t.entry i j := by
  refine ⟨_, if_pos ⟨hr, hc⟩, rfl, ?_⟩
  intro i hi j hj
  have hlt : r * t.cols + c < t.data.length := by
    rw [length_data_eq h]
    exact position_lt hr hc
  change (t.data.set (r * t.cols + c) 1).getD (i * t.cols + j) 0 = _
  rw [List.getD_eq_getElem?_getD, List.getElem?_set]
  by_cases hsame : i = r ∧ j = c
  · obtain ⟨rfl, rfl⟩ := hsame
    simp [hlt]
  · have hne : ¬ r * t.cols + c = i * t.cols + j := by
      rw [position_inj hc hj]
      intro heq
      exact hsame ⟨heq.1.symm, heq.2.symm⟩
    rw [if_neg hne, if_neg hsame, entry, List.getD_eq_getElem?_getD]

end Tensor

/-! ## The columns that each row sets -/

/-- Rows of a dense matrix: the columns that hold a one. -/
def denseRows (pcm : Tensor) : List (List Nat) :=
  (List.range pcm.rows).map fun r => (List.range pcm.cols).filter fun c => pcm.entry r c = 1

def toCanonicalNestedCsr (pcm : SparseBinaryMatrix) : List (List Nat) := pcm.canonicalize.toNestedCsr

/-! ## Writing -/

/-- The words of the text form: a decimal number for each column, and `-1` after each row. -/
def sparseWords (rows : List (List Nat)) : List (List Char) :=
  rows.flatMap fun row => row.map (Nat.toDigits 10) ++ [['-', '1']]

/-- The text form as it is streamed: a comma after each word. -/
def sparseStream (rows : List (List Nat)) : List Char := Delimited.terminate ',' (sparseWords rows)

/-- `pcm_to_sparse_string` of a matrix. The first element of a row is looked up with its indices
checked, and the final comma is removed whether or not the text has one: `pop_back` of an empty string
is undefined. -/
def pcmToSparseString (pcm : Tensor) : Except Fault (List Char) := do
  thrown (throwIf (0 < pcm.rows ∧ pcm.cols = 0)
    (.runtimeError "Invalid constant tensor indices: 0, 0"))
  if sparseStream (denseRows pcm) = [] then .error .outOfBounds
  else return (sparseStream (denseRows pcm)).dropLast

/-- `pcm_to_sparse_string` of a sparse matrix, which removes the final comma only of a text that is
not empty. -/
def pcmToSparseStringOfSparse (pcm : SparseBinaryMatrix) : List Char :=
  let result := sparseStream (toCanonicalNestedCsr pcm)
  if result ≠ [] then result.dropLast else result

def sparseVec (rows : List (List Nat)) : List Int :=
  rows.flatMap fun row => row.map Int.ofNat ++ [-1]

/-- `pcm_to_sparse_vec` of a matrix. -/
def pcmToSparseVec (pcm : Tensor) : List Int := sparseVec (denseRows pcm)

/-- `pcm_to_sparse_vec` of a sparse matrix. -/
def pcmToSparseVecOfSparse (pcm : SparseBinaryMatrix) : List Int :=
  sparseVec (toCanonicalNestedCsr pcm)

/-! ## Reading -/

def isSpace (c : Char) : Bool := c ∈ [' ', '\t', '\n', '\x0b', '\x0c', '\r']

def unsignedOf (text : List Char) : Except Error Nat := do
  let digits := text.takeWhile Char.isDigit
  throwIf (digits = []) (.invalidArgument "stoul")
  throwIf (2 ^ 64 ≤ Nat.ofDigitChars 10 digits 0) (.outOfRange "stoul")
  return Nat.ofDigitChars 10 digits 0

/-- `std::stoul` in base ten: white space, a sign, then digits. A negative number wraps around. -/
def stoul (text : List Char) : Except Error Nat :=
  match text.dropWhile isSpace with
  | '-' :: rest => do
    let value ← unsignedOf rest
    return (2 ^ 64 - value) % 2 ^ 64
  | '+' :: rest => unsignedOf rest
  | rest => unsignedOf rest

/-- Reads items into a tensor: each ends a row or names a column of the row. `next` counts rows. -/
@[grind =] def readEntries {α : Type} (next : Nat → Nat) (column : α → Except Error (Option Nat)) :
    Nat → Tensor → List α → Except Error Tensor
  | _, pcm, [] => .ok pcm
  | row, pcm, item :: items => do
    match ← column item with
    | none => readEntries next column (next row) pcm items
    | some col =>
      let pcm ← pcm.mark row col
      readEntries next column row pcm items

/-- An item of the text form; the row counter and the column are `uint32_t`. -/
def stringColumn (item : List Char) : Except Error (Option Nat) :=
  if item = ['-', '1'] then .ok none
  else do
    let col ← stoul item
    return some (u32 col)

def pcmFromSparseString (sparseStr : List Char) (numRows numCols : Nat) : Except Error Tensor :=
  readEntries (fun row => u32 (row + 1)) stringColumn 0 (.zeros numRows numCols)
    (Delimited.lines ',' sparseStr)

def vecColumn (col : Int) : Except Error (Option Nat) :=
  if col < 0 then .ok none else .ok (some col.toNat)

/-- `pcm_from_sparse_vec`; the row counter is a `uint64_t`. -/
def pcmFromSparseVec (sparseVec : List Int) (numRows numCols : Nat) : Except Error Tensor :=
  readEntries (fun row => size64 (row + 1)) vecColumn 0 (.zeros numRows numCols) sparseVec

/-! ## What a reader marks -/

section Read

variable {α : Type} {next : Nat → Nat} {column : α → Except Error (Option Nat)} {word : Nat → α}
  {stop : α} {R C : Nat}

/-- The columns of one row are marked in it. -/
theorem readEntries_row (next : Nat → Nat) (hword : ∀ c < C, column (word c) = .ok (some c)) {r : Nat} (hr : r < R)
    (row : List Nat) (hrow : ∀ c ∈ row, c < C) (pcm : Tensor) (hshape : pcm.shape = [R, C])
    (rest : List α) :
    ∃ pcm', readEntries next column r pcm (row.map word ++ rest) =
        readEntries next column r pcm' rest ∧ pcm'.shape = [R, C] ∧
      ∀ i < R, ∀ j < C, pcm'.entry i j = if i = r ∧ j ∈ row then 1 else pcm.entry i j := by
  induction row generalizing pcm with
  | nil =>
    refine ⟨pcm, rfl, hshape, ?_⟩
    intro i _ j _
    simp
  | cons c row ih =>
    have hc : c < C := hrow c (by simp)
    have hrows : pcm.rows = R := by simp [Tensor.rows, hshape]
    have hcols : pcm.cols = C := by simp [Tensor.cols, hshape]
    obtain ⟨marked, hmark, hmshape, hmentry⟩ := Tensor.exists_mark (t := pcm) (r := r) (c := c)
      (by rw [hshape]; rfl) (by omega) (by omega)
    obtain ⟨pcm', hread, hshape', hentry⟩ := ih (fun c' hc' => hrow c' (by simp [hc'])) marked
      (by rw [hmshape, hshape])
    refine ⟨pcm', ?_, hshape', ?_⟩
    · rw [List.map_cons, List.cons_append, readEntries, hword c hc]
      simp only [ok_bind, hmark]
      exact hread
    · intro i hi j hj
      rw [hentry i hi j hj, hmentry i (by omega) j (by omega)]
      by_cases hir : i = r
      · by_cases hjr : j ∈ row
        · simp [hir, hjr]
        · by_cases hjc : j = c
          · simp [hir, hjc]
          · simp [hjr, hjc]
      · simp [hir]

/-- Rows are read one after another. -/
theorem readEntries_rows (hword : ∀ c < C, column (word c) = .ok (some c))
    (hstop : column stop = .ok none) (hnext : ∀ r < R, next r = r + 1) (rows : List (List Nat))
    (hlt : ∀ row ∈ rows, ∀ c ∈ row, c < C) (r : Nat) (hr : r + rows.length ≤ R) (pcm : Tensor)
    (hshape : pcm.shape = [R, C]) :
    ∃ pcm', readEntries next column r pcm (rows.flatMap fun row => row.map word ++ [stop]) =
        .ok pcm' ∧ pcm'.shape = [R, C] ∧
      ∀ i < R, ∀ j < C, pcm'.entry i j =
        if r ≤ i ∧ j ∈ rows.getD (i - r) [] then 1 else pcm.entry i j := by
  induction rows generalizing r pcm with
  | nil =>
    refine ⟨pcm, rfl, hshape, ?_⟩
    intro i _ j _
    simp
  | cons row rows ih =>
    rw [List.length_cons] at hr
    obtain ⟨mid, hmid, hmshape, hmentry⟩ := readEntries_row next hword
      (by omega : r < R) row (hlt row (by simp)) pcm hshape
      (stop :: rows.flatMap fun row => row.map word ++ [stop])
    obtain ⟨pcm', hread, hshape', hentry⟩ := ih (fun row' h => hlt row' (by simp [h])) (r + 1)
      (by omega) mid hmshape
    refine ⟨pcm', ?_, hshape', ?_⟩
    · rw [List.flatMap_cons, List.append_assoc, List.singleton_append, hmid, readEntries, hstop]
      simp only [ok_bind]
      rw [hnext r (by omega), hread]
    · intro i hi j hj
      rw [hentry i hi j hj, hmentry i hi j hj]
      rcases Nat.lt_trichotomy i r with h | h | h
      · rw [if_neg (by omega), if_neg (by omega), if_neg (by omega)]
      · subst h
        simp
      · obtain ⟨k, rfl⟩ : ∃ k, i = r + 1 + k := ⟨i - (r + 1), by omega⟩
        have h1 : r + 1 + k - (r + 1) = k := by omega
        have h2 : r + 1 + k - r = k + 1 := by omega
        have h3 : r ≤ r + 1 + k := by omega
        have h4 : ¬ r + 1 + k = r := by omega
        simp [h1, h2, h3, h4]

end Read

/-! ## Decimal numbers -/

theorem isDigit_of_mem_digits {n : Nat} {c : Char} (h : c ∈ Nat.toDigits 10 n) : c.isDigit = true :=
  Nat.isDigit_of_mem_toDigits (by decide) (by decide) h

/-- A decimal number starts with a digit, so neither with white space nor with a sign. -/
theorem exists_digits_eq_cons (n : Nat) :
    ∃ c cs, Nat.toDigits 10 n = c :: cs ∧ c.isDigit = true := by
  obtain ⟨c, cs, h⟩ := List.exists_cons_of_ne_nil (Nat.toDigits_ne_nil (n := n) (b := 10))
  exact ⟨c, cs, h, isDigit_of_mem_digits (n := n) (by rw [h]; simp)⟩

theorem unsignedOf_toDigits {n : Nat} (h : n < 2 ^ 64) :
    unsignedOf (Nat.toDigits 10 n) = .ok n := by
  have hall : (Nat.toDigits 10 n).takeWhile Char.isDigit = Nat.toDigits 10 n := by
    apply List.takeWhile_eq_self_iff.mpr
    intro c hc
    exact isDigit_of_mem_digits hc
  have hvalue : Nat.ofDigitChars 10 (Nat.toDigits 10 n) 0 = n := Nat.ofDigitChars_ten_toDigits
  rw [unsignedOf, hall, hvalue, throwIf_of_not (Nat.toDigits_ne_nil), throwIf_of_not (by omega)]
  rfl

theorem stoul_toDigits {n : Nat} (h : n < 2 ^ 64) : stoul (Nat.toDigits 10 n) = .ok n := by
  obtain ⟨c, cs, hcons, hdigit⟩ := exists_digits_eq_cons n
  have hspace : isSpace c = false := by
    by_contra hs
    simp only [isSpace, List.mem_cons, List.not_mem_nil, or_false, Bool.not_eq_false,
      decide_eq_true_eq] at hs
    rcases hs with rfl | rfl | rfl | rfl | rfl | rfl <;> exact absurd hdigit (by decide)
  have hdrop : (Nat.toDigits 10 n).dropWhile isSpace = Nat.toDigits 10 n := by
    rw [hcons, List.dropWhile_cons, hspace]
    rfl
  rw [stoul, hdrop]
  split
  next rest heq =>
    rw [hcons] at heq
    obtain ⟨rfl, -⟩ := List.cons.inj heq
    exact absurd hdigit (by decide)
  next rest heq =>
    rw [hcons] at heq
    obtain ⟨rfl, -⟩ := List.cons.inj heq
    exact absurd hdigit (by decide)
  next => exact unsignedOf_toDigits h

theorem stringColumn_toDigits {c : Nat} (h : c < 2 ^ 32) :
    stringColumn (Nat.toDigits 10 c) = .ok (some c) := by
  have hne : Nat.toDigits 10 c ≠ ['-', '1'] := by
    intro heq
    have : '-'.isDigit = true := isDigit_of_mem_digits (n := c) (by rw [heq]; simp)
    exact absurd this (by decide)
  rw [stringColumn, if_neg hne, stoul_toDigits (by omega), ok_bind, u32_of_lt h]
  rfl

/-! ## Round trips -/

/-- A matrix over GF(2): a tensor of rank 2 of zeros and ones, below `2^32` each way. -/
structure Tensor.Binary (m : Tensor) : Prop where
  rank : m.shape.length = 2
  entry : ∀ x ∈ m.data, x = 0 ∨ x = 1
  rows_lt : m.rows < 2 ^ 32
  cols_lt : m.cols < 2 ^ 32

theorem Tensor.binary_ofEntries {rows cols : Nat} {f : Nat → Nat → UInt8}
    (hf : ∀ r c, f r c = 0 ∨ f r c = 1) (hrows : rows < 2 ^ 32) (hcols : cols < 2 ^ 32) :
    (ofEntries rows cols f).Binary := by
  refine ⟨rfl, ?_, hrows, hcols⟩
  intro x hx
  obtain ⟨r, -, hx⟩ := List.mem_flatMap.mp hx
  obtain ⟨c, -, rfl⟩ := List.mem_map.mp hx
  exact hf r c

/-- A sparse matrix whose entries over GF(2) are those of `m`. -/
structure Represents (s : SparseBinaryMatrix) (m : Tensor) : Prop where
  rows : s.numRows = m.rows
  cols : s.numCols = m.cols
  entry : ∀ r < m.rows, ∀ c < m.cols, s.entry r c = true ↔ m.entry r c = 1

/-- What both forms promise of a matrix. -/
structure TextForms (m : Tensor) : Prop where
  vec : pcmFromSparseVec (pcmToSparseVec m) m.rows m.cols = .ok m
  string : ∃ text, pcmToSparseString m = .ok text ∧
    pcmFromSparseString text m.rows m.cols = .ok m
  vecOfSparse : ∀ s, Represents s m → pcmToSparseVecOfSparse s = pcmToSparseVec m
  stringOfSparse : ∀ s, Represents s m → pcmToSparseString m = .ok (pcmToSparseStringOfSparse s)

variable {m : Tensor}

theorem mem_denseRows_lt {row : List Nat} (h : row ∈ denseRows m) {c : Nat} (hc : c ∈ row) :
    c < m.cols := by
  obtain ⟨r, -, rfl⟩ := List.mem_map.mp h
  exact List.mem_range.mp (List.mem_filter.mp hc).1

theorem mem_getD_denseRows {r c : Nat} (hr : r < m.rows) (hc : c < m.cols) :
    c ∈ (denseRows m).getD r [] ↔ m.entry r c = 1 := by
  rw [denseRows, getD_map_range, if_pos hr, List.mem_filter]
  simp [hc]

theorem Tensor.entry_cases (h : ∀ x ∈ m.data, x = 0 ∨ x = 1) (r c : Nat) :
    m.entry r c = 0 ∨ m.entry r c = 1 := by
  rw [Tensor.entry, List.getD_eq_getElem?_getD]
  cases hget : m.data[r * m.cols + c]? with
  | none => exact .inl rfl
  | some x => exact h x (List.mem_of_getElem? hget)

/-- A reader that understands the words of the rows gets the matrix back. -/
theorem readEntries_denseRows {α : Type} {next : Nat → Nat}
    {column : α → Except Error (Option Nat)} {word : Nat → α} {stop : α} (h : m.Binary)
    (hword : ∀ c < m.cols, column (word c) = .ok (some c)) (hstop : column stop = .ok none)
    (hnext : ∀ r < m.rows, next r = r + 1) :
    readEntries next column 0 (.zeros m.rows m.cols)
      ((denseRows m).flatMap fun row => row.map word ++ [stop]) = .ok m := by
  have hlen : (denseRows m).length = m.rows := by simp [denseRows]
  obtain ⟨pcm, hread, hshape, hentry⟩ := readEntries_rows hword hstop hnext (denseRows m)
    (fun _ hrow _ hc => mem_denseRows_lt hrow hc) 0 (by omega) (.zeros m.rows m.cols) rfl
  rw [hread]
  congr 1
  apply Tensor.eq_of_entry (by rw [hshape]; rfl) h.rank
  · simp [Tensor.rows, hshape]
  · simp [Tensor.cols, hshape]
  · intro r hr c hc
    have hzero : (Tensor.zeros m.rows m.cols).entry r c = 0 := Tensor.entry_ofEntries _ _ _ hr hc
    have hmem := mem_getD_denseRows hr hc
    rw [hentry r hr c hc, hzero, Nat.sub_zero]
    rcases Tensor.entry_cases h.entry r c with h0 | h1
    · rw [h0] at hmem ⊢
      exact if_neg fun hin => absurd (hmem.mp hin.2) (by decide)
    · rw [h1]
      exact if_pos ⟨Nat.zero_le r, hmem.mpr h1⟩

theorem pcmFromSparseVec_pcmToSparseVec (h : m.Binary) :
    pcmFromSparseVec (pcmToSparseVec m) m.rows m.cols = .ok m := by
  apply readEntries_denseRows h
  · intro c _
    simp [vecColumn]
  · rfl
  · intro r hr
    have := h.rows_lt
    exact size64_of_lt (by omega)

theorem comma_not_mem_sparseWords {rows : List (List Nat)} {word : List Char}
    (h : word ∈ sparseWords rows) : ',' ∉ word := by
  obtain ⟨row, -, hword⟩ := List.mem_flatMap.mp h
  rcases List.mem_append.mp hword with hword | hword
  · obtain ⟨c, -, rfl⟩ := List.mem_map.mp hword
    intro hmem
    exact absurd (isDigit_of_mem_digits hmem) (by decide)
  · rw [List.mem_singleton.mp hword]
    decide

theorem getLast?_sparseWords {rows : List (List Nat)} (h : rows ≠ []) :
    (sparseWords rows).getLast? = some ['-', '1'] := by
  obtain ⟨front, last, rfl⟩ := List.eq_nil_or_concat rows |>.resolve_left h
  simp [sparseWords, List.getLast?_append]

theorem sparseStream_eq_nil_iff {rows : List (List Nat)} : sparseStream rows = [] ↔ rows = [] := by
  cases rows with
  | nil => simp [sparseStream, sparseWords, Delimited.terminate]
  | cons row rows => simp [sparseStream, sparseWords, Delimited.terminate]

theorem pcmToSparseString_eq (hr : 0 < m.rows) (hc : 0 < m.cols) :
    pcmToSparseString m = .ok (sparseStream (denseRows m)).dropLast := by
  have hrows : denseRows m ≠ [] := by
    apply List.ne_nil_of_length_pos
    simpa [denseRows] using hr
  rw [pcmToSparseString, throwIf_of_not (by omega)]
  simp [thrown, Except.mapError, sparseStream_eq_nil_iff, hrows]

theorem pcmFromSparseString_dropLast (h : m.Binary) (hr : 0 < m.rows) :
    pcmFromSparseString (sparseStream (denseRows m)).dropLast m.rows m.cols = .ok m := by
  have hrows : denseRows m ≠ [] := by
    apply List.ne_nil_of_length_pos
    simpa [denseRows] using hr
  have hlines : Delimited.lines ',' (sparseStream (denseRows m)).dropLast =
      sparseWords (denseRows m) :=
    Delimited.lines_dropLast_terminate (fun _ hw => comma_not_mem_sparseWords hw)
      (getLast?_sparseWords hrows) (by simp)
  rw [pcmFromSparseString, hlines]
  apply readEntries_denseRows h
  · intro c hc
    have := h.cols_lt
    exact stringColumn_toDigits (by omega)
  · rfl
  · intro r hr
    have := h.rows_lt
    exact u32_of_lt (by omega)

/-! ## The two overloads -/

/-- The canonical rows of a sparse matrix are the rows of the dense one, whatever the sparse matrix
stores and in which layout. -/
theorem toCanonicalNestedCsr_eq {s : SparseBinaryMatrix} (h : Represents s m) :
    toCanonicalNestedCsr s = denseRows m := by
  have hlen : (toCanonicalNestedCsr s).length = m.rows := by simp [toCanonicalNestedCsr, h.rows]
  apply List.ext_getElem (by simp [hlen, denseRows])
  intro r hr hr'
  have hrow : r < m.rows := by omega
  have hget : (toCanonicalNestedCsr s)[r] = (toCanonicalNestedCsr s).getD r [] := by
    simp [List.getD_eq_getElem?_getD, hr]
  have hget' : (denseRows m)[r] = (denseRows m).getD r [] := by
    simp [List.getD_eq_getElem?_getD, hr']
  rw [hget, hget']
  have hsorted : ((toCanonicalNestedCsr s).getD r []).SortedLT := by
    rw [← hget]
    exact (s.pairwise_lt_canonicalize_rows (List.getElem_mem hr)).sortedLT
  have hsorted' : ((denseRows m).getD r []).SortedLT := by
    rw [denseRows, getD_map_range, if_pos hrow]
    exact (List.pairwise_lt_range.filter _).sortedLT
  apply hsorted.eq_of_mem_iff hsorted'
  intro c
  have hcount : ((toCanonicalNestedCsr s).getD r []).count c = s.count r c % 2 := by
    rw [toCanonicalNestedCsr, SparseBinaryMatrix.count_toNestedCsr,
      SparseBinaryMatrix.count_canonicalize]
  have hmem : c ∈ (toCanonicalNestedCsr s).getD r [] ↔ s.entry r c = true := by
    rw [← List.count_pos_iff, hcount, SparseBinaryMatrix.entry, decide_eq_true_eq]
    omega
  rw [hmem]
  by_cases hc : c < m.cols
  · rw [mem_getD_denseRows hrow hc, h.entry r hrow c hc]
  · have hout : s.entry r c = false := s.entry_eq_false_of_col_le r (by rw [h.cols]; omega)
    have hout' : c ∉ (denseRows m).getD r [] := by
      rw [← hget']
      intro hmem
      exact hc (mem_denseRows_lt (List.getElem_mem hr') hmem)
    rw [hout]
    exact iff_of_false (by decide) hout'

theorem pcmToSparseVecOfSparse_eq {s : SparseBinaryMatrix} (h : Represents s m) :
    pcmToSparseVecOfSparse s = pcmToSparseVec m := by
  rw [pcmToSparseVecOfSparse, toCanonicalNestedCsr_eq h, pcmToSparseVec]

/-- The text of the sparse overload: `dropLast` of an empty text is empty. -/
theorem pcmToSparseStringOfSparse_eq {s : SparseBinaryMatrix} (h : Represents s m) :
    pcmToSparseStringOfSparse s = (sparseStream (denseRows m)).dropLast := by
  rw [pcmToSparseStringOfSparse, toCanonicalNestedCsr_eq h]
  by_cases hnil : sparseStream (denseRows m) = []
  · simp [hnil]
  · simp [hnil]

/-- A matrix goes through both forms and back, and both overloads agree on it, exactly when it has a
row and a column: without rows the text writer removes a character from an empty text, and without
columns it looks up an element that is not there. -/
theorem textForms_iff (h : m.Binary) : TextForms m ↔ 0 < m.rows ∧ 0 < m.cols := by
  constructor
  · rintro ⟨-, ⟨text, htext, -⟩, -, -⟩
    simp only [pcmToSparseString, bind_eq_ok, thrown_eq_ok, throwIf_eq_ok] at htext
    obtain ⟨_, hcols, htext⟩ := htext
    split at htext
    · cases htext
    next hne =>
      have hrows : 0 < m.rows := by
        by_contra h0
        apply hne
        apply sparseStream_eq_nil_iff.mpr
        simp [denseRows, Nat.eq_zero_of_not_pos h0]
      exact ⟨hrows, by omega⟩
  · rintro ⟨hr, hc⟩
    have htext := pcmToSparseString_eq hr hc
    refine ⟨pcmFromSparseVec_pcmToSparseVec h, ⟨_, htext, ?_⟩, ?_, ?_⟩
    · exact pcmFromSparseString_dropLast h hr
    · intro s hs
      exact pcmToSparseVecOfSparse_eq hs
    · intro s hs
      rw [htext, pcmToSparseStringOfSparse_eq hs]

/-- The one by one identity. -/
theorem textForms_one : TextForms (.ofEntries 1 1 fun _ _ => 1) := by
  apply (textForms_iff ?_).mpr
  · exact ⟨by decide, by decide⟩
  · exact Tensor.binary_ofEntries (fun _ _ => .inr rfl) (by decide) (by decide)

/-- A matrix of no rows and three columns has no text form. -/
theorem not_textForms_noRows : ¬ ∀ m : Tensor, m.Binary → TextForms m := by
  intro hall
  have hm : (Tensor.zeros 0 3).Binary := by
    refine ⟨rfl, ?_, by decide, by decide⟩
    intro x hx
    cases hx
  obtain ⟨text, htext, -⟩ := (hall _ hm).string
  cases htext

end CudaqQec
