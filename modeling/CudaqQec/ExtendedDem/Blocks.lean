import CudaqQec.ExtendedDem.Basic

/-!
# Assembling matrices from row bands

The matrix helpers that composition is written with: side by side (`hcat`), on top of each other
(`vstack`, `stackBands`), padded with zero columns, and cut out of a larger matrix row by row.

Every helper is described by the rows of what it returns (`rowCounts`), each row listing a column as
often as the matrix stores it. Counts survive all of them; only `canonicalize` reduces them to
parities.
-/

namespace CudaqQec

open Checked SparseBinaryMatrix

/-! ## Rows of a matrix -/

namespace SparseBinaryMatrix

variable (m : SparseBinaryMatrix)

def rowCounts : List Row := (List.range m.numRows).map m.count

@[simp] theorem length_rowCounts : m.rowCounts.length = m.numRows := by simp [rowCounts]

theorem getD_rowCounts (r : Nat) : m.rowCounts.getD r zeroRow = m.count r := by
  rw [rowCounts, getD_map_range]
  split
  · rfl
  · next h =>
    funext c
    rw [zeroRow_apply, count_eq_zero_of_row_le m c (by omega)]

/-- Rows that agree position by position are the rows of the matrix. -/
theorem rowCounts_eq {rows : List Row} (hlen : rows.length = m.numRows)
    (h : ∀ r < m.numRows, ∀ c, m.count r c = rows.getD r zeroRow c) : m.rowCounts = rows := by
  apply List.ext_getElem (by simp [hlen])
  intro r hr hr'
  have hr2 : r < m.numRows := by simpa using hr
  have hrow : m.rowCounts[r] = m.count r := by simp [rowCounts]
  rw [hrow]
  funext c
  rw [h r hr2 c, List.getD_eq_getElem?_getD, List.getElem?_eq_getElem hr', Option.getD_some]

/-- Column-compressed matrices with the same rows have one canonical form. -/
theorem canonicalize_eq_of_rowCounts {m n : SparseBinaryMatrix} (hm : m.layout = .csc)
    (hn : n.layout = .csc) (hc : m.numCols = n.numCols) (h : m.rowCounts = n.rowCounts) :
    m.canonicalize = n.canonicalize := by
  have hr : m.numRows = n.numRows := by
    rw [← length_rowCounts, h, length_rowCounts]
  apply canonicalize_eq_of_entry hm hn hr hc
  intro r _ c _
  rw [entry, entry, ← getD_rowCounts, h, getD_rowCounts]

/-- A matrix read column by column. -/
theorem count_of_csc (h : m.layout = .csc) (r c : Nat) :
    m.count r c = (m.groups.getD c []).count r := by
  simp [count, h]

theorem count_of_csr (h : m.layout = .csr) (r c : Nat) :
    m.count r c = (m.groups.getD r []).count c := by
  simp [count, h]

end SparseBinaryMatrix

/-! ## The helpers -/

/-- `a` and `b` side by side. -/
@[grind =] def hcat (a b : SparseBinaryMatrix) : Except Error SparseBinaryMatrix := do
  throwIf (uint32Max < a.numCols + b.numCols)
    (.overflowError "hcat: combined column count exceeds uint32_t")
  fromNestedCsc a.numRows (a.numCols + b.numCols) (a.toNestedCsc ++ b.toNestedCsc)

/-- `a` on top of `b`. -/
@[grind =] def vstack (a b : SparseBinaryMatrix) : Except Error SparseBinaryMatrix := do
  throwIf (b.numCols ≠ a.numCols) (.invalidArgument ("vstack: column count mismatch (" ++
    toString a.numCols ++ " vs " ++ toString b.numCols ++ ")"))
  throwIf (uint32Max < a.numRows + b.numRows)
    (.overflowError "vstack: combined row count exceeds uint32_t")
  fromNestedCsc (a.numRows + b.numRows) a.numCols
    (List.zipWith (fun ca cb => ca ++ cb.map (a.numRows + ·)) a.toNestedCsc b.toNestedCsc)

def padRight (m : SparseBinaryMatrix) (nTotal : Nat) : Except Error SparseBinaryMatrix :=
  fromNestedCsc m.numRows nTotal
    (m.toNestedCsc.take nTotal ++ List.replicate (nTotal - m.toNestedCsc.length) [])

def padLeft (m : SparseBinaryMatrix) (nLeft nTotal : Nat) : Except Error SparseBinaryMatrix :=
  fromNestedCsc m.numRows nTotal
    (List.replicate nLeft [] ++ m.toNestedCsc ++ List.replicate (nTotal - nLeft - m.numCols) [])

def zeroMatrix (rows cols : Nat) : Except Error SparseBinaryMatrix :=
  fromNestedCsc rows cols (List.replicate cols [])

def extractRowBand (H : SparseBinaryMatrix) (rowBegin rowEnd : Nat) :
    Except Error SparseBinaryMatrix :=
  if rowEnd - rowBegin = 0 then zeroMatrix 0 H.numCols
  else
    fromNestedCsr (rowEnd - rowBegin) H.numCols
      ((List.range (rowEnd - rowBegin)).map fun r => H.toNestedCsr.getD (rowBegin + r) [])

def extractInteriorRows (H : SparseBinaryMatrix) (seams : List Seam) :
    Except Error SparseBinaryMatrix :=
  let interior := ExtendedDem.interiorRowList H.numRows seams
  fromNestedCsr interior.length H.numCols (interior.map fun r => H.toNestedCsr.getD r [])

def pushBand (result m : SparseBinaryMatrix) : Except Error SparseBinaryMatrix :=
  if 0 < m.numRows then
    if 0 < result.numRows then vstack result m else .ok m
  else .ok result

/-! ## Their rows -/

variable {a b m : SparseBinaryMatrix}

theorem storedCount_append (l l' : List (List Nat)) :
    storedCount (l ++ l') = storedCount l + storedCount l' := by
  simp [storedCount]

@[simp] theorem storedCount_replicate_nil (n : Nat) :
    storedCount (List.replicate n []) = 0 := by
  simp [storedCount]

theorem storedCount_map_getD (l : List (List Nat)) (rows : List Nat) :
    storedCount (rows.map fun r => l.getD r []) =
      (rows.map fun r => (l.getD r []).length).sum := by
  simp [storedCount, Function.comp_def]

/-! ### `hcat` -/

theorem hcat_groups (h : hcat a b = .ok m) :
    m.layout = .csc ∧ m.numRows = a.numRows ∧ m.numCols = a.numCols + b.numCols ∧
      m.groups = a.toNestedCsc ++ b.toNestedCsc := by
  obtain ⟨_, hlt, hm⟩ := bind_eq_ok.mp h
  obtain ⟨-, hl, hr, hc, hg⟩ := fromNestedCsc_eq_ok.mp hm
  rw [throwIf_eq_ok, uint32Max] at hlt
  rw [u32_of_lt a.rows_lt] at hr
  rw [u32_of_lt (by omega)] at hc
  exact ⟨hl, hr, hc, hg⟩

theorem hcat_rowCounts (h : hcat a b = .ok m) (hr : a.numRows = b.numRows) :
    m.rowCounts = List.zipWith (joinRows a.numCols) a.rowCounts b.rowCounts := by
  obtain ⟨hl, hmr, -, hg⟩ := hcat_groups h
  apply rowCounts_eq
  · simp [hmr, hr]
  intro r _ c
  rw [Banded.getD_zipWith_row _ _ _ (by simp [hr]) (by simp), getD_rowCounts, getD_rowCounts,
    count_of_csc m hl, hg, getD_append_ite, length_toNestedCsc]
  split
  · next hc => rw [joinRows_of_lt _ _ hc, count_toNestedCsc]
  · next hc => rw [joinRows_of_le _ _ (by omega), count_toNestedCsc]

theorem hcat_numNnz (h : hcat a b = .ok m) : m.numNnz = a.numNnz + b.numNnz := by
  obtain ⟨-, -, -, hg⟩ := hcat_groups h
  rw [numNnz, hg, storedCount_append, storedCount_toNestedCsc, storedCount_toNestedCsc]

theorem exists_hcat (hr : b.numRows ≤ a.numRows) (hc : a.numCols + b.numCols < uint32Max)
    (hn : a.numNnz + b.numNnz < 2 ^ 32) : ∃ m, hcat a b = .ok m := by
  have hnnz : storedCount (a.toNestedCsc ++ b.toNestedCsc) < 2 ^ 32 := by
    rw [storedCount_append, storedCount_toNestedCsc, storedCount_toNestedCsc]
    exact hn
  have hidx : ∀ g ∈ a.toNestedCsc ++ b.toNestedCsc, ∀ i ∈ g, i < a.numRows := by
    intro g hg i hi
    rcases List.mem_append.mp hg with hg | hg
    · exact a.mem_toNestedCsc_lt hg hi
    · exact lt_of_lt_of_le (b.mem_toNestedCsc_lt hg hi) hr
  obtain ⟨m, hm⟩ := exists_fromNestedCsc a.rows_lt hc (by simp) hnnz hidx
  exact ⟨m, bind_eq_ok.mpr ⟨(), throwIf_of_not (by omega), hm⟩⟩

/-! ### `vstack` -/

theorem vstack_groups (h : vstack a b = .ok m) :
    m.layout = .csc ∧ m.numRows = a.numRows + b.numRows ∧ m.numCols = a.numCols ∧
      b.numCols = a.numCols ∧ m.groups =
        List.zipWith (fun ca cb => ca ++ cb.map (a.numRows + ·)) a.toNestedCsc b.toNestedCsc := by
  simp only [vstack, bind_eq_ok, throwIf_eq_ok, ne_eq, not_not] at h
  obtain ⟨_, hcols, _, hlt, hm⟩ := h
  rw [uint32Max] at hlt
  obtain ⟨-, hl, hr, hc, hg⟩ := fromNestedCsc_eq_ok.mp hm
  rw [u32_of_lt (by omega)] at hr
  rw [u32_of_lt a.cols_lt] at hc
  exact ⟨hl, hr, hc, hcols, hg⟩

private theorem count_map_add (l : List Nat) (n r : Nat) :
    (l.map (n + ·)).count r = if n ≤ r then l.count (r - n) else 0 := by
  split
  · next h =>
    obtain ⟨k, rfl⟩ := Nat.exists_eq_add_of_le h
    rw [Nat.add_sub_cancel_left]
    exact List.count_map_of_injective l (n + ·) (fun _ _ => Nat.add_left_cancel) k
  · next h =>
    apply List.count_eq_zero_of_not_mem
    simp only [List.mem_map, not_exists, not_and]
    intro x _
    omega

theorem vstack_rowCounts (h : vstack a b = .ok m) : m.rowCounts = a.rowCounts ++ b.rowCounts := by
  obtain ⟨hl, hmr, -, hbc, hg⟩ := vstack_groups h
  apply rowCounts_eq
  · simp [hmr]
  intro r _ c
  have hcol : m.groups.getD c [] =
      a.toNestedCsc.getD c [] ++ (b.toNestedCsc.getD c []).map (a.numRows + ·) := by
    rw [hg]
    by_cases hc : c < a.numCols
    · have h1 : c < a.toNestedCsc.length := by simpa using hc
      have h2 : c < b.toNestedCsc.length := by simpa [hbc] using hc
      simp only [List.getD_eq_getElem?_getD, List.getElem?_zipWith, List.getElem?_eq_getElem h1,
        List.getElem?_eq_getElem h2, Option.getD_some]
    · have h1 : a.toNestedCsc.length ≤ c := by simpa using hc
      have h2 : b.toNestedCsc.length ≤ c := by simpa [hbc] using hc
      simp only [List.getD_eq_getElem?_getD, List.getElem?_zipWith, List.getElem?_eq_none h1,
        List.getElem?_eq_none h2, Option.getD_none, List.map_nil, List.append_nil]
  rw [count_of_csc m hl, hcol, List.count_append, count_toNestedCsc, count_map_add,
    count_toNestedCsc, getD_append_ite, length_rowCounts, getD_rowCounts, getD_rowCounts]
  split
  · next hr =>
    rw [count_eq_zero_of_row_le a c hr, if_neg (by omega), Nat.zero_add]
  · next hr => rw [if_pos (by omega), Nat.add_zero]

theorem storedCount_zipWith_append (f : Nat → Nat) (l l' : List (List Nat))
    (h : l.length = l'.length) :
    storedCount (List.zipWith (fun x y => x ++ y.map f) l l') = storedCount l + storedCount l' := by
  induction l generalizing l' with
  | nil =>
    obtain rfl : l' = [] := List.length_eq_zero_iff.mp h.symm
    rfl
  | cons x l ih =>
    cases l' with
    | nil => simp at h
    | cons y l' =>
      have := ih l' (by simpa using h)
      simp only [storedCount, List.zipWith_cons_cons, List.map_cons, List.sum_cons,
        List.length_append, List.length_map] at *
      omega

theorem vstack_numNnz (h : vstack a b = .ok m) : m.numNnz = a.numNnz + b.numNnz := by
  obtain ⟨-, -, -, hbc, hg⟩ := vstack_groups h
  rw [numNnz, hg, storedCount_zipWith_append _ _ _ (by simp [hbc]), storedCount_toNestedCsc,
    storedCount_toNestedCsc]

theorem exists_vstack (hc : b.numCols = a.numCols) (hcols : a.numCols < uint32Max)
    (hr : a.numRows + b.numRows < 2 ^ 32) (hn : a.numNnz + b.numNnz < 2 ^ 32) :
    ∃ m, vstack a b = .ok m := by
  have hlen : a.toNestedCsc.length = b.toNestedCsc.length := by simp [hc]
  have hidx : ∀ g ∈ List.zipWith (fun ca cb => ca ++ cb.map (a.numRows + ·)) a.toNestedCsc
      b.toNestedCsc, ∀ i ∈ g, i < a.numRows + b.numRows := by
    intro g hg i hi
    obtain ⟨k, hk, rfl⟩ := List.mem_iff_getElem.mp hg
    rw [List.getElem_zipWith, List.mem_append] at hi
    rcases hi with hi | hi
    · have := a.mem_toNestedCsc_lt (List.getElem_mem _) hi
      omega
    · obtain ⟨j, hj, rfl⟩ := List.mem_map.mp hi
      have := b.mem_toNestedCsc_lt (List.getElem_mem _) hj
      omega
  have hnnz : storedCount (List.zipWith (fun ca cb => ca ++ cb.map (a.numRows + ·)) a.toNestedCsc
      b.toNestedCsc) < 2 ^ 32 := by
    rw [storedCount_zipWith_append _ _ _ hlen, storedCount_toNestedCsc, storedCount_toNestedCsc]
    exact hn
  obtain ⟨m, hm⟩ := exists_fromNestedCsc hr hcols (by simp [hc]) hnnz hidx
  refine ⟨m, ?_⟩
  simp only [vstack, bind_eq_ok, throwIf_eq_ok]
  exact ⟨(), by simp [hc], (), by rw [uint32Max]; omega, hm⟩

/-! ### Padding -/

theorem padRight_rowCounts {n : Nat} (h : padRight a n = .ok m) (hn : n < 2 ^ 32)
    (hc : a.numCols ≤ n) :
    m.layout = .csc ∧ m.numCols = n ∧
      m.rowCounts = a.rowCounts.map (fun r => joinRows a.numCols r zeroRow) ∧
        m.numNnz = a.numNnz := by
  obtain ⟨-, hl, hmr, hmc, hg⟩ := fromNestedCsc_eq_ok.mp h
  rw [u32_of_lt a.rows_lt] at hmr
  rw [u32_of_lt hn] at hmc
  rw [List.take_of_length_le (by simpa using hc)] at hg
  refine ⟨hl, hmc, ?_, ?_⟩
  · apply rowCounts_eq
    · simp [hmr]
    intro r _ c
    rw [Banded.getD_map_row _ (fun r => joinRows a.numCols r zeroRow) (by simp), getD_rowCounts,
      count_of_csc m hl, hg, getD_append_ite, length_toNestedCsc, getD_replicate_self]
    split
    · next h => rw [joinRows_of_lt _ _ h, count_toNestedCsc]
    · next h => rw [joinRows_of_le _ _ (by omega), zeroRow_apply, List.count_nil]
  · rw [numNnz, hg, storedCount_append, storedCount_replicate_nil, storedCount_toNestedCsc,
      Nat.add_zero]

theorem padRight_lt {n : Nat} (h : padRight a n = .ok m) (hn : n < 2 ^ 32) : n < uint32Max := by
  obtain ⟨hlt, -, -, hc, -⟩ := fromNestedCsc_eq_ok.mp h
  rwa [hc, u32_of_lt hn] at hlt

theorem exists_padRight {n : Nat} (hn : n < uint32Max) (hc : a.numCols ≤ n) :
    ∃ m, padRight a n = .ok m := by
  apply exists_fromNestedCsc a.rows_lt hn
  · rw [List.take_of_length_le (by simpa using hc)]
    simp [hc]
  · rw [List.take_of_length_le (by simpa using hc), storedCount_append, storedCount_replicate_nil,
      storedCount_toNestedCsc]
    exact a.nnz_lt
  · intro g hg i hi
    rcases List.mem_append.mp hg with hg | hg
    · exact a.mem_toNestedCsc_lt (List.mem_of_mem_take hg) hi
    · rw [List.eq_of_mem_replicate hg] at hi
      simp at hi

theorem padLeft_rowCounts {k n : Nat} (h : padLeft a k n = .ok m) (hn : n < 2 ^ 32)
    (hc : k + a.numCols = n) :
    m.layout = .csc ∧ m.numCols = n ∧
      m.rowCounts = a.rowCounts.map (fun r => joinRows k zeroRow r) ∧ m.numNnz = a.numNnz := by
  obtain ⟨-, hl, hmr, hmc, hg⟩ := fromNestedCsc_eq_ok.mp h
  rw [u32_of_lt a.rows_lt] at hmr
  rw [u32_of_lt hn] at hmc
  have hzero : n - k - a.numCols = 0 := by omega
  rw [hzero, List.replicate_zero, List.append_nil] at hg
  refine ⟨hl, hmc, ?_, ?_⟩
  · apply rowCounts_eq
    · simp [hmr]
    intro r _ c
    rw [Banded.getD_map_row _ (fun r => joinRows k zeroRow r) (by simp), getD_rowCounts,
      count_of_csc m hl, hg, getD_append_ite, List.length_replicate, getD_replicate_self]
    split
    · next h => rw [joinRows_of_lt _ _ h, zeroRow_apply, List.count_nil]
    · next h => rw [joinRows_of_le _ _ (by omega), count_toNestedCsc]
  · rw [numNnz, hg, storedCount_append, storedCount_replicate_nil, storedCount_toNestedCsc,
      Nat.zero_add]

theorem exists_padLeft {k n : Nat} (hn : n < uint32Max) (hc : k + a.numCols = n) :
    ∃ m, padLeft a k n = .ok m := by
  have hzero : n - k - a.numCols = 0 := by omega
  apply exists_fromNestedCsc a.rows_lt hn
  · simp only [List.length_append, List.length_replicate, length_toNestedCsc]
    omega
  · rw [storedCount_append, storedCount_append, storedCount_replicate_nil,
      storedCount_replicate_nil, storedCount_toNestedCsc, Nat.zero_add, Nat.add_zero]
    exact a.nnz_lt
  · intro g hg i hi
    rw [hzero, List.replicate_zero, List.append_nil] at hg
    rcases List.mem_append.mp hg with hg | hg
    · rw [List.eq_of_mem_replicate hg] at hi
      simp at hi
    · exact a.mem_toNestedCsc_lt hg hi

/-! ### Cutting rows out -/

theorem zeroMatrix_rowCounts {n : Nat} (h : zeroMatrix 0 n = .ok m) (hn : n < 2 ^ 32) :
    m.layout = .csc ∧ m.numCols = n ∧ m.rowCounts = [] ∧ m.numNnz = 0 := by
  obtain ⟨-, hl, hmr, hmc, hg⟩ := fromNestedCsc_eq_ok.mp h
  rw [u32_of_lt (by decide)] at hmr
  rw [u32_of_lt hn] at hmc
  exact ⟨hl, hmc, by simp [rowCounts, hmr], by rw [numNnz, hg, storedCount_replicate_nil]⟩

theorem exists_zeroMatrix {n : Nat} (hn : n < uint32Max) : ∃ m, zeroMatrix 0 n = .ok m := by
  apply exists_fromNestedCsc (by decide) hn (by simp) (by simp)
  intro g hg i hi
  rw [List.eq_of_mem_replicate hg] at hi
  simp at hi

private theorem selectRows_rowCounts {rows : List Nat}
    (h : fromNestedCsr rows.length a.numCols (rows.map fun r => a.toNestedCsr.getD r []) = .ok m)
    (hlen : rows.length < 2 ^ 32) :
    m.numCols = a.numCols ∧ m.rowCounts = rows.map a.count ∧
      m.numNnz = (rows.map fun r => (a.toNestedCsr.getD r []).length).sum := by
  obtain ⟨-, hl, hmr, hmc, hg⟩ := fromNestedCsr_eq_ok.mp h
  rw [u32_of_lt hlen] at hmr
  rw [u32_of_lt a.cols_lt] at hmc
  refine ⟨hmc, ?_, by rw [numNnz, hg, storedCount_map_getD]⟩
  apply rowCounts_eq
  · simp [hmr]
  intro r hr c
  have hr' : r < rows.length := hmr ▸ hr
  rw [count_of_csr m hl, hg]
  simp only [List.getD_eq_getElem?_getD, List.getElem?_map, List.getElem?_eq_getElem hr',
    Option.map_some, Option.getD_some]
  rw [← List.getD_eq_getElem?_getD, count_toNestedCsr]

private theorem exists_selectRows {rows : List Nat} (hlen : rows.length < uint32Max)
    (hn : (rows.map fun r => (a.toNestedCsr.getD r []).length).sum < 2 ^ 32) :
    ∃ m, fromNestedCsr rows.length a.numCols (rows.map fun r => a.toNestedCsr.getD r []) =
      .ok m := by
  apply exists_fromNestedCsr hlen a.cols_lt (by simp)
  · rw [storedCount_map_getD]
    exact hn
  · intro g hg i hi
    obtain ⟨r, -, rfl⟩ := List.mem_map.mp hg
    exact a.mem_toNestedCsr_lt (getD_mem hi) hi

def SparseBinaryMatrix.rowNnz (m : SparseBinaryMatrix) (r : Nat) : Nat :=
  (m.toNestedCsr.getD r []).length

theorem SparseBinaryMatrix.numNnz_eq_sum (m : SparseBinaryMatrix) :
    m.numNnz = ((List.range m.numRows).map m.rowNnz).sum := by
  have hlist : (List.range m.numRows).map (fun r => m.toNestedCsr.getD r []) = m.toNestedCsr := by
    apply List.ext_getElem (by simp)
    intro r hr hr'
    rw [List.getElem_map, List.getElem_range, List.getD_eq_getElem?_getD,
      List.getElem?_eq_getElem hr', Option.getD_some]
  rw [← storedCount_toNestedCsr, ← hlist, storedCount_map_getD]
  rfl

private theorem extractRowBand_eq (H : SparseBinaryMatrix) {b e : Nat} (h : e - b ≠ 0) :
    extractRowBand H b e =
      fromNestedCsr ((List.range (e - b)).map (b + ·)).length H.numCols
        (((List.range (e - b)).map (b + ·)).map fun r => H.toNestedCsr.getD r []) := by
  rw [extractRowBand, if_neg h, List.length_map, List.length_range, List.map_map]
  rfl

theorem extractRowBand_rowCounts {b e : Nat} (h : extractRowBand a b e = .ok m)
    (he : e < 2 ^ 32) :
    m.numCols = a.numCols ∧ m.rowCounts = (List.range (e - b)).map (fun k => a.count (b + k)) ∧
      m.numNnz = ((List.range (e - b)).map fun k => a.rowNnz (b + k)).sum := by
  by_cases hz : e - b = 0
  · rw [extractRowBand, if_pos hz] at h
    obtain ⟨-, hc, hr, hn⟩ := zeroMatrix_rowCounts h a.cols_lt
    exact ⟨hc, by rw [hr, hz]; rfl, by rw [hn, hz]; rfl⟩
  · rw [extractRowBand_eq a hz] at h
    obtain ⟨hc, hr, hn⟩ := selectRows_rowCounts h (by simp; omega)
    exact ⟨hc, by rw [hr, List.map_map]; rfl, by rw [hn, List.map_map]; rfl⟩

/-- Rows that were cut out leave room for their pointer array. -/
theorem extractRowBand_numRows_lt {b e : Nat} (h : extractRowBand a b e = .ok m) :
    m.numRows < uint32Max := by
  by_cases hz : e - b = 0
  · rw [extractRowBand, if_pos hz] at h
    obtain ⟨-, -, hr, -, -⟩ := fromNestedCsc_eq_ok.mp h
    rw [hr]
    decide
  · rw [extractRowBand, if_neg hz] at h
    exact (fromNestedCsr_eq_ok.mp h).1

theorem exists_extractRowBand {b e : Nat} (he : e - b < uint32Max)
    (hc : e - b = 0 → a.numCols < uint32Max)
    (hn : ((List.range (e - b)).map fun k => a.rowNnz (b + k)).sum < 2 ^ 32) :
    ∃ m, extractRowBand a b e = .ok m := by
  by_cases hz : e - b = 0
  · rw [extractRowBand, if_pos hz]
    exact exists_zeroMatrix (hc hz)
  · rw [extractRowBand_eq a hz]
    apply exists_selectRows
    · simpa using he
    · rw [List.map_map]
      exact hn

private theorem length_interiorRowList_le (rows : Nat) (seams : List Seam) :
    (ExtendedDem.interiorRowList rows seams).length ≤ rows :=
  (List.length_filter_le _ _).trans (by simp)

theorem extractInteriorRows_rowCounts {seams : List Seam}
    (h : extractInteriorRows a seams = .ok m) :
    m.numCols = a.numCols ∧
      m.rowCounts = (ExtendedDem.interiorRowList a.numRows seams).map a.count ∧
      m.numNnz = ((ExtendedDem.interiorRowList a.numRows seams).map a.rowNnz).sum :=
  selectRows_rowCounts h (lt_of_le_of_lt (length_interiorRowList_le _ _) a.rows_lt)

theorem extractInteriorRows_numRows_lt {seams : List Seam}
    (h : extractInteriorRows a seams = .ok m) : m.numRows < uint32Max :=
  (fromNestedCsr_eq_ok.mp h).1

theorem exists_extractInteriorRows {seams : List Seam}
    (hr : (ExtendedDem.interiorRowList a.numRows seams).length < uint32Max)
    (hn : ((ExtendedDem.interiorRowList a.numRows seams).map a.rowNnz).sum < 2 ^ 32) :
    ∃ m, extractInteriorRows a seams = .ok m :=
  exists_selectRows hr hn

/-! ### Stacking bands -/

theorem pushBand_rowCounts {result : SparseBinaryMatrix} (h : pushBand result a = .ok m)
    (hr : result.layout = .csc) (ha : a.layout = .csc) (hc : result.numCols = a.numCols) :
    m.layout = .csc ∧ m.numCols = a.numCols ∧ m.rowCounts = result.rowCounts ++ a.rowCounts := by
  have hnil : ∀ x : SparseBinaryMatrix, ¬ 0 < x.numRows → x.rowCounts = [] := by
    intro x hx
    rw [rowCounts, Nat.eq_zero_of_not_pos hx]
    rfl
  unfold pushBand at h
  split_ifs at h with ha0 hr0
  · obtain ⟨hl, -, hmc, -, -⟩ := vstack_groups h
    exact ⟨hl, hmc.trans hc, vstack_rowCounts h⟩
  · cases h
    exact ⟨ha, rfl, by rw [hnil result hr0, List.nil_append]⟩
  · cases h
    exact ⟨hr, hc, by rw [hnil a ha0, List.append_nil]⟩

/-- A column-compressed matrix without rows stores nothing. -/
theorem numNnz_of_no_rows (h : ¬ 0 < a.numRows) : a.numNnz = 0 := by
  rw [numNnz_eq_sum, Nat.eq_zero_of_not_pos h]
  rfl

theorem pushBand_numNnz {result : SparseBinaryMatrix} (h : pushBand result a = .ok m) :
    m.numNnz = result.numNnz + a.numNnz := by
  unfold pushBand at h
  split_ifs at h with ha0 hr0
  · exact vstack_numNnz h
  · cases h
    rw [numNnz_of_no_rows hr0, Nat.zero_add]
  · cases h
    rw [numNnz_of_no_rows ha0, Nat.add_zero]

theorem exists_pushBand (result a : SparseBinaryMatrix) (hc : result.numCols = a.numCols)
    (hcols : a.numCols < uint32Max) (hr : result.numRows + a.numRows < 2 ^ 32) (hn : result.numNnz + a.numNnz < 2 ^ 32) :
    ∃ m, pushBand result a = .ok m := by
  unfold pushBand
  split_ifs
  · exact exists_vstack hc.symm (hc ▸ hcols) hr hn
  · exact ⟨_, rfl⟩
  · exact ⟨_, rfl⟩

def stackBands (n : Nat) (bands : List SparseBinaryMatrix) : Except Error SparseBinaryMatrix := do
  bands.foldlM pushBand (← zeroMatrix 0 n)

private theorem foldlM_pushBand_rowCounts {n : Nat} {bands : List SparseBinaryMatrix}
    {result : SparseBinaryMatrix} (h : bands.foldlM pushBand result = .ok m)
    (hr : result.layout = .csc) (hc : result.numCols = n)
    (hb : ∀ x ∈ bands, x.layout = .csc ∧ x.numCols = n) :
    m.layout = .csc ∧ m.numCols = n ∧
      m.rowCounts = result.rowCounts ++ bands.flatMap rowCounts ∧
      m.numNnz = result.numNnz + (bands.map numNnz).sum := by
  induction bands generalizing result with
  | nil =>
    cases h
    exact ⟨hr, hc, by simp, by simp⟩
  | cons x bands ih =>
    rw [List.foldlM_cons, bind_eq_ok] at h
    obtain ⟨y, hy, h⟩ := h
    obtain ⟨hxl, hxc⟩ := hb x (by simp)
    obtain ⟨hyl, hyc, hyr⟩ := pushBand_rowCounts hy hr hxl (hc.trans hxc.symm)
    have hyn := pushBand_numNnz hy
    obtain ⟨h1, h2, h3, h4⟩ := ih h hyl (hyc.trans hxc) fun z hz => hb z (by simp [hz])
    refine ⟨h1, h2, ?_, ?_⟩
    · rw [h3, hyr, List.flatMap_cons, List.append_assoc]
    · rw [h4, hyn, List.map_cons, List.sum_cons, Nat.add_assoc]

theorem stackBands_rowCounts {n : Nat} {bands : List SparseBinaryMatrix}
    (h : stackBands n bands = .ok m) (hn : n < 2 ^ 32)
    (hb : ∀ x ∈ bands, x.layout = .csc ∧ x.numCols = n) :
    m.layout = .csc ∧ m.numCols = n ∧ m.rowCounts = bands.flatMap rowCounts ∧
      m.numNnz = (bands.map numNnz).sum := by
  obtain ⟨z, hz, h⟩ := bind_eq_ok.mp h
  obtain ⟨hl, hc, hr, hnnz⟩ := zeroMatrix_rowCounts hz hn
  obtain ⟨h1, h2, h3, h4⟩ := foldlM_pushBand_rowCounts h hl hc hb
  rw [hr, List.nil_append] at h3
  rw [hnnz, Nat.zero_add] at h4
  exact ⟨h1, h2, h3, h4⟩

private theorem exists_foldlM_pushBand {n : Nat} {bands : List SparseBinaryMatrix}
    {result : SparseBinaryMatrix} (hn : n < uint32Max) (hr : result.layout = .csc)
    (hc : result.numCols = n) (hb : ∀ x ∈ bands, x.layout = .csc ∧ x.numCols = n)
    (hrows : result.numRows + (bands.map numRows).sum < 2 ^ 32)
    (hnnz : result.numNnz + (bands.map numNnz).sum < 2 ^ 32) :
    ∃ m, bands.foldlM pushBand result = .ok m := by
  induction bands generalizing result with
  | nil => exact ⟨_, rfl⟩
  | cons x bands ih =>
    rw [List.map_cons, List.sum_cons] at hrows hnnz
    obtain ⟨hxl, hxc⟩ := hb x (by simp)
    obtain ⟨y, hy⟩ := exists_pushBand result x (hc.trans hxc.symm) (hxc ▸ hn)
      (by omega) (by omega)
    obtain ⟨hyl, hyc, hyr⟩ := pushBand_rowCounts hy hr hxl (hc.trans hxc.symm)
    have hyn := pushBand_numNnz hy
    have hyrows : y.numRows = result.numRows + x.numRows := by
      rw [← length_rowCounts, hyr, List.length_append, length_rowCounts, length_rowCounts]
    obtain ⟨m, hm⟩ := ih hyl (hyc.trans hxc) (fun z hz => hb z (by simp [hz])) (by omega)
      (by omega)
    exact ⟨m, by rw [List.foldlM_cons, hy, ok_bind, hm]⟩

theorem exists_stackBands {n : Nat} (bands : List SparseBinaryMatrix) (hn : n < uint32Max)
    (hb : ∀ x ∈ bands, x.layout = .csc ∧ x.numCols = n)
    (hrows : (bands.map numRows).sum < 2 ^ 32) (hnnz : (bands.map numNnz).sum < 2 ^ 32) :
    ∃ m, stackBands n bands = .ok m := by
  obtain ⟨z, hz⟩ := exists_zeroMatrix hn
  obtain ⟨hl, hc, hr, hn0⟩ := zeroMatrix_rowCounts hz (lt_two_pow_of_lt_uint32Max hn)
  have hz0 : z.numRows = 0 := by rw [← length_rowCounts, hr]; rfl
  obtain ⟨m, hm⟩ := exists_foldlM_pushBand hn hl hc hb (by omega) (by omega)
  exact ⟨m, by rw [stackBands, hz, ok_bind, hm]⟩

end CudaqQec
