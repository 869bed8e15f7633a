import CudaqQec.Dem.ExtendRounds

/-!
# Columns by round

In a sorted matrix the rounds in which columns begin grow along the columns. The columns that have to do
with a range of rounds need not be next to each other: a column that begins early can go on for long.

* `entry_block`: the elements that are cut out of the matrix for a range of rounds.
* `pasted_block`: the same, when the columns are next to each other.
* `getPcmForRounds_eq_ok`: what `get_pcm_for_rounds` returns.
-/

namespace CudaqQec

open Checked Traps

/-! ## Lists without gaps -/

/-- The numbers of a list follow one another. -/
def Adjacent (l : List Nat) : Prop := l = List.range' (l.headD 0) l.length

instance (l : List Nat) : Decidable (Adjacent l) := inferInstanceAs (Decidable (_ = _))

/-- A list that grows spans at least its length, and has no gap if it spans no more. -/
theorem span_of_increasing {l : List Nat} (h : l.Pairwise (· < ·)) (hne : l ≠ []) :
    l.headD 0 + l.length ≤ l.getLastD 0 + 1 ∧
      (l.getLastD 0 + 1 ≤ l.headD 0 + l.length → Adjacent l) := by
  induction l with
  | nil => exact absurd rfl hne
  | cons a l ih =>
    cases l with
    | nil => exact ⟨le_refl _, fun _ => rfl⟩
    | cons b l =>
      obtain ⟨hspan, hadj⟩ := ih h.tail (by simp)
      have hlast : (a :: b :: l).getLastD 0 = (b :: l).getLastD 0 := by
        rw [List.getLastD_cons, List.getLastD_cons, List.getLastD_cons]
      have hab : a < b := (List.pairwise_cons.mp h).1 b List.mem_cons_self
      have hhead : (b :: l).headD 0 = b := rfl
      rw [hlast, List.length_cons, List.headD_cons]
      rw [hhead] at hspan hadj
      refine ⟨by omega, ?_⟩
      intro hle
      have htail : b :: l = List.range' b (b :: l).length := hadj (by omega)
      have hb : b = a + 1 := by omega
      rw [Adjacent, List.headD_cons, List.length_cons, List.range'_succ, ← hb, ← htail]

/-- The numbers from one to another, in order. -/
theorem eq_range'_of_mem {l : List Nat} (h : l.Pairwise (· < ·)) {a b : Nat}
    (hmem : ∀ c, c ∈ l ↔ a ≤ c ∧ c < b) : l = List.range' a (b - a) := by
  apply h.sortedLT.eq_of_mem_iff (List.Pairwise.sortedLT List.pairwise_lt_range')
  intro c
  rw [hmem, List.mem_range'_1]
  omega

/-- Where a range of columns begins and ends, if it has one. -/
theorem range'_ends {a k : Nat} (h : 0 < k) (d : Nat) :
    (List.range' a k).headD d = a ∧ (List.range' a k).getLastD d = a + k - 1 := by
  obtain ⟨k, rfl⟩ := Nat.exists_eq_succ_of_ne_zero h.ne'
  constructor
  · rfl
  · rw [List.range'_concat, List.getLastD_concat]
    omega

theorem headD_of_ne {l : List Nat} (h : l ≠ []) (d : Nat) : l.headD d = l.headD 0 := by
  cases l with
  | nil => exact absurd rfl h
  | cons a l => rfl

/-! ## Columns and rounds -/

def firstRound (pcm : Tensor) (S c : Nat) : Nat := (columnRows pcm c).headD 0 / S

def lastRound (pcm : Tensor) (S c : Nat) : Nat := (columnRows pcm c).getLastD 0 / S

def begunBefore (pcm : Tensor) (S w : Nat) : Nat :=
  (List.range pcm.cols).countP fun c => firstRound pcm S c < w

/-- The columns that have to do with the rounds from one to another. -/
def touching (pcm : Tensor) (S p q : Nat) : List Nat :=
  (List.range pcm.cols).filter fun c =>
    columnRows pcm c ≠ [] ∧ firstRound pcm S c ≤ q ∧ p ≤ lastRound pcm S c

/-- The rows of the rounds from one to another, of the columns that have to do with them. -/
def block (pcm : Tensor) (S p q : Nat) : Tensor :=
  .ofEntries ((q + 1) * S - p * S) (touching pcm S p q).length fun r j =>
    pcm.entry (p * S + r) ((touching pcm S p q).getD j 0)

def cell (pcm : Tensor) (r c : Nat) : UInt8 := if c < pcm.cols then pcm.entry r c else 0

variable {pcm : Tensor} {S : Nat}

/-! ## Rows of a column -/

theorem pairwise_columnRows (c : Nat) : (columnRows pcm c).Pairwise (· < ·) :=
  List.pairwise_lt_range.filter _

/-- A column sets rows from its first round to its last. -/
theorem round_bounds {r c : Nat} (hr : r < pcm.rows) (h : pcm.entry r c ≠ 0) :
    firstRound pcm S c ≤ r / S ∧ r / S ≤ lastRound pcm S c := by
  have hmem := mem_columnRows.mpr ⟨hr, h⟩
  have hends := headD_le_getLastD (pairwise_columnRows c) hmem
  exact ⟨Nat.div_le_div_right hends.1, Nat.div_le_div_right hends.2⟩

theorem cell_of_lt {r c : Nat} (hc : c < pcm.cols) : cell pcm r c = pcm.entry r c := if_pos hc

theorem cell_of_rows_le (hm : pcm.Binary) {r c : Nat} (hr : pcm.rows ≤ r) : cell pcm r c = 0 := by
  unfold cell
  split
  · next hc =>
    rw [Tensor.entry]
    apply getD_of_length_le
    have hprod : pcm.data.length = pcm.rows * pcm.cols := by
      rw [pcm.length_data]
      obtain ⟨a, b, hab⟩ := List.length_eq_two.mp hm.rank
      simp [Tensor.rows, Tensor.cols, hab]
    have := Nat.mul_le_mul_right pcm.cols hr
    omega
  · rfl

/-- Where an element is set, its column has begun and has not ended. -/
theorem round_of_cell (hm : pcm.Binary) {r c : Nat} (h : cell pcm r c ≠ 0) :
    c < pcm.cols ∧ r < pcm.rows ∧ columnRows pcm c ≠ [] ∧ firstRound pcm S c ≤ r / S ∧
      r / S ≤ lastRound pcm S c := by
  have hr : r < pcm.rows := by
    by_contra hle
    exact h (cell_of_rows_le hm (not_lt.mp hle))
  have hc : c < pcm.cols := by
    by_contra hle
    exact h (if_neg hle)
  rw [cell_of_lt hc] at h
  exact ⟨hc, hr, List.ne_nil_of_mem (mem_columnRows.mpr ⟨hr, h⟩), round_bounds hr h⟩

/-- A column sets a row in its first round, and one in its last. -/
theorem exists_cell {c : Nat} (hc : c < pcm.cols) (hne : columnRows pcm c ≠ []) (hS : 0 < S) :
    (∃ i < S, cell pcm (firstRound pcm S c * S + i) c ≠ 0) ∧
      ∃ i < S, cell pcm (lastRound pcm S c * S + i) c ≠ 0 := by
  have hhead := (mem_columnRows.mp (headD_mem hne)).2
  have hlast := (mem_columnRows.mp (getLastD_mem hne)).2
  rw [← cell_of_lt hc] at hhead hlast
  refine ⟨⟨(columnRows pcm c).headD 0 % S, Nat.mod_lt _ hS, ?_⟩,
    ⟨(columnRows pcm c).getLastD 0 % S, Nat.mod_lt _ hS, ?_⟩⟩
  · rwa [firstRound, Nat.div_add_mod']
  · rwa [lastRound, Nat.div_add_mod']

theorem firstRound_le_lastRound {c : Nat} (hne : columnRows pcm c ≠ []) :
    firstRound pcm S c ≤ lastRound pcm S c :=
  (round_bounds (mem_columnRows.mp (getLastD_mem hne)).1 (mem_columnRows.mp (getLastD_mem hne)).2).1

/-! ## Elements by round -/

theorem round_of_row {v i : Nat} (hi : i < S) : (v * S + i) / S = v := by
  rw [Nat.mul_comm, Nat.mul_add_div (by omega), Nat.div_eq_of_lt hi, Nat.add_zero]

theorem mem_touching {p q c : Nat} : c ∈ touching pcm S p q ↔ c < pcm.cols ∧ columnRows pcm c ≠ [] ∧
    firstRound pcm S c ≤ q ∧ p ≤ lastRound pcm S c := by
  rw [touching, List.mem_filter, List.mem_range, decide_eq_true_eq]

theorem pairwise_touching (p q : Nat) : (touching pcm S p q).Pairwise (· < ·) :=
  List.pairwise_lt_range.filter _

/-- Where an element is set, its column has to do with the round. -/
theorem mem_touching_of_cell (hm : pcm.Binary) {p q v i c : Nat} (hi : i < S) (hp : p ≤ v) (hq : v ≤ q)
    (h : cell pcm (v * S + i) c ≠ 0) : c ∈ touching pcm S p q := by
  obtain ⟨hc, -, hne, hfirst, hlast⟩ := round_of_cell (S := S) hm h
  rw [round_of_row hi] at hfirst hlast
  exact mem_touching.mpr ⟨hc, hne, by omega, by omega⟩

theorem rows_block (p q : Nat) : (block pcm S p q).rows = (q + 1 - p) * S := by
  rw [block, Tensor.rows_ofEntries, Nat.sub_mul]

theorem cols_block (p q : Nat) : (block pcm S p q).cols = (touching pcm S p q).length :=
  Tensor.cols_ofEntries _ _ _

/-- The elements that are cut out for a range of rounds. -/
theorem entry_block {p q v i j : Nat} (hi : i < S) (hv : p + v ≤ q)
    (hj : j < (touching pcm S p q).length) :
    (block pcm S p q).entry (v * S + i) j =
      cell pcm ((p + v) * S + i) ((touching pcm S p q).getD j 0) := by
  have hrow : v * S + i < (q + 1) * S - p * S := by
    have hle : (v + 1) * S ≤ (q + 1 - p) * S := Nat.mul_le_mul_right S (by omega)
    rw [Nat.succ_mul] at hle
    rw [← Nat.sub_mul]
    omega
  have hmem : (touching pcm S p q).getD j 0 ∈ touching pcm S p q := by
    rw [List.getD_eq_getElem _ _ hj]
    exact List.getElem_mem hj
  rw [block, Tensor.entry_ofEntries _ _ _ hrow hj, cell_of_lt (mem_touching.mp hmem).1, Nat.add_mul,
    Nat.add_assoc]

/-- If the columns are next to each other, a block that is pasted shows the matrix, and nothing beside
it is set there. -/
theorem pasted_block (hm : pcm.Binary) {p q a k v i j : Nat} (h : touching pcm S p q = List.range' a k)
    (hi : i < S) (hv : p + v ≤ q) :
    (if j < (block pcm S p q).cols then (block pcm S p q).entry (v * S + i) j else 0) =
      cell pcm ((p + v) * S + i) (a + j) := by
  have hlen : (touching pcm S p q).length = k := by
    rw [h, List.length_range']
  rw [cols_block]
  split
  · next hj =>
    rw [entry_block hi hv hj, h, List.getD_eq_getElem _ _ (by rw [List.length_range']; omega),
      List.getElem_range', Nat.one_mul]
  · next hj =>
    by_contra hne
    have hmem := mem_touching_of_cell hm hi (by omega : p ≤ p + v) hv (Ne.symm hne)
    rw [h, List.mem_range'_1] at hmem
    omega

/-! ## The order of the columns -/

theorem columnKey_mono (hm : pcm.Binary) (hsorted : orderOfDense pcm S = List.range pcm.cols)
    {a b : Nat} (hab : a < b) (hb : b < pcm.cols) :
    columnKey (roundKey (0 < S) (· / S)) (columnRows pcm a) ≤
      columnKey (roundKey (0 < S) (· / S)) (columnRows pcm b) := by
  have hread : ∀ c < pcm.cols, (readColumnsOf pcm).getD c [] = columnRows pcm c := by
    intro c hc
    rw [getD_readColumnsOf hc]
    apply map_u32_of_lt
    intro r hr
    have := (mem_columnRows.mp hr).1
    have := hm.rows_lt
    omega
  have hlen : (readColumnsOf pcm).length ≤ 2 ^ 32 := by
    rw [length_readColumnsOf]
    exact hm.cols_lt.le
  have hpair := pairwise_sortedColumns (readColumnsOf pcm) (roundKey (0 < S) (· / S))
  rw [← sortedPcmColumnIndicesImpl_eq hlen, ← orderOfDense, hsorted, List.pairwise_iff_getElem] at hpair
  have hkey := hpair a b (by rw [List.length_range]; omega) (by rwa [List.length_range]) hab
  rwa [List.getElem_range, List.getElem_range, hread a (by omega), hread b hb] at hkey

/-- Columns that set no row come first. -/
theorem columnRows_eq_nil_of_lt (hm : pcm.Binary)
    (hsorted : orderOfDense pcm S = List.range pcm.cols) {a b : Nat} (hab : a < b) (hb : b < pcm.cols)
    (h : columnRows pcm b = []) : columnRows pcm a = [] := by
  by_contra ha
  have hkey := columnKey_mono hm hsorted hab hb
  rw [h, columnKey_nil, columnKey_of_ne ha] at hkey
  exact absurd hkey (not_le.mpr (List.nil_lt_cons _ _))

/-- A sorted matrix in which each column sets a row. -/
structure SortedColumns (pcm : Tensor) (S : Nat) : Prop where
  binary : pcm.Binary
  pos : 0 < S
  sorted : orderOfDense pcm S = List.range pcm.cols
  nonzero : ∀ c < pcm.cols, columnRows pcm c ≠ []

theorem begunBefore_le (pcm : Tensor) (S w : Nat) : begunBefore pcm S w ≤ pcm.cols :=
  le_trans List.countP_le_length (by rw [List.length_range])

section Sorted

variable (h : SortedColumns pcm S)

include h

theorem SortedColumns.firstRound_mono {a b : Nat} (hab : a ≤ b) (hb : b < pcm.cols) :
    firstRound pcm S a ≤ firstRound pcm S b := by
  rcases Nat.lt_or_eq_of_le hab with hlt | rfl
  swap
  · exact le_refl _
  have hround : ∀ r, roundKey (0 < S) (· / S) r = r / S := by
    intro r
    rw [roundKey, if_pos (by simpa using h.pos)]
  have hkey := columnKey_mono h.binary h.sorted hlt hb
  rw [columnKey_of_ne (h.nonzero a (by omega)), columnKey_of_ne (h.nonzero b hb), hround, hround, hround,
    hround] at hkey
  rcases lt_or_eq_of_le hkey with hlt | heq
  · rw [List.cons_lt_cons_iff] at hlt
    rcases hlt with hlt | ⟨heq, -⟩
    · exact hlt.le
    · exact heq.le
  · exact (List.cons.inj heq).1.le

theorem SortedColumns.lt_begunBefore_iff {w c : Nat} (hc : c < pcm.cols) :
    c < begunBefore pcm S w ↔ firstRound pcm S c < w := by
  rw [begunBefore, lt_countP_range_iff ?_ hc, decide_eq_true_eq]
  intro i j hij hj hlt
  rw [decide_eq_true_eq] at *
  exact lt_of_le_of_lt (h.firstRound_mono hij hj) hlt

/-- The columns of the first rounds are the first columns. -/
theorem SortedColumns.touching_zero (q : Nat) :
    touching pcm S 0 q = List.range' 0 (begunBefore pcm S (q + 1)) := by
  have hle := begunBefore_le pcm S (q + 1)
  apply eq_range'_of_mem (a := 0) (b := begunBefore pcm S (q + 1)) (pairwise_touching 0 q)
  intro c
  rw [mem_touching]
  constructor
  · rintro ⟨hc, -, hround, -⟩
    exact ⟨Nat.zero_le c, (h.lt_begunBefore_iff hc).mpr (by omega)⟩
  · rintro ⟨-, hlt⟩
    have hc : c < pcm.cols := by omega
    have := (h.lt_begunBefore_iff hc).mp hlt
    exact ⟨hc, h.nonzero c hc, by omega, Nat.zero_le _⟩

/-- If the columns of some rounds are next to each other, so are those of the first of them. -/
theorem SortedColumns.touching_first {p q a k : Nat} (hpq : p ≤ q)
    (hrange : touching pcm S p q = List.range' a k) :
    touching pcm S p p = List.range' a (min (a + k) (begunBefore pcm S (p + 1)) - a) := by
  apply eq_range'_of_mem (pairwise_touching p p)
  intro c
  have hmem : c ∈ touching pcm S p q ↔ a ≤ c ∧ c < a + k := by
    rw [hrange, List.mem_range'_1]
  rw [mem_touching] at hmem ⊢
  by_cases hc : c < pcm.cols
  · have hbegun := h.lt_begunBefore_iff (w := p + 1) hc
    simp only [hc, h.nonzero c hc, ne_eq, not_false_eq_true, true_and] at hmem ⊢
    omega
  · simp only [hc, false_and, false_iff] at hmem ⊢
    omega

/-- The first column that has to do with a round is the first of those that have to do with later ones
too. -/
theorem SortedColumns.headD_touching {p q : Nat} (hpq : p ≤ q) (hne : touching pcm S p p ≠ []) :
    (touching pcm S p q).headD 0 = (touching pcm S p p).headD 0 := by
  obtain ⟨hc, hset, hfirst, hlast⟩ := mem_touching.mp (headD_mem hne)
  have hmem : (touching pcm S p p).headD 0 ∈ touching pcm S p q :=
    mem_touching.mpr ⟨hc, hset, by omega, hlast⟩
  have hle := (headD_le_getLastD (pairwise_touching p q) hmem).1
  obtain ⟨hc', hset', -, hlast'⟩ := mem_touching.mp (headD_mem (List.ne_nil_of_mem hmem))
  have hmono := h.firstRound_mono hle hc
  exact le_antisymm hle (headD_le_getLastD (pairwise_touching p p)
    (mem_touching.mpr ⟨hc', hset', by omega, hlast'⟩)).1

/-- The first column that has to do with a round comes no earlier than that of a round before. -/
theorem SortedColumns.headD_mono {p q : Nat} (hpq : p ≤ q) (hne : touching pcm S p p ≠ [])
    (hne' : touching pcm S q q ≠ []) :
    (touching pcm S p p).headD 0 ≤ (touching pcm S q q).headD 0 := by
  obtain ⟨hc, -, hfirst, -⟩ := mem_touching.mp (headD_mem hne)
  obtain ⟨hc', hset', -, hlast'⟩ := mem_touching.mp (headD_mem hne')
  by_contra hlt
  have hmono := h.firstRound_mono (not_le.mp hlt).le hc
  exact hlt (headD_le_getLastD (pairwise_touching p p)
    (mem_touching.mpr ⟨hc', hset', by omega, by omega⟩)).1

/-- It comes no later than the first column that begins in the round or later. -/
theorem SortedColumns.headD_le_begunBefore {p : Nat} (hne : touching pcm S p p ≠ []) :
    (touching pcm S p p).headD 0 ≤ begunBefore pcm S p := by
  obtain ⟨hc, -, hfirst, -⟩ := mem_touching.mp (headD_mem hne)
  by_contra hlt
  have hlt := not_le.mp hlt
  have hcols : begunBefore pcm S p < pcm.cols := by omega
  have hbegun := (h.lt_begunBefore_iff (w := p) hcols).not.mp (lt_irrefl _)
  have hmono := h.firstRound_mono hlt.le hc
  have hset := h.nonzero _ hcols
  have hrounds := firstRound_le_lastRound (S := S) hset
  have hmem : begunBefore pcm S p ∈ touching pcm S p p :=
    mem_touching.mpr ⟨hcols, hset, by omega, by omega⟩
  have := (headD_le_getLastD (pairwise_touching p p) hmem).1
  omega

/-- If as many columns have to do with a round as with the one before, the last of them comes no earlier. -/
theorem SortedColumns.getLastD_mono {p : Nat} (hp : 1 ≤ p) (hne : touching pcm S p p ≠ [])
    (hlen : (touching pcm S p p).length = (touching pcm S (p - 1) (p - 1)).length) :
    (touching pcm S (p - 1) (p - 1)).getLastD 0 ≤ (touching pcm S p p).getLastD 0 := by
  have hne' : touching pcm S (p - 1) (p - 1) ≠ [] := by
    rw [← List.length_pos_iff] at hne ⊢
    omega
  have hlast := getLastD_mem hne'
  by_contra hlt
  have hlt := not_le.mp hlt
  -- Then the columns of the round, and that one, would be columns of the round before.
  have hsub : (touching pcm S (p - 1) (p - 1)).getLastD 0 :: touching pcm S p p ⊆
      touching pcm S (p - 1) (p - 1) := by
    intro c hc
    rcases List.mem_cons.mp hc with rfl | hc
    · exact hlast
    · have hle := (headD_le_getLastD (pairwise_touching p p) hc).2
      obtain ⟨hcols, hset, -, hend⟩ := mem_touching.mp hc
      obtain ⟨hcols', -, hbegin, -⟩ := mem_touching.mp hlast
      have hmono := h.firstRound_mono (by omega : c ≤ _) hcols'
      exact mem_touching.mpr ⟨hcols, hset, by omega, by omega⟩
  have hnodup : ((touching pcm S (p - 1) (p - 1)).getLastD 0 :: touching pcm S p p).Nodup := by
    rw [List.nodup_cons]
    refine ⟨fun hmem => ?_, (pairwise_touching p p).imp fun hlt => hlt.ne⟩
    have := (headD_le_getLastD (pairwise_touching p p) hmem).2
    omega
  have := (List.subperm_of_subset hnodup hsub).length_le
  rw [List.length_cons] at this
  omega

end Sorted

/-! ## What is cut out for a range of rounds -/

/-- The columns that `get_pcm_for_rounds` selects, straddling either way, have to do with the range. -/
theorem selectedOf_eq {p q : Nat} (hpq : p ≤ q) :
    selectedOf pcm S 0 p q true true = (touching pcm S p q,
      (touching pcm S p q).headD uint32Max, (touching pcm S p q).getLastD 0) := by
  have hround : ∀ r, RoundLayout.rowToRound ⟨S, 0, pcm.rows⟩ r = r / S := fun r => rfl
  have hcols : (selectedOf pcm S 0 p q true true).1 = touching pcm S p q := by
    rw [selectedOf, selectPcmColumnsForRoundRange, touching, List.length_map, List.length_range]
    apply List.filter_congr
    intro c hc
    rw [getD_map_range, if_pos (List.mem_range.mp hc), decide_eq_decide, selectsColumn]
    apply and_congr_right
    intro hne
    have hle := firstRound_le_lastRound (S := S) hne
    rw [hround, hround, selectsSpan]
    change ¬ (lastRound pcm S c < p ∨ q < firstRound pcm S c) ∧
      ((p ≤ firstRound pcm S c ∧ lastRound pcm S c ≤ q) ∨
        (true = true ∧ firstRound pcm S c ≤ p ∧ p ≤ lastRound pcm S c) ∨
        (true = true ∧ firstRound pcm S c ≤ q ∧ q ≤ lastRound pcm S c)) ↔
      firstRound pcm S c ≤ q ∧ p ≤ lastRound pcm S c
    simp only [true_and]
    have := hpq
    omega
  have hall : selectedOf pcm S 0 p q true true = ((selectedOf pcm S 0 p q true true).1,
      (selectedOf pcm S 0 p q true true).1.headD uint32Max,
      (selectedOf pcm S 0 p q true true).1.getLastD 0) := rfl
  rw [hall, hcols]

/-- What `get_pcm_for_rounds` returns for a range of rounds, and what that says of the range. -/
theorem getPcmForRounds_eq_ok (hm : pcm.Binary) (hS32 : S < 2 ^ 32) {p q : Nat}
    {out : Tensor × Nat × Nat} (h : getPcmForRoundsDense pcm S p q true true 0 = .ok out) :
    0 < S ∧ p ≤ q ∧ q < pcm.rows / S ∧ out = (block pcm S p q,
      (touching pcm S p q).headD uint32Max, (touching pcm S p q).getLastD 0) := by
  have hvalid : validatePcmForRoundsParams S 0 p q pcm.rows = .ok () := by
    rw [getPcmForRoundsDense, bind_eq_ok] at h
    obtain ⟨_, hvalid, -⟩ := h
    exact hvalid
  obtain ⟨hpq, -, hout⟩ := (getPcmForRoundsDense_eq_ok_iff true true hm hS32 hvalid).mp h
  simp only [validatePcmForRoundsParams, bind_eq_ok, throwIf_eq_ok] at hvalid
  obtain ⟨_, hS, _, -, _, -, _, hend, -⟩ := hvalid
  have hrounds : RoundLayout.numRounds ⟨S, 0, pcm.rows⟩ = pcm.rows / S := if_pos rfl
  rw [hrounds] at hend
  refine ⟨Nat.pos_of_ne_zero hS, hpq, not_le.mp hend, ?_⟩
  rw [hout, selectedOf_eq hpq]
  rfl

end CudaqQec
