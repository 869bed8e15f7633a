import CudaqQec.Dem.ExtendRepeat

/-!
# Repeating rounds

`pcm_extend_to_n_rounds` is to repeat rounds: each new column is a column of the matrix, moved down by
whole rounds. A column that goes on below an inserted round is cut off by what is pasted there, and goes on
as the matrix does further up, so this holds where the two are the same.
-/

namespace CudaqQec

open Checked Traps

/-! ## What should be returned -/

/-- New column `c` is the column of the matrix that the list has for it, moved down by `k` rounds. -/
structure ShiftedBy (pcm : Tensor) (S : Nat) (out : Tensor × List Nat) (k c : Nat) : Prop where
  lt : out.2.getD c 0 < pcm.cols
  entry : ∀ r < out.1.rows,
    out.1.entry r c = if k * S ≤ r then cell pcm (r - k * S) (out.2.getD c 0) else 0
  fits : ∀ r < pcm.rows, pcm.entry r (out.2.getD c 0) ≠ 0 → r + k * S < out.1.rows

/-- The matrix was extended to `n` rounds: the columns that begin before round `w` where they were, the
others moved down by all the rounds that were added, and between them columns moved down by some. -/
structure ExtendsRounds (pcm : Tensor) (S n w : Nat) (out : Tensor × List Nat) : Prop where
  rounds : out.1.rows / S = n
  listed : out.2.length = out.1.cols
  wider : pcm.cols ≤ out.1.cols
  shifted : ∀ c < out.1.cols, ∃ k, ShiftedBy pcm S out k c
  first : ∀ c < pcm.cols, firstRound pcm S c < w →
    out.2.getD c 0 = c ∧ ShiftedBy pcm S out 0 c
  last : ∀ c < pcm.cols, w ≤ firstRound pcm S c →
    out.2.getD (out.1.cols - pcm.cols + c) 0 = c ∧
      ShiftedBy pcm S out (n - pcm.rows / S) (out.1.cols - pcm.cols + c)

/-- The matrix repeats from round `f` to round `w`: its columns begin in whole rounds, those that begin in
round `w` or later end there too, and those that go on below round `w`, or below round `f` where they
begin, go on as if rounds had been inserted. -/
structure RepeatsRounds (pcm : Tensor) (S n f w : Nat) : Prop where
  rows : n * S ≤ 2 ^ 32
  begins : ∀ c < pcm.cols, columnRows pcm c ≠ [] ∧ firstRound pcm S c < pcm.rows / S
  ends : ∀ c < pcm.cols, w ≤ firstRound pcm S c → lastRound pcm S c < pcm.rows / S
  last : Adjacent (touching pcm S w (pcm.rows / S - 1))
  aligned : 0 < n - pcm.rows / S → Aligned pcm S f w
  kept : ∀ c < pcm.cols, firstRound pcm S c < w → ∀ t, ∀ i < S,
    cell pcm ((w + t) * S + i) c = goesOn pcm S w (n - pcm.rows / S) t i c
  inserted : ∀ j < insertedColumns pcm S w, ∀ d, 1 ≤ d → d ≤ n - pcm.rows / S → ∀ t, ∀ i < S,
    cell pcm ((f + t) * S + i) (nextColumn pcm S f + j) =
      goesOn pcm S w d t i (begunBefore pcm S w + j)

variable {pcm : Tensor} {S n f w : Nat} {out : Tensor × List Nat}

/-! ## Shifts by rounds -/

theorem shift_row {k v i c : Nat} (hi : i < S) :
    (if k * S ≤ v * S + i then cell pcm (v * S + i - k * S) c else 0) =
      if k ≤ v then cell pcm ((v - k) * S + i) c else 0 := by
  by_cases hle : k ≤ v
  · have hmul : k * S ≤ v * S := Nat.mul_le_mul_right S hle
    rw [if_pos hle, if_pos (by omega), Nat.sub_mul, Nat.sub_add_comm hmul]
  · have hmul : (v + 1) * S ≤ k * S := Nat.mul_le_mul_right S (by omega)
    rw [Nat.succ_mul] at hmul
    rw [if_neg hle, if_neg (by omega)]

theorem ShiftedBy.round {k c : Nat} (h : ShiftedBy pcm S out k c) {v i : Nat} (hi : i < S)
    (hr : v * S + i < out.1.rows) : out.1.entry (v * S + i) c =
      if k ≤ v then cell pcm ((v - k) * S + i) (out.2.getD c 0) else 0 := by
  rw [h.entry _ hr, shift_row hi]

theorem entry_of_rounds {k c s : Nat} (hS : 0 < S)
    (h : ∀ v, ∀ i < S, v * S + i < out.1.rows → out.1.entry (v * S + i) c =
      if k ≤ v then cell pcm ((v - k) * S + i) s else 0) :
    ∀ r < out.1.rows, out.1.entry r c = if k * S ≤ r then cell pcm (r - k * S) s else 0 := by
  intro r hr
  have hsplit := Nat.div_add_mod' r S
  have hi := Nat.mod_lt r hS
  rw [← hsplit, h _ _ hi (by rwa [hsplit]), shift_row hi]

/-- Going on below copies that came before is going on with fewer copies to come. -/
theorem goesOn_add {d q t i c : Nat} (hq : q ≤ d) :
    goesOn pcm S w d (q + t) i (c + q * insertedColumns pcm S w) = goesOn pcm S w (d - q) t i c := by
  obtain ⟨m, hm⟩ : ∃ m, min t (d - q) = m := ⟨_, rfl⟩
  have hmin : min (q + t) d = q + m := by omega
  have hround : w + (q + t) - (q + m) = w + t - m := by omega
  rw [goesOn, goesOn, hm, hmin, hround, Nat.add_mul]
  generalize q * insertedColumns pcm S w = a
  generalize m * insertedColumns pcm S w = b
  have hiff : a + b ≤ c + a ↔ b ≤ c := by omega
  have hcol : c + a - (a + b) = c - b := by omega
  rw [hcol]
  simp only [hiff]

theorem wholeCell_of_lt {r c : Nat} (hm : pcm.Binary) (hc : lastRound pcm S c < pcm.rows / S)
    (hS : 0 < S) : wholeCell pcm S r c = cell pcm r c := by
  unfold wholeCell
  split
  · rfl
  · next hr =>
    by_contra hne
    have hle := (round_of_cell (S := S) hm (Ne.symm hne)).2.2.2.2
    have := (Nat.le_div_iff_mul_le hS).mpr (not_lt.mp hr)
    omega

theorem row_lt {v i m : Nat} (hi : i < S) (hv : v < m) : v * S + i < m * S := by
  have : (v + 1) * S ≤ m * S := Nat.mul_le_mul_right S hv
  rw [Nat.succ_mul] at this
  omega

theorem cell_before (hm : pcm.Binary) {v i c : Nat} (hi : i < S)
    (hc : c < pcm.cols → v < firstRound pcm S c) : cell pcm (v * S + i) c = 0 := by
  by_contra hne
  obtain ⟨hlt, -, -, hround, -⟩ := round_of_cell (S := S) hm hne
  rw [round_of_row hi] at hround
  have := hc hlt
  omega

/-! ## The column list -/

theorem getD_flatten_replicate (l : List Nat) {n k j : Nat} (hk : k < n) (hj : j < l.length)
    (d : Nat) : (List.replicate n l).flatten.getD (k * l.length + j) d = l.getD j d := by
  induction n generalizing k with
  | zero => omega
  | succ n ih =>
    rw [List.replicate_succ, List.flatten_cons, getD_append_ite]
    cases k with
    | zero =>
      rw [Nat.zero_mul, Nat.zero_add, if_pos hj]
    | succ k =>
      rw [if_neg (by rw [Nat.succ_mul]; omega), ← ih (by omega : k < n)]
      congr 1
      rw [Nat.succ_mul]
      omega

section Repeated

variable (h : Repeated pcm S n f w out)

include h

/-- The columns that begin before round `w`. -/
theorem Repeated.list_first {c : Nat} (hc : c < begunBefore pcm S w) : out.2.getD c 0 = c := by
  rw [h.list, List.append_assoc, getD_append_ite, List.length_range, if_pos hc,
    List.getD_eq_getElem _ _ (by rwa [List.length_range]), List.getElem_range]

/-- The columns of a copy. -/
theorem Repeated.list_copy {q j : Nat} (hq : q < n - pcm.rows / S) (hj : j < insertedColumns pcm S w) :
    begunBefore pcm S w + j + q * insertedColumns pcm S w < out.1.cols ∧
      out.2.getD (begunBefore pcm S w + j + q * insertedColumns pcm S w) 0 =
        nextColumn pcm S f + j := by
  have hlen : (List.range' (nextColumn pcm S f) (insertedColumns pcm S w)).length =
      insertedColumns pcm S w := List.length_range'
  have hflat : (List.replicate (n - pcm.rows / S) (List.range' (nextColumn pcm S f)
      (insertedColumns pcm S w))).flatten.length =
        (n - pcm.rows / S) * insertedColumns pcm S w := by
    simp
  have hmul := Nat.mul_le_mul_right (insertedColumns pcm S w) hq
  rw [Nat.succ_mul] at hmul
  have hB := begunBefore_le pcm S w
  refine ⟨by rw [h.cols, Nat.mul_comm (insertedColumns pcm S w)]; omega, ?_⟩
  have hpos : begunBefore pcm S w + j + q * insertedColumns pcm S w - begunBefore pcm S w =
      q * insertedColumns pcm S w + j := by omega
  have hget := getD_flatten_replicate (List.range' (nextColumn pcm S f) (insertedColumns pcm S w)) hq
    (hlen.symm ▸ hj) 0
  rw [hlen] at hget
  rw [h.list, List.append_assoc, getD_append_ite, List.length_range, if_neg (by omega), hpos,
    getD_append_ite, hflat, if_pos (by omega), hget, List.getD_eq_getElem _ _ (by omega),
    List.getElem_range', Nat.one_mul]

/-- The columns that begin in round `w` or later. -/
theorem Repeated.list_last {c : Nat} (hc : begunBefore pcm S w ≤ c) (hlt : c < pcm.cols) :
    out.2.getD (insertedColumns pcm S w * (n - pcm.rows / S) + c) 0 = c := by
  have hflat : (List.replicate (n - pcm.rows / S) (List.range' (nextColumn pcm S f)
      (insertedColumns pcm S w))).flatten.length =
        insertedColumns pcm S w * (n - pcm.rows / S) := by
    simp [Nat.mul_comm]
  rw [h.list, getD_append_ite, List.length_append, List.length_range, hflat, if_neg (by omega),
    List.getD_eq_getElem _ _ (by rw [List.length_range']; omega), List.getElem_range']
  omega

/-- A row that is moved down stays in the matrix. -/
theorem Repeated.row_fits {k r : Nat} (hk : k ≤ n - pcm.rows / S) (hr : r < pcm.rows) :
    r + k * S < out.1.rows := by
  have hmul := Nat.mul_le_mul_right S hk
  rw [h.rows, Nat.mul_comm S]
  omega

/-- The rows of the `n` rounds are in the matrix, and those beyond show nothing. -/
theorem Repeated.row_cases (hn : pcm.rows / S ≤ n) {v i : Nat} (hi : i < S) :
    (v < n → v * S + i < out.1.rows) ∧ (out.1.rows ≤ v * S + i → n ≤ v) := by
  have hrows := h.rows
  have hwhole := Nat.div_mul_le_self pcm.rows S
  have hsum : pcm.rows / S * S + S * (n - pcm.rows / S) = n * S := by
    rw [Nat.mul_comm S, ← Nat.add_mul, Nat.add_sub_cancel' hn]
  have hlt : v < n → v * S + i < out.1.rows := by
    intro hv
    have := row_lt hi hv
    omega
  exact ⟨hlt, fun hle => not_lt.mp fun hv => absurd (hlt hv) (not_lt.mpr hle)⟩

end Repeated

/-! ## Columns that are moved down whole -/

section Shifts

variable (hs : SortedColumns pcm S) (h : Repeated pcm S n f w out)
  (hafter : ∀ i < S, ∀ c, begunBefore pcm S w + insertedColumns pcm S w ≤ c →
    cell pcm (w * S + i) c = 0)

include hs h

/-- The first columns stay where they are, if they go on below round `w` as is pasted there. -/
theorem Repeated.shifted_first {c : Nat} (hc : c < begunBefore pcm S w)
    (hkept : ∀ t, ∀ i < S, cell pcm ((w + t) * S + i) c = goesOn pcm S w (n - pcm.rows / S) t i c) :
    ShiftedBy pcm S out 0 c := by
  have hlist := h.list_first hc
  have hB := begunBefore_le pcm S w
  refine ⟨by rw [hlist]; omega, ?_, fun r hr _ => h.row_fits (Nat.zero_le _) hr⟩
  rw [hlist]
  apply entry_of_rounds hs.pos
  intro v i hi hr
  rw [h.entry v i hi hr c (by rw [h.cols]; omega), if_pos (Nat.zero_le v), Nat.sub_zero]
  split
  · rfl
  · rw [← hkept (v - w) i hi, Nat.add_sub_cancel' (by omega)]

section

include hafter

/-- Above the copy that a column begins in nothing is set. -/
theorem Repeated.entry_above {q v i c : Nat} (hq : q ≤ n - pcm.rows / S) (hv : v < w + q) (hi : i < S)
    (hr : v * S + i < out.1.rows) (hc : begunBefore pcm S w + q * insertedColumns pcm S w ≤ c)
    (hlt : c < out.1.cols) : out.1.entry (v * S + i) c = 0 := by
  rw [h.entry v i hi hr c hlt]
  by_cases habove : v < w
  · rw [if_pos habove]
    apply cell_before hs.binary hi
    intro hcols
    have := (hs.lt_begunBefore_iff (w := w) hcols).not.mp (by omega)
    omega
  · have hmul : (v - w + 1) * insertedColumns pcm S w ≤ q * insertedColumns pcm S w :=
      Nat.mul_le_mul_right _ (by omega)
    rw [Nat.succ_mul] at hmul
    rw [if_neg habove, goesOn, min_eq_left (by omega), Nat.add_sub_cancel, if_pos (by omega), wholeCell,
      hafter i hi _ (by omega), ite_self]

/-- The last columns are moved down by all the rounds that were added. -/
theorem Repeated.shifted_last {c : Nat} (hc : begunBefore pcm S w ≤ c) (hlt : c < pcm.cols)
    (hend : lastRound pcm S c < pcm.rows / S) :
    ShiftedBy pcm S out (n - pcm.rows / S) (insertedColumns pcm S w * (n - pcm.rows / S) + c) := by
  have hlist := h.list_last hc hlt
  refine ⟨by rwa [hlist], ?_, fun r hr _ => h.row_fits (le_refl _) hr⟩
  rw [hlist]
  apply entry_of_rounds hs.pos
  intro v i hi hr
  have hcol : insertedColumns pcm S w * (n - pcm.rows / S) + c < out.1.cols := by
    rw [h.cols]
    omega
  by_cases hbelow : v < w + (n - pcm.rows / S)
  · rw [h.entry_above hs hafter (le_refl _) hbelow hi hr
      (by rw [Nat.mul_comm (n - pcm.rows / S)]; omega) hcol]
    split
    · refine (cell_before hs.binary hi fun _ => ?_).symm
      have := (hs.lt_begunBefore_iff (w := w) hlt).not.mp (by omega)
      omega
    · rfl
  · have hmin : min (v - w) (n - pcm.rows / S) = n - pcm.rows / S := by omega
    have hround : w + (v - w) - (n - pcm.rows / S) = v - (n - pcm.rows / S) := by omega
    rw [h.entry v i hi hr _ hcol, if_neg (by omega), if_pos (by omega), goesOn, hmin, hround,
      Nat.mul_comm (n - pcm.rows / S), if_pos (Nat.le_add_right _ _), Nat.add_sub_cancel_left,
      wholeCell_of_lt hs.binary hend hs.pos]

/-- The columns of a copy are moved down whole, if they go on below round `f` as is pasted there. -/
theorem Repeated.shifted_copy (hn : pcm.rows / S ≤ n) (hmatch : Matched pcm S f w)
    {q j : Nat} (hq : q < n - pcm.rows / S) (hj : j < insertedColumns pcm S w)
    (hbegin : nextColumn pcm S f + j < pcm.cols ∧ firstRound pcm S (nextColumn pcm S f + j) = f)
    (hinserted : ∀ t, ∀ i < S, cell pcm ((f + t) * S + i) (nextColumn pcm S f + j) =
      goesOn pcm S w (n - pcm.rows / S - q) t i (begunBefore pcm S w + j)) :
    ShiftedBy pcm S out (w + q - f) (begunBefore pcm S w + j + q * insertedColumns pcm S w) := by
  have hfw := hmatch.le
  have hlt := hmatch.lt
  obtain ⟨hcol, hlist⟩ := h.list_copy hq hj
  refine ⟨by rw [hlist]; exact hbegin.1, ?_, ?_⟩
  · rw [hlist]
    apply entry_of_rounds hs.pos
    intro v i hi hr
    by_cases habove : v < w + q
    · rw [h.entry_above hs hafter hq.le habove hi hr (by omega) hcol]
      split
      · exact (cell_before hs.binary hi fun _ => by omega).symm
      · rfl
    · obtain ⟨t, rfl⟩ : ∃ t, v = w + (q + t) := ⟨v - (w + q), by omega⟩
      have hround : w + (q + t) - (w + q - f) = f + t := by omega
      rw [h.entry _ i hi hr _ hcol, if_neg (by omega), if_pos (by omega), Nat.add_sub_cancel_left,
        goesOn_add hq.le, hround, hinserted t i hi]
  · -- What is set below is pasted below.
    intro r hr hset
    rw [hlist] at hset
    have hsplit := Nat.div_add_mod' r S
    have hi := Nat.mod_lt r hs.pos
    have hbegun := (round_bounds (S := S) hr hset).1
    rw [hbegin.2] at hbegun
    rw [← cell_of_lt hbegin.1, ← hsplit, ← Nat.add_sub_cancel' hbegun, hinserted _ _ hi] at hset
    have hin : w + (r / S - f) < pcm.rows / S + (n - pcm.rows / S - q) := by
      by_contra hle
      exact hset (goesOn_of_le (not_lt.mp hle) hlt)
    have hrow := (h.row_cases hn hi).1 (show r / S + (w + q - f) < n by omega)
    rw [Nat.add_mul] at hrow
    omega

end

/-- Every column is moved down whole. -/
theorem Repeated.extendsRounds (hn : pcm.rows / S ≤ n) (hmatch : Matched pcm S f w)
    (hrep : RepeatsRounds pcm S n f w) (hne : 0 < n - pcm.rows / S → touching pcm S f f ≠ []) :
    ExtendsRounds pcm S n w out := by
  have hB := begunBefore_le pcm S w
  have hcols := h.cols
  have hpos : out.1.cols - pcm.cols = insertedColumns pcm S w * (n - pcm.rows / S) := by omega
  have hfirst : ∀ c < begunBefore pcm S w, ShiftedBy pcm S out 0 c := by
    intro c hc
    exact h.shifted_first hs hc
      (hrep.kept c (by omega) ((hs.lt_begunBefore_iff (by omega)).mp hc))
  have hlast : ∀ c, begunBefore pcm S w ≤ c → c < pcm.cols →
      ShiftedBy pcm S out (n - pcm.rows / S) (insertedColumns pcm S w * (n - pcm.rows / S) + c) := by
    intro c hc hlt
    have hbegun := (hs.lt_begunBefore_iff (w := w) hlt).not.mp (by omega)
    have hend := hrep.ends c hlt (by omega)
    rcases Nat.eq_zero_or_pos (n - pcm.rows / S) with hzero | hadded
    · have hlist := h.list_last hc hlt
      rw [hzero, Nat.mul_zero, Nat.zero_add] at hlist ⊢
      refine ⟨by rwa [hlist], ?_, fun r hr _ => h.row_fits (Nat.zero_le _) hr⟩
      rw [hlist]
      apply entry_of_rounds hs.pos
      intro v i hi hr
      rw [h.entry v i hi hr c (by rw [hcols]; omega), if_pos (Nat.zero_le v), Nat.sub_zero, hzero, goesOn,
        Nat.min_zero, Nat.zero_mul, if_pos (Nat.zero_le c), Nat.sub_zero, Nat.sub_zero,
        wholeCell_of_lt hs.binary hend hs.pos]
      split
      · rfl
      · rw [Nat.add_sub_cancel' (by omega)]
    · obtain ⟨ov, hnum⟩ := (hrep.aligned hadded).numbered hs hmatch hrep.last (hne hadded)
      exact h.shifted_last hs (fun i hi c hc => hnum.cell_after hs.binary hi hc) hc hlt hend
  refine ⟨?_, ?_, by omega, ?_, ?_, ?_⟩
  · rw [h.rows, Nat.add_mul_div_left _ _ hs.pos]
    exact Nat.add_sub_cancel' hn
  · rw [h.list, hcols, List.length_append, List.length_append, List.length_range, List.length_flatten,
      List.map_replicate, List.sum_replicate, List.length_range', List.length_range', smul_eq_mul,
      Nat.mul_comm]
    omega
  · intro c hc
    by_cases hbefore : c < begunBefore pcm S w
    · exact ⟨0, hfirst c hbefore⟩
    by_cases hafter : begunBefore pcm S w + insertedColumns pcm S w * (n - pcm.rows / S) ≤ c
    · have hsplit : insertedColumns pcm S w * (n - pcm.rows / S) +
          (c - insertedColumns pcm S w * (n - pcm.rows / S)) = c := by omega
      refine ⟨n - pcm.rows / S, ?_⟩
      rw [← hsplit]
      exact hlast _ (by omega) (by omega)
    -- A column of a copy.
    have hin : 0 < insertedColumns pcm S w := by
      apply Nat.pos_of_ne_zero
      intro h0
      rw [h0, Nat.zero_mul] at hafter
      omega
    obtain ⟨q, hq, j, hj, rfl⟩ : ∃ q < n - pcm.rows / S, ∃ j < insertedColumns pcm S w,
        c = begunBefore pcm S w + j + q * insertedColumns pcm S w := by
      have hdiv := Nat.div_add_mod' (c - begunBefore pcm S w) (insertedColumns pcm S w)
      refine ⟨(c - begunBefore pcm S w) / insertedColumns pcm S w, ?_,
        (c - begunBefore pcm S w) % insertedColumns pcm S w, Nat.mod_lt _ hin, by omega⟩
      rw [Nat.div_lt_iff_lt_mul hin, Nat.mul_comm]
      omega
    have hadded : 0 < n - pcm.rows / S := by omega
    obtain ⟨ov, hnum⟩ := (hrep.aligned hadded).numbered hs hmatch hrep.last (hne hadded)
    exact ⟨w + q - f, h.shifted_copy hs (fun i hi c hc => hnum.cell_after hs.binary hi hc) hn hmatch hq hj
      (hnum.begins hmatch.one_le hj) (hrep.inserted j hj _ (by omega) (by omega))⟩
  · intro c hc hround
    have hbefore := (hs.lt_begunBefore_iff hc).mpr hround
    exact ⟨h.list_first hbefore, hfirst c hbefore⟩
  · intro c hc hround
    have hafter : begunBefore pcm S w ≤ c :=
      not_lt.mp ((hs.lt_begunBefore_iff hc).not.mpr (not_lt.mpr hround))
    rw [hpos]
    exact ⟨h.list_last hafter hc, hlast c hafter hc⟩

end Shifts

end CudaqQec
