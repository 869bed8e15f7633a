import CudaqQec.Dem.ExtendSpec

/-!
# Only rounds that repeat

What the matrix is like, if it was extended by whole columns: no column is empty, the columns of the
rounds that are pasted are next to each other, for the column list is as long as the new matrix is wide,
and what is pasted below a column is how it goes on.
-/

namespace CudaqQec

open Checked Traps

variable {pcm : Tensor} {S n f w ov ins : Nat} {out : Tensor × List Nat}

/-! ## Columns that were moved down whole -/

section Repeated

variable (hs : SortedColumns pcm S) (h : Repeated pcm S n f w out) (hmatch : Matched pcm S f w)
  (hn : pcm.rows / S ≤ n) (hext : ExtendsRounds pcm S n w out)

include h hs hmatch hn hext

/-- The first columns go on below round `w` as is pasted there. -/
theorem Repeated.kept {c : Nat} (hc : c < pcm.cols) (hround : firstRound pcm S c < w) (t : Nat) {i : Nat}
    (hi : i < S) : cell pcm ((w + t) * S + i) c = goesOn pcm S w (n - pcm.rows / S) t i c := by
  have hlt := hmatch.lt
  obtain ⟨hlist, hshift⟩ := hext.first c hc hround
  by_cases hr : (w + t) * S + i < out.1.rows
  · have hentry := hshift.round hi hr
    rw [h.entry _ i hi hr c (by have := hext.wider; omega), if_neg (by omega), if_pos (Nat.zero_le _),
      Nat.add_sub_cancel_left, Nat.sub_zero, hlist] at hentry
    exact hentry.symm
  · have hrows := h.rows
    rw [cell_of_rows_le hs.binary (by omega), goesOn_of_le _ hlt]
    have := (h.row_cases hn hi).2 (not_lt.mp hr)
    omega

/-- The columns that begin in round `f` go on below it as is pasted there. -/
theorem Repeated.inserted {cf cw k : Nat} (hnum : Numbered pcm S f w cf cw k ov) {j d t i : Nat}
    (hj : j < insertedColumns pcm S w) (hd : 1 ≤ d) (hdn : d ≤ n - pcm.rows / S) (hi : i < S) :
    cell pcm ((f + t) * S + i) (nextColumn pcm S f + j) =
      goesOn pcm S w d t i (begunBefore pcm S w + j) := by
  have hm := hs.binary
  have hfw := hmatch.le
  have hlt := hmatch.lt
  obtain ⟨q, hq⟩ : ∃ q, n - pcm.rows / S - d = q := ⟨_, rfl⟩
  have hq' : n - pcm.rows / S - q = d := by omega
  obtain ⟨hcol, hlist⟩ := h.list_copy (q := q) (by omega) hj
  obtain ⟨k', hshift⟩ := hext.shifted _ hcol
  obtain ⟨hsource, hbegin⟩ := hnum.begins hmatch.one_le hj
  have hround : ∀ {v i : Nat}, i < S → v * S + i < out.1.rows → _ := @hshift.round
  have hfits := hshift.fits
  rw [hlist] at hround hfits
  have hgo : ∀ t, ∀ i < S, (w + (q + t)) * S + i < out.1.rows →
      out.1.entry ((w + (q + t)) * S + i) (begunBefore pcm S w + j + q * insertedColumns pcm S w) =
        goesOn pcm S w d t i (begunBefore pcm S w + j) := by
    intro t i hi hr
    rw [h.entry _ i hi hr _ hcol, if_neg (by omega), Nat.add_sub_cancel_left, goesOn_add (by omega), hq']
  -- A row that both show first says by how much the column was moved.
  obtain ⟨⟨i₀, hi₀, hset⟩, -⟩ := exists_cell hsource (hs.nonzero _ hsource) hs.pos
  rw [hbegin] at hset
  have hk : k' = w + q - f := by
    apply le_antisymm
    · have hr := (h.row_cases hn hi₀).1 (show w + (q + 0) < n by omega)
      have hshown : goesOn pcm S w d 0 i₀ (begunBefore pcm S w + j) ≠ 0 := by
        have hcell := hnum.cell_eq hmatch hm hi₀ (ov + j)
        rw [← Nat.add_assoc, ← Nat.add_assoc, ← hnum.next, ← hnum.begun] at hcell
        rw [goesOn, Nat.zero_min, Nat.zero_mul, if_pos (Nat.zero_le _), Nat.add_zero, Nat.sub_zero,
          Nat.sub_zero, wholeCell, if_pos (row_lt hi₀ hlt), ← hcell]
        exact hset
      rw [← hgo 0 i₀ hi₀ hr, hround hi₀ hr] at hshown
      split at hshown
      · obtain ⟨-, -, -, hfirst, -⟩ := round_of_cell (S := S) hm hshown
        rw [round_of_row hi₀, hbegin] at hfirst
        omega
      · exact absurd rfl hshown
    · by_contra hearly
      have hrow := (round_of_cell (S := S) hm hset).2.1
      have hsum : f * S + i₀ + k' * S = (f + k') * S + i₀ := by
        rw [Nat.add_mul]
        omega
      have hr := hfits _ hrow (by rwa [← cell_of_lt hsource])
      rw [hsum] at hr
      have hmoved := hround hi₀ hr
      rw [if_pos (Nat.le_add_left _ _), Nat.add_sub_cancel,
        h.entry_above hs (fun i hi c hc => hnum.cell_after hm hi hc) (q := q) (by omega) (by omega) hi₀ hr
          (by omega) hcol] at hmoved
      exact hset hmoved.symm
  have hsum : f + t + (w + q - f) = w + (q + t) := by omega
  by_cases hr : (w + (q + t)) * S + i < out.1.rows
  · have hentry := hround hi hr
    have hback : w + (q + t) - k' = f + t := by omega
    rw [hgo t i hi hr, if_pos (by omega), hback] at hentry
    exact hentry.symm
  · have hend := (h.row_cases hn hi).2 (not_lt.mp hr)
    rw [goesOn_of_le (by omega) hlt]
    by_contra hne
    have hrow := (round_of_cell (S := S) hm hne).2.1
    rw [cell_of_lt hsource] at hne
    have hfit := hfits _ hrow hne
    rw [hk, show (f + t) * S + i + (w + q - f) * S = (w + (q + t)) * S + i by
      rw [← hsum, Nat.add_mul (f + t)]; omega] at hfit
    exact hr hfit

end Repeated

/-! ## Numbers of columns -/

theorem sub32_of_lt {m n : Nat} (h : m < n) : sub32 m n = 2 ^ 32 + m - n :=
  Nat.mod_eq_of_lt (by omega)

theorem u32_sizeT_sub (m : Nat) {n : Nat} (h : n ≤ 2 ^ 32) : u32 (sizeT ((m : Int) - n)) = sub32 m n := by
  have := h
  rw [sizeT, sub32, u32, u32]
  split <;> omega

/-- How many numbers between the first and the last of a list are not in it. -/
def skipped (l : List Nat) : Nat := l.getLastD 0 + 1 - l.headD 0 - l.length

/-- How the columns are numbered when the column list is as long as the new matrix is wide. The rounds
that are inserted have `k` columns, from `cf` to `lf`, and `g` is the first that the round before does
not have; the last rounds have columns from `cL` to `lL`. -/
theorem numbers_of_length {N d k cf lf g cL lL B ov ins cols : Nat} (hd : 0 < d) (hN : N < 2 ^ 32)
    (hwide : N + d * (lf + 1 - cf - k) < 2 ^ 32) (hspan : cf + k ≤ lf + 1) (hlf : lf < N)
    (hgf : g ≤ lf + 1) (hcl : cf ≤ cL) (hclB : cL ≤ B) (hB : B ≤ N) (hclL : cL ≤ lL) (hlL : lL < N)
    (hlast : B < N → lL + 1 = N) (hov : ov = sub32 (u32 g) cf) (hins : ins = sub32 k ov)
    (hcols : cols = u32 (N + ins * d)) (hwider : N ≤ cols)
    (hlen : B + d * (lf + 1 - u32 (cf + ov)) + (lL + 1 - u32 (cL + ov)) = cols)
    (hrest : B < N → u32 (cL + ov) ≤ B) :
    lf + 1 = cf + k ∧ g = cf + ov ∧ ov ≤ k ∧ ins = k - ov ∧ cols = N + ins * d ∧
      (B < N → B = cL + ov) ∧ (B = N → lL + 1 ≤ cL + ov) := by
  have h32 : cols < 2 ^ 32 := hcols ▸ u32_lt _
  rw [u32_of_lt (by omega)] at hov
  have hfirst : u32 (cf + ov) = g := by
    rw [hov, sub32, u32_add', u32]
    omega
  rw [hfirst] at hlen
  -- As many columns are added as numbers are listed, if those that are inserted are listed.
  have hsum : ins ≤ lf + 1 - g → cols = N + ins * d := by
    intro hle
    have hmul : ins * d ≤ d * (lf + 1 - g) := by
      rw [Nat.mul_comm]
      exact Nat.mul_le_mul_left d hle
    clear hrest hlast
    rw [u32] at hcols
    omega
  rcases Nat.lt_or_ge g cf with hback | hle
  · -- Columns that end before the round would be inserted with it: too many are listed.
    rw [sub32_of_lt hback] at hov
    have hins' : ins = k + (cf - g) := by
      rw [hins, hov, sub32, u32]
      omega
    have hrest' : u32 (cL + ov) = cL - (cf - g) := by
      rw [hov, u32]
      omega
    have hmul : ins * d ≤ d * (lf + 1 - g) := by
      rw [Nat.mul_comm]
      exact Nat.mul_le_mul_left d (by omega)
    have := hsum (by omega)
    omega
  rw [sub32_of_le hle (by omega)] at hov
  have hover : u32 (cL + ov) = cL + ov ∨ u32 (cL + ov) + 2 ^ 32 = cL + ov := by
    rw [u32]
    omega
  rcases Nat.lt_or_ge k ov with hmore | hin
  · -- The copies would be moved to the left: too few columns are listed.
    have hins' : ins = 2 ^ 32 - (ov - k) := by
      rw [hins, sub32_of_lt hmore]
      omega
    have hlist : d * (lf + 1 - g) + d * (ov - k) = d * (lf + 1 - cf - k) := by
      rw [← Nat.mul_add]
      congr 1
      omega
    have hpos : 0 < d * (ov - k) := Nat.mul_pos hd (by omega)
    have hprod : ins * d + d * (ov - k) = 2 ^ 32 * d := by
      rw [Nat.mul_comm d, ← Nat.add_mul, hins']
      congr 1
      omega
    have htail : lL + 1 - u32 (cL + ov) ≤ N := by omega
    obtain ⟨d, rfl⟩ : ∃ d', d = d' + 1 := ⟨d - 1, by omega⟩
    clear hover hrest hlast hsum
    rw [u32] at hcols
    rcases Nat.lt_or_ge N ((d + 1) * (ov - k)) with hwrap | hkeep
    · have hsum : N + ins * (d + 1) = 2 ^ 32 + N - (d + 1) * (ov - k) + 2 ^ 32 * d := by omega
      rw [hsum, Nat.add_mul_mod_self_left, Nat.mod_eq_of_lt (by omega)] at hcols
      omega
    · have hsum : N + ins * (d + 1) = N - (d + 1) * (ov - k) + 2 ^ 32 * (d + 1) := by omega
      rw [hsum, Nat.add_mul_mod_self_left, Nat.mod_eq_of_lt (by omega)] at hcols
      omega
  · have hins' : ins = k - ov := by
      rw [hins, sub32_of_le hin (by omega)]
    have hcols' := hsum (by omega)
    have hsplit : d * (lf + 1 - g) = ins * d + d * (lf + 1 - (cf + k)) := by
      rw [Nat.mul_comm ins, ← Nat.mul_add]
      congr 1
      omega
    have hgap : lf + 1 - (cf + k) ≤ d * (lf + 1 - (cf + k)) := Nat.le_mul_of_pos_left _ hd
    refine ⟨?_, by omega, hin, hins', hcols', ?_, ?_⟩ <;> omega

/-! ## Columns in whole rounds -/

section Layout

variable (hm : pcm.Binary) (hS : 0 < S) (hsorted : orderOfDense pcm S = List.range pcm.cols)
  (hmatch : Matched pcm S f w) (hn : pcm.rows / S ≤ n) (h : Layout pcm S n f w ov ins out)
  (hext : ExtendsRounds pcm S n w out)

include hm hS hsorted hmatch h hext

omit hn in
/-- No column is empty: an empty column would come first, where a column of the first rounds is
pasted. -/
theorem Layout.sorted : SortedColumns pcm S := by
  have hlt := hmatch.lt
  refine ⟨hm, hS, hsorted, ?_⟩
  intro c hc hempty
  have hzero : columnRows pcm 0 = [] := by
    rcases Nat.eq_zero_or_pos c with rfl | hpos
    · exact hempty
    · exact columnRows_eq_nil_of_lt hm hsorted hpos hc hempty
  have hfirst0 : firstRound pcm S 0 = 0 := by
    rw [firstRound, hzero]
    exact Nat.zero_div S
  have hone := hmatch.one_le
  have hle := hmatch.le
  have hcols := hext.wider
  obtain ⟨hlist, hshift⟩ := hext.first 0 (by omega) (by omega)
  -- The first column that is pasted sets a row.
  obtain ⟨hc', hne, hfirst, -⟩ := mem_touching.mp (headD_mem h.begun)
  obtain ⟨⟨i, hi, hset⟩, -⟩ := exists_cell hc' hne hS
  have hr : firstRound pcm S ((touching pcm S 0 (w - 1)).headD 0) * S + i < out.1.rows := by
    have := row_lt hi (show firstRound pcm S ((touching pcm S 0 (w - 1)).headD 0) < pcm.rows / S by omega)
    have := Nat.div_mul_le_self pcm.rows S
    rw [h.rows]
    omega
  have hpos := List.length_pos_iff.mpr h.begun
  have hblock := entry_block hi (p := 0) (q := w - 1)
    (v := firstRound pcm S ((touching pcm S 0 (w - 1)).headD 0)) (by omega) hpos
  have hget : (touching pcm S 0 (w - 1)).getD 0 0 = (touching pcm S 0 (w - 1)).headD 0 := by
    cases touching pcm S 0 (w - 1) <;> rfl
  have habove := h.above (firstRound pcm S ((touching pcm S 0 (w - 1)).headD 0)) (by omega) i hi 0
    (by omega)
  rw [shown, cols_block, Nat.zero_add, if_pos ⟨le_refl 0, hpos⟩, Nat.sub_zero, hblock, hget,
    Nat.zero_add, hshift.round hi hr, if_pos (Nat.zero_le _), hlist, Nat.sub_zero] at habove
  rw [← habove] at hset
  exact (round_of_cell (S := S) hm hset).2.2.1 hzero

omit hsorted hmatch in
include hn in
/-- The columns that begin in round `w` or later end in whole rounds: no other rounds are pasted. -/
theorem Layout.ends_whole {c : Nat} (hc : c < pcm.cols) (hne : columnRows pcm c ≠ [])
    (hround : w ≤ firstRound pcm S c ∨ n = pcm.rows / S) : lastRound pcm S c < pcm.rows / S := by
  obtain ⟨-, ⟨i, hi, hset⟩⟩ := exists_cell hc hne hS
  have hcols := hext.wider
  obtain ⟨x, hx, hlist, hshift⟩ : ∃ x < out.1.cols, out.2.getD x 0 = c ∧
      ShiftedBy pcm S out (n - pcm.rows / S) x := by
    by_cases hlate : w ≤ firstRound pcm S c
    · exact ⟨_, by omega, hext.last c hc hlate⟩
    · obtain ⟨hlist, hshift⟩ := hext.first c hc (not_le.mp hlate)
      rw [hround.resolve_left hlate, Nat.sub_self]
      exact ⟨c, by omega, hlist, hshift⟩
  have hrow := (round_of_cell (S := S) hm hset).2.1
  have hfit := hshift.fits _ hrow (by rwa [hlist, ← cell_of_lt hc])
  have hsum : lastRound pcm S c * S + i + (n - pcm.rows / S) * S =
      (lastRound pcm S c + (n - pcm.rows / S)) * S + i := by
    rw [Nat.add_mul]
    omega
  rw [hsum] at hfit
  have hmoved := hshift.round hi hfit
  rw [if_pos (Nat.le_add_left _ _), Nat.add_sub_cancel, hlist] at hmoved
  by_contra hle
  have hlow : n * S ≤ (lastRound pcm S c + (n - pcm.rows / S)) * S := Nat.mul_le_mul_right S (by omega)
  rw [h.rest _ hfit (by omega) x hx] at hmoved
  exact hset hmoved.symm

include hn in
theorem Layout.begins_whole {c : Nat} (hc : c < pcm.cols) : firstRound pcm S c < pcm.rows / S := by
  have hs := h.sorted hm hS hsorted hmatch hext
  have hlt := hmatch.lt
  by_contra hle
  have hend := h.ends_whole hm hS hn hext hc (hs.nonzero c hc) (.inl (by omega))
  have := firstRound_le_lastRound (S := S) (hs.nonzero c hc)
  omega

end Layout

/-! ## Columns that are next to each other -/

section Layout

variable (hs : SortedColumns pcm S) (h : Layout pcm S n f w ov ins out)
  (hext : ExtendsRounds pcm S n w out)

include hs h hext

omit hs in
/-- Where the end is pasted. -/
theorem Layout.end_start : u32 (sizeT ((out.1.cols : Int) - ((pcm.cols : Int) -
    (touching pcm S w (pcm.rows / S - 1)).headD 0))) =
      (touching pcm S w (pcm.rows / S - 1)).headD 0 + (out.1.cols - pcm.cols) := by
  have hc := (mem_touching.mp (headD_mem h.ended)).1
  have hwider := hext.wider
  have h32 : out.1.cols < 2 ^ 32 := h.cols ▸ u32_lt _
  have hcast : ((out.1.cols : Int) - ((pcm.cols : Int) -
      (touching pcm S w (pcm.rows / S - 1)).headD 0)) =
        (((touching pcm S w (pcm.rows / S - 1)).headD 0 + (out.1.cols - pcm.cols) : Nat) : Int) := by
    omega
  rw [hcast, sizeT_natCast, u32_of_lt (by omega)]

/-- If the last column that has to do with the last rounds is moved down with them, what is pasted reaches
as far, so those columns have no gap. -/
theorem Layout.adjacent_of_shifted
    (hwhole : lastRound pcm S ((touching pcm S w (pcm.rows / S - 1)).getLastD 0) < pcm.rows / S)
    (hshift : out.2.getD (out.1.cols - pcm.cols + (touching pcm S w (pcm.rows / S - 1)).getLastD 0) 0 =
        (touching pcm S w (pcm.rows / S - 1)).getLastD 0 ∧
      ShiftedBy pcm S out (n - pcm.rows / S)
        (out.1.cols - pcm.cols + (touching pcm S w (pcm.rows / S - 1)).getLastD 0)) :
    Adjacent (touching pcm S w (pcm.rows / S - 1)) := by
  refine (span_of_increasing (pairwise_touching _ _) h.ended).2 ?_
  obtain ⟨hc, hne, -, hround⟩ := mem_touching.mp (getLastD_mem h.ended)
  obtain ⟨hlist, hshift⟩ := hshift
  generalize (touching pcm S w (pcm.rows / S - 1)).getLastD 0 = c at *
  obtain ⟨-, ⟨i, hi, hset⟩⟩ := exists_cell hc hne hs.pos
  have hwider := hext.wider
  obtain ⟨v, hv⟩ : ∃ v, lastRound pcm S c = w + v := ⟨_, (Nat.add_sub_cancel' hround).symm⟩
  rw [hv] at hset hwhole
  have hsum : w + (n - pcm.rows / S) + v - (n - pcm.rows / S) = w + v := by omega
  have hr : (w + (n - pcm.rows / S) + v) * S + i < out.1.rows := by
    have hrow := row_lt hi (show w + (n - pcm.rows / S) + v < pcm.rows / S + (n - pcm.rows / S) by omega)
    have := Nat.div_mul_le_self pcm.rows S
    rw [Nat.add_mul (pcm.rows / S)] at hrow
    rw [h.rows, Nat.mul_comm S]
    omega
  have hmoved := hshift.round hi hr
  rw [if_pos (by omega), hlist, hsum, h.below v hwhole i hi _ (by omega), shown, cols_block] at hmoved
  split at hmoved
  · next hin =>
    rw [h.end_start hext] at hin
    omega
  · exact absurd hmoved.symm hset

end Layout

section Layout

variable (hs : SortedColumns pcm S) (hbegin : ∀ c < pcm.cols, firstRound pcm S c < pcm.rows / S)
  (hmatch : Matched pcm S f w) (h : Layout pcm S n f w ov ins out)
  (hext : ExtendsRounds pcm S n w out) (hd : 0 < n - pcm.rows / S)

include hs hbegin hmatch h hext hd

omit hbegin hext hs hmatch in
/-- The columns that are listed for a copy follow the last one of the round before. -/
theorem Layout.copied_from (hN : pcm.cols < 2 ^ 32) (hprev : touching pcm S (f - 1) (f - 1) ≠ []) :
    u32 ((touching pcm S f f).headD uint32Max + ov) = nextColumn pcm S f := by
  have hc := (mem_touching.mp (headD_mem (h.copied hd))).1
  have hg := (mem_touching.mp (getLastD_mem hprev)).1
  rw [headD_of_ne (h.copied hd), h.overlap hd, nextColumn,
    u32_of_lt (by omega : (touching pcm S (f - 1) (f - 1)).getLastD 0 + 1 < 2 ^ 32), sub32, u32_add', u32,
    ← Nat.add_sub_assoc (by omega), Nat.add_sub_cancel_left, Nat.add_comm, Nat.add_mod_right]
  exact Nat.mod_eq_of_lt (by omega)

/-- The columns that are listed after the copies begin no later than the last rounds. -/
theorem Layout.list_rest (hlate : begunBefore pcm S w < pcm.cols) :
    u32 ((touching pcm S w (pcm.rows / S - 1)).headD 0 + ov) ≤ begunBefore pcm S w := by
  obtain ⟨-, -, -, hfirst, hend, -⟩ := h.ends hs hbegin hmatch
  have hlen := hmatch.length_eq
  have hfw := hmatch.le
  have hlt := hmatch.lt
  have hne := h.copied hd
  have hcopied := h.copied_from hd hs.binary.cols_lt (touching_ne_of_length hlen.2 hne)
  have hround := (hs.lt_begunBefore_iff (w := w) hlate).not.mp (lt_irrefl _)
  have hwider := hext.wider
  have hget := (hext.last _ hlate (not_lt.mp hround)).1
  have hlength := h.length
  rw [h.list, hfirst, hcopied] at hget hlength
  by_contra hgt
  have hgt := not_le.mp hgt
  rw [List.length_append, length_columnsFrom, hend hlate, List.length_append, List.length_range]
    at hlength
  rw [getD_append_ite, List.length_append, List.length_range, if_pos (by omega), getD_append_ite,
    List.length_range, if_neg (by omega)] at hget
  -- The first of the last columns would be listed for a copy, and begin in round `f`.
  have hmem : begunBefore pcm S w ∈
      columnsFrom (nextColumn pcm S f) ((touching pcm S f f).getLastD 0) := by
    rw [List.getD_eq_getElem _ _ (by omega)] at hget
    obtain ⟨l, hl, hin⟩ := List.mem_flatten.mp (hget ▸ List.getElem_mem _)
    rwa [(List.mem_replicate.mp hl).2] at hin
  rw [columnsFrom, List.mem_range'_1] at hmem
  obtain ⟨hc, -, hbegun, -⟩ := mem_touching.mp (getLastD_mem hne)
  have hmono := hs.firstRound_mono (by omega : begunBefore pcm S w ≤ (touching pcm S f f).getLastD 0) hc
  obtain rfl : f = w := by omega
  rw [hs.headD_touching (by omega) hne] at hgt
  rw [headD_of_ne hne] at hcopied
  omega

/-- The columns of the rounds that are pasted, in numbers. -/
theorem Layout.lengths (hwide : pcm.cols + (n - pcm.rows / S) * skipped (touching pcm S f f) < 2 ^ 32) :
    Adjacent (touching pcm S f f) ∧ nextColumn pcm S f = (touching pcm S f f).headD 0 + ov ∧
      ov ≤ (touching pcm S f f).length ∧ ins = (touching pcm S f f).length - ov ∧
      out.1.cols = pcm.cols + ins * (n - pcm.rows / S) ∧
      (begunBefore pcm S w < pcm.cols →
        begunBefore pcm S w = (touching pcm S w w).headD 0 + ov) ∧
      (begunBefore pcm S w = pcm.cols → (touching pcm S w (pcm.rows / S - 1)).getLastD 0 + 1 ≤
        (touching pcm S w w).headD 0 + ov) := by
  obtain ⟨-, -, hcols, hfirst, hend, hlast⟩ := h.ends hs hbegin hmatch
  have hfw := hmatch.le
  have hlt := hmatch.lt
  have hne := h.copied hd
  obtain ⟨hlen, hlen'⟩ := hmatch.length_eq
  have hnew := touching_ne_of_length hlen hne
  have hcl := hs.headD_touching (by omega : w ≤ pcm.rows / S - 1) hnew
  have hcopied := h.copied_from hd hs.binary.cols_lt (touching_ne_of_length hlen' hne)
  have hrest := h.list_rest hs hbegin hmatch hext hd
  have hspan := span_of_increasing (pairwise_touching f f) hne
  have hends := (headD_le_getLastD (pairwise_touching _ _) (getLastD_mem h.ended)).1
  have hlistlen := h.length
  rw [h.list, hfirst, List.length_append, List.length_append, List.length_range, List.length_flatten,
    List.map_replicate, List.sum_replicate, length_columnsFrom, length_columnsFrom, smul_eq_mul]
    at hlistlen
  rw [headD_of_ne hne] at hlistlen
  rw [hcl] at hrest hlistlen hends
  have hov32 : ov ≤ 2 ^ 32 := by
    rw [h.overlap hd]
    exact (u32_lt _).le
  have hins := h.inserted
  rw [u32_sizeT_sub _ hov32, ← hlen] at hins
  have hmono := hs.getLastD_mono hmatch.one_le hne hlen'
  obtain ⟨h1, h2, h3, h4, h5, h6, h7⟩ := numbers_of_length hd hs.binary.cols_lt hwide hspan.1
    (mem_touching.mp (getLastD_mem hne)).1 (by omega)
    (hs.headD_mono hfw hne hnew) (hs.headD_le_begunBefore hnew) (begunBefore_le _ _ _) hends hlast hend
    (h.overlap hd) hins hcols hext.wider hlistlen hrest
  exact ⟨hspan.2 (by omega), h2, h3, h4, h5, h6, h7⟩

/-- The columns of the last rounds are next to each other. -/
theorem Layout.adjacent_last (hwide : pcm.cols + (n - pcm.rows / S) * skipped (touching pcm S f f) < 2 ^ 32) :
    Adjacent (touching pcm S w (pcm.rows / S - 1)) := by
  have hlt := hmatch.lt
  obtain ⟨-, -, -, -, hend, hlast⟩ := h.ends hs hbegin hmatch
  obtain ⟨-, -, hov, -, -, -, hnone⟩ := h.lengths hs hbegin hmatch hext hd hwide
  have hlen := hmatch.length_eq.1
  have hnew := touching_ne_of_length hlen (h.copied hd)
  have hcl := hs.headD_touching (by omega : w ≤ pcm.rows / S - 1) hnew
  rcases Nat.lt_or_eq_of_le (begunBefore_le pcm S w) with hlate | hall
  · have hround := (hs.lt_begunBefore_iff (w := w) hlast).not.mp (by have := hend hlate; omega)
    exact h.adjacent_of_shifted hs hext
      (h.ends_whole hs.binary hs.pos (by omega) hext hlast (hs.nonzero _ hlast) (.inl (not_lt.mp hround)))
      (hext.last _ hlast (not_lt.mp hround))
  · -- No column begins later, so these are the columns of round `w`.
    have hsame : touching pcm S w (pcm.rows / S - 1) = touching pcm S w w := by
      apply List.filter_congr
      intro c hc
      have := (hs.lt_begunBefore_iff (w := w) (List.mem_range.mp hc)).mp
        (by rw [hall]; exact List.mem_range.mp hc)
      rw [decide_eq_decide]
      refine and_congr_right fun _ => ?_
      omega
    have := hnone hall
    refine (span_of_increasing (pairwise_touching _ _) h.ended).2 ?_
    rw [hsame] at this ⊢
    omega

/-- If no column begins in round `w` or later, its columns are the last ones: were they not, a copy would
be pasted beside them, and with nothing set there they would not go on below round `w`. -/
theorem Layout.carried_last (hwide : pcm.cols + (n - pcm.rows / S) * skipped (touching pcm S f f) < 2 ^ 32)
    (hall : begunBefore pcm S w = pcm.cols) : (touching pcm S w w).headD 0 + ov = pcm.cols := by
  have hm := hs.binary
  have hlt := hmatch.lt
  obtain ⟨-, hzero, -, -, -, hlast⟩ := h.ends hs hbegin hmatch
  obtain ⟨hadj, -, hov, hins, hcols, -, hnone⟩ := h.lengths hs hbegin hmatch hext hd hwide
  have hadjLast := h.adjacent_last hs hbegin hmatch hext hd hwide
  have hlen := hmatch.length_eq.1
  have hnew := touching_ne_of_length hlen (h.copied hd)
  have hcl := hs.headD_touching (by omega : w ≤ pcm.rows / S - 1) hnew
  have hspan := (span_of_increasing (pairwise_touching w w) hnew).1
  have hle : (touching pcm S w w).getLastD 0 ≤
      (touching pcm S w (pcm.rows / S - 1)).getLastD 0 := by
    obtain ⟨hc, hset, hfirst, hend⟩ := mem_touching.mp (getLastD_mem hnew)
    exact (headD_le_getLastD (pairwise_touching _ _) (mem_touching.mpr ⟨hc, hset, by omega, hend⟩)).2
  have hend := hnone hall
  have hk : ov = (touching pcm S f f).length := by omega
  have hins0 : ins = 0 := by omega
  rw [hins0, Nat.zero_mul, Nat.add_zero] at hcols
  have hrange : touching pcm S w w =
      List.range' ((touching pcm S w w).headD 0) (touching pcm S f f).length := by
    rw [hlen]
    exact (span_of_increasing (pairwise_touching w w) hnew).2 (by omega)
  by_contra hne
  have hless : (touching pcm S w w).headD 0 + ov < pcm.cols := by omega
  -- Each column is shown as it is.
  have hkept : ∀ v, ∀ i < S, v * S + i < out.1.rows → ∀ c < pcm.cols,
      out.1.entry (v * S + i) c = cell pcm (v * S + i) c := by
    intro v i hi hr c hc
    have hround := (hs.lt_begunBefore_iff (w := w) hc).mp (by omega)
    obtain ⟨hlist, hshift⟩ := hext.first c hc hround
    rw [hshift.round hi hr, if_pos (Nat.zero_le v), hlist, Nat.sub_zero]
  have hrows : ∀ v i, i < S → v < n → v * S + i < out.1.rows := by
    intro v i hi hv
    have hrow := row_lt hi (show v < pcm.rows / S + (n - pcm.rows / S) by omega)
    have := Nat.div_mul_le_self pcm.rows S
    rw [Nat.add_mul] at hrow
    rw [h.rows, Nat.mul_comm S]
    omega
  have hcopy : ∀ t < n - pcm.rows / S, ∀ i < S, ∀ c < pcm.cols, cell pcm ((w + t) * S + i) c =
      if pcm.cols - ov ≤ c then
        cell pcm (f * S + i) ((touching pcm S f f).headD 0 + (c - (pcm.cols - ov))) else 0 := by
    intro t ht i hi c hc
    have hshown := shown_block hm hadj hi (v := 0) (s := pcm.cols - ov) (c := c) (by omega)
    rw [Nat.zero_mul, Nat.zero_add, Nat.add_zero] at hshown
    have hN := hm.cols_lt
    rw [← hkept _ i hi (hrows _ i hi (by omega)) c hc, h.copies t ht i hi c (by omega), hzero,
      List.length_range', hall, hins0, Nat.mul_zero, Nat.add_zero, u32_of_lt hN, u32_of_lt hN,
      sub32_of_le (by omega) hN, hshown]
  have hcells : ∀ i < S, ∀ j, cell pcm (f * S + i) ((touching pcm S f f).headD 0 + j) =
      cell pcm (w * S + i) ((touching pcm S w w).headD 0 + j) := by
    intro i hi j
    have hf := pasted_block hm hadj hi (v := 0) (j := j) (by omega)
    have hw := pasted_block hm hrange hi (v := 0) (j := j) (by omega)
    rw [Nat.add_zero] at hf hw
    rw [← hf, hmatch.block_eq, hw]
  -- So nothing is set in round `w`, nor in the copies.
  have hempty : ∀ i < S, ∀ c, cell pcm (w * S + i) c = 0 := by
    intro i hi c
    induction c using Nat.strong_induction_on with
    | _ c ih =>
      by_cases hc : c < pcm.cols
      · have hstep := hcopy 0 hd i hi c hc
        rw [Nat.add_zero] at hstep
        rw [hstep]
        split
        · rw [hcells i hi]
          exact ih _ (by omega)
        · rfl
      · exact if_neg hc
  have hbelow : ∀ v, w ≤ v → ∀ i < S, ∀ c < pcm.cols, cell pcm (v * S + i) c = 0 := by
    intro v
    induction v using Nat.strong_induction_on with
    | _ v ih =>
      intro hv i hi c hc
      by_cases hr : v * S + i < out.1.rows
      swap
      · have := h.rows
        exact cell_of_rows_le hm (by omega)
      by_cases hin : v < w + (n - pcm.rows / S)
      · obtain ⟨t, rfl⟩ : ∃ t, v = w + t := ⟨v - w, by omega⟩
        rw [hcopy t (by omega) i hi c hc, hcells i hi, hempty i hi, ite_self]
      obtain ⟨t, rfl⟩ : ∃ t, v = w + (n - pcm.rows / S) + t := ⟨v - (w + (n - pcm.rows / S)), by omega⟩
      rw [← hkept _ i hi hr c hc]
      by_cases hwhole : w + t < pcm.rows / S
      · rw [h.below t hwhole i hi c (by omega), shown_block hm hadjLast hi (by omega)]
        split
        · by_cases hc' : (touching pcm S w (pcm.rows / S - 1)).headD 0 + (c - u32 (sizeT
              ((out.1.cols : Int) - ((pcm.cols : Int) -
                (touching pcm S w (pcm.rows / S - 1)).headD 0)))) < pcm.cols
          · exact ih _ (by omega) (by omega) i hi _ hc'
          · exact if_neg hc'
        · rfl
      · apply h.rest _ hr _ c (by omega)
        have : n * S ≤ (w + (n - pcm.rows / S) + t) * S := Nat.mul_le_mul_right S (by omega)
        omega
  obtain ⟨hc, hset, -, hround⟩ := mem_touching.mp (headD_mem hnew)
  obtain ⟨-, ⟨i, hi, hne'⟩⟩ := exists_cell hc hset hs.pos
  exact hne' (hbelow _ hround i hi _ hc)

end Layout

/-! ## When the matrix is extended by whole columns -/

/-- If no round is added, the last rounds are pasted where they were. -/
theorem Layout.adjacent_of_same (hs : SortedColumns pcm S)
    (hbegin : ∀ c < pcm.cols, firstRound pcm S c < pcm.rows / S) (hmatch : Matched pcm S f w)
    (h : Layout pcm S n f w ov ins out) (hext : ExtendsRounds pcm S n w out) (hn : n = pcm.rows / S) :
    Adjacent (touching pcm S w (pcm.rows / S - 1)) := by
  obtain ⟨-, -, hcols, -, -, hlast⟩ := h.ends hs hbegin hmatch
  have hzero : n - pcm.rows / S = 0 := by omega
  rw [hzero, Nat.mul_zero, Nat.add_zero, u32_of_lt hs.binary.cols_lt] at hcols
  apply h.adjacent_of_shifted hs hext
    (h.ends_whole hs.binary hs.pos (by omega) hext hlast (hs.nonzero _ hlast) (.inr hn))
  rcases Nat.lt_or_ge (firstRound pcm S ((touching pcm S w (pcm.rows / S - 1)).getLastD 0)) w with
    hround | hround
  · rw [hcols, Nat.sub_self, Nat.zero_add, hzero]
    exact hext.first _ hlast hround
  · exact hext.last _ hlast hround

/-- What the matrix is like, if it was extended by whole columns. -/
theorem Layout.repeatsRounds (hm : pcm.Binary) (hS : 0 < S)
    (hsorted : orderOfDense pcm S = List.range pcm.cols) (hmatch : Matched pcm S f w)
    (hn : pcm.rows / S ≤ n) (hfit : n * S ≤ 2 ^ 32)
    (hwide : pcm.cols + (n - pcm.rows / S) * skipped (touching pcm S f f) < 2 ^ 32)
    (h : Layout pcm S n f w ov ins out)
    (hext : ExtendsRounds pcm S n w out) : RepeatsRounds pcm S n f w := by
  have hs := h.sorted hm hS hsorted hmatch hext
  have hbegin : ∀ c < pcm.cols, firstRound pcm S c < pcm.rows / S := fun c hc =>
    h.begins_whole hm hS hsorted hmatch hn hext hc
  have hlast : Adjacent (touching pcm S w (pcm.rows / S - 1)) := by
    rcases Nat.eq_zero_or_pos (n - pcm.rows / S) with hzero | hd
    · exact h.adjacent_of_same hs hbegin hmatch hext (by omega)
    · exact h.adjacent_last hs hbegin hmatch hext hd hwide
  have ha : 0 < n - pcm.rows / S → Aligned pcm S f w := by
    intro hd
    obtain ⟨hadj, hnext, -, -, -, hlate, -⟩ := h.lengths hs hbegin hmatch hext hd hwide
    refine ⟨hadj, ?_⟩
    have hbegun : begunBefore pcm S w = (touching pcm S w w).headD 0 + ov := by
      rcases Nat.lt_or_eq_of_le (begunBefore_le pcm S w) with hless | hall
      · exact hlate hless
      · rw [h.carried_last hs hbegin hmatch hext hd hwide hall, hall]
    omega
  have hrep := h.repeated hs hbegin hmatch hlast ha hn
  refine ⟨hfit, fun c hc => ⟨hs.nonzero c hc, hbegin c hc⟩, ?_, hlast, ha, ?_, ?_⟩
  · intro c hc hround
    exact h.ends_whole hm hS hn hext hc (hs.nonzero c hc) (.inl hround)
  · intro c hc hround t i hi
    exact hrep.kept hs hmatch hn hext hc hround t hi
  · intro j hj d hone hdn t i hi
    have hd : 0 < n - pcm.rows / S := by omega
    obtain ⟨ov', hnum⟩ := (ha hd).numbered hs hmatch hlast (h.copied hd)
    exact hrep.inserted hs hmatch hn hext hnum hj hone hdn hi

/-- The matrix is extended by whole columns if it repeats, and, where no number of rows or of columns wraps
around, only then. -/
theorem pcmExtendToNRounds_iff (hm : pcm.Binary) (h : pcmExtendToNRounds pcm S n = .ok out) :
    ∃ f w, Matched pcm S f w ∧
      (RepeatsRounds pcm S n f w → ExtendsRounds pcm S n w out) ∧
      (n * S ≤ 2 ^ 32 → pcm.cols + (n - pcm.rows / S) * skipped (touching pcm S f f) < 2 ^ 32 →
        ExtendsRounds pcm S n w out → RepeatsRounds pcm S n f w) := by
  obtain ⟨hS, -, hn, hsorted, scan, begun, x, hrun⟩ := extendRun_of_returned hm h
  have hmatch := hrun.result.matched
  refine ⟨scan.firstMatch, scan.lastMatch, hmatch, ?_, ?_⟩
  · intro hrep
    have hlayout := hrun.layout hS hn hrep.rows
    have hs : SortedColumns pcm S := ⟨hm, hS, hsorted, fun c hc => (hrep.begins c hc).1⟩
    have hrepeated := hlayout.repeated hs (fun c hc => (hrep.begins c hc).2) hmatch hrep.last hrep.aligned
      hn
    exact hrepeated.extendsRounds hs hn hmatch hrep hlayout.copied
  · intro hfit hwide hext
    exact (hrun.layout hS hn hfit).repeatsRounds hm hS hsorted hmatch hn hfit hwide hext

/-! ## Two rounds of one detector -/

def separateRounds : Tensor := .ofEntries 2 2 fun r c => if r = c then 1 else 0

def chainedRounds : Tensor := .ofEntries 2 3 fun r c => if r = c ∨ r + 1 = c then 1 else 0

theorem binary_separateRounds : separateRounds.Binary :=
  Tensor.binary_ofEntries (fun r c => (ite_eq_or_eq (r = c) 1 0).symm) (by decide) (by decide)

theorem binary_chainedRounds : chainedRounds.Binary :=
  Tensor.binary_ofEntries (fun r c => (ite_eq_or_eq (r = c ∨ r + 1 = c) 1 0).symm) (by decide)
    (by decide)

/-- A third round is added to two that have no column in common. -/
theorem pcmExtendToNRounds_separateRounds : ∃ out, pcmExtendToNRounds separateRounds 1 3 = .ok out ∧
    ∃ f w, Matched separateRounds 1 f w ∧
      (ExtendsRounds separateRounds 1 3 w out ↔ RepeatsRounds separateRounds 1 3 f w) := by
  refine ⟨_, rfl, ?_⟩
  obtain ⟨f, w, hmatch, hif, honly⟩ := pcmExtendToNRounds_iff binary_separateRounds (S := 1) (n := 3) rfl
  have hlt : w < 2 := hmatch.lt
  have hone := hmatch.one_le
  have hle := hmatch.le
  obtain rfl : f = 1 := by omega
  exact ⟨1, w, hmatch, honly (by decide) (by decide), hif⟩

/-- A third round is added to the second. Its first column begins as the last column of the matrix does, but
goes on. -/
theorem not_extendsRounds : ¬ ∀ (pcm : Tensor) (S n : Nat) (out : Tensor × List Nat), pcm.Binary →
    pcmExtendToNRounds pcm S n = .ok out → ∃ w, ExtendsRounds pcm S n w out := by
  intro hall
  obtain ⟨w, hext⟩ := hall chainedRounds 1 3 _ binary_chainedRounds rfl
  obtain ⟨k, hk⟩ := hext.shifted 2 (by decide)
  have hsecond := hk.entry 1 (by decide)
  have hthird := hk.entry 2 (by decide)
  match k with
  | 0 => exact absurd hthird (by decide)
  | 1 => exact absurd hsecond (by decide)
  | k + 2 =>
    rw [if_neg (by omega)] at hsecond
    exact absurd hsecond (by decide)

end CudaqQec
