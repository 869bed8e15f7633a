import CudaqQec.Dem.ExtendRun

/-!
# Rounds that repeat

Where the columns of the first round that matches, and those of the last and of all rounds after it, are
next to each other, what is pasted is the matrix itself, moved down and to the right round by round.

* `Aligned`: how the columns of the first and of the last round that match correspond.
* `Layout.repeated`: what is returned then.
-/

namespace CudaqQec

open Checked Traps

/-! ## Rounds that match alike -/

/-- The column after the last one that has to do with the round before. -/
def nextColumn (pcm : Tensor) (S f : Nat) : Nat := (touching pcm S (f - 1) (f - 1)).getLastD 0 + 1

/-- How many of the columns of a round are not carried into it. -/
def insertedColumns (pcm : Tensor) (S w : Nat) : Nat :=
  (touching pcm S w w).length - (begunBefore pcm S w - (touching pcm S w w).headD 0)

/-- An element in a whole round. -/
def wholeCell (pcm : Tensor) (S r c : Nat) : UInt8 := if r < pcm.rows / S * S then cell pcm r c else 0

/-- What row `i` shows in column `c`, `t` rounds below round `w`, when that round is inserted `d` times:
the matrix further up, by as many rounds as were inserted so far, and as much further left. -/
def goesOn (pcm : Tensor) (S w d t i c : Nat) : UInt8 :=
  if min t d * insertedColumns pcm S w ≤ c then
    wholeCell pcm S ((w + t - min t d) * S + i) (c - min t d * insertedColumns pcm S w)
  else 0

/-- The columns of round `f` are next to each other, and as many are carried into it as into round
`w`. -/
structure Aligned (pcm : Tensor) (S f w : Nat) : Prop where
  adjacent : Adjacent (touching pcm S f f)
  carried : (touching pcm S f f).headD 0 + begunBefore pcm S w =
    (touching pcm S w w).headD 0 + nextColumn pcm S f

variable {pcm : Tensor} {S n f w : Nat}

/-- The rounds that match have the same rows. -/
theorem Matched.block_eq (hmatch : Matched pcm S f w) : block pcm S f f = block pcm S w w := by
  have hall : ∀ k, f + k ≤ w → block pcm S (f + k) (f + k) = block pcm S f f := by
    intro k
    induction k with
    | zero =>
      intro _
      rfl
    | succ k ih =>
      intro hk
      have hstep := hmatch.matched (f + k + 1) (by omega) (by omega)
      rw [Nat.add_sub_cancel] at hstep
      rw [← Nat.add_assoc, hstep]
      exact ih (by omega)
  have hw := hall (w - f) (by have := hmatch.le; omega)
  rw [Nat.add_sub_cancel' hmatch.le] at hw
  exact hw.symm

/-- As many columns have to do with one round that matches as with another, and with the one before. -/
theorem Matched.length_eq (hmatch : Matched pcm S f w) :
    (touching pcm S f f).length = (touching pcm S w w).length ∧
      (touching pcm S f f).length = (touching pcm S (f - 1) (f - 1)).length := by
  have hprev := hmatch.matched f (le_refl f) hmatch.le
  rw [← cols_block, ← cols_block, ← cols_block, ← hmatch.block_eq, ← hprev]
  exact ⟨rfl, rfl⟩

theorem touching_ne_of_length {p q : Nat}
    (hlen : (touching pcm S p p).length = (touching pcm S q q).length) (hne : touching pcm S p p ≠ []) :
    touching pcm S q q ≠ [] := by
  rw [← List.length_pos_iff] at hne ⊢
  omega

/-- The columns of the two rounds, in numbers. -/
structure Numbered (pcm : Tensor) (S f w cf cw k ov : Nat) : Prop where
  first : touching pcm S f f = List.range' cf k
  last : touching pcm S w w = List.range' cw k
  pos : 0 < k
  le : ov ≤ k
  next : nextColumn pcm S f = cf + ov
  begun : begunBefore pcm S w = cw + ov
  inserted : insertedColumns pcm S w = k - ov

section Sorted

variable (hs : SortedColumns pcm S) (hmatch : Matched pcm S f w)

include hs hmatch

theorem Aligned.numbered (ha : Aligned pcm S f w)
    (hlast : Adjacent (touching pcm S w (pcm.rows / S - 1))) (hne : touching pcm S f f ≠ []) :
    ∃ ov, Numbered pcm S f w ((touching pcm S f f).headD 0) ((touching pcm S w w).headD 0)
      (touching pcm S f f).length ov := by
  have hlt := hmatch.lt
  obtain ⟨hlen, hlen'⟩ := hmatch.length_eq
  have hnew := touching_ne_of_length hlen hne
  have hw : touching pcm S w w =
      List.range' ((touching pcm S w w).headD 0) (touching pcm S f f).length := by
    have hrange := hs.touching_first (by omega) hlast
    have hlength := congrArg List.length hrange
    rw [List.length_range'] at hlength
    rw [← hs.headD_touching (by omega : w ≤ pcm.rows / S - 1) hnew, hlen, hlength]
    exact hrange
  have hle := hs.headD_le_begunBefore hnew
  have hmono := hs.getLastD_mono hmatch.one_le hne hlen'
  have hpos := List.length_pos_iff.mpr hne
  have hlastf := (range'_ends (a := (touching pcm S f f).headD 0) hpos 0).2
  rw [← ha.adjacent] at hlastf
  have hcarried := ha.carried
  unfold nextColumn at hcarried
  refine ⟨begunBefore pcm S w - (touching pcm S w w).headD 0, ha.adjacent, hw, hpos, by omega, ?_,
    by omega, ?_⟩
  · unfold nextColumn
    omega
  · rw [insertedColumns, hlen]

variable {cf cw k ov : Nat} (hnum : Numbered pcm S f w cf cw k ov)

include hnum

omit hs in
/-- The rounds that match show the same. -/
theorem Numbered.cell_eq (hm : pcm.Binary) {i : Nat} (hi : i < S) (j : Nat) :
    cell pcm (f * S + i) (cf + j) = cell pcm (w * S + i) (cw + j) := by
  have hf := pasted_block hm hnum.first hi (v := 0) (j := j) (by omega)
  have hw := pasted_block hm hnum.last hi (v := 0) (j := j) (by omega)
  rw [Nat.add_zero] at hf hw
  rw [← hf, hmatch.block_eq, hw]

omit hs hmatch in
/-- What comes after the columns of a round is not set there. -/
theorem Numbered.cell_after (hm : pcm.Binary) {i c : Nat} (hi : i < S)
    (hc : begunBefore pcm S w + insertedColumns pcm S w ≤ c) : cell pcm (w * S + i) c = 0 := by
  by_contra hne
  have hmem := mem_touching_of_cell hm hi (le_refl w) (le_refl w) hne
  have hle := hnum.le
  rw [hnum.begun, hnum.inserted] at hc
  rw [hnum.last, List.mem_range'_1] at hmem
  omega

omit hs hmatch in
/-- The columns of a round that are not carried into it begin there. -/
theorem Numbered.begins (hf : 1 ≤ f) {j : Nat} (hj : j < insertedColumns pcm S w) :
    nextColumn pcm S f + j < pcm.cols ∧ firstRound pcm S (nextColumn pcm S f + j) = f := by
  have hmem : nextColumn pcm S f + j ∈ touching pcm S f f := by
    rw [hnum.first, List.mem_range'_1, hnum.next]
    rw [hnum.inserted] at hj
    omega
  obtain ⟨hc, hne, hfirst, hlast⟩ := mem_touching.mp hmem
  refine ⟨hc, le_antisymm hfirst ?_⟩
  by_contra hlt
  -- Otherwise it would have to do with the round before.
  have hbefore : nextColumn pcm S f + j ∈ touching pcm S (f - 1) (f - 1) :=
    mem_touching.mpr ⟨hc, hne, by omega, by omega⟩
  have := (headD_le_getLastD (pairwise_touching _ _) hbefore).2
  unfold nextColumn at this
  omega

end Sorted

/-! ## What is returned then -/

/-- What is returned: above round `w` the matrix itself, and from there on what goes on from it. -/
structure Repeated (pcm : Tensor) (S n f w : Nat) (out : Tensor × List Nat) : Prop where
  rows : out.1.rows = pcm.rows + S * (n - pcm.rows / S)
  cols : out.1.cols = pcm.cols + insertedColumns pcm S w * (n - pcm.rows / S)
  list : out.2 = List.range (begunBefore pcm S w) ++ (List.replicate (n - pcm.rows / S)
      (List.range' (nextColumn pcm S f) (insertedColumns pcm S w))).flatten ++
    List.range' (begunBefore pcm S w) (pcm.cols - begunBefore pcm S w)
  entry : ∀ v, ∀ i < S, v * S + i < out.1.rows → ∀ c < out.1.cols, out.1.entry (v * S + i) c =
    if v < w then cell pcm (v * S + i) c else goesOn pcm S w (n - pcm.rows / S) (v - w) i c

theorem shown_block (hm : pcm.Binary) {p q a k v i s c : Nat}
    (hrange : touching pcm S p q = List.range' a k) (hi : i < S) (hv : p + v ≤ q) :
    shown (block pcm S p q) s (v * S + i) c =
      if s ≤ c then cell pcm ((p + v) * S + i) (a + (c - s)) else 0 := by
  rw [shown]
  by_cases hle : s ≤ c
  · rw [if_pos hle, ← pasted_block hm hrange hi hv]
    have hiff : s ≤ c ∧ c < s + (block pcm S p q).cols ↔ c - s < (block pcm S p q).cols := by
      omega
    simp only [hiff]
  · rw [if_neg hle, if_neg fun hboth => hle hboth.1]

/-- The rounds after the last are not there. -/
theorem goesOn_of_le {d t i c : Nat} (hrow : pcm.rows / S + d ≤ w + t) (hw : w < pcm.rows / S) :
    goesOn pcm S w d t i c = 0 := by
  have hmin : min t d = d := by omega
  rw [goesOn, hmin]
  split
  · have hle : pcm.rows / S * S ≤ (w + t - d) * S := Nat.mul_le_mul_right S (by omega)
    exact if_neg (by omega)
  · rfl

section Layout

variable {ov ins : Nat} {out : Tensor × List Nat} (hs : SortedColumns pcm S)
  (hbegin : ∀ c < pcm.cols, firstRound pcm S c < pcm.rows / S) (hmatch : Matched pcm S f w)
  (h : Layout pcm S n f w ov ins out)

include hs hbegin hmatch h

/-- The first and the last part of the columns. -/
theorem Layout.ends : 0 < begunBefore pcm S w ∧
    touching pcm S 0 (w - 1) = List.range' 0 (begunBefore pcm S w) ∧
    out.1.cols = u32 (pcm.cols + ins * (n - pcm.rows / S)) ∧
    columnsFrom 0 ((touching pcm S 0 (w - 1)).getLastD 0) = List.range (begunBefore pcm S w) ∧
    (begunBefore pcm S w < pcm.cols →
      (touching pcm S w (pcm.rows / S - 1)).getLastD 0 + 1 = pcm.cols) ∧
    (touching pcm S w (pcm.rows / S - 1)).getLastD 0 < pcm.cols := by
  have hone := hmatch.one_le
  have hle := hmatch.le
  have hlt := hmatch.lt
  have hzero := hs.touching_zero (w - 1)
  have hall := hs.touching_zero (pcm.rows / S - 1)
  rw [Nat.sub_add_cancel (by omega)] at hzero hall
  have hpos : 0 < begunBefore pcm S w := by
    apply Nat.pos_of_ne_zero
    intro h0
    exact h.begun (by rw [hzero, h0]; rfl)
  have hcols : begunBefore pcm S (pcm.rows / S) = pcm.cols := by
    apply le_antisymm (begunBefore_le _ _ _)
    by_contra hless
    have hless := not_le.mp hless
    exact lt_irrefl _ ((hs.lt_begunBefore_iff hless).mpr (hbegin _ hless))
  have hmem := mem_touching.mp (getLastD_mem h.ended)
  refine ⟨hpos, hzero, ?_, ?_, ?_, hmem.1⟩
  · rw [h.cols, hall, hcols, List.length_range']
  · rw [hzero, (range'_ends hpos 0).2, columnsFrom, List.range_eq_range']
    congr 1
    omega
  · -- The last column begins in one of the last rounds.
    intro hless
    have hc : pcm.cols - 1 < pcm.cols := by omega
    have hbegun := (hs.lt_begunBefore_iff (w := w) hc).not.mp (by omega)
    have hround := hbegin _ hc
    have hrounds := firstRound_le_lastRound (S := S) (hs.nonzero _ hc)
    have hin : pcm.cols - 1 ∈ touching pcm S w (pcm.rows / S - 1) :=
      mem_touching.mpr ⟨hc, hs.nonzero _ hc, by omega, by omega⟩
    have := (headD_le_getLastD (pairwise_touching _ _) hin).2
    omega

/-- How wide the matrix is, what columns it is made of, and where what is pasted begins. -/
theorem Layout.numbers (hlast : Adjacent (touching pcm S w (pcm.rows / S - 1)))
    (ha : 0 < n - pcm.rows / S → Aligned pcm S f w) :
    out.1.cols = pcm.cols + insertedColumns pcm S w * (n - pcm.rows / S) ∧ out.1.cols < 2 ^ 32 ∧
      out.2 = List.range (begunBefore pcm S w) ++ (List.replicate (n - pcm.rows / S)
          (List.range' (nextColumn pcm S f) (insertedColumns pcm S w))).flatten ++
        List.range' (begunBefore pcm S w) (pcm.cols - begunBefore pcm S w) ∧
      (0 < n - pcm.rows / S → ins = insertedColumns pcm S w ∧
        ov + (touching pcm S w w).headD 0 = begunBefore pcm S w) := by
  obtain ⟨-, -, hcols, hfirst, hend, hend'⟩ := h.ends hs hbegin hmatch
  have hN := hs.binary.cols_lt
  have hB := begunBefore_le pcm S w
  have hlt := hmatch.lt
  have h32 : out.1.cols < 2 ^ 32 := hcols ▸ u32_lt _
  have hlen := h.length
  have hlist := h.list
  rw [hfirst] at hlist
  rcases Nat.eq_zero_or_pos (n - pcm.rows / S) with hzero | hpos
  · -- No round is inserted.
    rw [hzero] at hcols hlist ⊢
    rw [Nat.mul_zero, Nat.add_zero, u32_of_lt hN] at hcols
    rw [hcols, hlist, List.length_append, List.length_append, List.length_range, List.replicate_zero,
      List.flatten_nil, List.length_nil, length_columnsFrom] at hlen
    refine ⟨by rw [hcols, Nat.mul_zero, Nat.add_zero], h32, ?_, fun h0 => absurd h0 (lt_irrefl 0)⟩
    rw [hlist]
    simp only [List.replicate_zero, List.flatten_nil]
    congr 1
    rw [columnsFrom]
    rcases Nat.lt_or_eq_of_le hB with hless | heq
    · have := hend hless
      congr 1 <;> omega
    · rw [List.range'_eq_nil_iff.mpr (by omega), List.range'_eq_nil_iff.mpr (by omega)]
  · obtain ⟨ov', hnum⟩ := (ha hpos).numbered hs hmatch hlast (h.copied hpos)
    obtain ⟨hlen', -⟩ := hmatch.length_eq
    have hne := touching_ne_of_length hlen' (h.copied hpos)
    have hcl := hs.headD_touching (by omega : w ≤ pcm.rows / S - 1) hne
    have hbegun := hnum.begun
    have hnext := hnum.next
    have hle := hnum.le
    have hins := hnum.inserted
    obtain ⟨hcfLast, hcfMem⟩ := mem_touching.mp (getLastD_mem (h.copied hpos))
    have hlastf := (range'_ends (a := (touching pcm S f f).headD 0) hnum.pos 0).2
    rw [← hnum.first] at hlastf
    have hpos' := hnum.pos
    have hov : ov = ov' := by
      rw [h.overlap hpos]
      unfold nextColumn at hnext
      rw [hnext, u32_of_lt (by omega), sub32_of_le (Nat.le_add_right _ _) (by omega)]
      omega
    have hins' : ins = insertedColumns pcm S w := by
      have hcast : (((touching pcm S w w).length : Int) - ov) =
          ((insertedColumns pcm S w : Nat) : Int) := by
        rw [hins, hov, ← hlen']
        omega
      rw [h.inserted, hcast, sizeT_natCast, u32_of_lt (by omega)]
    have hcopy : columnsFrom (u32 ((touching pcm S f f).headD uint32Max + ov))
        ((touching pcm S f f).getLastD 0) =
          List.range' (nextColumn pcm S f) (insertedColumns pcm S w) := by
      rw [headD_of_ne (h.copied hpos), hov, ← hnext, columnsFrom]
      rw [u32_of_lt (by omega)]
      congr 1
      omega
    have hrest : columnsFrom (u32 ((touching pcm S w (pcm.rows / S - 1)).headD 0 + ov))
        ((touching pcm S w (pcm.rows / S - 1)).getLastD 0) =
          List.range' (begunBefore pcm S w) (pcm.cols - begunBefore pcm S w) := by
      rw [hcl, hov, ← hbegun, u32_of_lt (by omega), columnsFrom]
      congr 1
      rcases Nat.lt_or_eq_of_le hB with hless | heq
      · rw [hend hless]
      · omega
    rw [hcopy, hrest] at hlist
    rw [hlist, hcols, hins'] at hlen
    simp only [List.length_append, List.length_range, List.length_flatten, List.map_replicate,
      List.sum_replicate, List.length_range', smul_eq_mul] at hlen
    rw [Nat.mul_comm (n - pcm.rows / S)] at hlen
    rw [hins'] at hcols
    refine ⟨?_, h32, hlist, fun _ => ⟨hins', by omega⟩⟩
    generalize insertedColumns pcm S w * (n - pcm.rows / S) = added at hlen hcols ⊢
    omega

theorem Layout.repeated (hlast : Adjacent (touching pcm S w (pcm.rows / S - 1)))
    (ha : 0 < n - pcm.rows / S → Aligned pcm S f w) (hn : pcm.rows / S ≤ n) :
    Repeated pcm S n f w out := by
  have hm := hs.binary
  have hone := hmatch.one_le
  have hle := hmatch.le
  have hlt := hmatch.lt
  obtain ⟨-, hzero, -, -, -, -⟩ := h.ends hs hbegin hmatch
  obtain ⟨hcols, h32, hlist, hnumbers⟩ := h.numbers hs hbegin hmatch hlast ha
  refine ⟨h.rows, hcols, hlist, ?_⟩
  intro v i hi hr c hc
  by_cases habove : v < w
  · -- The rounds above.
    rw [if_pos habove, h.above v habove i hi c hc, shown_block hm hzero hi (by omega),
      if_pos (Nat.zero_le c), Nat.zero_add, Nat.zero_add, Nat.sub_zero]
  rw [if_neg habove]
  by_cases hend : n ≤ v
  · rw [goesOn_of_le (by omega) hlt]
    exact h.rest _ hr (le_trans (Nat.mul_le_mul_right S hend) (Nat.le_add_right _ _)) c hc
  by_cases hcopy : v < w + (n - pcm.rows / S)
  · -- A copy.
    have hpos : 0 < n - pcm.rows / S := by omega
    obtain ⟨t, rfl⟩ : ∃ t, v = w + t := ⟨v - w, by omega⟩
    have ht : t < n - pcm.rows / S := by omega
    obtain ⟨ov', hnum⟩ := (ha hpos).numbered hs hmatch hlast (h.copied hpos)
    obtain ⟨hins, hov⟩ := hnumbers hpos
    have hB := begunBefore_le pcm S w
    have hmul : t * insertedColumns pcm S w ≤ insertedColumns pcm S w * (n - pcm.rows / S) := by
      rw [Nat.mul_comm]
      exact Nat.mul_le_mul_left _ ht.le
    have hstart : sub32 (u32 (u32 (touching pcm S 0 (w - 1)).length + t * ins)) ov =
        (touching pcm S w w).headD 0 + t * insertedColumns pcm S w := by
      rw [hzero, List.length_range', u32_add, hins, u32_of_lt (by omega), sub32_of_le (by omega) (by omega)]
      omega
    have hshown := shown_block hm hnum.first hi (v := 0) (s := (touching pcm S w w).headD 0 +
      t * insertedColumns pcm S w) (c := c) (by omega)
    rw [Nat.zero_mul, Nat.zero_add, Nat.add_zero] at hshown
    have hrow : w * S + i < pcm.rows / S * S := by
      have : (w + 1) * S ≤ pcm.rows / S * S := Nat.mul_le_mul_right S hlt
      rw [Nat.succ_mul] at this
      omega
    rw [h.copies t ht i hi c hc, hstart, hshown, goesOn, Nat.add_sub_cancel_left, min_eq_left ht.le,
      Nat.add_sub_cancel, wholeCell, if_pos hrow]
    by_cases hstart' : (touching pcm S w w).headD 0 + t * insertedColumns pcm S w ≤ c
    · rw [if_pos hstart', if_pos (by omega), hnum.cell_eq hmatch hm hi]
      congr 1
      omega
    · rw [if_neg hstart']
      split
      · by_contra hset
        have hmem := mem_touching_of_cell hm hi (le_refl w) (le_refl w) (Ne.symm hset)
        rw [hnum.last, List.mem_range'_1] at hmem
        omega
      · rfl
  · -- The rounds below.
    obtain ⟨t, rfl⟩ : ∃ t, v = w + (n - pcm.rows / S) + t := ⟨v - (w + (n - pcm.rows / S)), by omega⟩
    have hcl := (mem_touching.mp (headD_mem h.ended)).1
    have hstart : u32 (sizeT ((out.1.cols : Int) - ((pcm.cols : Int) -
        (touching pcm S w (pcm.rows / S - 1)).headD 0))) = (touching pcm S w (pcm.rows / S - 1)).headD 0 +
          (n - pcm.rows / S) * insertedColumns pcm S w := by
      rw [Nat.mul_comm] at hcols
      have hcast : ((out.1.cols : Int) - ((pcm.cols : Int) -
          (touching pcm S w (pcm.rows / S - 1)).headD 0)) =
            (((touching pcm S w (pcm.rows / S - 1)).headD 0 +
              (n - pcm.rows / S) * insertedColumns pcm S w : Nat) : Int) := by
        rw [hcols]
        push_cast
        omega
      rw [hcast, sizeT_natCast, u32_of_lt (by omega)]
    have hmin : min (w + (n - pcm.rows / S) + t - w) (n - pcm.rows / S) = n - pcm.rows / S := by omega
    have hround : w + (w + (n - pcm.rows / S) + t - w) - (n - pcm.rows / S) = w + t := by omega
    have hrow : (w + t) * S + i < pcm.rows / S * S := by
      have : (w + t + 1) * S ≤ pcm.rows / S * S := Nat.mul_le_mul_right S (by omega)
      rw [Nat.succ_mul] at this
      omega
    rw [h.below t (by omega) i hi c hc, hstart, shown_block hm hlast hi (by omega), goesOn, hmin, hround,
      wholeCell, if_pos hrow]
    generalize (n - pcm.rows / S) * insertedColumns pcm S w = added
    by_cases hstart' : (touching pcm S w (pcm.rows / S - 1)).headD 0 + added ≤ c
    · rw [if_pos hstart', if_pos (by omega)]
      congr 1
      omega
    · rw [if_neg hstart']
      split
      · by_contra hset
        have hmem := mem_touching_of_cell hm hi (by omega : w ≤ w + t)
          (by omega : w + t ≤ pcm.rows / S - 1) (Ne.symm hset)
        have := (headD_le_getLastD (pairwise_touching _ _) hmem).1
        omega
      · rfl

end Layout

end CudaqQec
