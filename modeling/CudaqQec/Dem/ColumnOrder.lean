import CudaqQec.Sparse.Storage

/-!
# The column comparison

The comparison of `sorted_pcm_column_indices_impl` as the code runs it: two iterators into each column,
each move and each look checked against the column. It is the comparison of `columnLess`
(`columnCompare_eq`), so what is sorted by it is in the lexicographic order of `columnLess_iff`.

* `columnOrder_total`: the comparison is a strict total order that keeps equal columns together.
* `sortedPcmColumnIndicesImpl_perm_iff`: the sort returns every column once where column numbers fit a
  `uint32_t`.
-/

namespace CudaqQec

open Checked CompressedMatrix

/-! ## The comparison -/

def increment (v : List Nat) (i : Nat) : Except Fault Nat :=
  if i + 1 < v.length then .ok (i + 1) else .error .outOfBounds

/-- `it--`. -/
def decrement : Nat → Except Fault Nat
  | 0 => .error .outOfBounds
  | i + 1 => .ok i

/-- One turn of the loop, up to where the tails are moved: what the comparison returns, if it does. -/
def compareTurn (aVec bVec : List Nat) (a b aHead aTail bHead bTail : Nat) :
    Except Fault (Option Bool) := do
  let ah ← readAt aVec aHead
  let bh ← readAt bVec bHead
  if ah ≠ bh then return some (ah < bh)
  else if aHead = aTail ∧ bHead ≠ bTail then return some true
  else if aHead ≠ aTail ∧ bHead = bTail then return some false
  else if aHead = aTail ∧ bHead = bTail then return some (a < b)
  else do
    let at' ← readAt aVec aTail
    let bt ← readAt bVec bTail
    if at' ≠ bt then return some (at' < bt)
    else do
      let aHead ← increment aVec aHead
      let bHead ← increment bVec bHead
      if aHead = aTail ∧ bHead ≠ bTail then return some true
      else if aHead ≠ aTail ∧ bHead = bTail then return some false
      else if aHead = aTail ∧ bHead = bTail then return some (a < b)
      else return none

/-- The loop. Each turn moves the tail of `a` back, which ends at the first element. -/
@[grind =] def compareLoop (aVec bVec : List Nat) (a b : Nat) : Nat → Nat → Nat → Nat → Except Fault Bool
  | 0, aHead, bHead, bTail => do
    match ← compareTurn aVec bVec a b aHead 0 bHead bTail with
    | some less => return less
    | none => .error .outOfBounds
  | aTail + 1, aHead, bHead, bTail => do
    match ← compareTurn aVec bVec a b aHead (aTail + 1) bHead bTail with
    | some less => return less
    | none => do
      let bTail ← decrement bTail
      compareLoop aVec bVec a b aTail (aHead + 1) (bHead + 1) bTail

/-- `row_indices[c]`. -/
def columnAt (rowIndices : List (List Nat)) (c : Nat) : Except Fault (List Nat) :=
  match rowIndices[c]? with
  | some rows => .ok rows
  | none => .error .outOfBounds

/-- The comparison that `sorted_pcm_column_indices_impl` sorts by. -/
def columnCompare (rowIndices : List (List Nat)) (useRounds : Bool) (roundOf : Nat → Nat)
    (a b : Nat) : Except Fault Bool := do
  let aVec ← columnAt rowIndices a
  let bVec ← columnAt rowIndices b
  if aVec.length = 0 ∧ bVec.length ≠ 0 then return true
  else if aVec.length ≠ 0 ∧ bVec.length = 0 then return false
  else if aVec.length = 0 ∧ bVec.length = 0 then return a < b
  else do
    let aTail ← decrement aVec.length
    let bTail ← decrement bVec.length
    if useRounds then do
      let aFirst ← readAt aVec 0
      let aLast ← readAt aVec aTail
      let bFirst ← readAt bVec 0
      let bLast ← readAt bVec bTail
      if roundOf aFirst ≠ roundOf bFirst then return roundOf aFirst < roundOf bFirst
      else if roundOf aLast ≠ roundOf bLast then return roundOf aLast < roundOf bLast
      else compareLoop aVec bVec a b aTail 0 0 bTail
    else compareLoop aVec bVec a b aTail 0 0 bTail

/-! ### The loop is the comparison from both ends inward -/

def window (v : List Nat) (i j : Nat) : List Nat := (v.take (j + 1)).drop i

section Window

variable {v : List Nat} {i j : Nat}

theorem length_window (hj : j < v.length) : (window v i j).length = j + 1 - i := by
  rw [window, List.length_drop, List.length_take]
  omega

theorem window_cons (hij : i ≤ j) (hj : j < v.length) :
    window v i j = v.getD i 0 :: window v (i + 1) j := by
  have hi : i < (v.take (j + 1)).length := by
    rw [List.length_take]
    omega
  rw [window, List.drop_eq_getElem_cons hi, window]
  simp [List.getD_eq_getElem?_getD, List.getElem_take, show i < v.length by omega]

theorem window_concat (hij : i ≤ j) (hj : j < v.length) :
    window v i j = (v.take j).drop i ++ [v.getD j 0] := by
  rw [window, List.take_succ_eq_append_getElem hj, List.drop_append_of_le_length]
  · simp [List.getD_eq_getElem?_getD, hj]
  · rw [List.length_take]
    omega

theorem headD_window (hij : i ≤ j) (hj : j < v.length) : (window v i j).headD 0 = v.getD i 0 := by
  rw [window_cons hij hj]
  rfl

theorem getLastD_window (hij : i ≤ j) (hj : j < v.length) :
    (window v i j).getLastD 0 = v.getD j 0 := by
  rw [window_concat hij hj]
  simp [List.getLastD_eq_getLast?]

theorem tail_window (hij : i ≤ j) (hj : j < v.length) :
    (window v i j).tail = window v (i + 1) j := by
  rw [window_cons hij hj]
  rfl

theorem dropLast_window (hij : i ≤ j + 1) (hj : j + 1 < v.length) :
    (window v i (j + 1)).dropLast = window v i j := by
  rw [window_concat hij hj, List.dropLast_concat, window]

end Window

theorem increment_of_lt {v : List Nat} {i : Nat} (h : i + 1 < v.length) :
    increment v i = .ok (i + 1) := if_pos h

/-- What a turn decides, in terms of what is left of the columns; a turn that decides nothing leaves
more than one element of each, and the tails may be moved back. -/
theorem compareTurn_eq {aVec bVec : List Nat} {aHead aTail bHead bTail : Nat} (a b fuel : Nat)
    (ha : aHead ≤ aTail) (hat : aTail < aVec.length) (hb : bHead ≤ bTail) (hbt : bTail < bVec.length) :
    (∃ less, compareTurn aVec bVec a b aHead aTail bHead bTail = .ok (some less) ∧
      pingPong (a < b) (fuel + 1) (window aVec aHead aTail) (window bVec bHead bTail) = less) ∨
    (compareTurn aVec bVec a b aHead aTail bHead bTail = .ok none ∧ aHead + 2 ≤ aTail ∧
      bHead + 2 ≤ bTail ∧
      pingPong (a < b) (fuel + 1) (window aVec aHead aTail) (window bVec bHead bTail) =
        pingPong (a < b) fuel (window aVec (aHead + 1) (aTail - 1))
          (window bVec (bHead + 1) (bTail - 1))) := by
  have hal : ∀ i, (window aVec i aTail).length = aTail + 1 - i := fun i => length_window hat
  have hbl : ∀ i, (window bVec i bTail).length = bTail + 1 - i := fun i => length_window hbt
  have hra : readAt aVec aHead = .ok (aVec.getD aHead 0) := readAt_of_lt (by omega)
  have hrb : readAt bVec bHead = .ok (bVec.getD bHead 0) := readAt_of_lt (by omega)
  have hrat : readAt aVec aTail = .ok (aVec.getD aTail 0) := readAt_of_lt hat
  have hrbt : readAt bVec bTail = .ok (bVec.getD bTail 0) := readAt_of_lt hbt
  rw [compareTurn, hra, hrb, hrat, hrbt, pingPong, headD_window ha hat, headD_window hb hbt,
    getLastD_window ha hat, getLastD_window hb hbt, tail_window ha hat, tail_window hb hbt, hal, hbl,
    hal, hbl]
  simp only [ok_bind]
  by_cases hhead : aVec.getD aHead 0 = bVec.getD bHead 0
  swap
  · exact .inl ⟨_, by rw [if_pos hhead]; rfl, by rw [if_pos hhead]⟩
  -- The heads are equal: who ends here?
  have hae : aTail + 1 - aHead = 1 ↔ aHead = aTail := by omega
  have hbe : bTail + 1 - bHead = 1 ↔ bHead = bTail := by omega
  rw [if_neg (not_not.mpr hhead), if_neg (not_not.mpr hhead)]
  simp only [ne_eq, hae, hbe]
  by_cases haEnd : aHead = aTail
  · by_cases hbEnd : bHead = bTail
    · exact .inl ⟨decide (a < b), by simp [haEnd, hbEnd]; rfl, by simp [haEnd, hbEnd]⟩
    · exact .inl ⟨true, by simp [haEnd, hbEnd]; rfl, by simp [haEnd, hbEnd]⟩
  by_cases hbEnd : bHead = bTail
  · exact .inl ⟨false, by simp [haEnd, hbEnd]; rfl, by simp [haEnd, hbEnd]⟩
  simp only [haEnd, hbEnd, false_and, and_false, and_self, not_false_eq_true, if_false]
  by_cases htail : aVec.getD aTail 0 = bVec.getD bTail 0
  swap
  · exact .inl ⟨_, by rw [if_pos htail]; rfl, by rw [if_pos htail]⟩
  -- The tails are equal too: the heads move to them, or past one another.
  have hae' : aTail + 1 - (aHead + 1) = 1 ↔ aHead + 1 = aTail := by omega
  have hbe' : bTail + 1 - (bHead + 1) = 1 ↔ bHead + 1 = bTail := by omega
  rw [if_neg (not_not.mpr htail), if_neg (not_not.mpr htail),
    increment_of_lt (by clear * - ha hat haEnd; omega),
    increment_of_lt (by clear * - hb hbt hbEnd; omega)]
  simp only [ok_bind, hae', hbe']
  by_cases haEnd' : aHead + 1 = aTail
  · by_cases hbEnd' : bHead + 1 = bTail
    · exact .inl ⟨decide (a < b), by simp [haEnd', hbEnd']; rfl, by simp [haEnd', hbEnd']⟩
    · exact .inl ⟨true, by simp [haEnd', hbEnd']; rfl, by simp [haEnd', hbEnd']⟩
  by_cases hbEnd' : bHead + 1 = bTail
  · exact .inl ⟨false, by simp [haEnd', hbEnd']; rfl, by simp [haEnd', hbEnd']⟩
  have hda : (window aVec (aHead + 1) aTail).dropLast = window aVec (aHead + 1) (aTail - 1) := by
    obtain ⟨t, rfl⟩ : ∃ t, aTail = t + 1 := ⟨aTail - 1, by clear * - ha haEnd; omega⟩
    exact dropLast_window (by omega) hat
  have hdb : (window bVec (bHead + 1) bTail).dropLast = window bVec (bHead + 1) (bTail - 1) := by
    obtain ⟨t, rfl⟩ : ∃ t, bTail = t + 1 := ⟨bTail - 1, by clear * - hb hbEnd; omega⟩
    exact dropLast_window (by omega) hbt
  right
  simp only [haEnd', hbEnd', false_and, and_false, and_self, not_false_eq_true, if_false, hda, hdb]
  exact ⟨rfl, by clear * - ha haEnd haEnd'; omega, by clear * - hb hbEnd hbEnd'; omega, trivial⟩

/-- The loop ends and stays within both columns. -/
theorem compareLoop_eq {aVec bVec : List Nat} {a b aTail aHead bHead bTail : Nat} (fuel : Nat)
    (ha : aHead ≤ aTail) (hat : aTail < aVec.length) (hb : bHead ≤ bTail) (hbt : bTail < bVec.length)
    (hfuel : aTail + 1 ≤ fuel) :
    compareLoop aVec bVec a b aTail aHead bHead bTail =
      .ok (pingPong (a < b) fuel (window aVec aHead aTail) (window bVec bHead bTail)) := by
  induction aTail generalizing aHead bHead bTail fuel with
  | zero =>
    obtain ⟨fuel, rfl⟩ : ∃ f, fuel = f + 1 := ⟨fuel - 1, by omega⟩
    rcases compareTurn_eq a b fuel ha hat hb hbt with
      ⟨less, hturn, hless⟩ | ⟨-, hlt, -⟩
    · rw [compareLoop, hturn, hless]
      rfl
    · omega
  | succ aTail ih =>
    obtain ⟨fuel, rfl⟩ : ∃ f, fuel = f + 1 := ⟨fuel - 1, by omega⟩
    rcases compareTurn_eq a b fuel ha hat hb hbt with
      ⟨less, hturn, hless⟩ | ⟨hturn, halt, hblt, hrest⟩
    · rw [compareLoop, hturn, hless]
      rfl
    · obtain ⟨bTail, rfl⟩ : ∃ t, bTail = t + 1 := ⟨bTail - 1, by omega⟩
      rw [compareLoop, hturn, hrest]
      simp only [ok_bind, decrement, Nat.add_sub_cancel]
      apply ih
      · omega
      · omega
      · omega
      · omega
      · omega

def roundKey (useRounds : Bool) (roundOf : Nat → Nat) (r : Nat) : Nat :=
  if useRounds then roundOf r else 0

section Rounds

variable {rowIndices : List (List Nat)} {useRounds : Bool} {roundOf : Nat → Nat} {a b : Nat}

theorem columnAt_of_lt {c : Nat} (h : c < rowIndices.length) :
    columnAt rowIndices c = .ok (rowIndices.getD c []) := by
  simp [columnAt, h, List.getD_eq_getElem?_getD]

/-- The comparison of two columns returns, and what. -/
theorem columnCompare_eq (ha : a < rowIndices.length) (hb : b < rowIndices.length) :
    columnCompare rowIndices useRounds roundOf a b =
      .ok (columnLess rowIndices (roundKey useRounds roundOf) a b) := by
  rw [columnCompare, columnAt_of_lt ha, columnAt_of_lt hb, columnLess]
  generalize rowIndices.getD a [] = aVec
  generalize rowIndices.getD b [] = bVec
  simp only [ok_bind]
  cases aVec with
  | nil =>
    cases bVec with
    | nil => simp; rfl
    | cons y ys => simp; rfl
  | cons x xs =>
    cases bVec with
    | nil => simp; rfl
    | cons y ys =>
      -- both columns have a row, so the loop runs between its first and its last index
      have hloop : compareLoop (x :: xs) (y :: ys) a b xs.length 0 0 ys.length =
          .ok (pingPong (a < b) (x :: xs).length (x :: xs) (y :: ys)) := by
        have hwhole : ∀ (z : Nat) zs, window (z :: zs) 0 zs.length = z :: zs := by
          intro z zs
          rw [window, List.drop_zero, List.take_of_length_le (by simp)]
        rw [compareLoop_eq (x :: xs).length (by omega) (by simp) (by omega) (by simp) (by simp),
          hwhole, hwhole]
      have hlast : ∀ (z : Nat) zs, readAt (z :: zs) zs.length = .ok ((z :: zs).getLastD 0) := by
        intro z zs
        rw [readAt_of_lt (by simp), List.getLastD_eq_getLast?, List.getLast?_eq_getElem?,
          List.getD_eq_getElem?_getD]
        simp
      cases useRounds with
      | false => simp [roundKey, decrement, hloop]
      | true =>
        have hfirst : ∀ (z : Nat) zs, readAt (z :: zs) 0 = .ok z := fun _ _ => rfl
        simp only [List.length_cons, decrement, ok_bind, hfirst, hlast, hloop, roundKey, if_true]
        simp only [Nat.add_eq_zero_iff, one_ne_zero, and_false, not_false_eq_true, false_and,
          and_self, if_false, reduceCtorEq, ne_eq, List.headD_cons]
        by_cases hfirstRound : roundOf x = roundOf y
        · by_cases hlastRound :
              roundOf ((x :: xs).getLastD 0) = roundOf ((y :: ys).getLastD 0)
          · simp only [hfirstRound, hlastRound, not_true_eq_false, if_false]
          · simp only [hfirstRound, hlastRound, not_true_eq_false, not_false_eq_true, if_true,
              if_false]
            rfl
        · simp only [hfirstRound, not_false_eq_true, if_true]
          rfl

/-! ## The order -/

/-- The comparison returns for any two columns, and what it says is a strict total order of their
numbers in which columns with the same rows are next to each other. -/
structure ColumnOrderTotal (rowIndices : List (List Nat)) (useRounds : Bool) (roundOf : Nat → Nat) :
    Prop where
  returns : ∀ a < rowIndices.length, ∀ b < rowIndices.length,
    ∃ less, columnCompare rowIndices useRounds roundOf a b = .ok less
  irrefl : ∀ a < rowIndices.length, columnCompare rowIndices useRounds roundOf a a ≠ .ok true
  trans : ∀ a < rowIndices.length, ∀ b < rowIndices.length, ∀ c < rowIndices.length,
    columnCompare rowIndices useRounds roundOf a b = .ok true →
    columnCompare rowIndices useRounds roundOf b c = .ok true →
    columnCompare rowIndices useRounds roundOf a c = .ok true
  total : ∀ a < rowIndices.length, ∀ b < rowIndices.length, a ≠ b →
    columnCompare rowIndices useRounds roundOf a b = .ok true ∨
      columnCompare rowIndices useRounds roundOf b a = .ok true
  contiguous : ∀ a < rowIndices.length, ∀ b < rowIndices.length, ∀ c < rowIndices.length,
    columnCompare rowIndices useRounds roundOf a b = .ok true →
    columnCompare rowIndices useRounds roundOf b c = .ok true →
    rowIndices.getD a [] = rowIndices.getD c [] → rowIndices.getD b [] = rowIndices.getD a []

/-- A list is known by its elements from both ends inward. -/
theorem zigzag_injective : zigzag.Injective := by
  intro v w h
  induction v using zigzag.induct generalizing w with
  | case1 =>
    rw [zigzag] at h
    exact (zigzag_eq_nil.mp h.symm).symm
  | case2 x =>
    cases w with
    | nil => simp [zigzag] at h
    | cons y w =>
      cases w with
      | nil => simpa [zigzag] using h
      | cons z w => simp [zigzag] at h
  | case3 x y v ih =>
    cases w with
    | nil => simp [zigzag] at h
    | cons x' w =>
      cases w with
      | nil => simp [zigzag] at h
      | cons y' w =>
        rw [zigzag, zigzag, List.cons.injEq, List.cons.injEq] at h
        obtain ⟨hx, hlast, hrest⟩ := h
        have hsplit : ∀ (z : Nat) zs, (z :: zs).dropLast ++ [(z :: zs).getLastD 0] = z :: zs := by
          intro z zs
          rw [List.getLastD_eq_getLast?, List.getLast?_eq_some_getLast (by simp)]
          exact List.dropLast_append_getLast (by simp)
        rw [hx, ← hsplit y v, ← hsplit y' w, ih hrest, hlast]

theorem columnKey_injective (round : Nat → Nat) : (columnKey round).Injective := by
  intro v w h
  by_cases hv : v = []
  · subst hv
    by_contra hw
    rw [columnKey_nil, columnKey_of_ne fun hn => hw hn.symm] at h
    cases h
  · by_cases hw : w = []
    · subst hw
      rw [columnKey_nil, columnKey_of_ne hv] at h
      cases h
    · rw [columnKey_of_ne hv, columnKey_of_ne hw, List.cons.injEq, List.cons.injEq] at h
      exact zigzag_injective h.2.2

theorem columnCompare_iff (ha : a < rowIndices.length) (hb : b < rowIndices.length) :
    columnCompare rowIndices useRounds roundOf a b = .ok true ↔
      columnRank rowIndices (roundKey useRounds roundOf) a <
        columnRank rowIndices (roundKey useRounds roundOf) b := by
  rw [columnCompare_eq ha hb, Except.ok.injEq, ← not_le, ← columnLess_eq_false_iff,
    Bool.not_eq_false]

theorem columnOrder_total (rowIndices : List (List Nat)) (useRounds : Bool) (roundOf : Nat → Nat) :
    ColumnOrderTotal rowIndices useRounds roundOf where
  returns := fun _ ha _ hb => ⟨_, columnCompare_eq ha hb⟩
  irrefl := by
    intro a ha
    rw [ne_eq, columnCompare_iff ha ha]
    exact lt_irrefl _
  trans := by
    intro a ha b hb c hc
    rw [columnCompare_iff ha hb, columnCompare_iff hb hc, columnCompare_iff ha hc]
    exact lt_trans
  total := by
    intro a ha b hb hne
    rw [columnCompare_iff ha hb, columnCompare_iff hb ha]
    apply lt_or_gt_of_ne
    intro heq
    exact hne (congrArg (fun x => (ofLex x).2) heq)
  contiguous := by
    intro a ha b hb c hc hab hbc hrows
    rw [columnCompare_iff ha hb] at hab
    rw [columnCompare_iff hb hc] at hbc
    -- The key of `b` lies between two equal keys.
    have hkey : ∀ {x y}, columnRank rowIndices (roundKey useRounds roundOf) x <
        columnRank rowIndices (roundKey useRounds roundOf) y →
        columnKey (roundKey useRounds roundOf) (rowIndices.getD x []) ≤
          columnKey (roundKey useRounds roundOf) (rowIndices.getD y []) := by
      intro x y hxy
      rw [columnRank, columnRank, Prod.Lex.toLex_lt_toLex] at hxy
      rcases hxy with hlt | heq
      · exact hlt.le
      · exact heq.1.le
    apply columnKey_injective (roundKey useRounds roundOf)
    apply le_antisymm
    · rw [hrows]
      exact hkey hbc
    · exact hkey hab

/-! ## The sort -/

/-- `sorted_pcm_column_indices_impl`. Column numbers are `uint32_t`. -/
def sortedPcmColumnIndicesImpl (rowIndices : List (List Nat)) (useRounds : Bool)
    (roundOf : Nat → Nat) : List Nat :=
  ((List.range rowIndices.length).map u32).insertionSort
    fun a b => columnCompare rowIndices useRounds roundOf b a = .ok false

theorem perm_map_u32 (rowIndices : List (List Nat)) (useRounds : Bool) (roundOf : Nat → Nat) :
    (sortedPcmColumnIndicesImpl rowIndices useRounds roundOf).Perm
      ((List.range rowIndices.length).map u32) := List.perm_insertionSort _ _

@[simp] theorem length_sortedPcmColumnIndicesImpl :
    (sortedPcmColumnIndicesImpl rowIndices useRounds roundOf).length = rowIndices.length := by
  simpa using (perm_map_u32 rowIndices useRounds roundOf).length_eq

theorem mem_sortedPcmColumnIndicesImpl {c : Nat}
    (h : c ∈ sortedPcmColumnIndicesImpl rowIndices useRounds roundOf) :
    c < rowIndices.length ∧ c < 2 ^ 32 := by
  have hmem := (perm_map_u32 rowIndices useRounds roundOf).mem_iff.mp h
  obtain ⟨i, hi, rfl⟩ := List.mem_map.mp hmem
  exact ⟨lt_of_le_of_lt (u32_le i) (List.mem_range.mp hi), u32_lt i⟩

theorem mem_sortedPcmColumnIndicesImpl_iff {c : Nat} :
    c ∈ sortedPcmColumnIndicesImpl rowIndices useRounds roundOf ↔
      c < rowIndices.length ∧ c < 2 ^ 32 := by
  refine ⟨mem_sortedPcmColumnIndicesImpl, fun ⟨hlt, hsmall⟩ => ?_⟩
  rw [(perm_map_u32 rowIndices useRounds roundOf).mem_iff]
  exact List.mem_map.mpr ⟨c, List.mem_range.mpr hlt, u32_of_lt hsmall⟩

/-- The column numbers that there are are sorted by `columnLess`. -/
theorem sortedPcmColumnIndicesImpl_eq_insertionSort :
    sortedPcmColumnIndicesImpl rowIndices useRounds roundOf =
      ((List.range rowIndices.length).map u32).insertionSort
        fun a b => columnLess rowIndices (roundKey useRounds roundOf) b a = false := by
  have hlt : ∀ c ∈ (List.range rowIndices.length).map u32, c < rowIndices.length := by
    intro c hc
    obtain ⟨i, hi, rfl⟩ := List.mem_map.mp hc
    exact lt_of_le_of_lt (u32_le i) (List.mem_range.mp hi)
  have hmap := List.map_insertionSort
    (fun a b => columnCompare rowIndices useRounds roundOf b a = .ok false)
    (fun a b => columnLess rowIndices (roundKey useRounds roundOf) b a = false) id
    ((List.range rowIndices.length).map u32) (by
      intro x hx y hy
      rw [columnCompare_eq (hlt y hy) (hlt x hx), Except.ok.injEq]
      rfl)
  rwa [List.map_id, List.map_id] at hmap

/-- Where column numbers fit, the columns are sorted by `columnLess`. -/
theorem sortedPcmColumnIndicesImpl_eq (h : rowIndices.length ≤ 2 ^ 32) :
    sortedPcmColumnIndicesImpl rowIndices useRounds roundOf =
      sortedColumns rowIndices (roundKey useRounds roundOf) := by
  have hrange : (List.range rowIndices.length).map u32 = List.range rowIndices.length := by
    conv_rhs => rw [← List.map_id (List.range rowIndices.length)]
    apply List.map_congr_left
    intro c hc
    exact u32_of_lt (lt_of_lt_of_le (List.mem_range.mp hc) h)
  rw [sortedPcmColumnIndicesImpl_eq_insertionSort, hrange, sortedColumns]

/-- The sort returns every column once exactly where the column numbers fit. -/
theorem sortedPcmColumnIndicesImpl_perm_iff :
    (sortedPcmColumnIndicesImpl rowIndices useRounds roundOf).Perm
      (List.range rowIndices.length) ↔ rowIndices.length ≤ 2 ^ 32 := by
  constructor
  · intro hperm
    by_contra hlt
    have hmem : 2 ^ 32 ∈ List.range rowIndices.length := List.mem_range.mpr (by omega)
    exact lt_irrefl _ (mem_sortedPcmColumnIndicesImpl (hperm.mem_iff.mpr hmem)).2
  · intro h
    rw [sortedPcmColumnIndicesImpl_eq h]
    exact sortedColumns_perm rowIndices _

end Rounds

/-! ## The overloads -/

/-- `get_sorted_pcm_column_indices`, without a boundary width. With no syndromes per round the layers
play no part. -/
def getSortedPcmColumnIndicesForRounds (rowIndices : List (List Nat)) (S : Nat) : List Nat :=
  sortedPcmColumnIndicesImpl rowIndices (0 < S) (· / S)

/-- `get_sorted_pcm_column_indices`, with a boundary width. -/
def getSortedPcmColumnIndices (rowIndices : List (List Nat)) (S B : Nat) :
    Except Error (List Nat) := do
  throwIf (S = 0) (.invalidArgument ("get_sorted_pcm_column_indices: num_syndromes_per_round must " ++
    "be non-zero when num_boundary_syndromes is specified"))
  throwIf (S < B) (.invalidArgument ("get_sorted_pcm_column_indices: num_boundary_syndromes (" ++
    toString B ++ ") must be <= num_syndromes_per_round (" ++ toString S ++ ")"))
  return sortedPcmColumnIndicesImpl rowIndices true (roundOf S B)

/-- `pcm_is_sorted`, with a boundary width. -/
def pcmIsSorted (rowIndices : List (List Nat)) (S B : Nat) : Except Error Bool := do
  let columnIndices ← getSortedPcmColumnIndices rowIndices S B
  return columnIndices = List.range rowIndices.length

theorem getSortedPcmColumnIndices_eq {rowIndices : List (List Nat)} {S B : Nat} (hS : S ≠ 0) (hB : ¬ S < B) :
    getSortedPcmColumnIndices rowIndices S B =
      .ok (sortedPcmColumnIndicesImpl rowIndices true (roundOf S B)) := by
  rw [getSortedPcmColumnIndices, throwIf_of_not hS, ok_bind, throwIf_of_not hB]
  rfl

end CudaqQec
